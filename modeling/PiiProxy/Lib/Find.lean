import Mathlib.Data.List.Basic
import Mathlib.Data.List.Infix
import Mathlib.Data.Nat.Find

/-!
# First occurrence of a word in a list

`first w l` is the offset `windows(w.len()).position(|x| x == w)` (Rust) and
`l.find(w)` (Python) compute. The rest is about what an occurrence can do when
the list is cut in two: lie left of the cut, right of it, or across it. An
occurrence across the cut is visible in the last `|w| - 1` elements before and
the first `|w| - 1` after (`at_seam`), which is what a streaming search may
forget everything else for.
-/

namespace Find

variable {α : Type} {w a b l : List α} {i j n : Nat}

/-- `w` occurs in `l` at offset `i`. -/
def At (w l : List α) (i : Nat) : Prop := w <+: l.drop i

instance [DecidableEq α] (w l : List α) (i : Nat) : Decidable (At w l i) :=
  inferInstanceAs (Decidable (w <+: l.drop i))

/-- `w` occurs somewhere in `l`. -/
def Has (w l : List α) : Prop := ∃ i, At w l i

theorem at_iff_getElem : At w l i ↔ ∀ k, (h : k < w.length) → l[i + k]? = some w[k] := by
  rw [At, List.prefix_iff_getElem?]
  simp only [List.getElem?_drop]

theorem at_zero : At w l 0 ↔ w <+: l := by simp [At]

theorem at_cons_succ {x : α} : At w (x :: l) (i + 1) ↔ At w l i := by simp [At]

/-- A non-empty occurrence ends inside the list. -/
theorem At.le (hw : w ≠ []) (h : At w l i) : i + w.length ≤ l.length := by
  have := h.length_le
  have := List.length_pos_iff.2 hw
  simp only [List.length_drop] at *
  omega

theorem At.take_eq (h : At w l i) : (l.drop i).take w.length = w :=
  (List.prefix_iff_eq_take.1 h).symm

/-- The list around an occurrence. -/
theorem At.split (h : At w l i) :
    l = l.take i ++ w ++ l.drop (i + w.length) := by
  obtain ⟨s, hs⟩ := h
  have hd : l.drop (i + w.length) = s := by
    rw [← List.drop_drop, ← hs, List.drop_left]
  rw [hd, List.append_assoc, hs, List.take_append_drop]

theorem at_of_split {p s : List α} : At w (p ++ w ++ s) p.length := by
  simp [At, List.append_assoc]

theorem At.map {β : Type} (f : α → β) (h : At w l i) : At (w.map f) (l.map f) i := by
  rw [At, ← List.map_drop]
  exact List.IsPrefix.map f h

/-! ## Cutting the list -/

theorem at_append_left (h : i + w.length ≤ a.length) : At w (a ++ b) i ↔ At w a i := by
  simp only [at_iff_getElem]
  constructor
  · intro hk k hkw
    rw [← hk k hkw, List.getElem?_append_left (by omega)]
  · intro hk k hkw
    rw [← hk k hkw, List.getElem?_append_left (by omega)]

theorem at_append_right : At w (a ++ b) (a.length + i) ↔ At w b i := by
  rw [At, At, ← List.drop_drop, List.drop_left]

theorem at_append_right' (h : a.length ≤ i) : At w (a ++ b) i ↔ At w b (i - a.length) := by
  obtain ⟨k, rfl⟩ := Nat.exists_eq_add_of_le h
  rw [at_append_right, Nat.add_sub_cancel_left]

/-- Where an occurrence in `a ++ b` can lie. -/
theorem at_append_cases (h : At w (a ++ b) i) :
    (i + w.length ≤ a.length ∧ At w a i) ∨ (a.length ≤ i ∧ At w b (i - a.length)) ∨
      (i < a.length ∧ a.length < i + w.length) := by
  by_cases h1 : i + w.length ≤ a.length
  · exact Or.inl ⟨h1, (at_append_left h1).1 h⟩
  · by_cases h2 : a.length ≤ i
    · exact Or.inr (Or.inl ⟨h2, (at_append_right' h2).1 h⟩)
    · exact Or.inr (Or.inr ⟨by omega, by omega⟩)

theorem has_cons {x : α} : Has w (x :: l) ↔ w <+: x :: l ∨ Has w l := by
  constructor
  · rintro ⟨i, hi⟩
    cases i with
    | zero => exact Or.inl (at_zero.1 hi)
    | succ i => exact Or.inr ⟨i, at_cons_succ.1 hi⟩
  · rintro (h | ⟨i, hi⟩)
    · exact ⟨0, at_zero.2 h⟩
    · exact ⟨i + 1, at_cons_succ.2 hi⟩

theorem Has.append_left (hw : w ≠ []) (h : Has w a) : Has w (a ++ b) := by
  obtain ⟨i, hi⟩ := h
  exact ⟨i, (at_append_left (hi.le hw)).2 hi⟩

theorem Has.append_right (h : Has w b) : Has w (a ++ b) := by
  obtain ⟨i, hi⟩ := h
  exact ⟨a.length + i, at_append_right.2 hi⟩

theorem Has.of_infix (hw : w ≠ []) (h : Has w a) (hl : a <:+: l) : Has w l := by
  obtain ⟨s, t, rfl⟩ := hl
  exact h.append_right.append_left hw

/-- An element that is not in the word adds no occurrence. -/
theorem has_concat {x : α} (hx : x ∉ w) : Has w (l ++ [x]) ↔ Has w l := by
  constructor
  · rintro ⟨i, hi⟩
    by_cases h : i ≤ l.length
    · rw [At, List.drop_append_of_le_length h, List.prefix_concat_iff] at hi
      rcases hi with rfl | hi
      · simp at hx
      · exact ⟨i, hi⟩
    · rw [At, List.drop_eq_nil_of_le (by simp; omega), List.prefix_nil] at hi
      exact ⟨0, hi ▸ List.nil_prefix⟩
  · rintro ⟨i, hi⟩
    refine ⟨i, hi.trans ?_⟩
    rw [List.drop_append]
    exact List.prefix_append _ _

theorem not_has_nil (hw : w ≠ []) : ¬ Has w [] := by
  rintro ⟨i, hi⟩
  have := hi.le hw
  have := List.length_pos_iff.2 hw
  simp only [List.length_nil] at *
  omega

/-- **The seam.** An occurrence across the cut of `a ++ b` is an occurrence in the
last `n` elements of `a` followed by the first `n` of `b`, for any `n ≥ |w| - 1`. -/
theorem at_seam (hn : w.length ≤ n + 1) (h1 : i < a.length) (h2 : a.length < i + w.length) :
    At w (a ++ b) i ↔ At w (a.drop (a.length - n) ++ b.take n) (i - (a.length - n)) := by
  have hi : a.length - n ≤ i := by omega
  have key : ∀ k, k < w.length →
      (a ++ b)[i + k]? = (a.drop (a.length - n) ++ b.take n)[i - (a.length - n) + k]? := by
    intro k hk
    by_cases hka : i + k < a.length
    · rw [List.getElem?_append_left hka, List.getElem?_append_left (by simp; omega),
        List.getElem?_drop]
      congr 1; omega
    · rw [List.getElem?_append_right (by omega), List.getElem?_append_right (by simp; omega),
        List.length_drop, List.getElem?_take_of_lt (by omega)]
      congr 1; omega
  simp only [at_iff_getElem]
  exact ⟨fun h k hk => by rw [← key k hk, h k hk], fun h k hk => by rw [key k hk, h k hk]⟩

/-- The part of an occurrence that `a` holds ends `a`. -/
theorem At.ends (h : At w (a ++ b) i) (h1 : i ≤ a.length) (h2 : a.length ≤ i + w.length) :
    w.take (a.length - i) <:+ a := by
  have ha : a.drop i <+: (a ++ b).drop i := by
    rw [List.drop_append_of_le_length h1]
    exact List.prefix_append _ _
  have hd : a.drop i <+: w := List.prefix_of_prefix_length_le ha h (by simp; omega)
  rw [List.prefix_iff_eq_take, List.length_drop] at hd
  rw [← hd]
  exact List.drop_suffix _ _

/-- The part of an occurrence from offset `n` of the list on. -/
theorem At.drop_eq (h : At w l i) (h1 : i ≤ n) : w.drop (n - i) = (l.drop n).take (i + w.length - n) := by
  conv => lhs; rw [← h.take_eq]
  rw [List.drop_take, List.drop_drop]
  congr 1
  · omega
  · congr 1; omega

/-- `w` lies across the cut between `a` and `b`. -/
def Crosses (w a b : List α) : Prop := ∃ u v, u ≠ [] ∧ v ≠ [] ∧ w = u ++ v ∧ u <:+ a ∧ v <+: b

theorem crosses_iff_take : Crosses w a b ↔ ∃ k < w.length, 0 < k ∧ w.take k <:+ a ∧ w.drop k <+: b := by
  constructor
  · rintro ⟨u, v, hu, hv, rfl, hsuf, hpre⟩
    have hul := List.length_pos_iff.2 hu
    have hvl := List.length_pos_iff.2 hv
    refine ⟨u.length, by simp; omega, hul, ?_, ?_⟩
    · rwa [List.take_left]
    · rwa [List.drop_left]
  · rintro ⟨k, hk, h0, hsuf, hpre⟩
    refine ⟨w.take k, w.drop k, ?_, ?_, (List.take_append_drop k w).symm, hsuf, hpre⟩
    · exact List.ne_nil_of_length_pos (by simp; omega)
    · exact List.ne_nil_of_length_pos (by simp; omega)

instance [DecidableEq α] (w a b : List α) : Decidable (Crosses w a b) := decidable_of_iff _ crosses_iff_take.symm

theorem Crosses.at (h : Crosses w a b) : ∃ i, At w (a ++ b) i ∧ i < a.length ∧ a.length < i + w.length := by
  obtain ⟨u, v, hu, hv, rfl, ⟨p, rfl⟩, s, rfl⟩ := h
  refine ⟨p.length, ?_, ?_, ?_⟩
  · have hat := @at_of_split α (u ++ v) p s
    simpa using hat
  · have := List.length_pos_iff.2 hu
    simp only [List.length_append]
    omega
  · have := List.length_pos_iff.2 hv
    simp only [List.length_append]
    omega

theorem At.crosses (h : At w (a ++ b) i) (h1 : i < a.length) (h2 : a.length < i + w.length) : Crosses w a b := by
  have hdrop := h.drop_eq (Nat.le_of_lt h1)
  rw [List.drop_left] at hdrop
  exact crosses_iff_take.2 ⟨a.length - i, by omega, by omega, h.ends (Nat.le_of_lt h1) (Nat.le_of_lt h2),
    hdrop ▸ List.take_prefix _ _⟩

theorem has_append_iff (hw : w ≠ []) : Has w (a ++ b) ↔ Has w a ∨ Has w b ∨ Crosses w a b := by
  constructor
  · rintro ⟨i, hi⟩
    rcases at_append_cases hi with ⟨_, h⟩ | ⟨_, h⟩ | ⟨h1, h2⟩
    · exact Or.inl ⟨i, h⟩
    · exact Or.inr (Or.inl ⟨_, h⟩)
    · exact Or.inr (Or.inr (hi.crosses h1 h2))
  · rintro (h | h | h)
    · exact h.append_left hw
    · exact h.append_right
    · obtain ⟨i, hi, -⟩ := h.at
      exact ⟨i, hi⟩

/-- An occurrence in a concatenation lies in one of its parts or across the end of one. -/
theorem has_flatten_iff (hw : w ≠ []) : ∀ {ls : List (List α)}, Has w ls.flatten ↔
    (∃ l ∈ ls, Has w l) ∨ ∃ as bs, ls = as ++ bs ∧ Crosses w as.flatten bs.flatten
  | [] => by
    have hno : ¬ Has w [] := not_has_nil hw
    simp only [List.flatten_nil, hno, List.not_mem_nil, false_and, exists_false, false_or, false_iff, not_exists]
    rintro as bs ⟨h, u, v, hu, -, -, hsuf, -⟩
    obtain ⟨rfl, rfl⟩ := List.append_eq_nil_iff.1 h.symm
    exact hu (List.suffix_nil.1 hsuf)
  | l :: ls => by
    have ih := @has_flatten_iff hw ls
    constructor
    · intro h
      rw [List.flatten_cons, has_append_iff hw] at h
      rcases h with h | h | h
      · exact Or.inl ⟨l, by simp, h⟩
      · rcases ih.1 h with ⟨m, hm, h⟩ | ⟨as, bs, rfl, hc⟩
        · exact Or.inl ⟨m, List.mem_cons_of_mem _ hm, h⟩
        · obtain ⟨u, v, hu, hv, rfl, hsuf, hpre⟩ := hc
          refine Or.inr ⟨l :: as, bs, rfl, u, v, hu, hv, rfl, ?_, hpre⟩
          rw [List.flatten_cons]
          exact hsuf.trans (List.suffix_append _ _)
      · exact Or.inr ⟨[l], ls, rfl, by simpa using h⟩
    · rintro (⟨m, hm, h⟩ | ⟨as, bs, he, hc⟩)
      · obtain ⟨s, t, hst⟩ := List.append_of_mem hm
        rw [hst, List.flatten_append, List.flatten_cons]
        exact (h.append_left hw).append_right
      · obtain ⟨i, hi, -⟩ := hc.at
        rw [he, List.flatten_append]
        exact ⟨i, hi⟩

/-! ## The search -/

section
variable [DecidableEq α]

/-- Offset of the first occurrence of `w`. -/
def first (w : List α) : List α → Option Nat
  | [] => if w <+: [] then some 0 else none
  | x :: l => if w <+: x :: l then some 0 else (first w l).map (· + 1)

theorem first_eq_some : ∀ {l : List α} {i : Nat},
    first w l = some i ↔ At w l i ∧ ∀ j < i, ¬ At w l j
  | [], i => by
    by_cases hw : w <+: []
    · simp only [first, hw, if_true, Option.some.injEq]
      have hall : ∀ j, At w [] j := by simpa [At] using hw
      constructor
      · rintro rfl; exact ⟨hall 0, by simp⟩
      · rintro ⟨_, hj⟩
        by_contra hne
        exact hj 0 (by omega) (hall 0)
    · have hnone : ∀ j, ¬ At w [] j := by simpa [At] using hw
      simp [first, hw, hnone i]
  | x :: l, i => by
    by_cases hw : w <+: x :: l
    · simp only [first, hw, if_true, Option.some.injEq]
      constructor
      · rintro rfl; exact ⟨at_zero.2 hw, by simp⟩
      · rintro ⟨_, hj⟩
        by_contra hne
        exact hj 0 (by omega) (at_zero.2 hw)
    · simp only [first, hw, if_false, Option.map_eq_some_iff]
      constructor
      · rintro ⟨k, hk, rfl⟩
        obtain ⟨h1, h2⟩ := first_eq_some.1 hk
        refine ⟨at_cons_succ.2 h1, ?_⟩
        intro j hj
        cases j with
        | zero => rwa [at_zero]
        | succ j => rw [at_cons_succ]; exact h2 j (by omega)
      · rintro ⟨h1, h2⟩
        cases i with
        | zero => exact absurd (at_zero.1 h1) hw
        | succ i =>
          refine ⟨i, first_eq_some.2 ⟨at_cons_succ.1 h1, ?_⟩, rfl⟩
          intro j hj
          rw [← at_cons_succ (x := x)]
          exact h2 (j + 1) (by omega)

theorem first_eq_none : first w l = none ↔ ¬ Has w l := by
  constructor
  · rintro hnone ⟨i, hi⟩
    have hex : ∃ i, At w l i := ⟨i, hi⟩
    have := first_eq_some.2 ⟨Nat.find_spec hex, fun j hj => Nat.find_min hex hj⟩
    rw [hnone] at this
    cases this
  · intro hno
    cases h : first w l with
    | none => rfl
    | some i => exact absurd ⟨i, (first_eq_some.1 h).1⟩ hno

theorem has_iff_first : Has w l ↔ ∃ i, first w l = some i := by
  rw [← Option.ne_none_iff_exists', ne_eq, first_eq_none, not_not]

instance (w l : List α) : Decidable (Has w l) :=
  decidable_of_iff ((first w l).isSome = true) (by rw [Option.isSome_iff_exists, has_iff_first])

theorem first_lt (hw : w ≠ []) (h : first w l = some i) : i + w.length ≤ l.length :=
  (first_eq_some.1 h).1.le hw

/-- The first occurrence of a prefix that has one is the first of the whole list. -/
theorem first_append_of_some (hw : w ≠ []) (h : first w a = some i) :
    first w (a ++ b) = some i := by
  obtain ⟨h1, h2⟩ := first_eq_some.1 h
  have hle := h1.le hw
  refine first_eq_some.2 ⟨(at_append_left hle).2 h1, ?_⟩
  intro j hj hat
  exact h2 j hj ((at_append_left (by omega)).1 hat)

/-- With no occurrence starting in `a`, the first one is the first of `b`. -/
theorem first_append_of_none (h : ∀ j < a.length, ¬ At w (a ++ b) j) :
    first w (a ++ b) = (first w b).map (a.length + ·) := by
  cases hb : first w b with
  | none =>
    rw [Option.map_none, first_eq_none]
    rintro ⟨j, hj⟩
    by_cases hja : j < a.length
    · exact h j hja hj
    · exact first_eq_none.1 hb ⟨_, (at_append_right' (by omega)).1 hj⟩
  | some i =>
    obtain ⟨h1, h2⟩ := first_eq_some.1 hb
    refine first_eq_some.2 ⟨at_append_right.2 h1, fun j (hj : j < a.length + i) hat => ?_⟩
    by_cases hja : j < a.length
    · exact h j hja hat
    · exact h2 (j - a.length) (by omega) ((at_append_right' (by omega)).1 hat)

end

end Find
