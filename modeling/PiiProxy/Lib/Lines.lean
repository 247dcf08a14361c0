import Mathlib.Data.List.Basic
import Mathlib.Data.List.DropRight

/-!
# Lines of a list

`lines nl l` cuts `l` after every `nl`, as iterating over a binary file does: each
line keeps its terminator, and only the last one can lack it. A text is then
complete lines followed by an unterminated rest (`exists_complete_lines`), in one way
only (`complete_lines_unique`), and complete lines in front stay lines of their own
whatever follows (`lines_flatten_append`). A block of lines put into a text leaves the
other lines whole exactly when it starts a line (`block_between_lines_iff`).
-/

namespace Lines

variable {α : Type} {nl : α} {a b l rest : List α} {ls : List (List α)}

/-- A terminated line. -/
def Complete (nl : α) (l : List α) : Prop := ∃ b, nl ∉ b ∧ l = b ++ [nl]

theorem Complete.mem (h : Complete nl l) : nl ∈ l := by
  obtain ⟨b, -, rfl⟩ := h
  simp

theorem flatten_ends (h : ∀ m ∈ ls, Complete nl m) : ls.flatten = [] ∨ ls.flatten.getLast? = some nl := by
  rcases List.eq_nil_or_concat ls with rfl | ⟨ms, m, rfl⟩
  · exact Or.inl rfl
  · obtain ⟨b, -, rfl⟩ := h m (by simp)
    exact Or.inr (by simp)

variable [DecidableEq α]

/-- The lines of `l`, each with its terminator. -/
def lines (nl : α) : List α → List (List α)
  | [] => []
  | x :: l =>
    if x = nl then [x] :: lines nl l
    else match lines nl l with
      | [] => [[x]]
      | m :: ms => (x :: m) :: ms

/-- What follows the last terminator. -/
def unterminated (nl : α) (l : List α) : List α := l.rtakeWhile (· ≠ nl)

@[simp] theorem lines_nil : lines nl [] = [] := rfl

@[simp] theorem flatten_lines (nl : α) : ∀ l : List α, (lines nl l).flatten = l
  | [] => rfl
  | x :: l => by
    have ih := flatten_lines nl l
    by_cases hx : x = nl
    · simp [lines, hx, ih]
    · simp only [lines, hx, if_false]
      cases hl : lines nl l with
      | nil => simp_all
      | cons m ms => simp_all

theorem lines_cons_body : ∀ {b : List α}, nl ∉ b → lines nl (b ++ nl :: l) = (b ++ [nl]) :: lines nl l
  | [], _ => by simp [lines]
  | x :: b, h => by
    have hx : x ≠ nl := fun e => h (by simp [e])
    have hb : nl ∉ b := fun e => h (List.mem_cons_of_mem _ e)
    rw [List.cons_append, lines, if_neg hx, lines_cons_body hb]
    rfl

/-- A complete line in front is the first line. -/
theorem Complete.lines_append (h : Complete nl a) : lines nl (a ++ l) = a :: lines nl l := by
  obtain ⟨b, hb, rfl⟩ := h
  rw [List.append_assoc, List.singleton_append, lines_cons_body hb]

theorem lines_of_not_mem : ∀ {l : List α}, nl ∉ l → l ≠ [] → lines nl l = [l]
  | [], _, h => absurd rfl h
  | x :: l, hm, _ => by
    have hx : x ≠ nl := fun e => hm (by simp [e])
    have hl : nl ∉ l := fun e => hm (List.mem_cons_of_mem _ e)
    by_cases h : l = []
    · simp [lines, hx, h]
    · simp [lines, hx, lines_of_not_mem hl h]

/-- **Complete lines in front stay lines of their own.** -/
theorem lines_flatten_append (h : ∀ m ∈ ls, Complete nl m) :
    lines nl (ls.flatten ++ l) = ls ++ lines nl l := by
  induction ls with
  | nil => simp
  | cons m ms ih =>
    have hm := h m (by simp)
    rw [List.flatten_cons, List.append_assoc, hm.lines_append,
      ih fun x hx => h x (List.mem_cons_of_mem _ hx), List.cons_append]

/-- A text is complete lines and an unterminated rest. -/
theorem exists_complete_lines (nl : α) : ∀ l : List α,
    ∃ (ls : List (List α)) (rest : List α), l = ls.flatten ++ rest ∧ (∀ m ∈ ls, Complete nl m) ∧ nl ∉ rest
  | [] => ⟨[], [], by simp⟩
  | x :: l => by
    obtain ⟨ls, rest, rfl, hls, hrest⟩ := exists_complete_lines nl l
    by_cases hx : x = nl
    · refine ⟨[x] :: ls, rest, by simp, ?_, hrest⟩
      intro m hm
      rcases List.mem_cons.1 hm with rfl | hm
      · exact ⟨[], by simp, by simp [hx]⟩
      · exact hls m hm
    · cases ls with
      | nil => exact ⟨[], x :: rest, by simp, by simp, by simp [Ne.symm hx, hrest]⟩
      | cons m ms =>
        obtain ⟨b, hb, rfl⟩ := hls m (by simp)
        refine ⟨(x :: b ++ [nl]) :: ms, rest, by simp, ?_, hrest⟩
        intro m hm
        rcases List.mem_cons.1 hm with rfl | hm
        · exact ⟨x :: b, by simp [Ne.symm hx, hb], rfl⟩
        · exact hls m (List.mem_cons_of_mem _ hm)

theorem unterminated_flatten_append (h : ∀ m ∈ ls, Complete nl m) (hr : nl ∉ rest) :
    unterminated nl (ls.flatten ++ rest) = rest := by
  have hrest : ∀ x ∈ rest.reverse, decide (x ≠ nl) = true := by
    intro x hx
    have : x ≠ nl := fun e => hr (by simpa [e] using hx)
    simp [this]
  rw [unterminated, List.rtakeWhile, List.reverse_append, List.takeWhile_append_of_pos hrest]
  cases hl : ls.getLast? with
  | none => simp [List.getLast?_eq_none_iff.1 hl]
  | some m =>
    obtain ⟨ls, rfl⟩ := List.getLast?_eq_some_iff.1 hl
    obtain ⟨b, -, rfl⟩ := h m (by simp)
    simp

/-- Complete lines and the rest after them are determined by the text. -/
theorem complete_lines_unique {ms : List (List α)} {rest' : List α} (h : ls.flatten ++ rest = ms.flatten ++ rest')
    (hls : ∀ m ∈ ls, Complete nl m) (hms : ∀ m ∈ ms, Complete nl m) (hr : nl ∉ rest) (hr' : nl ∉ rest') :
    ls = ms ∧ rest = rest' := by
  have hrest : rest = rest' := by
    rw [← unterminated_flatten_append hls hr, h, unterminated_flatten_append hms hr']
  subst hrest
  have hl := congrArg (lines nl) h
  rw [lines_flatten_append hls, lines_flatten_append hms, List.append_cancel_right_eq] at hl
  exact ⟨hl, rfl⟩

/-- What follows the first line is lines again; only a last line is unterminated. -/
theorem lines_eq_cons (h : lines nl a = l :: ls) :
    ∃ b, ls = lines nl b ∧ (Complete nl l ∨ nl ∉ l ∧ ls = []) := by
  obtain ⟨ms, rest, rfl, hms, hrest⟩ := exists_complete_lines nl a
  rw [lines_flatten_append hms] at h
  cases ms with
  | nil =>
    by_cases hr : rest = []
    · simp [hr] at h
    · rw [lines_of_not_mem hrest hr] at h
      simp only [List.nil_append, List.cons.injEq] at h
      exact ⟨[], h.2.symm, Or.inr ⟨h.1 ▸ hrest, h.2.symm⟩⟩
  | cons m ms =>
    simp only [List.cons_append, List.cons.injEq] at h
    refine ⟨ms.flatten ++ rest, ?_, Or.inl (h.1 ▸ hms m (by simp))⟩
    rw [lines_flatten_append fun x hx => hms x (List.mem_cons_of_mem _ hx), h.2]

/-- Elements without a terminator start the first line. -/
theorem lines_append_of_not_mem : ∀ {a : List α}, nl ∉ a → a ≠ [] →
    ∃ m ms, lines nl (a ++ b) = (a ++ m) :: ms
  | [], _, h => absurd rfl h
  | x :: a, hm, _ => by
    have hx : x ≠ nl := fun e => hm (by simp [e])
    by_cases ha : a = []
    · cases hb : lines nl b with
      | nil => exact ⟨[], [], by simp [lines, hx, ha, hb]⟩
      | cons m ms => exact ⟨m, ms, by simp [lines, hx, ha, hb]⟩
    · obtain ⟨m, ms, h⟩ := lines_append_of_not_mem (a := a) (fun e => hm (List.mem_cons_of_mem _ e)) ha
      exact ⟨m, ms, by simp [lines, hx, h]⟩

/-- A text that ends with a terminator is complete lines. -/
theorem complete_of_mem_lines (h : a = [] ∨ a.getLast? = some nl) : ∀ m ∈ lines nl a, Complete nl m := by
  obtain ⟨ms, rest, rfl, hms, hrest⟩ := exists_complete_lines nl a
  have hr : rest = [] := by
    rcases h with h | h
    · exact (List.append_eq_nil_iff.1 h).2
    · by_contra hne
      rw [List.getLast?_append_of_ne_nil _ hne] at h
      exact hrest (List.mem_of_getLast? h)
  rw [lines_flatten_append hms, hr, lines_nil, List.append_nil]
  exact hms

theorem lines_append (h : a = [] ∨ a.getLast? = some nl) (b : List α) :
    lines nl (a ++ b) = lines nl a ++ lines nl b := by
  rw [← lines_flatten_append (complete_of_mem_lines h), flatten_lines]

/-- A line with a line after it is terminated. -/
theorem complete_of_lines_append : ∀ {ls ms : List (List α)} {a : List α}, lines nl a = ls ++ ms → ms ≠ [] →
    ∀ l ∈ ls, Complete nl l
  | [], _, _, _, _, l, hl => absurd hl List.not_mem_nil
  | m :: ls, ms, a, h, hms, l, hl => by
    obtain ⟨b, hb, hm⟩ := lines_eq_cons h
    rcases List.mem_cons.1 hl with rfl | hl
    · exact hm.resolve_right fun hr => hms (List.append_eq_nil_iff.1 hr.2).2
    · exact complete_of_lines_append hb.symm hms l hl

/-- **A block of lines in a text.** Taking the block's lines out of the text's leaves the lines
of what stands around it exactly when the block starts a line. The block must start with a
terminator, and what follows it must not: else it could also be read as standing elsewhere. -/
theorem block_between_lines_iff {block : List (List α)} (hblock : ∀ m ∈ block, Complete nl m)
    (hfirst : block.flatten.head? = some nl) (hb : b.head? ≠ some nl) :
    (∃ above below, lines nl (a ++ b) = above ++ below ∧
      lines nl (a ++ (block.flatten ++ b)) = above ++ block ++ below) ↔ a = [] ∨ a.getLast? = some nl := by
  have hnil : block.flatten ≠ [] := by
    intro h
    simp [h] at hfirst
  have hlast := (flatten_ends hblock).resolve_left hnil
  constructor
  · rintro ⟨above, below, hin, hout⟩
    have hin' := congrArg List.flatten hin
    have hout' := congrArg List.flatten hout
    simp only [flatten_lines, List.flatten_append, List.append_assoc] at hin' hout'
    have habove : above.flatten = [] ∨ above.flatten.getLast? = some nl := by
      rw [List.append_assoc] at hout
      refine flatten_ends (complete_of_lines_append hout ?_)
      intro h
      exact hnil (by simp [(List.append_eq_nil_iff.1 h).1])
    -- the block commutes with what lies between the two places
    rcases List.append_eq_append_iff.1 hin' with ⟨m, hm, rfl⟩ | ⟨m, rfl, hm⟩
    · rw [hm, List.append_assoc, List.append_cancel_left_eq, ← List.append_assoc, ← List.append_assoc,
        List.append_cancel_right_eq] at hout'
      by_cases hmn : m = []
      · rwa [hm, hmn, List.append_nil] at habove
      · have hhead := congrArg List.head? hout'
        rw [List.head?_append_of_ne_nil _ hnil, List.head?_append_of_ne_nil _ hmn, hfirst] at hhead
        exact absurd (by rw [List.head?_append_of_ne_nil _ hmn, ← hhead]) hb
    · rw [hm, List.append_assoc, List.append_cancel_left_eq, ← List.append_assoc, ← List.append_assoc,
        List.append_cancel_right_eq] at hout'
      by_cases hmn : m = []
      · rwa [hmn, List.append_nil]
      · have hend := congrArg List.getLast? hout'
        rw [List.getLast?_append_of_ne_nil _ hnil, List.getLast?_append_of_ne_nil _ hmn, hlast] at hend
        exact Or.inr (by rw [List.getLast?_append_of_ne_nil _ hmn, ← hend])
  · intro h
    refine ⟨lines nl a, lines nl b, lines_append h b, ?_⟩
    rw [lines_append h, lines_flatten_append hblock, List.append_assoc]

end Lines
