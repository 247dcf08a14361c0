import PiiProxy.Engine

/-!
# Where the boundary search cuts

`determine_safe_boundary_state` never panics and cuts at `safeLen`: nowhere when the
text is no longer than the longest pattern, at its end when a pattern ends it, else
before the longest proper prefix of a pattern that ends it (`retainLen_spec`). A
pattern's first byte starts a character, so the walk back to a char boundary never
has to move.
-/

namespace PiiProxy

open Utf8 (encode)

/-- `r` is the greatest number in `S`, or 0 if there is none. -/
def IsMax (S : Nat → Prop) (r : Nat) : Prop := (r = 0 ∨ S r) ∧ ∀ n, S n → n ≤ r

theorem IsMax.congr {S T : Nat → Prop} {r : Nat} (h : IsMax S r) (hST : ∀ n, S n ↔ T n) : IsMax T r :=
  ⟨h.1.imp_right (hST r).1, fun n hn => h.2 n ((hST n).2 hn)⟩

theorem IsMax.max {S : Nat → Prop} {r k : Nat} (h : IsMax S r) : IsMax (fun n => S n ∨ n = k) (max r k) := by
  constructor
  · rcases Nat.le_total r k with hle | hle
    · exact Or.inr (Or.inr (by omega))
    · rw [Nat.max_eq_left hle]
      exact h.1.imp_right Or.inl
  · rintro n (hn | rfl)
    · have := h.2 n hn; omega
    · omega

/-- The inner loop keeps the maximum over the lengths tried. -/
theorem IsMax.foldl {P : Nat → Prop} [DecidablePred P] : ∀ (l : List Nat) {S : Nat → Prop} {r : Nat}, IsMax S r →
    IsMax (fun n => S n ∨ n ∈ l ∧ P n) (l.foldl (fun r n => if P n then Nat.max r n else r) r)
  | [], S, r, h => h.congr (by simp)
  | k :: l, S, r, h => by
    rw [List.foldl_cons]
    split
    · rename_i hk
      refine (h.max (k := k)).foldl l |>.congr fun n => ?_
      constructor
      · rintro ((hS | rfl) | ⟨hl, hP⟩)
        · exact Or.inl hS
        · exact Or.inr ⟨by simp, hk⟩
        · exact Or.inr ⟨by simp [hl], hP⟩
      · rintro (hS | ⟨hl, hP⟩)
        · exact Or.inl (Or.inl hS)
        · rcases List.mem_cons.1 hl with rfl | hl
          · exact Or.inl (Or.inr rfl)
          · exact Or.inr ⟨hl, hP⟩
    · rename_i hk
      refine (h.foldl l).congr ?_
      intro n
      constructor
      · rintro (hS | ⟨hl, hP⟩)
        · exact Or.inl hS
        · exact Or.inr ⟨by simp [hl], hP⟩
      · rintro (hS | ⟨hl, hP⟩)
        · exact Or.inl hS
        · rcases List.mem_cons.1 hl with rfl | hl
          · exact absurd hP hk
          · exact Or.inr ⟨hl, hP⟩

/-- The first `n` bytes of `p`, not all of it, end the text and are not all of it. -/
def HeadEnds (text : Bytes) (p : String) (n : Nat) : Prop :=
  1 ≤ n ∧ n < (encode p).length ∧ n < text.length ∧ (encode p).take n <:+ text

/-- **What is retained**: the longest proper pattern prefix that ends the text. -/
theorem retainLen_spec (patterns : List String) (text : Bytes) :
    IsMax (fun n => ∃ p ∈ patterns, HeadEnds text p n) (retainLen patterns text) := by
  suffices h : ∀ (ps : List String) (S : Nat → Prop) (r : Nat), IsMax S r →
      IsMax (fun n => S n ∨ ∃ p ∈ ps, HeadEnds text p n)
        (ps.foldl (fun retain pattern =>
          (List.range' 1 (min (encode pattern).length text.length - 1)).foldl (fun retain prefixLen =>
            if (encode pattern).take prefixLen <:+ text then max retain prefixLen else retain) retain) r) by
    exact (h patterns (fun _ => False) 0 ⟨Or.inl rfl, fun _ h => h.elim⟩).congr (by simp)
  intro ps
  induction ps with
  | nil => exact fun S r h => h.congr (by simp)
  | cons p ps ih =>
    intro S r h
    refine (ih _ _ (h.foldl (P := fun n => (encode p).take n <:+ text) _)).congr ?_
    intro n
    simp only [List.mem_range'_1, HeadEnds, List.mem_cons, exists_eq_or_imp, or_assoc]
    have : 1 ≤ n ∧ n < 1 + (min (encode p).length text.length - 1) ↔
        1 ≤ n ∧ n < (encode p).length ∧ n < text.length := by omega
    rw [this, and_assoc, and_assoc]

section

variable {state : EngineState} {text : Bytes} {p : String} {n : Nat}

/-- A pattern head starts a character wherever it ends the text. -/
theorem HeadEnds.boundary (h : HeadEnds text p n) : Utf8.isCharBoundary text (text.length - n) = true := by
  obtain ⟨h1, h2, h3, s, hs⟩ := h
  have hlen : s.length = text.length - n := by
    have := congrArg List.length hs
    simp only [List.length_append, List.length_take] at this
    omega
  obtain ⟨x, rest, hp⟩ : ∃ x rest, encode p = x :: rest := List.exists_cons_of_length_pos (by omega)
  have hx : ¬ Utf8.IsCont x := (hp ▸ Utf8.valid_encode p).head
  obtain ⟨m, rfl⟩ : ∃ m, n = m + 1 := ⟨n - 1, by omega⟩
  rw [← hlen, ← hs, hp, List.take_succ_cons]
  simp [Utf8.isCharBoundary, hx]

theorem retainLen_lt (patterns : List String) (text : Bytes) :
    retainLen patterns text = 0 ∨ retainLen patterns text < text.length := by
  rcases (retainLen_spec patterns text).1 with h | ⟨p, _, h⟩
  · exact Or.inl h
  · exact Or.inr h.2.2.1

theorem retain_boundary (patterns : List String) (text : Bytes) :
    Utf8.isCharBoundary text (text.length - retainLen patterns text) = true := by
  rcases (retainLen_spec patterns text).1 with h | ⟨p, _, h⟩
  · rw [h, Nat.sub_zero]
    exact Utf8.isCharBoundary_length
  · exact h.boundary

theorem walkBack_of_boundary (h : Utf8.isCharBoundary text n = true) : walkBack text n = n := by
  cases n with
  | zero => rfl
  | succ n => simp [walkBack, h]

/-- A pattern ends the text. -/
def EndsPattern (state : EngineState) (text : Bytes) : Prop := ∃ p ∈ state.patterns, encode p <:+ text

instance : Decidable (EndsPattern state text) := by unfold EndsPattern; infer_instance

/-- The length of the part that is safe to search. -/
def EngineState.safeLen (state : EngineState) (text : Bytes) : Nat :=
  if text.length ≤ state.maxPatternLen then 0
  else if EndsPattern state text then text.length
  else text.length - retainLen state.patterns text

theorem safeLen_le : state.safeLen text ≤ text.length := by
  unfold EngineState.safeLen
  split
  · omega
  · split <;> omega

theorem safeLen_boundary : Utf8.isCharBoundary text (state.safeLen text) = true := by
  unfold EngineState.safeLen
  split
  · rfl
  · split
    · exact Utf8.isCharBoundary_length
    · exact retain_boundary _ _

theorem strSlice_to (h : Utf8.isCharBoundary text n = true) (hn : n ≤ text.length) :
    strSlice text 0 n = .ok (text.take n) := by
  have h0 : Utf8.isCharBoundary text 0 = true := rfl
  simp [strSlice, h, hn, h0]

theorem strSlice_from (h : Utf8.isCharBoundary text n = true) (hn : n ≤ text.length) :
    strSlice text n text.length = .ok (text.drop n) := by
  simp [strSlice, h, hn, Utf8.isCharBoundary_length]

/-- **The boundary.** No panic, and the cut is at `safeLen`. -/
theorem determineSafeBoundaryState_eq (text : Bytes) (state : EngineState) :
    determineSafeBoundaryState text state = .ok (text.take (state.safeLen text), text.drop (state.safeLen text)) := by
  have hany : (state.patterns.any fun pattern => decide (encode pattern <:+ text)) = true ↔
      EndsPattern state text := by simp [EndsPattern]
  unfold determineSafeBoundaryState EngineState.safeLen
  by_cases h0 : text = []
  · simp [h0]
  by_cases h1 : text.length ≤ state.maxPatternLen
  · simp [h0, h1]
  by_cases h2 : EndsPattern state text
  · simp [h0, h1, h2, hany.2 h2]
  have h3 : ¬ (state.patterns.any fun pattern => decide (encode pattern <:+ text)) = true := fun h => h2 (hany.1 h)
  by_cases h4 : retainLen state.patterns text = 0
  · simp [h0, h1, h2, h3, h4]
  have hlt := (retainLen_lt state.patterns text).resolve_left h4
  have hb := retain_boundary state.patterns text
  simp only [h0, h1, h2, h3, h4, if_false, walkBack_of_boundary hb,
    show ¬ text.length - retainLen state.patterns text = 0 by omega,
    strSlice_to hb (Nat.sub_le _ _), strSlice_from hb (Nat.sub_le _ _), Bool.false_eq_true]
  rfl

theorem le_maxLen {patterns : List String} (h : p ∈ patterns) : (encode p).length ≤ maxLen patterns := by
  suffices hf : ∀ (ps : List String) (n : Nat), n ≤ ps.foldl (fun n p => max n (encode p).length) n ∧
      ∀ p ∈ ps, (encode p).length ≤ ps.foldl (fun n p => max n (encode p).length) n from (hf patterns 0).2 p h
  intro ps
  induction ps with
  | nil => simp
  | cons q ps ih =>
    intro n
    obtain ⟨h1, h2⟩ := ih (max n (encode q).length)
    refine ⟨by rw [List.foldl_cons]; omega, ?_⟩
    intro p hp
    rw [List.foldl_cons]
    rcases List.mem_cons.1 hp with rfl | hp
    · omega
    · exact h2 p hp

theorem EngineState.length_le (h : p ∈ state.patterns) : (encode p).length ≤ state.maxPatternLen := by
  rw [state.maxPatternLen_eq]
  exact le_maxLen h

/-- At most a longest pattern's worth of text is held back. -/
theorem held_le : text.length - state.safeLen text ≤ state.maxPatternLen := by
  unfold EngineState.safeLen
  split
  · omega
  split
  · omega
  rcases (retainLen_spec state.patterns text).1 with h | ⟨p, hp, h⟩
  · omega
  · have := state.length_le hp
    have := h.2.1
    omega

end

end PiiProxy
