import PiiProxy.MixedCase

/-!
# Patterns letter for letter

What a run does to a pattern in the very spelling it has in the policy, which the boundary
search does see coming.

* `run_verbatim` — where no cut lies inside a pattern, none is left in what a run emits
* `whole_of_separated` — patterns that cannot overlap are never cut
* `crosses_tokens_iff` — a pattern across two pieces of text comes out across what is
  emitted for them, whatever was redacted in each
-/

namespace PiiProxy

open Utf8 (encode)
open Search (Match Occurs)
open Find (At Has Crosses)

section

variable {state : EngineState} {left right text rest : Bytes} {ts ts' : List Token} {p : String}

/-! ## Across a seam -/

theorem crosses_of_tokens {w : Bytes} (hl : Tiles state left ts) (hr : Tiles state right ts')
    (h : Crosses (w.map .byte) ts ts') : Crosses w left right := by
  obtain ⟨u', v', hu, hv, he, ⟨a, rfl⟩, b, rfl⟩ := h
  obtain ⟨u, v, rfl, rfl, rfl⟩ := List.map_eq_append_iff.1 he
  obtain ⟨l1, l2, rfl, _, hl2⟩ := hl.split
  obtain ⟨r1, r2, rfl, hr1, _⟩ := hr.split
  rw [hl2.eq_bytes, hr1.eq_bytes]
  exact ⟨u, v, by simpa using hu, by simpa using hv, rfl, List.suffix_append _ _, List.prefix_append _ _⟩

/-- **A pattern across two pieces of text** is across their tokens: neither part of it is an occurrence,
and no occurrence overlaps it. -/
theorem crosses_tokens_iff (hs : Separated state.patterns) (hp : p ∈ state.patterns) (hl : Tiles state left ts)
    (hr : Tiles state right ts') :
    Crosses ((encode p).map .byte) ts ts' ↔ Crosses (encode p) left right := by
  refine ⟨crosses_of_tokens hl hr, ?_⟩
  rintro ⟨u, v, hu, hv, huv, ⟨a, rfl⟩, b, rfl⟩
  have hulen := List.length_pos_iff.2 hu
  have hvlen := List.length_pos_iff.2 hv
  have hlen := congrArg List.length huv
  rw [List.length_append] at hlen
  have hat : At (encode p) (a ++ u ++ (v ++ b)) a.length := by
    have := @Find.at_of_split _ (u ++ v) a b
    rw [huv]
    simpa using this
  obtain ⟨m, hm, hstart, hstop⟩ := occurs_of_at hs.ne hp (hat.map asciiLower)
  obtain ⟨⟨c, rfl⟩, d, rfl⟩ := untouched_across hs hl hr hm (by simp; omega) (by simp; omega)
  refine ⟨u.map .byte, v.map .byte, by simpa using hu, by simpa using hv, by rw [huv, List.map_append], ?_, ?_⟩
  · rw [hstart, List.drop_left]
    exact List.suffix_append _ _
  · rw [hstop, hlen, List.length_append, show a.length + (u.length + v.length) - (a.length + u.length) = v.length by omega,
      List.take_left]
    exact List.prefix_append _ _

/-! ## The cuts of a run -/

/-- No pattern, letter for letter, lies across the place where `text` is cut. -/
def EngineState.Whole (state : EngineState) (text rest : Bytes) : Prop :=
  ∀ p ∈ state.patterns, ∀ i, At (encode p) rest i →
    ¬ (i < state.safeLen text ∧ state.safeLen text < i + (encode p).length)

/-- **Patterns that cannot overlap are never cut**: a pattern the text ends inside is retained, and
what is retained starts inside no other. -/
theorem whole_of_separated (hs : Separated state.patterns) (text rest : Bytes) :
    state.Whole text (text ++ rest) := by
  rintro p hp i hat ⟨h1, h2⟩
  unfold EngineState.safeLen at h1 h2
  by_cases hlong : text.length ≤ state.maxPatternLen
  · rw [if_pos hlong] at h1
    omega
  rw [if_neg hlong] at h1 h2
  by_cases hends : EndsPattern state text
  · rw [if_pos hends] at h1 h2
    obtain ⟨m, hm, hstart, hstop⟩ := occurs_of_at hs.ne hp (hat.map asciiLower)
    exact not_inside_of_ends hs hends hm (by omega) (by omega)
  rw [if_neg hends] at h1 h2
  obtain ⟨hmax, hle⟩ := retainLen_spec state.patterns text
  by_cases hin : i + (encode p).length ≤ text.length
  · rcases hmax with h0 | ⟨q, hq, hhead⟩
    · omega
    · exact no_tail_in_head hs.borderless hp hq hat hhead (by omega) (by omega) hin
  · have := hle _ ⟨p, hp, headEnds_of_at hp (by omega) hat (by omega) (by omega)⟩
    omega

theorem not_has_redact (hne : ∀ p ∈ state.patterns, p ≠ "") (hp : p ∈ state.patterns) (hay : Bytes) :
    ¬ Has ((encode p).map .byte) (state.redact hay) := by
  rintro ⟨i, hi⟩
  refine redact_no_survivor hne hp (state.ac.standard (patterns_ne hne) hay) ⟨i, ?_⟩
  have hkey := hi.map Token.key
  rwa [List.map_map] at hkey

end

/-- **The run lemma.** -/
theorem run_verbatim : ∀ {chunks : List Bytes} {r : StreamRedactor} {segs : List OutputSegment}
    (_ : r.state.Aligned) (_ : ∀ p ∈ r.state.patterns, p ≠ "") (_ : r.redactChunks chunks = .ok segs)
    (_ : r.AtEveryPush chunks r.state.Whole) {p : String} (_ : p ∈ r.state.patterns),
    ¬ Has ((encode p).map .byte) (tokens segs)
  | [], r, segs, ha, hne, hr, _, p, hp => by
    obtain ⟨r', hf⟩ := StreamRedactor.redactChunks_nil_ok hr
    rcases finish_ok ha hf with ⟨_, rfl⟩ | ⟨_, rfl⟩
    · exact Find.not_has_nil (by simpa using encode_ne_nil (hne p hp))
    · rw [tokens_segments]
      exact not_has_redact hne hp _
  | c :: cs, r, segs, ha, hne, hr, hq, p, hp => by
    obtain ⟨out, r1, rest, hpush, hr1, rfl⟩ := StreamRedactor.redactChunks_cons_ok hr
    have pushed := push_ok ha hpush
    have hst := pushed.state_eq
    obtain ⟨hhead, htail⟩ := (StreamRedactor.atEveryPush_cons hpush).1 hq
    have ih := run_verbatim (by rw [hst]; exact ha) (by rw [hst]; exact hne) hr1 (by rw [hst]; exact htail)
      (by rw [hst]; exact hp)
    have htiles := run_tiles (by rw [hst]; exact ha) hr1
    rw [hst] at htiles
    rw [tokens_append]
    by_cases hc : c = []
    · obtain ⟨rfl, rfl⟩ := pushed.idle hc
      simpa [tokens] using ih
    rw [pushed.out_eq hc, tokens_segments,
      Find.has_append_iff (by simpa using encode_ne_nil (hne p hp))]
    rintro (h | h | h)
    · exact not_has_redact hne hp _ h
    · exact ih h
    · -- it would lie across the cut
      rw [pushed.pending_eq hc] at htiles
      obtain ⟨i, hi, h1, h2⟩ := (crosses_of_tokens (tiles_redact r.state _) htiles h).at
      rw [← List.append_assoc, List.take_append_drop] at hi
      rw [List.length_take, Nat.min_eq_left cut_le] at h1 h2
      exact hhead hc p hp i hi ⟨h1, h2⟩

end PiiProxy
