import Mathlib.Data.List.Forall2
import PiiProxy.RedactorRuns

/-!
# The redactor loses nothing

Every segment stands for a piece of the input: an `Input` for itself, a `Replacement`
for an occurrence of its pattern, up to the case of ASCII letters. The pieces of the
segments emitted so far and the pending bytes are the input so far, in order.

* `pieces_segments` — the segments of one text
* `pushAll_pieces` — the segments of a run of pushes
* `redactor_conserves` — the same for a redactor of a policy, with `finish`
-/

namespace PiiProxy

open Utf8 (encode)
open Search (Match Spans)

/-- The input that a segment stands for. -/
def OutputSegment.Stands (patterns replacements : List String) : OutputSegment → Bytes → Prop
  | .input b, w => b = w
  | .replacement b, w => ∃ (i : Nat) (pattern replacement : String), patterns[i]? = some pattern ∧
    replacements[i]? = some replacement ∧ b = encode replacement ∧ w.map asciiLower = (encode pattern).map asciiLower

/-- `segs` stand for the pieces of `text`. -/
def Pieces (patterns replacements : List String) (segs : List OutputSegment) (text : Bytes) : Prop :=
  ∃ ws, List.Forall₂ (OutputSegment.Stands patterns replacements) segs ws ∧ ws.flatten = text

variable {patterns replacements : List String} {segs segs' : List OutputSegment} {a b : Bytes} {state : EngineState}

theorem pieces_nil : Pieces patterns replacements [] [] := ⟨[], .nil, rfl⟩

theorem Pieces.append (h : Pieces patterns replacements segs a) (h' : Pieces patterns replacements segs' b) :
    Pieces patterns replacements (segs ++ segs') (a ++ b) := by
  obtain ⟨ws, hws, rfl⟩ := h
  obtain ⟨ws', hws', rfl⟩ := h'
  exact ⟨ws ++ ws', List.rel_append hws hws', by simp⟩

theorem pieces_input (b : Bytes) : Pieces patterns replacements [.input b] b :=
  ⟨[b], .cons rfl .nil, by simp⟩

/-- A match and the replacement of its pattern. -/
theorem pieces_match {hay : Bytes} {m : Match} (ha : state.Aligned)
    (hocc : Search.Occurs asciiLower (state.patterns.map encode) hay m) :
    Pieces state.patterns state.replacementStrings [.replacement (state.replacements.getD m.pattern [])]
      ((hay.take m.stop).drop m.start) := by
  obtain ⟨p, hp, hstop, hle, hat⟩ := hocc
  obtain ⟨pattern, hpat, rfl⟩ : ∃ pattern, state.patterns[m.pattern]? = some pattern ∧ encode pattern = p := by
    simpa using hp
  have hlt : m.pattern < state.replacementStrings.length := by
    have := (List.getElem?_eq_some_iff.1 hpat).1
    rw [EngineState.Aligned, state.replacements_eq, List.length_map] at ha
    omega
  have hrep : state.replacementStrings[m.pattern]? = some state.replacementStrings[m.pattern] :=
    List.getElem?_eq_getElem hlt
  refine ⟨[(hay.take m.stop).drop m.start], .cons ⟨m.pattern, pattern, _, hpat, hrep, ?_, ?_⟩ .nil, by simp⟩
  · simp [state.replacements_eq, hrep]
  · have htake := hat.take_eq
    rw [List.length_map] at htake
    rw [hstop, ← List.take_drop, List.map_take, List.map_drop, htake]

/-- From `last` on, by induction on the matches. -/
theorem pieces_segmentsFrom (ha : state.Aligned) {hay : Bytes} : ∀ {ms : List Match} {last : Nat}, last ≤ hay.length →
    Spans asciiLower (state.patterns.map encode) hay last ms →
    Pieces state.patterns state.replacementStrings (segmentsFrom state hay last ms) (hay.drop last)
  | [], last, hlast, _ => by
    unfold segmentsFrom
    split
    · exact pieces_input _
    · rw [List.drop_eq_nil_of_le (by omega)]
      exact pieces_nil
  | m :: ms, last, hlast, ⟨hocc, hle, hspans⟩ => by
    have hstart := hocc.start_le
    have hstop := hocc.stop_le
    have ih := pieces_segmentsFrom ha hstop hspans
    have hbefore : Pieces state.patterns state.replacementStrings
        (if last < m.start then [.input ((hay.take m.start).drop last)] else []) ((hay.take m.start).drop last) := by
      split
      · exact pieces_input _
      · rw [List.drop_eq_nil_of_le (by simp; omega)]
        exact pieces_nil
    rw [drop_split hle (by omega), drop_split hstart hstop]
    exact hbefore.append ((pieces_match ha hocc).append ih)

theorem pieces_segments (ha : state.Aligned) (hay : Bytes) :
    Pieces state.patterns state.replacementStrings (state.segments hay) hay := by
  have h := pieces_segmentsFrom ha (Nat.zero_le hay.length) (state.ac.spans hay)
  rwa [List.drop_zero] at h

/-! ## Runs -/

namespace StreamRedactor

variable {r r' : StreamRedactor} {out : List OutputSegment} {chunk : Bytes}

/-- One push: what it emits and what it holds are what was pending and the chunk. -/
theorem push_pieces (ha : r.state.Aligned) (h : r.push chunk = .ok (out, r')) :
    ∃ text, Pieces r.state.patterns r.state.replacementStrings out text ∧ r.pending ++ chunk = text ++ r'.pending := by
  have pushed := push_ok ha h
  by_cases hc : chunk = []
  · obtain ⟨rfl, rfl⟩ := pushed.idle hc
    exact ⟨[], pieces_nil, by simp [hc]⟩
  · rw [pushed.out_eq hc, pushed.pending_eq hc]
    exact ⟨_, pieces_segments ha _, (List.take_append_drop _ _).symm⟩

/-- **The run lemma**: the input of a run of pushes, cut into the pieces emitted and the pending bytes. -/
theorem pushAll_pieces : ∀ {chunks : List Bytes} {r r' : StreamRedactor} {outs : List (List OutputSegment)}
    (_ : r.state.Aligned) (_ : r.pushAll chunks = .ok (outs, r')),
    ∃ text, Pieces r.state.patterns r.state.replacementStrings outs.flatten text ∧
      r.pending ++ chunks.flatten = text ++ r'.pending
  | [], r, r', outs, _, h => by
    simp only [pushAll, Except.ok.injEq, Prod.mk.injEq] at h
    obtain ⟨rfl, rfl⟩ := h
    exact ⟨[], pieces_nil, by simp⟩
  | chunk :: chunks, r, r', outs, ha, h => by
    obtain ⟨out, r1, rest, hp, hr, rfl⟩ := pushAll_cons_ok h
    have hst := (push_ok ha hp).state_eq
    obtain ⟨t1, hp1, he1⟩ := push_pieces ha hp
    obtain ⟨t2, hp2, he2⟩ := pushAll_pieces (by rw [hst]; exact ha) hr
    rw [hst] at hp2
    refine ⟨t1 ++ t2, hp1.append hp2, ?_⟩
    calc r.pending ++ (chunk :: chunks).flatten
        = (r.pending ++ chunk) ++ chunks.flatten := by simp
      _ = t1 ++ (r1.pending ++ chunks.flatten) := by rw [he1, List.append_assoc]
      _ = (t1 ++ t2) ++ r'.pending := by rw [he2, List.append_assoc]

theorem finish_pieces (ha : r.state.Aligned) (h : r.finish = .ok (out, r')) :
    r'.pending = [] ∧ Pieces r.state.patterns r.state.replacementStrings out r.pending := by
  rw [finish_eq ha] at h
  split at h
  · rename_i hp
    simp only [Except.ok.injEq, Prod.mk.injEq] at h
    obtain ⟨rfl, rfl⟩ := h
    exact ⟨hp, by rw [hp]; exact pieces_nil⟩
  · split at h
    · simp only [Except.ok.injEq, Prod.mk.injEq] at h
      obtain ⟨rfl, rfl⟩ := h
      exact ⟨rfl, pieces_segments ha _⟩
    · cases h

end StreamRedactor

/-- **Nothing is lost, repeated, reordered or redacted without a match.** After any successful pushes
the input is what the segments stand for and then the pending bytes; a successful `finish`
leaves nothing pending. -/
theorem redactor_conserves (build : Builder) (hlen : patterns.length = replacements.length) {maxCapacity : Nat}
    {r r' : StreamRedactor} {chunks : List Bytes} {outs : List (List OutputSegment)}
    (hr : StreamRedactor.withStateMaxCapacity (.new build patterns replacements) maxCapacity = .ok r)
    (hpush : r.pushAll chunks = .ok (outs, r')) :
    (∃ ws, List.Forall₂ (OutputSegment.Stands patterns replacements) outs.flatten ws ∧
      chunks.flatten = ws.flatten ++ r'.pending) ∧
    ∀ out r'', r'.finish = .ok (out, r'') → r''.pending = [] ∧
      ∃ ws, List.Forall₂ (OutputSegment.Stands patterns replacements) (outs.flatten ++ out) ws ∧
        chunks.flatten = ws.flatten := by
  obtain ⟨hst, hp, -⟩ := withStateMaxCapacity_ok hr
  have ha : r.state.Aligned := by
    rw [hst]
    exact EngineState.aligned_new build hlen
  obtain ⟨text, hpieces, he⟩ := StreamRedactor.pushAll_pieces ha hpush
  rw [hp, List.nil_append] at he
  have hst' := (pushAll_pending ha hpush).1
  refine ⟨?_, ?_⟩
  · obtain ⟨ws, hws, rfl⟩ := hpieces
    rw [hst] at hws
    exact ⟨ws, hws, he⟩
  · intro out r'' hfin
    obtain ⟨hnil, hlast⟩ := StreamRedactor.finish_pieces (by rw [hst']; exact ha) hfin
    rw [hst'] at hlast
    obtain ⟨ws, hws, hflat⟩ := hpieces.append hlast
    rw [hst] at hws
    exact ⟨hnil, ws, hws, by rw [he, hflat]⟩

/-- A pattern and a character, each cut in two; `secret` is still held. -/
theorem redactor_conserves_rocket : ∃ ws,
    List.Forall₂ (OutputSegment.Stands defaultPatterns (defaultPatterns.map fun _ => "[REDACTED]"))
      [.input (encode "a "), .replacement (encode "[REDACTED]"), .input (encode ": "), .input (encode "🚀 a ")] ws ∧
    encode "a PASSWORD: 🚀 a secret" = ws.flatten ++ encode "secret" := by
  have hr : StreamRedactor.withStateMaxCapacity (defaultEngine (Search.AhoCorasick.scan asciiLower)) 64 =
      .ok ⟨defaultEngine (Search.AhoCorasick.scan asciiLower), [], 64, by decide⟩ := rfl
  have hpush : (StreamRedactor.mk (defaultEngine (Search.AhoCorasick.scan asciiLower)) [] 64 (by decide)).pushAll
      [encode "a PASS", encode "WORD: " ++ [0xF0, 0x9F], [0x9A, 0x80, 32], [], encode "a secre", encode "t"] =
      .ok ([[], [.input (encode "a "), .replacement (encode "[REDACTED]"), .input (encode ": ")], [], [],
        [.input (encode "🚀 a ")], []],
        ⟨defaultEngine (Search.AhoCorasick.scan asciiLower), encode "secret", 64, by decide⟩) := by
    rfl
  have hlen : defaultPatterns.length = (defaultPatterns.map fun _ => "[REDACTED]").length := rfl
  exact (redactor_conserves (Search.AhoCorasick.scan asciiLower) hlen hr hpush).1

end PiiProxy
