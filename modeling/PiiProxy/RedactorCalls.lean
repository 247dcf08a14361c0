import PiiProxy.RedactText

/-!
# Any sequence of calls on one redactor

| here | there |
| --- | --- |
| `Call`, `StreamRedactor.call` | `push` and `finish` (engine.rs:120, 136), with what they leave in `pending` when they fail |
| `StreamRedactor.calls`        | one call after another, whatever each returns |

A failed call leaves a redactor that can still be called. `push` and `finish` take the
pending bytes out first; a push over the limit has put its held text back before it looks
at the limit (engine.rs:166-175).

* `pending_bounded` — no call leaves more than a pattern and a partial character
* `segments_whole_chars` — every segment is whole characters, and so is every cut
-/

namespace PiiProxy

open Utf8 (encode Valid)
open Search (Match)

namespace StreamRedactor

inductive Call where
  | push (chunk : Bytes)
  | finish
deriving DecidableEq, Repr

/-- What a failed push leaves in `pending`. -/
def pendingAfter (r : StreamRedactor) (chunk : Bytes) : Fault → Bytes
  | .err .bufferLimitExceeded => (r.pending ++ chunk).drop (r.state.cut (r.pending ++ chunk))
  | _ => []

def call (r : StreamRedactor) : Call → Except Fault (List OutputSegment) × StreamRedactor
  | .push chunk => match r.push chunk with
    | .ok (out, r') => (.ok out, r')
    | .error e => (.error e, { r with pending := r.pendingAfter chunk e })
  | .finish => match r.finish with
    | .ok (out, r') => (.ok out, r')
    | .error e => (.error e, { r with pending := [] })

/-- The results of the calls, and the redactor after them. -/
def calls : StreamRedactor → List Call → List (Except Fault (List OutputSegment)) × StreamRedactor
  | r, [] => ([], r)
  | r, c :: cs => ((r.call c).1 :: ((r.call c).2.calls cs).1, ((r.call c).2.calls cs).2)

variable {r r' : StreamRedactor} {chunk : Bytes} {out : List OutputSegment}

/-! ## What is held -/

/-- How a push with bytes in it ends: it is refused, its redaction panics, or it holds what is after
the cut, within the limit or not. -/
theorem push_cases (hc : chunk ≠ []) :
    r.push chunk = .error (.err .invalidUtf8) ∨ (∃ p, r.push chunk = .error (.panic p)) ∨
    (∃ v, validLen (r.pending ++ chunk) = .ok v ∧
      ((r.maxCapacity < ((r.pending ++ chunk).drop (r.state.cut (r.pending ++ chunk))).length ∧
          r.push chunk = .error (.err .bufferLimitExceeded)) ∨
        ∃ out, r.push chunk =
          .ok (out, { r with pending := (r.pending ++ chunk).drop (r.state.cut (r.pending ++ chunk)) }))) := by
  cases hv : validLen (r.pending ++ chunk) with
  | error e =>
    have he : e = .invalidUtf8 := by
      unfold validLen at hv
      split at hv <;> simp_all
    rw [push_refused hc hv, he]
    exact Or.inl rfl
  | ok v =>
    right
    have hpush : r.push chunk = { r with pending := [] }.processSource (r.pending ++ chunk) false := by
      unfold push
      rw [if_neg hc]
      split
      · rename_i hp
        rw [hp, List.nil_append]
        congr 1
        rw [← hp]
      · rfl
    rw [hpush, processSource_cut rfl hv]
    cases hred : { r with pending := [] }.redactSource (r.pending ++ chunk) (r.state.cut (r.pending ++ chunk)) with
    | error p => exact Or.inl ⟨p, rfl⟩
    | ok output =>
      right
      refine ⟨v, rfl, ?_⟩
      rw [orPanic_ok, bind_ok]
      split
      · exact Or.inl ⟨‹_›, rfl⟩
      · exact Or.inr ⟨output, rfl⟩

/-- A redactor of this policy and limit that holds a pattern's worth of text and a partial character
at most. -/
structure Held (state : EngineState) (maxCapacity : Nat) (r : StreamRedactor) : Prop where
  state_eq : r.state = state
  capacity_eq : r.maxCapacity = maxCapacity
  pending_le : r.pending.length ≤ state.maxPatternLen + 3

variable {state : EngineState} {maxCapacity : Nat}

theorem Held.cut {v : Nat} (h : Held state maxCapacity r) (hv : validLen (r.pending ++ chunk) = .ok v) :
    Held state maxCapacity { r with pending := (r.pending ++ chunk).drop (r.state.cut (r.pending ++ chunk)) } :=
  ⟨h.state_eq, h.capacity_eq, h.state_eq ▸ PiiProxy.pending_le hv⟩

theorem Held.clear (h : Held state maxCapacity r) : Held state maxCapacity { r with pending := [] } :=
  ⟨h.state_eq, h.capacity_eq, Nat.zero_le _⟩

theorem finish_held (h : Held state maxCapacity r) (hf : r.finish = .ok (out, r')) : Held state maxCapacity r' := by
  unfold finish at hf
  split at hf
  · injection hf with hf
    rw [Prod.mk.injEq] at hf
    rwa [← hf.2]
  · rw [processSource_flush rfl] at hf
    split at hf
    · obtain ⟨output, -, hf⟩ := bind_eq_ok.1 hf
      injection hf with hf
      rw [Prod.mk.injEq] at hf
      rw [← hf.2]
      exact h.clear
    · simp at hf

/-- **No call leaves more, whatever it returns.** -/
theorem call_held (h : Held state maxCapacity r) (c : Call) : Held state maxCapacity (r.call c).2 := by
  cases c with
  | push chunk =>
    by_cases hc : chunk = []
    · simpa [call, push, hc] using h
    · rcases push_cases (r := r) hc with he | ⟨p, he⟩ | ⟨v, hv, ⟨-, he⟩ | ⟨out, he⟩⟩
      · simp only [call, he]
        exact h.clear
      · simp only [call, he]
        exact h.clear
      · simp only [call, he]
        exact h.cut hv
      · simp only [call, he]
        exact h.cut hv
  | finish =>
    cases hf : r.finish with
    | error e =>
      simp only [call, hf]
      exact h.clear
    | ok res =>
      simp only [call, hf]
      exact finish_held h hf

theorem calls_held : ∀ {cs : List Call} {r : StreamRedactor}, Held state maxCapacity r →
    Held state maxCapacity (r.calls cs).2
  | [], _, h => h
  | c :: cs, r, h => by
    rw [calls]
    exact calls_held (call_held h c)

theorem push_within_limit (hroom : r.state.maxPatternLen + 3 ≤ r.maxCapacity) :
    r.push chunk ≠ .error (.err .bufferLimitExceeded) := by
  by_cases hc : chunk = []
  · simp [push, hc]
  · rcases push_cases (r := r) hc with he | ⟨p, he⟩ | ⟨v, hv, ⟨hlt, he⟩ | ⟨out, he⟩⟩
    · simp [he]
    · simp [he]
    · have hle := @PiiProxy.pending_le _ _ r.state hv
      omega
    · simp [he]

end StreamRedactor

/-- **The pending buffer is bounded.** On any fresh redactor, after any calls and whatever they
returned, a push that succeeds leaves at most a longest pattern and three bytes; with room
for that, no push runs into the limit. -/
theorem pending_bounded (state : EngineState) (maxCapacity : Nat) (r : StreamRedactor)
    (hr : StreamRedactor.withStateMaxCapacity state maxCapacity = .ok r) (cs : List StreamRedactor.Call)
    (chunk : Bytes) :
    (∀ out r', (r.calls cs).2.push chunk = .ok (out, r') → r'.pending.length ≤ state.maxPatternLen + 3) ∧
    (state.maxPatternLen + 3 ≤ maxCapacity → (r.calls cs).2.push chunk ≠ .error (.err .bufferLimitExceeded)) := by
  obtain ⟨hst, hp, hmax⟩ := withStateMaxCapacity_ok hr
  have hheld : (r.calls cs).2.Held state maxCapacity :=
    StreamRedactor.calls_held ⟨hst, hmax, by simp [hp]⟩
  constructor
  · intro out r' hpush
    have hcall := StreamRedactor.call_held hheld (.push chunk)
    simp only [StreamRedactor.call, hpush] at hcall
    exact hcall.pending_le
  · intro hroom
    apply StreamRedactor.push_within_limit
    rw [hheld.state_eq, hheld.capacity_eq]
    exact hroom

/-- A push of invalid bytes in between; the limit leaves room for `password` and three bytes. -/
theorem pending_bounded_default :
    ((StreamRedactor.mk (defaultEngine (Search.AhoCorasick.scan asciiLower)) [] 11 (by decide)).calls
      [.push (encode "my pass"), .push [0xFF], .finish]).2.push (encode "word") ≠ .error (.err .bufferLimitExceeded) :=
  (pending_bounded _ 11 _ rfl _ _).2 (by decide)

/-! ## What is emitted -/

/-- A segment that can stand alone: some bytes, of whole characters. -/
def OutputSegment.Whole (seg : OutputSegment) : Prop := seg.bytes ≠ [] ∧ Valid seg.bytes

theorem valid_between {text : Bytes} {lo hi : Nat} (hv : Valid text) (hle : lo ≤ hi)
    (hlo : Utf8.isCharBoundary text lo = true) (hhi : Utf8.isCharBoundary text hi = true) :
    Valid ((text.take hi).drop lo) := by
  have h1 := (hv.cut hlo).1
  have h2 := (hv.cut hhi).1
  have hsplit : text.take hi = text.take lo ++ (text.take hi).drop lo := by
    have h := (List.take_append_drop lo (text.take hi)).symm
    rwa [List.take_take, Nat.min_eq_left hle] at h
  rw [hsplit] at h2
  exact h2.right h1

section

variable {state : EngineState} {text : Bytes}

/-- Every replacement of the policy is some text. -/
def EngineState.Replaces (state : EngineState) : Prop := ∀ s ∈ state.replacementStrings, s ≠ ""

theorem whole_replacement (ha : state.Aligned) (hrep : state.Replaces) {i : Nat} (hi : i < state.patterns.length) :
    (OutputSegment.replacement (state.replacements.getD i [])).Whole := by
  have hlt : i < state.replacementStrings.length := by
    rw [ha, state.replacements_eq, List.length_map] at hi
    exact hi
  have hget : state.replacements.getD i [] = encode state.replacementStrings[i] := by
    simp [state.replacements_eq, List.getD, hlt]
  rw [OutputSegment.Whole, OutputSegment.bytes, hget]
  exact ⟨encode_ne_nil (hrep _ (List.getElem_mem hlt)), Utf8.valid_encode _⟩

/-- Between matches, which start and end characters, there are whole characters. -/
theorem segmentsFrom_whole (ha : state.Aligned) (hne : ∀ p ∈ state.patterns, p ≠ "") (hrep : state.Replaces)
    (hv : Valid text) : ∀ (ms : List Match) (last : Nat),
    Search.Spans asciiLower (state.patterns.map encode) text last ms → Utf8.isCharBoundary text last = true →
    ∀ seg ∈ segmentsFrom state text last ms, seg.Whole
  | [], last, _, hlast, seg, hseg => by
    simp only [segmentsFrom] at hseg
    split at hseg
    · rename_i hlt
      obtain rfl := List.mem_singleton.1 hseg
      refine ⟨?_, (hv.cut hlast).2⟩
      simp only [OutputSegment.bytes, ne_eq, List.drop_eq_nil_iff]
      omega
    · simp at hseg
  | m :: ms, last, ⟨hocc, hle, hrest⟩, hlast, seg, hseg => by
    obtain ⟨hstart, hstop⟩ := occurs_boundary hne hv hocc
    rw [segmentsFrom, List.mem_append, List.mem_cons] at hseg
    rcases hseg with hseg | rfl | hseg
    · split at hseg
      · rename_i hlt
        obtain rfl := List.mem_singleton.1 hseg
        refine ⟨?_, valid_between hv hle hlast hstart⟩
        have h1 := hocc.start_le
        have h2 := hocc.stop_le
        simp only [OutputSegment.bytes, ne_eq, List.drop_eq_nil_iff, List.length_take]
        omega
      · simp at hseg
    · have hpat := hocc.pattern_lt
      rw [List.length_map] at hpat
      exact whole_replacement ha hrep hpat
    · exact segmentsFrom_whole ha hne hrep hv ms m.stop hrest hstop seg hseg

theorem segments_whole (ha : state.Aligned) (hne : ∀ p ∈ state.patterns, p ≠ "") (hrep : state.Replaces)
    (hv : Valid text) : ∀ seg ∈ state.segments text, seg.Whole :=
  segmentsFrom_whole ha hne hrep hv _ 0 (state.ac.spans text) rfl

end

namespace StreamRedactor

variable {r r' : StreamRedactor} {chunk : Bytes} {out : List OutputSegment}

theorem push_whole (ha : r.state.Aligned) (hne : ∀ p ∈ r.state.patterns, p ≠ "") (hrep : r.state.Replaces)
    (h : r.push chunk = .ok (out, r')) : ∀ seg ∈ out, seg.Whole := by
  have pushed := push_ok ha h
  by_cases hc : chunk = []
  · simp [(pushed.idle hc).1]
  · cases hv : validLen (r.pending ++ chunk) with
    | error e => simp [push_refused hc hv] at h
    | ok v =>
      rw [pushed.out_eq hc]
      exact segments_whole ha hne hrep (valid_take_cut hv)

theorem finish_whole (ha : r.state.Aligned) (hne : ∀ p ∈ r.state.patterns, p ≠ "") (hrep : r.state.Replaces)
    (h : r.finish = .ok (out, r')) : ∀ seg ∈ out, seg.Whole := by
  rw [finish_eq ha] at h
  split at h
  · injection h with h
    rw [Prod.mk.injEq] at h
    simp [← h.1]
  · split at h
    · rename_i hv
      injection h with h
      rw [Prod.mk.injEq] at h
      rw [← h.1]
      exact segments_whole ha hne hrep hv
    · simp at h

/-- Every segment of a call that succeeds is whole. -/
theorem call_whole (ha : r.state.Aligned) (hne : ∀ p ∈ r.state.patterns, p ≠ "") (hrep : r.state.Replaces)
    {c : Call} (h : (r.call c).1 = .ok out) : ∀ seg ∈ out, seg.Whole := by
  cases c with
  | push chunk =>
    cases hp : r.push chunk with
    | error e => simp [call, hp] at h
    | ok res =>
      simp only [call, hp] at h
      injection h with h
      rw [← h]
      exact push_whole ha hne hrep hp
  | finish =>
    cases hf : r.finish with
    | error e => simp [call, hf] at h
    | ok res =>
      simp only [call, hf] at h
      injection h with h
      rw [← h]
      exact finish_whole ha hne hrep hf

theorem call_state (c : Call) : (r.call c).2.state = r.state := by
  cases c with
  | push chunk =>
    cases hp : r.push chunk with
    | error e => simp only [call, hp]
    | ok res =>
      simp only [call, hp]
      exact push_state hp
  | finish =>
    cases hf : r.finish with
    | error e => simp only [call, hf]
    | ok res =>
      simp only [call, hf]
      exact finish_state hf

theorem calls_whole : ∀ {cs : List Call} {r : StreamRedactor}, r.state.Aligned →
    (∀ p ∈ r.state.patterns, p ≠ "") → r.state.Replaces →
    ∀ result ∈ (r.calls cs).1, ∀ out, result = .ok out → ∀ seg ∈ out, seg.Whole
  | [], r, _, _, _, result, hmem => by simp [calls] at hmem
  | c :: cs, r, ha, hne, hrep, result, hmem => by
    rw [calls, List.mem_cons] at hmem
    intro out hout
    rcases hmem with rfl | hmem
    · exact call_whole ha hne hrep hout
    · have hst := call_state (r := r) c
      exact calls_whole (by rwa [hst]) (by rwa [hst]) (by rwa [hst]) result hmem out hout

end StreamRedactor

/-- **Whole characters only.** For a policy of non-empty patterns and replacements: the segments of
every successful call, after any calls, are non-empty UTF-8; `redact_text` returns for every
text; the matches in a text and the cut of a text are at character boundaries. -/
theorem segments_whole_chars (build : Builder) (patterns replacements : List String)
    (hne : ∀ p ∈ patterns, p ≠ "") (hrep : ∀ s ∈ replacements, s ≠ "") (vault : PiiVault)
    (hvault : PiiVault.new build patterns replacements = .ok vault) (maxCapacity : Nat) (r : StreamRedactor)
    (hr : StreamRedactor.withMaxCapacity vault maxCapacity = .ok r) :
    (∀ cs, ∀ result ∈ (r.calls cs).1, ∀ out, result = .ok out → ∀ seg ∈ out, seg.bytes ≠ [] ∧ Valid seg.bytes) ∧
    ∀ text : String, (∃ out, redactText vault (encode text) = .ok out) ∧
      (∀ m ∈ vault.searcher.findIter (encode text), Utf8.isCharBoundary (encode text) m.start = true ∧
        Utf8.isCharBoundary (encode text) m.stop = true) ∧
      ∃ safe held, determineSafeBoundaryState (encode text) vault.engineState = .ok (safe, held) ∧
        Utf8.isCharBoundary (encode text) safe.length = true := by
  obtain ⟨hb, hst⟩ := PiiVault.built_of_new hvault
  have hne' : ∀ p ∈ vault.engineState.patterns, p ≠ "" := by
    rw [hst]
    exact hne
  have hrep' : vault.engineState.Replaces := by
    rw [hst]
    exact hrep
  constructor
  · intro cs
    have hrs := StreamRedactor.state_of_withMaxCapacity hr
    exact StreamRedactor.calls_whole (by rw [hrs]; exact hb.aligned) (by rw [hrs]; exact hne')
      (by rw [hrs]; exact hrep')
  · intro text
    have hv := Utf8.valid_encode text
    refine ⟨⟨_, redactText_eq hb hne' hv⟩, ?_, _, _, determineSafeBoundaryState_eq _ _, ?_⟩
    · intro m hm
      rw [hb.findIter] at hm
      exact occurs_boundary hne' hv ((vault.engineState.ac.standard (patterns_ne hne') _).mem hm).1
    · rw [List.length_take, Nat.min_eq_left safeLen_le]
      exact safeLen_boundary

def euroVault : PiiVault :=
  ⟨["€x"], buildRedactionDfa (Search.AhoCorasick.scan asciiLower) ["€x"], ["∎"],
    .new (Search.AhoCorasick.scan asciiLower) ["€x"] ["∎"]⟩

theorem euroVault_new : PiiVault.new (Search.AhoCorasick.scan asciiLower) ["€x"] ["∎"] = .ok euroVault := by
  rw [PiiVault.new, if_pos (by decide)]
  rfl

/-- A pattern and a replacement of more than one byte a character, and chunks that cut them. -/
theorem segments_whole_chars_euro :
    (∃ out, redactText euroVault (encode "1 €X") = .ok out) ∧
    ∀ result ∈ ((StreamRedactor.mk euroVault.engineState [] 64 (by decide)).calls
      [.push [0xE2, 0x82], .push [0xAC, 88, 0xC3], .finish]).1, ∀ out, result = .ok out →
      ∀ seg ∈ out, seg.bytes ≠ [] ∧ Valid seg.bytes := by
  have h := segments_whole_chars (Search.AhoCorasick.scan asciiLower) ["€x"] ["∎"] (by decide) (by decide) euroVault
    euroVault_new 64 _ rfl
  exact ⟨(h.2 "1 €X").1, h.1 _⟩

end PiiProxy
