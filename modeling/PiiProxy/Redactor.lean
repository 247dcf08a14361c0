import PiiProxy.Boundary

/-!
# One call of `StreamRedactor`, and runs of them

`push` either refuses the bytes, or redacts the part of its text before the boundary
and holds the rest (`push_ok`). What it emits is compared as `Token`s: a byte of the
input let through, or the mark left by a match. `EngineState.redact` is the token
string of a whole text, and `run_tokens` says when a run over chunks gives it: no cut
may fall inside a match of what is still to come.
-/

namespace PiiProxy

open Utf8 (encode)
open Search (Match)

/-! ## Tokens -/

inductive Token where
  | byte (b : UInt8)
  | mark (replacement : Bytes)
deriving DecidableEq, Repr

def Token.bytes : Token → Bytes
  | .byte b => [b]
  | .mark r => r

def OutputSegment.bytes : OutputSegment → Bytes
  | .input b => b
  | .replacement r => r

def OutputSegment.tokens : OutputSegment → List Token
  | .input b => b.map .byte
  | .replacement r => [.mark r]

def tokens (segs : List OutputSegment) : List Token := segs.flatMap OutputSegment.tokens

/-- The concatenated output. -/
def outputBytes (segs : List OutputSegment) : Bytes := segs.flatMap OutputSegment.bytes

@[simp] theorem tokens_append (a b : List OutputSegment) : tokens (a ++ b) = tokens a ++ tokens b := by
  simp [tokens]

theorem flatMap_byte (b : Bytes) : (b.map Token.byte).flatMap Token.bytes = b := by
  induction b with
  | nil => rfl
  | cons x b ih => simp [Token.bytes, ih]

theorem outputBytes_eq (segs : List OutputSegment) : outputBytes segs = (tokens segs).flatMap Token.bytes := by
  induction segs with
  | nil => rfl
  | cons s segs ih =>
    cases s with
    | input b => simp [outputBytes, tokens, OutputSegment.bytes, OutputSegment.tokens, flatMap_byte] at ih ⊢; exact ih
    | replacement r => simp [outputBytes, tokens, OutputSegment.bytes, OutputSegment.tokens, Token.bytes] at ih ⊢; exact ih

/-! ## What is redacted -/

/-- As many replacements as patterns, which `PiiVault::new` asserts. -/
def EngineState.Aligned (state : EngineState) : Prop := state.patterns.length = state.replacements.length

/-- The segments from `last` on. -/
def segmentsFrom (state : EngineState) (hay : Bytes) : Nat → List Match → List OutputSegment
  | last, [] => if last < hay.length then [.input (hay.drop last)] else []
  | last, m :: ms => (if last < m.start then [.input ((hay.take m.start).drop last)] else []) ++
    .replacement (state.replacements.getD m.pattern []) :: segmentsFrom state hay m.stop ms

def EngineState.segments (state : EngineState) (hay : Bytes) : List OutputSegment :=
  segmentsFrom state hay 0 (state.ac.findIter hay)

/-- The tokens from `last` on. -/
def tokensFrom (state : EngineState) (hay : Bytes) : Nat → List Match → List Token
  | last, [] => (hay.drop last).map .byte
  | last, m :: ms => ((hay.take m.start).drop last).map .byte ++
    .mark (state.replacements.getD m.pattern []) :: tokensFrom state hay m.stop ms

/-- A whole text, redacted. -/
def EngineState.redact (state : EngineState) (hay : Bytes) : List Token :=
  tokensFrom state hay 0 (state.ac.findIter hay)

section

variable {state : EngineState} {hay a b source : Bytes} {last k n : Nat} {ms : List Match}

theorem tokens_segmentsFrom (state : EngineState) (hay : Bytes) : ∀ (ms : List Match) (last : Nat),
    tokens (segmentsFrom state hay last ms) = tokensFrom state hay last ms
  | [], last => by
    simp only [segmentsFrom, tokensFrom]
    split
    · simp [tokens, OutputSegment.tokens]
    · rw [List.drop_eq_nil_of_le (by omega)]
      rfl
  | m :: ms, last => by
    have ih := tokens_segmentsFrom state hay ms m.stop
    simp only [segmentsFrom, tokensFrom, tokens_append]
    congr 1
    · split
      · simp [tokens, OutputSegment.tokens]
      · rw [List.drop_eq_nil_of_le (by simp; omega)]
        rfl
    · rw [← ih]
      rfl

theorem tokens_segments (state : EngineState) (hay : Bytes) : tokens (state.segments hay) = state.redact hay :=
  tokens_segmentsFrom state hay _ 0

theorem tokensFrom_shift (state : EngineState) (a b : Bytes) : ∀ (ms : List Match) (last : Nat),
    tokensFrom state (a ++ b) (a.length + last) (ms.map (Match.shift a.length)) = tokensFrom state b last ms
  | [], last => by simp [tokensFrom]
  | m :: ms, last => by
    have ih := tokensFrom_shift state a b ms m.stop
    simp only [List.map_cons, tokensFrom, Match.shift_start, Match.shift_stop, Match.shift_pattern, ih,
      List.take_length_add_append]
    rw [← List.drop_drop, List.drop_left]

theorem tokensFrom_append (state : EngineState) (a b : Bytes) (ms' : List Match) : ∀ (ms : List Match) (last : Nat),
    last ≤ a.length → (∀ m ∈ ms, m.start ≤ a.length ∧ m.stop ≤ a.length) →
    tokensFrom state (a ++ b) last (ms ++ ms'.map (Match.shift a.length)) =
      tokensFrom state a last ms ++ tokensFrom state b 0 ms'
  | [], last, hl, _ => by
    cases ms' with
    | nil => simp [tokensFrom, List.drop_append_of_le_length hl]
    | cons m ms' =>
      have := tokensFrom_shift state a b ms' m.stop
      simp only [List.nil_append, List.map_cons, tokensFrom, Match.shift_start, Match.shift_stop,
        Match.shift_pattern, this, List.take_length_add_append]
      rw [List.drop_append_of_le_length hl]
      simp
  | m :: ms, last, _, h => by
    have hm := h m (by simp)
    have ih := tokensFrom_append state a b ms' ms m.stop hm.2 fun n hn => h n (by simp [hn])
    simp only [List.cons_append, tokensFrom, ih, List.take_append_of_le_length hm.1]
    simp

theorem encode_ne_nil {p : String} (h : p ≠ "") : encode p ≠ [] := fun h' => h (Utf8.encode_injective h')

theorem patterns_ne (hne : ∀ p ∈ state.patterns, p ≠ "") : ∀ q ∈ state.patterns.map encode, q ≠ [] := by
  intro q hq
  obtain ⟨p, hp, rfl⟩ := List.mem_map.1 hq
  exact encode_ne_nil (hne p hp)

/-- **A clear cut.** Redaction splits where no match lies across. -/
theorem redact_append (hne : ∀ p ∈ state.patterns, p ≠ "")
    (hcut : ∀ m ∈ state.ac.findIter (a ++ b), ¬ (m.start < a.length ∧ a.length < m.stop)) :
    state.redact (a ++ b) = state.redact a ++ state.redact b := by
  have hne' := patterns_ne hne
  rw [EngineState.redact, state.ac.findIter_append hne' hcut]
  refine tokensFrom_append state a b _ _ 0 (Nat.zero_le _) ?_
  intro m hm
  have hocc := ((state.ac.standard hne' a).mem hm).1
  have := hocc.start_le
  have := hocc.stop_le
  omega

theorem redact_nil (hne : ∀ p ∈ state.patterns, p ≠ "") : state.redact [] = [] := by
  have hms : state.ac.findIter [] = [] := by
    rw [List.eq_nil_iff_forall_not_mem]
    intro m hm
    have hocc := ((state.ac.standard (patterns_ne hne) []).mem hm).1
    have h1 := hocc.start_lt (patterns_ne hne)
    have h2 := hocc.stop_le
    simp only [List.length_nil] at h2
    omega
  rw [EngineState.redact, hms]
  rfl

/-! ## `redact_source` -/

theorem index_of_lt {α : Type} {v : List α} {i : Nat} (d : α) (h : i < v.length) :
    index v i = .ok (v.getD i d) := by
  simp [index, h, List.getD]

theorem slice_take (hk : k ≤ source.length) (h1 : last ≤ n) (h2 : n ≤ k) :
    slice source last n = .ok (((source.take k).take n).drop last) := by
  rw [slice, if_pos ⟨h1, by omega⟩, List.take_take, Nat.min_eq_left h2]

/-- The loop, and the tail its caller adds. -/
theorem redactLoop_eq (ha : state.Aligned) (hk : k ≤ source.length) : ∀ (ms : List Match) (last : Nat),
    Search.Spans asciiLower (state.patterns.map encode) (source.take k) last ms →
    ∃ segs stop, StreamRedactor.redactLoop state source last ms = .ok (segs, stop) ∧
      segs ++ (if stop < k then [.input ((source.take k).drop stop)] else []) =
        segmentsFrom state (source.take k) last ms
  | [], last, _ => by
    refine ⟨[], last, rfl, ?_⟩
    simp [segmentsFrom, Nat.min_eq_left hk]
  | m :: ms, last, ⟨hocc, hle, hrest⟩ => by
    obtain ⟨segs, stop, hr, hs⟩ := redactLoop_eq ha hk ms m.stop hrest
    have hstart := hocc.start_le
    have hstop := hocc.stop_le
    have hpat := hocc.pattern_lt
    rw [List.length_take, Nat.min_eq_left hk] at hstop
    rw [List.length_map, ha] at hpat
    simp only [StreamRedactor.redactLoop, index_of_lt [] hpat, hr, bind_ok, segmentsFrom,
      slice_take hk hle (show m.start ≤ k by omega)]
    refine ⟨(if last < m.start then [.input (((source.take k).take m.start).drop last)] else []) ++
      .replacement (state.replacements.getD m.pattern []) :: segs, stop, ?_, ?_⟩
    · split <;> rfl
    · rw [← hs]
      simp

theorem redactSource_eq (r : StreamRedactor) (ha : r.state.Aligned) (hk : k ≤ source.length) :
    r.redactSource source k = .ok (r.state.segments (source.take k)) := by
  obtain ⟨segs, stop, hr, hs⟩ := redactLoop_eq ha hk _ 0 (r.state.ac.spans (source.take k))
  simp only [StreamRedactor.redactSource, slice_to hk, bind_ok, hr]
  rw [EngineState.segments, ← hs]
  split
  · rw [slice_take hk (Nat.le_of_lt ‹_›) (Nat.le_refl k), List.take_take, Nat.min_self]
    rfl
  · simp

end

/-! ## The engine a redactor keeps -/

theorem processSource_state {r r' : StreamRedactor} {source : Bytes} {flushAll : Bool} {out : List OutputSegment}
    (h : r.processSource source flushAll = .ok (out, r')) : r'.state = r.state := by
  simp only [StreamRedactor.processSource, bind_eq_ok, throw_eq_error] at h
  obtain ⟨v, -, h⟩ := h
  split at h
  · simp at h
  · simp only [bind_eq_ok] at h
    obtain ⟨text, -, h⟩ := h
    split at h
    · cases h
    · simp only [bind_eq_ok] at h
      obtain ⟨_, -, _, -, _, -, _, -, h⟩ := h
      split at h
      · cases h
      · simp only [Except.ok.injEq, Prod.mk.injEq] at h
        rw [← h.2]

theorem push_state {r r' : StreamRedactor} {chunk : Bytes} {out : List OutputSegment}
    (h : r.push chunk = .ok (out, r')) : r'.state = r.state := by
  unfold StreamRedactor.push at h
  split at h
  · simp only [Except.ok.injEq, Prod.mk.injEq] at h
    rw [← h.2]
  · split at h
    · exact processSource_state h
    · have hst := processSource_state h
      exact hst

theorem finish_state {r r' : StreamRedactor} {out : List OutputSegment}
    (h : r.finish = .ok (out, r')) : r'.state = r.state := by
  unfold StreamRedactor.finish at h
  split at h
  · simp only [Except.ok.injEq, Prod.mk.injEq] at h
    rw [← h.2]
  · have hst := processSource_state h
    exact hst

/-- A fresh redactor. -/
theorem withMaxCapacity_of_pos {vault : PiiVault} {maxCapacity : Nat} (h : 0 < maxCapacity) :
    StreamRedactor.withMaxCapacity vault maxCapacity = .ok ⟨vault.engineState, [], maxCapacity, h⟩ := by
  rw [StreamRedactor.withMaxCapacity, StreamRedactor.withStateMaxCapacity, dif_pos h]

theorem withStateMaxCapacity_ok {state : EngineState} {maxCapacity : Nat} {r : StreamRedactor}
    (h : StreamRedactor.withStateMaxCapacity state maxCapacity = .ok r) :
    r.state = state ∧ r.pending = [] ∧ r.maxCapacity = maxCapacity := by
  unfold StreamRedactor.withStateMaxCapacity at h
  split at h
  · simp only [Except.ok.injEq] at h
    rw [← h]
    exact ⟨rfl, rfl, rfl⟩
  · cases h

theorem EngineState.aligned_new (build : Builder) {patterns replacements : List String}
    (h : patterns.length = replacements.length) : (EngineState.new build patterns replacements).Aligned := by
  simpa [EngineState.Aligned, EngineState.new] using h

/-! ## `push` and `finish` -/

/-- How far `source` is complete characters, and what is left is the head of one more. -/
theorem validLen_ok {source : Bytes} {v : Nat} (h : StreamRedactor.validLen source = .ok v) :
    v ≤ source.length ∧ source.length ≤ v + 3 ∧ Utf8.Valid (source.take v) := by
  unfold StreamRedactor.validLen at h
  cases hw : Utf8.walk [] source with
  | none =>
    obtain ⟨n, j, he⟩ := @Utf8.check_refused source [] 0 0 hw
    simp [Utf8.fromUtf8, he] at h
  | some rs =>
    rcases Utf8.fromUtf8_of_walk hw with ⟨rfl, he⟩ | ⟨t, tail, rfl, ht, _, hlen, _, he⟩
    · simp only [he, Except.ok.injEq] at h
      subst h
      exact ⟨Nat.le_refl _, by omega, by rw [List.take_length]; exact hw⟩
    · simp only [he, Except.ok.injEq] at h
      subst h
      exact ⟨by simp, by simp; omega, by simpa using ht⟩

/-- The head of a valid text is never refused. -/
theorem validLen_of_valid {source rest : Bytes} (h : Utf8.Valid (source ++ rest)) :
    ∃ v, StreamRedactor.validLen source = .ok v := by
  obtain ⟨rs, hw, _⟩ := h.walk_left
  unfold StreamRedactor.validLen
  rcases Utf8.fromUtf8_of_walk hw with ⟨_, he⟩ | ⟨t, tail, _, _, _, _, _, he⟩
  · exact ⟨_, by rw [he]⟩
  · exact ⟨_, by rw [he]⟩

/-- The complete characters of `source`. -/
def complete (source : Bytes) : Bytes :=
  match StreamRedactor.validLen source with
  | .ok v => source.take v
  | .error _ => []

theorem complete_eq {source : Bytes} {v : Nat} (h : StreamRedactor.validLen source = .ok v) :
    complete source = source.take v := by
  simp only [complete, h]

theorem complete_split (source : Bytes) : ∃ tail, source = complete source ++ tail := by
  unfold complete
  split
  · exact ⟨_, (List.take_append_drop _ _).symm⟩
  · exact ⟨source, rfl⟩

theorem extension_eq {source : Bytes} {lo hi : Nat} (h1 : lo ≤ hi) (h2 : hi ≤ source.length) :
    StreamRedactor.extension source lo hi = .ok ((source.take hi).drop lo) := by
  unfold StreamRedactor.extension
  split
  · rw [slice, if_pos ⟨h1, h2⟩]
  · rw [List.drop_eq_nil_of_le (by simp; omega)]

section

variable {r r' : StreamRedactor} {source chunk : Bytes} {v : Nat} {out : List OutputSegment}

/-- Where `source` is cut. -/
def EngineState.cut (state : EngineState) (source : Bytes) : Nat := state.safeLen (complete source)

theorem cut_le_validLen (state : EngineState) (hv : StreamRedactor.validLen source = .ok v) : state.cut source ≤ v := by
  have hle := (validLen_ok hv).1
  have hsafe := @safeLen_le state (complete source)
  rw [EngineState.cut]
  rw [complete_eq hv] at hsafe ⊢
  simp only [List.length_take] at hsafe
  omega

/-- A push redacts up to the cut and holds the rest, whatever the redaction does. -/
theorem processSource_cut (hp : r.pending = []) (hv : StreamRedactor.validLen source = .ok v) :
    r.processSource source false =
      orPanic (r.redactSource source (r.state.cut source)) >>= fun output =>
        if r.maxCapacity < (source.drop (r.state.cut source)).length then .error (.err .bufferLimitExceeded)
        else .ok (output, { r with pending := source.drop (r.state.cut source) }) := by
  obtain ⟨hle, _, htext⟩ := validLen_ok hv
  have hcut := cut_le_validLen r.state hv
  have hsafe : (List.take (r.state.safeLen (source.take v)) (source.take v)).length = r.state.cut source := by
    rw [EngineState.cut, complete_eq hv] at *
    simp only [List.length_take]
    omega
  -- the held text and the partial character are one tail of the source
  have hheld := extension_eq hcut hle
  have htail := extension_eq hle (Nat.le_refl _)
  rw [List.take_length] at htail
  have hjoin := (drop_split hcut hle).symm
  simp only [StreamRedactor.processSource, hv, orErr_ok, slice_to hle, orPanic_ok, bind_ok,
    htext.fromUtf8_eq, StreamRedactor.safeLength, determineSafeBoundaryState_eq, hsafe,
    pure_eq_ok, Bool.false_eq_true, false_and, if_false, hheld, htail, hp,
    List.nil_append, hjoin]

theorem processSource_false (ha : r.state.Aligned) (hp : r.pending = [])
    (hv : StreamRedactor.validLen source = .ok v) :
    r.processSource source false =
      if r.maxCapacity < (source.drop (r.state.cut source)).length then .error (.err .bufferLimitExceeded)
      else .ok (r.state.segments (source.take (r.state.cut source)),
        { r with pending := source.drop (r.state.cut source) }) := by
  have hle := Nat.le_trans (cut_le_validLen r.state hv) (validLen_ok hv).1
  rw [processSource_cut hp hv, redactSource_eq r ha hle, orPanic_ok, bind_ok]

/-- A flush takes complete text only, and all of it, whatever the redaction does. -/
theorem processSource_flush (hp : r.pending = []) :
    r.processSource source true =
      if Utf8.Valid source then orPanic (r.redactSource source source.length) >>= fun output => .ok (output, r)
      else .error (.err .invalidUtf8) := by
  cases hv : StreamRedactor.validLen source with
  | error e =>
    have he : e = .invalidUtf8 := by
      unfold StreamRedactor.validLen at hv
      split at hv <;> simp_all
    have hno : ¬ Utf8.Valid source := by
      intro h
      simp [StreamRedactor.validLen, h.fromUtf8_eq] at hv
    simp only [if_neg hno, StreamRedactor.processSource, hv, he, orErr_error, bind_error]
  | ok v =>
    obtain ⟨hle, _, htext⟩ := validLen_ok hv
    by_cases hall : v = source.length
    · subst hall
      rw [List.take_length] at htext
      have hext := extension_eq (Nat.le_refl source.length) (Nat.le_refl source.length)
      rw [List.take_length, List.drop_length] at hext
      have hcap : ¬ r.maxCapacity < ([] : Bytes).length := by simp
      simp only [if_pos htext, StreamRedactor.processSource, hv, orErr_ok, slice_to hle, orPanic_ok, bind_ok,
        List.take_length, htext.fromUtf8_eq, StreamRedactor.safeLength, ne_eq, not_true_eq_false,
        and_false, if_false, if_true, hext, hp, List.nil_append, hcap]
      rw [← hp]
    · have hno : ¬ Utf8.Valid source := by
        intro h
        simp only [StreamRedactor.validLen, h.fromUtf8_eq, Except.ok.injEq] at hv
        exact hall hv.symm
      simp only [if_neg hno, StreamRedactor.processSource, hv, orErr_ok, bind_ok, ne_eq, hall, not_false_eq_true,
        and_self, if_true, throw_eq_error, bind_error]

theorem processSource_true (ha : r.state.Aligned) (hp : r.pending = []) :
    r.processSource source true = if Utf8.Valid source then .ok (r.state.segments source, r)
      else .error (.err .invalidUtf8) := by
  rw [processSource_flush hp, redactSource_eq r ha (Nat.le_refl _), List.take_length, orPanic_ok, bind_ok]

theorem push_eq (ha : r.state.Aligned) (hc : chunk ≠ [])
    (hv : StreamRedactor.validLen (r.pending ++ chunk) = .ok v) :
    r.push chunk =
      if r.maxCapacity < ((r.pending ++ chunk).drop (r.state.cut (r.pending ++ chunk))).length then
        .error (.err .bufferLimitExceeded)
      else .ok (r.state.segments ((r.pending ++ chunk).take (r.state.cut (r.pending ++ chunk))),
        { r with pending := (r.pending ++ chunk).drop (r.state.cut (r.pending ++ chunk)) }) := by
  unfold StreamRedactor.push
  rw [if_neg hc]
  split
  · rename_i hp
    rw [hp, List.nil_append] at hv ⊢
    exact processSource_false ha hp hv
  · exact processSource_false (r := { r with pending := [] }) ha rfl hv

theorem push_refused (hc : chunk ≠ []) {e : StreamRedactionError}
    (hv : StreamRedactor.validLen (r.pending ++ chunk) = .error e) : r.push chunk = .error (.err e) := by
  unfold StreamRedactor.push
  rw [if_neg hc]
  split
  · rename_i hp
    rw [hp, List.nil_append] at hv
    simp only [StreamRedactor.processSource, hv, orErr_error, bind_error]
  · simp only [StreamRedactor.processSource, hv, orErr_error, bind_error]

/-- What a successful `push` did. -/
structure Pushed (r : StreamRedactor) (chunk : Bytes) (out : List OutputSegment) (r' : StreamRedactor) : Prop where
  state_eq : r'.state = r.state
  out_eq : chunk ≠ [] → out = r.state.segments ((r.pending ++ chunk).take (r.state.cut (r.pending ++ chunk)))
  pending_eq : chunk ≠ [] → r'.pending = (r.pending ++ chunk).drop (r.state.cut (r.pending ++ chunk))
  idle : chunk = [] → out = [] ∧ r' = r

theorem push_ok (ha : r.state.Aligned) (h : r.push chunk = .ok (out, r')) : Pushed r chunk out r' := by
  by_cases hc : chunk = []
  · simp only [StreamRedactor.push, hc, if_true, Except.ok.injEq, Prod.mk.injEq] at h
    obtain ⟨rfl, rfl⟩ := h
    exact ⟨rfl, fun h => absurd hc h, fun h => absurd hc h, fun _ => ⟨rfl, rfl⟩⟩
  · cases hv : StreamRedactor.validLen (r.pending ++ chunk) with
    | error e => rw [push_refused hc hv] at h; cases h
    | ok v =>
      rw [push_eq ha hc hv] at h
      split at h
      · cases h
      · simp only [Except.ok.injEq, Prod.mk.injEq] at h
        obtain ⟨rfl, rfl⟩ := h
        exact ⟨rfl, fun _ => rfl, fun _ => rfl, fun h => absurd h hc⟩

theorem finish_eq (ha : r.state.Aligned) :
    r.finish = if r.pending = [] then .ok ([], r)
      else if Utf8.Valid r.pending then .ok (r.state.segments r.pending, { r with pending := [] })
      else .error (.err .invalidUtf8) := by
  unfold StreamRedactor.finish
  split
  · rfl
  · exact processSource_true (r := { r with pending := [] }) ha rfl

theorem finish_ok (ha : r.state.Aligned) (h : r.finish = .ok (out, r')) :
    (r.pending = [] ∧ out = []) ∨ (r.pending ≠ [] ∧ out = r.state.segments r.pending) := by
  rw [finish_eq ha] at h
  split at h
  · simp only [Except.ok.injEq, Prod.mk.injEq] at h
    exact Or.inl ⟨‹_›, h.1.symm⟩
  · split at h
    · simp only [Except.ok.injEq, Prod.mk.injEq] at h
      exact Or.inr ⟨‹_›, h.1.symm⟩
    · cases h

theorem finish_of_valid (ha : r.state.Aligned) (hv : Utf8.Valid r.pending) :
    ∃ out r', r.finish = .ok (out, r') := by
  rw [finish_eq ha, if_pos hv]
  split <;> exact ⟨_, _, rfl⟩

/-- The redactor's own faults end in an error, not in a panic. -/
theorem push_no_panic (ha : r.state.Aligned) (chunk : Bytes) (p : Panic) :
    r.push chunk ≠ .error (.panic p) := by
  by_cases hc : chunk = []
  · simp [StreamRedactor.push, hc]
  · cases hv : StreamRedactor.validLen (r.pending ++ chunk) with
    | error e =>
      rw [push_refused hc hv]
      simp
    | ok v =>
      rw [push_eq ha hc hv]
      split <;> simp

theorem finish_no_panic (ha : r.state.Aligned) (p : Panic) : r.finish ≠ .error (.panic p) := by
  rw [finish_eq ha]
  split
  · simp
  · split <;> simp

/-- What a `push` holds back: a pattern's worth of text and a partial character. -/
theorem pending_le {state : EngineState} (hv : StreamRedactor.validLen source = .ok v) :
    (source.drop (state.cut source)).length ≤ state.maxPatternLen + 3 := by
  obtain ⟨hle, hlt, _⟩ := validLen_ok hv
  have hheld := @held_le state (complete source)
  rw [List.length_drop, EngineState.cut]
  rw [complete_eq hv, List.length_take] at *
  omega

/-- What it redacts is complete text. -/
theorem valid_take_cut {state : EngineState} (hv : StreamRedactor.validLen source = .ok v) :
    Utf8.Valid (source.take (state.cut source)) := by
  obtain ⟨hle, _, htext⟩ := validLen_ok hv
  have hcut := @safeLen_le state (complete source)
  have hb := @safeLen_boundary state (complete source)
  rw [complete_eq hv] at hcut hb
  have := (htext.cut hb).1
  rw [List.length_take] at hcut
  rwa [List.take_take, Nat.min_eq_left (by omega), ← complete_eq hv] at this

end

end PiiProxy
