import PiiProxy.RedactorRuns

/-!
# Which streams the redactor refuses

`process_source` (engine.rs:144) validates the pending bytes and the new chunk only. What
was emitted before is complete text, so that is validating the whole stream: a push
is refused when the bytes so far cannot be extended to UTF-8, `finish` when they are
the head of UTF-8 that is not complete.

* `push_total`, `push_valid`, `push_invalid` — one push
* `pushAll_total` — the pushes of an extendable stream
* `stream_utf8` — whole runs of a redactor of a policy
-/

namespace PiiProxy

open Utf8 (encode Valid Extendable)

/-- `valid_len` is defined on what can be extended. -/
theorem validLen_of_extendable {source : Bytes} (h : Extendable source) :
    ∃ v, StreamRedactor.validLen source = .ok v := by
  obtain ⟨rest, hv⟩ := h
  exact validLen_of_valid hv

theorem validLen_of_not_extendable {source : Bytes} (h : ¬ Extendable source) :
    StreamRedactor.validLen source = .error .invalidUtf8 := by
  have hw : Utf8.walk [] source = none := by
    rw [Utf8.extendable_iff, not_exists] at h
    exact Option.eq_none_iff_forall_ne_some.2 h
  obtain ⟨n, k, he⟩ := @Utf8.check_refused source [] 0 0 hw
  simp [StreamRedactor.validLen, Utf8.fromUtf8, he]

namespace StreamRedactor

variable {r r' : StreamRedactor} {chunk : Bytes} {out : List OutputSegment}

/-- A push of bytes that can be extended succeeds, given room for what is held back. -/
theorem push_total (ha : r.state.Aligned) (hcap : r.state.maxPatternLen + 3 ≤ r.maxCapacity)
    (hext : Extendable (r.pending ++ chunk)) : ∃ out r', r.push chunk = .ok (out, r') ∧
      r'.maxCapacity = r.maxCapacity := by
  by_cases hc : chunk = []
  · exact ⟨[], r, by simp [push, hc], rfl⟩
  · obtain ⟨v, hv⟩ := validLen_of_extendable hext
    have hroom := @pending_le _ _ r.state hv
    rw [push_eq ha hc hv, if_neg (by omega)]
    exact ⟨_, _, rfl, rfl⟩

/-- What was released by a push is complete text. -/
theorem push_valid (ha : r.state.Aligned) (h : r.push chunk = .ok (out, r')) :
    ∃ text, Valid text ∧ r.pending ++ chunk = text ++ r'.pending := by
  have pushed := push_ok ha h
  by_cases hc : chunk = []
  · obtain ⟨-, rfl⟩ := pushed.idle hc
    exact ⟨[], Utf8.valid_nil, by simp [hc]⟩
  · cases hv : validLen (r.pending ++ chunk) with
    | error e =>
      rw [push_refused hc hv] at h
      cases h
    | ok v => exact ⟨_, valid_take_cut hv, by rw [pushed.pending_eq hc, List.take_append_drop]⟩

/-- A push after which the bytes in hand cannot be extended, for pending bytes that can. -/
theorem push_invalid (hext : Extendable r.pending) (hno : ¬ Extendable (r.pending ++ chunk)) :
    r.push chunk = .error (.err .invalidUtf8) := by
  have hc : chunk ≠ [] := by
    rintro rfl
    rw [List.append_nil] at hno
    exact hno hext
  exact push_refused hc (validLen_of_not_extendable hno)

/-- **The pushes of an extendable stream succeed**, and what they released is complete text. -/
theorem pushAll_total : ∀ {chunks : List Bytes} {r : StreamRedactor}, r.state.Aligned →
    r.state.maxPatternLen + 3 ≤ r.maxCapacity → Extendable (r.pending ++ chunks.flatten) →
    ∃ outs r', r.pushAll chunks = .ok (outs, r') ∧ r'.state = r.state ∧
      ∃ text, Valid text ∧ r.pending ++ chunks.flatten = text ++ r'.pending
  | [], r, _, _, _ => ⟨[], r, rfl, rfl, [], Utf8.valid_nil, by simp⟩
  | chunk :: chunks, r, ha, hcap, hext => by
    rw [List.flatten_cons, ← List.append_assoc] at hext
    obtain ⟨out, r₁, hp, hcap₁⟩ := push_total ha hcap hext.left
    have hst := (push_ok ha hp).state_eq
    obtain ⟨t₁, hv₁, he₁⟩ := push_valid ha hp
    rw [he₁, List.append_assoc, hv₁.extendable_append] at hext
    obtain ⟨outs, r', hps, hst', t₂, hv₂, he₂⟩ := pushAll_total (by rw [hst]; exact ha) (by rw [hst, hcap₁]; exact hcap) hext
    refine ⟨out :: outs, r', pushAll_cons hp hps, hst'.trans hst, t₁ ++ t₂, hv₁.append hv₂, ?_⟩
    rw [List.flatten_cons, ← List.append_assoc, he₁, List.append_assoc, he₂, List.append_assoc]

theorem redactChunks_of_pushAll {chunks : List Bytes} {outs : List (List OutputSegment)}
    (h : r.pushAll chunks = .ok (outs, r')) :
    r.redactChunks chunks = r'.finish >>= fun p => .ok (outs.flatten ++ p.1) := by
  simp only [redactChunks, h, bind_ok]
  rfl

/-- Valid text never makes a run fail, given room for what is held back. -/
theorem redactChunks_total {chunks : List Bytes} (ha : r.state.Aligned) (hv : Valid (r.pending ++ chunks.flatten))
    (hcap : r.state.maxPatternLen + 3 ≤ r.maxCapacity) : ∃ segs, r.redactChunks chunks = .ok segs := by
  obtain ⟨outs, r', hps, hst, text, htext, he⟩ := pushAll_total ha hcap hv.extendable
  rw [he] at hv
  obtain ⟨out, r'', hf⟩ := finish_of_valid (by rw [hst]; exact ha) (hv.right htext)
  exact ⟨_, by rw [redactChunks_of_pushAll hps, hf, bind_ok]⟩

theorem redactChunks_push_error {post : List Bytes} {e : Fault} (he : r'.push chunk = .error e) :
    ∀ {pre : List Bytes} {r : StreamRedactor} {outs : List (List OutputSegment)},
      r.pushAll pre = .ok (outs, r') → r.redactChunks (pre ++ chunk :: post) = .error e
  | [], r, outs, h => by
    simp only [pushAll, Except.ok.injEq, Prod.mk.injEq] at h
    rw [List.nil_append, redactChunks_cons, h.2, he, bind_error]
  | c :: pre, r, outs, h => by
    obtain ⟨out, r₁, rest, hp, hr, -⟩ := pushAll_cons_ok h
    rw [List.cons_append, redactChunks_cons, hp, bind_ok]
    simp only [redactChunks_push_error he hr, bind_error]

end StreamRedactor

/-- The chunk after which the bytes cannot be extended. -/
theorem exists_first_refused : ∀ {chunks : List Bytes} {seen : Bytes}, Extendable seen →
    ¬ Extendable (seen ++ chunks.flatten) → ∃ pre chunk post, chunks = pre ++ chunk :: post ∧
      Extendable (seen ++ pre.flatten) ∧ ¬ Extendable (seen ++ pre.flatten ++ chunk)
  | [], seen, hs, hno => by
    rw [List.flatten_nil, List.append_nil] at hno
    exact absurd hs hno
  | c :: cs, seen, hs, hno => by
    by_cases hc : Extendable (seen ++ c)
    · rw [List.flatten_cons, ← List.append_assoc] at hno
      obtain ⟨pre, chunk, post, rfl, h1, h2⟩ := exists_first_refused hc hno
      exact ⟨c :: pre, chunk, post, rfl, by simpa using h1, by simpa using h2⟩
    · exact ⟨[], c, cs, rfl, by simpa using hs, by simpa using hc⟩

/-- A redactor before its first chunk, with room for a pattern and a partial character. -/
structure StreamRedactor.Fresh (r : StreamRedactor) : Prop where
  aligned : r.state.Aligned
  room : r.state.maxPatternLen + 3 ≤ r.maxCapacity
  empty : r.pending = []

namespace StreamRedactor.Fresh

variable {r : StreamRedactor} {chunks : List Bytes}

/-- The pushes of an extendable prefix leave bytes that are extended in the same ways. -/
theorem pushAll (h : r.Fresh) (hext : Extendable chunks.flatten) : ∃ outs r', r.pushAll chunks = .ok (outs, r') ∧
    r'.state.Aligned ∧ ∃ text, Valid text ∧ chunks.flatten = text ++ r'.pending := by
  obtain ⟨outs, r', hps, hst, htext⟩ := pushAll_total h.aligned h.room (by rwa [h.empty, List.nil_append])
  rw [h.empty, List.nil_append] at htext
  exact ⟨outs, r', hps, by rw [hst]; exact h.aligned, htext⟩

theorem finish_invalid (h : r.Fresh) (hext : Extendable chunks.flatten) (hno : ¬ Valid chunks.flatten) :
    ∃ outs r', r.pushAll chunks = .ok (outs, r') ∧ r'.finish = .error (.err .invalidUtf8) := by
  obtain ⟨outs, r', hps, ha, text, hv, he⟩ := h.pushAll hext
  rw [he, hv.valid_append] at hno
  have hne : r'.pending ≠ [] := fun h => hno (by rw [h]; exact Utf8.valid_nil)
  exact ⟨outs, r', hps, by rw [finish_eq ha, if_neg hne, if_neg hno]⟩

theorem refuses {pre : List Bytes} {chunk : Bytes} (h : r.Fresh) (hext : Extendable pre.flatten)
    (hno : ¬ Extendable (pre.flatten ++ chunk)) :
    ∃ outs r', r.pushAll pre = .ok (outs, r') ∧ r'.push chunk = .error (.err .invalidUtf8) := by
  obtain ⟨outs, r', hps, -, text, hv, he⟩ := h.pushAll hext
  rw [he, hv.extendable_append] at hext
  rw [he, List.append_assoc, hv.extendable_append] at hno
  exact ⟨outs, r', hps, push_invalid hext hno⟩

theorem redactChunks_invalid (h : r.Fresh) (hno : ¬ Valid chunks.flatten) :
    r.redactChunks chunks = .error (.err .invalidUtf8) := by
  by_cases hext : Extendable chunks.flatten
  · obtain ⟨outs, r', hps, hf⟩ := h.finish_invalid hext hno
    rw [redactChunks_of_pushAll hps, hf, bind_error]
  · obtain ⟨pre, chunk, post, rfl, h1, h2⟩ := exists_first_refused Utf8.valid_nil.extendable hext
    obtain ⟨outs, r', hps, he⟩ := h.refuses h1 h2
    exact redactChunks_push_error he hps

end StreamRedactor.Fresh

/-- **Refused exactly when it is not UTF-8, at the first moment this shows.** The chunks of any byte
sequence, pushed to a fresh redactor that has room for a pattern and a partial character. -/
theorem stream_utf8 (build : Builder) {patterns replacements : List String}
    (hlen : patterns.length = replacements.length) {maxCapacity : Nat} (hcap : maxLen patterns + 3 ≤ maxCapacity)
    {r : StreamRedactor} (hr : StreamRedactor.withStateMaxCapacity (.new build patterns replacements) maxCapacity = .ok r)
    (chunks : List Bytes) :
    ((∃ segs, r.redactChunks chunks = .ok segs) ↔ Valid chunks.flatten) ∧
    (¬ Valid chunks.flatten → r.redactChunks chunks = .error (.err .invalidUtf8)) ∧
    (∀ pre chunk post, chunks = pre ++ chunk :: post → Extendable pre.flatten → ¬ Extendable (pre.flatten ++ chunk) →
      ∃ outs r', r.pushAll pre = .ok (outs, r') ∧ r'.push chunk = .error (.err .invalidUtf8)) ∧
    (Extendable chunks.flatten → ¬ Valid chunks.flatten →
      ∃ outs r', r.pushAll chunks = .ok (outs, r') ∧ r'.finish = .error (.err .invalidUtf8)) := by
  obtain ⟨hst, hp, hmax⟩ := withStateMaxCapacity_ok hr
  have hfresh : r.Fresh := by
    refine ⟨?_, ?_, hp⟩
    · rw [hst]
      exact EngineState.aligned_new build hlen
    · rw [hmax, hst]
      exact hcap
  refine ⟨⟨?_, ?_⟩, hfresh.redactChunks_invalid, fun pre chunk _ _ => hfresh.refuses, hfresh.finish_invalid⟩
  · rintro ⟨segs, hs⟩
    by_contra hno
    rw [hfresh.redactChunks_invalid hno] at hs
    cases hs
  · intro hv
    apply StreamRedactor.redactChunks_total hfresh.aligned _ hfresh.room
    rwa [hp, List.nil_append]

/-- Three bytes of a character of four, then a letter: the last push is refused. -/
theorem stream_utf8_cut :
    ∃ outs r', (StreamRedactor.mk (defaultEngine (Search.AhoCorasick.scan asciiLower)) [] 11 (by decide)).pushAll
        [encode "my pass", [0xF0, 0x9F], [], [0x9A]] = .ok (outs, r') ∧
      r'.push (encode "word") = .error (.err .invalidUtf8) := by
  have hext : Extendable ([encode "my pass", [0xF0, 0x9F], [], [0x9A]] : List Bytes).flatten := ⟨[0x80], by decide⟩
  have hno : ¬ Extendable (([encode "my pass", [0xF0, 0x9F], [], [0x9A]] : List Bytes).flatten ++ encode "word") := by
    rw [Utf8.extendable_iff]
    rintro ⟨rs, hw⟩
    cases hw
  have hlen : defaultPatterns.length = (defaultPatterns.map fun _ => "[REDACTED]").length := rfl
  have hcap : maxLen defaultPatterns + 3 ≤ 11 := by decide
  exact (stream_utf8 (Search.AhoCorasick.scan asciiLower) hlen hcap rfl _).2.2.1 _ _ [] rfl hext hno

end PiiProxy
