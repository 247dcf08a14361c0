import PiiProxy.RedactorUtf8

/-!
# Streaming against `redact_text`

`redact_text` slices a `str`, so it could panic inside a character. It does not: a
match is a pattern up to ASCII case, and text up to ASCII case is text
(`occurs_boundary`). What it returns is the rendering of `EngineState.redact`
(`redactText_eq`), which the runs of `RedactorRuns` are compared with.
-/

namespace PiiProxy

open Utf8 (encode)
open Search (Match)

/-! ## Matches lie on character boundaries -/

theorem step_asciiLower {rs : List Utf8.Range} (ho : Utf8.Owed rs) (x : UInt8) :
    Utf8.step rs (asciiLower x) = Utf8.step rs x := by
  unfold asciiLower
  split
  · rename_i h
    have hx : x < 0x80 := by
      simp only [UInt8.le_iff_toNat_le, UInt8.lt_iff_toNat_lt] at *
      have := h.2
      simp at *; omega
    have hy : x + 32 < 0x80 := by
      simp only [UInt8.le_iff_toNat_le, UInt8.lt_iff_toNat_lt, UInt8.toNat_add] at *
      have := h.2
      simp at *; omega
    match rs, ho with
    | [], _ => simp [Utf8.step, Utf8.follow, hx, hy]
    | (lo, hi) :: rs, ho =>
      -- an owed byte is never ASCII
      have hlo := (ho (lo, hi) (by simp)).1
      have h1 : ¬ lo ≤ x := fun h' => absurd (UInt8.lt_of_lt_of_le hx (UInt8.le_trans hlo h')) (UInt8.lt_irrefl _)
      have h2 : ¬ lo ≤ x + 32 := fun h' =>
        absurd (UInt8.lt_of_lt_of_le hy (UInt8.le_trans hlo h')) (UInt8.lt_irrefl _)
      simp [Utf8.step, h1, h2]
  · rfl

theorem walk_asciiLower : ∀ {b : Bytes} {rs : List Utf8.Range}, Utf8.Owed rs →
    Utf8.walk rs (b.map asciiLower) = Utf8.walk rs b
  | [], rs, _ => rfl
  | x :: b, rs, ho => by
    simp only [List.map_cons, Utf8.walk, step_asciiLower ho]
    cases h : Utf8.step rs x with
    | none => rfl
    | some rs' => exact walk_asciiLower (Utf8.step_owed ho h).1

/-- Bytes that are text up to ASCII case are text. -/
theorem valid_asciiLower {b : Bytes} : Utf8.Valid (b.map asciiLower) ↔ Utf8.Valid b := by
  rw [Utf8.Valid, Utf8.Valid, walk_asciiLower (by simp [Utf8.Owed])]

section

variable {state : EngineState} {text w pre post : Bytes} {m : Match} {p : String}

/-- Text around text is text: what follows `w` starts a character. -/
theorem valid_around (hp : p ≠ "") (hw : w.map asciiLower = (encode p).map asciiLower)
    (h : Utf8.Valid (pre ++ w ++ post)) : Utf8.Valid w ∧ Utf8.Valid (w ++ post) ∧ Utf8.Valid post := by
  have hwv : Utf8.Valid w := by
    rw [← valid_asciiLower, hw, valid_asciiLower]
    exact Utf8.valid_encode p
  have hwp : Utf8.Valid (w ++ post) := by
    cases w with
    | nil => simp [encode_ne_nil hp] at hw
    | cons x w =>
      rw [List.append_assoc, List.cons_append] at h
      exact (h.split_at hwv.head).2
  exact ⟨hwv, hwp, hwp.right hwv⟩

/-- A match, as a piece of the text. -/
theorem occurs_split (h : Search.Occurs asciiLower (state.patterns.map encode) text m) :
    ∃ p w, p ∈ state.patterns ∧ w.map asciiLower = (encode p).map asciiLower ∧
      m.stop = m.start + w.length ∧ text = text.take m.start ++ w ++ text.drop m.stop := by
  obtain ⟨q, hq, hs, hle, hat⟩ := h
  obtain ⟨p, hmem, rfl⟩ := List.mem_map.1 (List.mem_of_getElem? hq)
  have hw := hat.take_eq
  rw [List.length_map, ← List.map_drop, ← List.map_take] at hw
  refine ⟨p, (text.drop m.start).take (encode p).length, hmem, hw, ?_, ?_⟩
  · rw [hs, List.length_take, List.length_drop]
    omega
  · conv => lhs; rw [← List.take_append_drop m.start text,
      ← List.take_append_drop (encode p).length (text.drop m.start)]
    rw [List.append_assoc, List.drop_drop, hs]

/-- **Matches lie on character boundaries.** -/
theorem occurs_boundary (hne : ∀ p ∈ state.patterns, p ≠ "") (hv : Utf8.Valid text)
    (h : Search.Occurs asciiLower (state.patterns.map encode) text m) :
    Utf8.isCharBoundary text m.start = true ∧ Utf8.isCharBoundary text m.stop = true := by
  have h1 := h.start_le
  have h2 := h.stop_le
  obtain ⟨p, w, hp, hw, hlen, ht⟩ := occurs_split h
  have hv' := hv
  rw [ht] at hv'
  obtain ⟨_, hwp, hpost⟩ := valid_around (hne p hp) hw hv'
  have hstart : (text.take m.start).length = m.start := by simp; omega
  have hstop : (text.take m.start ++ w).length = m.stop := by rw [List.length_append, hstart, hlen]
  constructor
  · have := Utf8.isCharBoundary_of_valid (a := text.take m.start) hwp
    rwa [← List.append_assoc, ← ht, hstart] at this
  · have := Utf8.isCharBoundary_of_valid (a := text.take m.start ++ w) hpost
    rwa [← ht, hstop] at this

/-! ## `redact_text` -/

theorem strSlice_eq {lo hi : Nat} (h1 : lo ≤ hi) (h2 : hi ≤ text.length)
    (hlo : Utf8.isCharBoundary text lo = true) (hhi : Utf8.isCharBoundary text hi = true) :
    strSlice text lo hi = .ok ((text.take hi).drop lo) := by
  rw [strSlice, if_pos ⟨h1, h2, hlo, hhi⟩]

/-- A vault as `PiiVault::new` builds it. -/
structure PiiVault.Built (vault : PiiVault) : Prop where
  aligned : vault.engineState.Aligned
  replacements : vault.replacementStrings = vault.engineState.replacementStrings
  findIter : vault.searcher.findIter = vault.engineState.ac.findIter

theorem PiiVault.built_of_new {build : Builder} {patterns replacements : List String} {vault : PiiVault}
    (h : PiiVault.new build patterns replacements = .ok vault) :
    vault.Built ∧ vault.engineState = EngineState.new build patterns replacements := by
  unfold PiiVault.new at h
  split at h
  · rename_i hlen
    simp only [Except.ok.injEq] at h
    subst h
    exact ⟨⟨by simpa [EngineState.Aligned, EngineState.new] using hlen, rfl, rfl⟩, rfl⟩
  · cases h

theorem StreamRedactor.state_of_withMaxCapacity {vault : PiiVault} {maxCapacity : Nat} {r : StreamRedactor}
    (hr : StreamRedactor.withMaxCapacity vault maxCapacity = .ok r) : r.state = vault.engineState :=
  (withStateMaxCapacity_ok hr).1

theorem redactTextLoop_eq {vault : PiiVault} (hb : vault.Built)
    (hne : ∀ p ∈ vault.engineState.patterns, p ≠ "") (hv : Utf8.Valid text) : ∀ (ms : List Match) (last : Nat),
    Search.Spans asciiLower (vault.engineState.patterns.map encode) text last ms → last ≤ text.length →
    Utf8.isCharBoundary text last = true →
    redactTextLoop vault text last ms = .ok ((tokensFrom vault.engineState text last ms).flatMap Token.bytes)
  | [], last, _, hle, hl => by
    rw [redactTextLoop, strSlice_from hl hle, tokensFrom, flatMap_byte]
  | m :: ms, last, ⟨hocc, hlast, hrest⟩, hle, hl => by
    obtain ⟨hb1, hb2⟩ := occurs_boundary hne hv hocc
    have h1 := hocc.start_le
    have h2 := hocc.stop_le
    have hpat := hocc.pattern_lt
    have hidx : index vault.replacementStrings m.pattern = .ok (vault.replacementStrings.getD m.pattern "") := by
      refine index_of_lt "" ?_
      have := hb.aligned
      rw [EngineState.Aligned, vault.engineState.replacements_eq, List.length_map] at this
      rw [hb.replacements, ← this]
      simpa using hpat
    have hrep : vault.engineState.replacements.getD m.pattern [] =
        encode (vault.replacementStrings.getD m.pattern "") := by
      rw [hb.replacements, vault.engineState.replacements_eq, List.getD_eq_getElem?_getD, List.getElem?_map,
        List.getD_eq_getElem?_getD]
      cases vault.engineState.replacementStrings[m.pattern]? <;> rfl
    rw [redactTextLoop, if_pos hlast, strSlice_eq hlast (by omega) hl hb1, hidx,
      redactTextLoop_eq hb hne hv ms m.stop hrest h2 hb2]
    simp only [bind_ok, pure_eq_ok, tokensFrom, List.flatMap_append, List.flatMap_cons, flatMap_byte, hrep,
      Token.bytes, List.append_assoc]

theorem redactText_eq {vault : PiiVault} (hb : vault.Built) (hne : ∀ p ∈ vault.engineState.patterns, p ≠ "")
    (hv : Utf8.Valid text) :
    redactText vault text = .ok ((vault.engineState.redact text).flatMap Token.bytes) := by
  unfold redactText Search.AhoCorasick.find EngineState.redact
  rw [hb.findIter]
  cases h : vault.engineState.ac.findIter text with
  | nil => simp [tokensFrom, flatMap_byte]
  | cons m ms =>
    simp only [List.head?_cons]
    have hs := vault.engineState.ac.spans text
    rw [h] at hs
    exact redactTextLoop_eq hb hne hv _ 0 hs (Nat.zero_le _) rfl

end

/-! ## Patterns without borders -/

instance (patterns : List String) : Decidable (Borderless patterns) :=
  decidable_of_iff (∀ p ∈ patterns, ∀ q ∈ patterns, ∀ i ∈ List.range (encode p).length, 0 < i →
      (encode p).drop i <+: encode q → (encode p).drop i = encode q) (by
    constructor
    · intro h p hp q hq s hs hsuf hne hpre
      rw [List.suffix_iff_eq_drop] at hsuf
      have hpos := List.length_pos_iff.2 hs
      have hlt : s.length < (encode p).length := by
        by_contra hge
        exact hne (by rw [hsuf, show (encode p).length - s.length = 0 by omega, List.drop_zero])
      rw [hsuf] at hpre ⊢
      exact h p hp q hq _ (List.mem_range.2 (by omega)) (by omega) hpre
    · intro h p hp q hq i hi hpos hpre
      rw [List.mem_range] at hi
      refine h p hp q hq _ ?_ (List.drop_suffix _ _) ?_ hpre
      · exact ne_of_apply_ne List.length (by simp; omega)
      · exact ne_of_apply_ne List.length (by simp; omega))

theorem NoUpper.of_suffix {a b : Bytes} (h : NoUpper b) (hs : a <:+ b) : NoUpper a :=
  fun x hx => h x (hs.subset hx)

/-- **Streaming is `redact_text`.** However the text is cut into chunks. -/
theorem chunks_eq_redact_text (build : Builder) (patterns replacements : List String)
    (hlen : patterns.length = replacements.length) (hne : ∀ p ∈ patterns, p ≠ "")
    (hlower : ∀ p ∈ patterns, NoUpper (encode p)) (hborder : Borderless patterns)
    (text : String) (htext : NoUpper (encode text)) (chunks : List Bytes) (hchunks : chunks.flatten = encode text)
    (maxCapacity : Nat) (hcap : maxLen patterns + 3 ≤ maxCapacity) :
    ∃ vault r segs out, PiiVault.new build patterns replacements = .ok vault ∧
      StreamRedactor.withMaxCapacity vault maxCapacity = .ok r ∧ r.redactChunks chunks = .ok segs ∧
      redactText vault (encode text) = .ok out ∧ outputBytes segs = out := by
  have hvault : ∃ vault, PiiVault.new build patterns replacements = .ok vault :=
    ⟨_, by rw [PiiVault.new, if_pos hlen]⟩
  obtain ⟨vault, hnew⟩ := hvault
  obtain ⟨hbuilt, hstate⟩ := PiiVault.built_of_new hnew
  have hpats : vault.engineState.patterns = patterns := by rw [hstate]; rfl
  have hmax : vault.engineState.maxPatternLen = maxLen patterns := by rw [hstate]; rfl
  rw [← hpats] at hne hlower hborder
  have hvalid := Utf8.valid_encode text
  obtain ⟨segs, hsegs⟩ := @StreamRedactor.redactChunks_total
    ⟨vault.engineState, [], maxCapacity, by omega⟩ chunks hbuilt.aligned (by rw [hchunks]; exact hvalid) (by rw [hmax]; exact hcap)
  refine ⟨vault, _, segs, _, hnew, dif_pos (by omega), hsegs, redactText_eq hbuilt hne hvalid, ?_⟩
  have hclear := @atEveryPush_of_suffix ⟨vault.engineState, [], maxCapacity, by omega⟩ chunks
    (fun text rest => vault.engineState.ClearAt rest (vault.engineState.safeLen text)) hbuilt.aligned
    (fun t rest hs => clearAt_safeLen hne hlower hborder (htext.of_suffix (by simpa [hchunks] using hs)))
  rw [outputBytes_eq, run_tokens hbuilt.aligned hne hsegs hclear, List.nil_append, hchunks]

theorem chunks_eq_redact_text_rocket :
    Borderless defaultPatterns ∧ maxLen defaultPatterns + 3 ≤ 64 ∧
    ∃ vault r segs out, PiiVault.new (Search.AhoCorasick.scan asciiLower) defaultPatterns
        ["[REDACTED]", "[REDACTED]", "[REDACTED]"] = .ok vault ∧
      StreamRedactor.withMaxCapacity vault 64 = .ok r ∧
      r.redactChunks [encode "a pass", encode "word: ", [0xF0, 0x9F], [0x9A, 0x80]] = .ok segs ∧
      redactText vault (encode "a password: 🚀") = .ok out ∧ outputBytes segs = out :=
  ⟨by decide, by decide,
    chunks_eq_redact_text _ defaultPatterns ["[REDACTED]", "[REDACTED]", "[REDACTED]"] rfl (by decide)
      (by decide +kernel) (by decide) "a password: 🚀" (by decide +kernel) _ rfl 64
      (by decide)⟩

/-! ## Patterns that run into one another -/

/-- What keeps a cut clear: a text no longer than the longest pattern is not cut; one that a
pattern ends is cut at its end; any other before the longest pattern head that ends it. -/
def EngineState.CutClear (state : EngineState) (text rest : Bytes) : Prop :=
  state.maxPatternLen < text.length → ∀ m ∈ state.ac.findIter rest,
    (EndsPattern state text → ¬ (m.start < text.length ∧ text.length < m.stop)) ∧
    (¬ EndsPattern state text → ∀ n, IsMax (fun n => ∃ p ∈ state.patterns, HeadEnds text p n) n →
      ¬ (m.start < text.length - n ∧ text.length - n < m.stop))

theorem EngineState.CutClear.clearAt {state : EngineState} {text rest : Bytes} (h : state.CutClear text rest) :
    state.ClearAt rest (state.safeLen text) := by
  rintro m hm ⟨h1, h2⟩
  unfold EngineState.safeLen at h1 h2
  split at h1
  · omega
  rename_i hlong
  rw [if_neg hlong] at h2
  obtain ⟨hend, hhead⟩ := h (by omega) m hm
  split at h1
  · rename_i he
    rw [if_pos he] at h2
    exact hend he ⟨h1, h2⟩
  · rename_i he
    rw [if_neg he] at h2
    exact hhead he _ (retainLen_spec state.patterns text) ⟨h1, h2⟩

/-- **Two chunkings agree** when no push of either cuts a match of the text still to come. -/
theorem chunkings_agree (build : Builder) (patterns replacements : List String) (hne : ∀ p ∈ patterns, p ≠ "")
    (vault : PiiVault) (hvault : PiiVault.new build patterns replacements = .ok vault)
    (maxCapacity : Nat) (r : StreamRedactor) (hr : StreamRedactor.withMaxCapacity vault maxCapacity = .ok r)
    (chunks chunks' : List Bytes) (hsame : chunks.flatten = chunks'.flatten)
    (segs segs' : List OutputSegment) (hrun : r.redactChunks chunks = .ok segs)
    (hrun' : r.redactChunks chunks' = .ok segs')
    (hclear : r.AtEveryPush chunks r.state.CutClear) (hclear' : r.AtEveryPush chunks' r.state.CutClear) :
    outputBytes segs = outputBytes segs' := by
  obtain ⟨hbuilt, hstate⟩ := PiiVault.built_of_new hvault
  have hrs := StreamRedactor.state_of_withMaxCapacity hr
  have ha : r.state.Aligned := by rw [hrs]; exact hbuilt.aligned
  have hne' : ∀ p ∈ r.state.patterns, p ≠ "" := by rw [hrs, hstate]; exact hne
  rw [outputBytes_eq, outputBytes_eq,
    run_tokens ha hne' hrun fun pre c post outs r' he hc h => (hclear pre c post outs r' he hc h).clearAt,
    run_tokens ha hne' hrun' fun pre c post outs r' he hc h => (hclear' pre c post outs r' he hc h).clearAt, hsame]

/-! ### `abc` and `cde`

After `xxxxabcd` the head `cd` is held back, which cuts the `abc` it begins in. -/

def overlapVault : PiiVault :=
  ⟨["abc", "cde"], buildRedactionDfa (Search.AhoCorasick.scan asciiLower) ["abc", "cde"], ["[1]", "[2]"],
    .new (Search.AhoCorasick.scan asciiLower) ["abc", "cde"] ["[1]", "[2]"]⟩

def overlapRedactor : StreamRedactor := ⟨overlapVault.engineState, [], 64, by decide⟩

theorem overlapVault_new : PiiVault.new (Search.AhoCorasick.scan asciiLower) ["abc", "cde"] ["[1]", "[2]"] =
    .ok overlapVault := by
  rw [PiiVault.new, if_pos (by decide)]
  rfl

theorem overlapRedactor_new : StreamRedactor.withMaxCapacity overlapVault 64 = .ok overlapRedactor :=
  withMaxCapacity_of_pos (by decide)

/-- Before `ab` the cut is clear: it is where the match of `abc` starts. -/
theorem overlap_cutClear : overlapRedactor.state.CutClear (encode "xxxxab") (encode "xxxxabc") := by
  intro _ m hm
  have hms : overlapRedactor.state.ac.findIter (encode "xxxxabc") = [⟨0, 4, 7⟩] := rfl
  rw [hms, List.mem_singleton] at hm
  subst hm
  have hlen : (encode "xxxxab").length = 6 := rfl
  rw [hlen]
  refine ⟨fun h => absurd h (by decide), ?_⟩
  intro _ n hn
  have : 2 ≤ n := hn.2 2 ⟨"abc", by decide, by decide, by decide, by decide,
    by decide⟩
  simp only
  omega

theorem overlap_pushes : overlapRedactor.AtEveryPush [encode "xxxxab", encode "c"] overlapRedactor.state.CutClear := by
  have hv : StreamRedactor.validLen (overlapRedactor.pending ++ encode "xxxxab") = .ok 6 := rfl
  have hcut : overlapRedactor.state.cut (overlapRedactor.pending ++ encode "xxxxab") = 4 := rfl
  have hpush := push_eq (r := overlapRedactor) rfl (by decide) hv
  rw [hcut, if_neg (by decide)] at hpush
  refine (StreamRedactor.atEveryPush_cons hpush).2 ⟨fun _ => ?_, ?_⟩
  · have h1 : complete (overlapRedactor.pending ++ encode "xxxxab") = encode "xxxxab" := rfl
    have h2 : overlapRedactor.pending ++ encode "xxxxab" ++ [encode "c"].flatten = encode "xxxxabc" := by
      decide +kernel
    rw [h1, h2]
    exact overlap_cutClear
  · rintro pre c post outs r' he _ hr
    cases pre with
    | cons x pre => simp at he
    | nil =>
      simp only [List.nil_append, List.cons.injEq] at he
      simp only [StreamRedactor.pushAll, Except.ok.injEq, Prod.mk.injEq] at hr
      intro hlong
      rw [← hr.2, ← he.1] at hlong
      exact absurd hlong (by decide)

theorem overlap_push_whole : overlapRedactor.AtEveryPush [encode "xxxxabc"] overlapRedactor.state.CutClear := by
  rintro pre c post outs r' he _ hr
  cases pre with
  | cons x pre => simp at he
  | nil =>
    simp only [List.nil_append, List.cons.injEq] at he
    simp only [StreamRedactor.pushAll, Except.ok.injEq, Prod.mk.injEq] at hr
    rw [← hr.2, ← he.1, ← he.2]
    have h1 : complete (overlapRedactor.pending ++ encode "xxxxabc") = encode "xxxxabc" := rfl
    have hends : EndsPattern overlapRedactor.state (encode "xxxxabc") := by decide
    rw [h1]
    rintro - m hm
    have hle := ((overlapRedactor.state.ac.standard (by decide) _).mem hm).1.stop_le
    refine ⟨?_, fun h => absurd hends h⟩
    intro _ h
    have : (overlapRedactor.pending ++ encode "xxxxabc" ++ [].flatten).length = (encode "xxxxabc").length := by
      decide +kernel
    omega

theorem chunkings_agree_overlap :
    PiiVault.new (Search.AhoCorasick.scan asciiLower) ["abc", "cde"] ["[1]", "[2]"] = .ok overlapVault ∧
    StreamRedactor.withMaxCapacity overlapVault 64 = .ok overlapRedactor ∧
    overlapRedactor.redactChunks [encode "xxxxab", encode "c"] =
      .ok [.input (encode "xxxx"), .replacement (encode "[1]")] ∧
    overlapRedactor.redactChunks [encode "xxxxabc"] =
      .ok [.input (encode "xxxx"), .replacement (encode "[1]")] ∧
    overlapRedactor.AtEveryPush [encode "xxxxab", encode "c"] overlapRedactor.state.CutClear ∧
    overlapRedactor.AtEveryPush [encode "xxxxabc"] overlapRedactor.state.CutClear ∧
    outputBytes [.input (encode "xxxx"), .replacement (encode "[1]")] =
      outputBytes [.input (encode "xxxx"), .replacement (encode "[1]")] :=
  have h1 : overlapRedactor.redactChunks [encode "xxxxab", encode "c"] =
      .ok [.input (encode "xxxx"), .replacement (encode "[1]")] := rfl
  have h2 : overlapRedactor.redactChunks [encode "xxxxabc"] =
      .ok [.input (encode "xxxx"), .replacement (encode "[1]")] := rfl
  ⟨overlapVault_new, overlapRedactor_new, h1, h2, overlap_pushes, overlap_push_whole,
    chunkings_agree _ _ _ (by decide) _ overlapVault_new 64 _ overlapRedactor_new _ _ (by decide) _ _ h1 h2
      overlap_pushes overlap_push_whole⟩

theorem chunkings_differ_overlap :
    ¬ ∀ (build : Builder) (patterns replacements : List String), (∀ p ∈ patterns, p ≠ "") →
      (∀ p ∈ patterns, NoUpper (encode p)) → ∀ vault, PiiVault.new build patterns replacements = .ok vault →
      ∀ maxCapacity r, StreamRedactor.withMaxCapacity vault maxCapacity = .ok r →
      ∀ text : String, NoUpper (encode text) → ∀ chunks chunks' : List Bytes, chunks.flatten = encode text →
      chunks'.flatten = encode text → ∀ segs segs', r.redactChunks chunks = .ok segs →
      r.redactChunks chunks' = .ok segs' → outputBytes segs = outputBytes segs' := by
  intro h
  have h1 : overlapRedactor.redactChunks [encode "xxxxabcd", encode "x"] =
      .ok [.input (encode "xxxxab"), .input (encode "cdx")] := rfl
  have h2 : overlapRedactor.redactChunks [encode "xxxxabcdx"] =
      .ok [.input (encode "xxxx"), .replacement (encode "[1]"), .input (encode "dx")] := rfl
  have := h _ _ _ (by decide) (by decide +kernel) _ overlapVault_new 64 _ overlapRedactor_new "xxxxabcdx"
    (by decide +kernel) _ _ rfl rfl _ _ h1 h2
  revert this
  decide +kernel

end PiiProxy
