import PiiProxy.Redactor

/-!
# Runs of `StreamRedactor`

Chunks are pushed one by one and the redactor is finished. A run gives the redaction
of the whole text when every cut is clear (`run_tokens`), that is, when no match of
the text still to come lies across it.

* With patterns none of which begins inside another's end, every cut is clear, and the
  run is `redact_text` (`chunks_eq_redact_text`).
* In general the output depends on the chunks. Two runs agree when the cuts of both
  are clear (`chunkings_agree`).
-/

namespace PiiProxy

open Utf8 (encode)
open Search (Match)

namespace StreamRedactor

variable {r r' r1 : StreamRedactor} {c : Bytes} {cs : List Bytes} {out segs : List OutputSegment}
  {outs : List (List OutputSegment)}

theorem redactChunks_cons (r : StreamRedactor) (c : Bytes) (cs : List Bytes) :
    r.redactChunks (c :: cs) = (do
      let (out, r) ← r.push c
      let segs ← r.redactChunks cs
      return out ++ segs) := by
  unfold redactChunks
  rw [pushAll]
  cases r.push c with
  | error e => rfl
  | ok p =>
    obtain ⟨out, r1⟩ := p
    simp only [bind_ok]
    cases r1.pushAll cs with
    | error e => rfl
    | ok q =>
      obtain ⟨outs, r2⟩ := q
      simp only [bind_ok, pure_eq_ok]
      cases r2.finish with
      | error e => rfl
      | ok w =>
        obtain ⟨last, r3⟩ := w
        simp [List.append_assoc]

/-- What a run that starts with `c` did first. -/
theorem redactChunks_cons_ok (h : r.redactChunks (c :: cs) = .ok segs) :
    ∃ out r1 rest, r.push c = .ok (out, r1) ∧ r1.redactChunks cs = .ok rest ∧ segs = out ++ rest := by
  rw [redactChunks_cons, bind_eq_ok] at h
  obtain ⟨⟨out, r1⟩, hp, h⟩ := h
  obtain ⟨rest, hr, h⟩ := bind_eq_ok.1 h
  cases h
  exact ⟨out, r1, rest, hp, hr, rfl⟩

theorem redactChunks_nil_ok (h : r.redactChunks [] = .ok segs) : ∃ r', r.finish = .ok (segs, r') := by
  unfold redactChunks at h
  rw [pushAll, bind_ok, bind_eq_ok] at h
  obtain ⟨⟨out, r1⟩, hf, h⟩ := h
  cases h
  exact ⟨r1, hf⟩

theorem pushAll_cons (hp : r.push c = .ok (out, r1)) (h : r1.pushAll cs = .ok (outs, r')) :
    r.pushAll (c :: cs) = .ok (out :: outs, r') := by
  simp only [pushAll, hp, h, bind_ok, pure_eq_ok]

theorem pushAll_cons_ok (h : r.pushAll (c :: cs) = .ok (outs, r')) :
    ∃ out r1 rest, r.push c = .ok (out, r1) ∧ r1.pushAll cs = .ok (rest, r') ∧ outs = out :: rest := by
  rw [pushAll, bind_eq_ok] at h
  obtain ⟨⟨out, r1⟩, hp, h⟩ := h
  obtain ⟨⟨rest, r2⟩, hr, h⟩ := bind_eq_ok.1 h
  cases h
  exact ⟨out, r1, rest, hp, hr, rfl⟩

/-- One more push. -/
theorem pushAll_concat {r₁ r₂ : StreamRedactor} (hp : r₁.push c = .ok (out, r₂)) : ∀ {cs : List Bytes} {r : StreamRedactor}
    {outs : List (List OutputSegment)}, r.pushAll cs = .ok (outs, r₁) → r.pushAll (cs ++ [c]) = .ok (outs ++ [out], r₂)
  | [], r, outs, h => by
    cases h
    exact pushAll_cons hp rfl
  | c' :: cs, r, outs, h => by
    obtain ⟨out', r', rest, hc, hr, rfl⟩ := pushAll_cons_ok h
    exact pushAll_cons hc (pushAll_concat hp hr)

/-- `Q` of the complete text in hand and of all that is still to be redacted, at every
push of a non-empty chunk. -/
def AtEveryPush (r : StreamRedactor) (chunks : List Bytes) (Q : Bytes → Bytes → Prop) : Prop :=
  ∀ pre c post outs r', chunks = pre ++ c :: post → c ≠ [] → r.pushAll pre = .ok (outs, r') →
    Q (complete (r'.pending ++ c)) (r'.pending ++ c ++ post.flatten)

theorem atEveryPush_cons {Q : Bytes → Bytes → Prop} (hp : r.push c = .ok (out, r1)) :
    r.AtEveryPush (c :: cs) Q ↔
      (c ≠ [] → Q (complete (r.pending ++ c)) (r.pending ++ c ++ cs.flatten)) ∧ r1.AtEveryPush cs Q := by
  constructor
  · intro h
    refine ⟨fun hc => h [] c cs [] r rfl hc rfl, ?_⟩
    intro pre c' post outs r' he hc hr
    exact h (c :: pre) c' post (out :: outs) r' (by simp [he]) hc (pushAll_cons hp hr)
  · rintro ⟨h1, h2⟩ pre c' post outs r' he hc hr
    cases pre with
    | nil =>
      simp only [List.nil_append, List.cons.injEq] at he
      obtain ⟨rfl, rfl⟩ := he
      simp only [pushAll, Except.ok.injEq, Prod.mk.injEq] at hr
      obtain ⟨-, rfl⟩ := hr
      exact h1 hc
    | cons x pre =>
      simp only [List.cons_append, List.cons.injEq] at he
      obtain ⟨rfl, rfl⟩ := he
      obtain ⟨out', r2, rest, hp', hr', -⟩ := pushAll_cons_ok hr
      rw [hp, Except.ok.injEq, Prod.mk.injEq] at hp'
      obtain ⟨-, rfl⟩ := hp'
      exact h2 pre c' post rest r' rfl hc hr'

end StreamRedactor

open StreamRedactor

/-- No match of `rest` lies across offset `k`. -/
def EngineState.ClearAt (state : EngineState) (rest : Bytes) (k : Nat) : Prop :=
  ∀ m ∈ state.ac.findIter rest, ¬ (m.start < k ∧ k < m.stop)

theorem cut_le {state : EngineState} {source : Bytes} : state.cut source ≤ source.length := by
  obtain ⟨tail, ht⟩ := complete_split source
  have h1 : state.cut source ≤ (complete source).length := safeLen_le
  have h2 := congrArg List.length ht
  simp only [List.length_append] at h2
  omega

/-- **The run lemma.** With clear cuts, the chunks are redacted as their concatenation. -/
theorem run_tokens : ∀ {chunks : List Bytes} {r : StreamRedactor} {segs : List OutputSegment}
    (_ : r.state.Aligned) (_ : ∀ p ∈ r.state.patterns, p ≠ "") (_ : r.redactChunks chunks = .ok segs)
    (_ : r.AtEveryPush chunks fun text rest => r.state.ClearAt rest (r.state.safeLen text)),
    tokens segs = r.state.redact (r.pending ++ chunks.flatten)
  | [], r, segs, ha, hne, hr, _ => by
    obtain ⟨r', hf⟩ := redactChunks_nil_ok hr
    rw [List.flatten_nil, List.append_nil]
    rcases finish_ok ha hf with ⟨hp, rfl⟩ | ⟨_, rfl⟩
    · rw [hp, redact_nil hne]
      rfl
    · exact tokens_segments _ _
  | c :: cs, r, segs, ha, hne, hr, hq => by
    obtain ⟨out, r1, rest, hp, hr1, rfl⟩ := redactChunks_cons_ok hr
    have pushed := push_ok ha hp
    have hst := pushed.state_eq
    obtain ⟨hhead, htail⟩ := (atEveryPush_cons hp).1 hq
    have ih := run_tokens (by rw [hst]; exact ha) (by rw [hst]; exact hne) hr1 (by rw [hst]; exact htail)
    rw [tokens_append, ih, hst]
    by_cases hc : c = []
    · obtain ⟨rfl, rfl⟩ := pushed.idle hc
      simp [hc, tokens]
    · rw [pushed.out_eq hc, pushed.pending_eq hc, tokens_segments]
      have hclear := hhead hc
      have hk : ((r.pending ++ c).take (r.state.cut (r.pending ++ c))).length = r.state.cut (r.pending ++ c) := by
        rw [List.length_take, Nat.min_eq_left cut_le]
      rw [← redact_append hne, ← List.append_assoc, List.take_append_drop, List.flatten_cons, List.append_assoc]
      rw [hk, ← List.append_assoc, List.take_append_drop]
      exact hclear

/-- What is pending after some pushes is the end of what was pushed. -/
theorem pushAll_pending : ∀ {pre : List Bytes} {r r' : StreamRedactor} {outs : List (List OutputSegment)}
    (_ : r.state.Aligned) (_ : r.pushAll pre = .ok (outs, r')), r'.state = r.state ∧
      r'.pending <:+ r.pending ++ pre.flatten
  | [], r, r', outs, _, h => by
    simp only [pushAll, Except.ok.injEq, Prod.mk.injEq] at h
    obtain ⟨-, rfl⟩ := h
    simp
  | c :: pre, r, r', outs, ha, h => by
    obtain ⟨out, r1, rest, hp, hr, -⟩ := pushAll_cons_ok h
    have pushed := push_ok ha hp
    have hst := pushed.state_eq
    obtain ⟨h1, h2⟩ := pushAll_pending (by rw [hst]; exact ha) hr
    refine ⟨h1.trans hst, h2.trans ?_⟩
    rw [List.flatten_cons, ← List.append_assoc]
    by_cases hc : c = []
    · obtain ⟨-, rfl⟩ := pushed.idle hc
      simp [hc]
    · rw [pushed.pending_eq hc]
      obtain ⟨s, hs⟩ := List.drop_suffix (r.state.cut (r.pending ++ c)) (r.pending ++ c)
      exact ⟨s, by rw [← List.append_assoc, hs]⟩

/-- A property of the rest of the text that its suffixes keep holds at every push. -/
theorem atEveryPush_of_suffix {r : StreamRedactor} {chunks : List Bytes} {Q : Bytes → Bytes → Prop}
    (ha : r.state.Aligned)
    (h : ∀ text rest, text ++ rest <:+ r.pending ++ chunks.flatten → Q text (text ++ rest)) :
    r.AtEveryPush chunks Q := by
  rintro pre c post outs r' rfl hc hr
  obtain ⟨-, s, hs⟩ := pushAll_pending ha hr
  obtain ⟨tail, ht⟩ := complete_split (r'.pending ++ c)
  have hrest : r'.pending ++ c ++ post.flatten = complete (r'.pending ++ c) ++ (tail ++ post.flatten) := by
    conv => lhs; rw [ht]
    rw [List.append_assoc]
  rw [hrest]
  refine h _ _ ⟨s, ?_⟩
  rw [← hrest, List.flatten_append, List.flatten_cons, ← List.append_assoc r.pending, ← hs]
  simp

/-! ## Patterns that do not run into one another -/

/-- No ASCII uppercase letter. -/
def NoUpper (b : Bytes) : Prop := ∀ x ∈ b, ¬ (65 ≤ x ∧ x ≤ 90)

instance (b : Bytes) : Decidable (NoUpper b) := inferInstanceAs (Decidable (∀ x ∈ b, _))

theorem NoUpper.map_asciiLower {b : Bytes} (h : NoUpper b) : b.map asciiLower = b := by
  conv => rhs; rw [← List.map_id b]
  refine List.map_congr_left ?_
  intro x hx
  rw [asciiLower, if_neg (h x hx), id]

/-- No non-empty proper suffix of a pattern is a proper prefix of a pattern. -/
def Borderless (patterns : List String) : Prop :=
  ∀ p ∈ patterns, ∀ q ∈ patterns, ∀ s : Bytes, s ≠ [] → s <:+ encode p → s ≠ encode p → s <+: encode q →
    s = encode q

section

variable {state : EngineState} {text rest : Bytes} {m : Match}

/-- In lower case an occurrence is a literal one. -/
theorem occurs_literal (hp : ∀ p ∈ state.patterns, NoUpper (encode p)) (hr : NoUpper rest)
    (h : Search.Occurs asciiLower (state.patterns.map encode) rest m) :
    ∃ p ∈ state.patterns, m.stop = m.start + (encode p).length ∧ Find.At (encode p) rest m.start := by
  obtain ⟨q, hq, hs, _, hat⟩ := h
  obtain ⟨p, hmem, rfl⟩ := List.mem_map.1 (List.mem_of_getElem? hq)
  rw [(hp p hmem).map_asciiLower, hr.map_asciiLower] at hat
  exact ⟨p, hmem, hs, hat⟩

theorem occurs_of_at {p : String} {i : Nat} (hne : ∀ p ∈ state.patterns, p ≠ "") (hp : p ∈ state.patterns)
    (hat : Find.At ((encode p).map asciiLower) (rest.map asciiLower) i) :
    ∃ m, Search.Occurs asciiLower (state.patterns.map encode) rest m ∧ m.start = i ∧
      m.stop = i + (encode p).length := by
  obtain ⟨k, hk⟩ := List.getElem?_of_mem (List.mem_map_of_mem (f := encode) hp)
  have hle := hat.le (by simpa using encode_ne_nil (hne p hp))
  rw [List.length_map, List.length_map] at hle
  exact ⟨⟨k, i, i + (encode p).length⟩, ⟨encode p, hk, rfl, hle, hat⟩, rfl, rfl⟩

/-- An occurrence that starts in `text` and ends after it is announced by a pattern head
at the end of `text`. -/
theorem headEnds_of_at {p : String} {i : Nat} (hmem : p ∈ state.patterns) (hlong : state.maxPatternLen < text.length)
    (hat : Find.At (encode p) (text ++ rest) i) (h1 : i < text.length) (h2 : text.length < i + (encode p).length) :
    HeadEnds text p (text.length - i) := by
  have := state.length_le hmem
  exact ⟨by omega, by omega, by omega, hat.ends (by omega) (by omega)⟩

/-- Where a pattern head ends the text, no occurrence that began before it ends in it. -/
theorem no_tail_in_head {patterns : List String} {p q : String} {i n : Nat} (hb : Borderless patterns)
    (hp : p ∈ patterns) (hq : q ∈ patterns) (hat : Find.At (encode p) (text ++ rest) i) (hhead : HeadEnds text q n)
    (h1 : i < text.length - n) (h2 : text.length - n < i + (encode p).length)
    (h3 : i + (encode p).length ≤ text.length) : False := by
  obtain ⟨hn1, hn2, hn3, u, hu⟩ := hhead
  have hulen : u.length = text.length - n := by
    have := congrArg List.length hu
    simp only [List.length_append, List.length_take] at this
    omega
  have htail : (text ++ rest).drop (text.length - n) = (encode q).take n ++ rest := by
    rw [← hulen]
    conv => lhs; rw [← hu]
    rw [List.append_assoc, List.drop_left]
  have hdrop := hat.drop_eq (n := text.length - n) (by omega)
  rw [htail, List.take_append_of_le_length (by simp; omega), List.take_take] at hdrop
  have hdl := congrArg List.length hdrop
  simp only [List.length_drop, List.length_take] at hdl
  refine absurd (hb p hp q hq _ ?_ (List.drop_suffix _ _) ?_ (hdrop ▸ List.take_prefix _ _)) ?_ <;>
    refine ne_of_apply_ne List.length ?_ <;> simp only [List.length_drop, List.length_nil] <;> omega

/-- **Every cut is clear** when no pattern begins inside another's end. -/
theorem clearAt_safeLen (hne : ∀ p ∈ state.patterns, p ≠ "") (hp : ∀ p ∈ state.patterns, NoUpper (encode p))
    (hb : Borderless state.patterns) (hr : NoUpper (text ++ rest)) :
    state.ClearAt (text ++ rest) (state.safeLen text) := by
  rintro m hm ⟨hstart, hstop⟩
  have hstd := state.ac.standard (patterns_ne hne) (text ++ rest)
  obtain ⟨p, hmem, hlen, hat⟩ := occurs_literal hp hr (hstd.mem hm).1
  unfold EngineState.safeLen at hstart hstop
  split at hstart
  · omega
  rename_i hlong
  rw [if_neg hlong] at hstop
  split at hstart
  · -- a pattern `q` ends the text: it is inside the match and ends first, or they overlap
    rename_i hends
    rw [if_pos hends] at hstop
    obtain ⟨q, hq, hsuf⟩ := hends
    have hhead := headEnds_of_at hmem (by omega) hat hstart (by omega)
    obtain ⟨_, hn, _, hpre⟩ := hhead
    by_cases hin : (encode q).length ≤ text.length - m.start
    · obtain ⟨s, hs⟩ := hsuf
      have hslen := congrArg List.length hs
      simp only [List.length_append] at hslen
      have hqat : Find.At (encode q) (text ++ rest) s.length := by
        rw [← hs]
        exact Find.at_of_split
      obtain ⟨n, hocc, hn1, hn2⟩ := occurs_of_at hne hq (hqat.map asciiLower)
      have := hstd.minimal hm hocc (by omega)
      omega
    · have hov := List.suffix_of_suffix_length_le hpre hsuf (by simp; omega)
      refine absurd (hb q hq p hmem _ ?_ hov ?_ (List.take_prefix _ _)) ?_ <;>
        refine ne_of_apply_ne List.length ?_ <;> simp only [List.length_take, List.length_nil] <;> omega
  · rename_i hends
    rw [if_neg hends] at hstop
    obtain ⟨hmax, hle⟩ := retainLen_spec state.patterns text
    have hrlt := retainLen_lt state.patterns text
    by_cases hin : m.stop ≤ text.length
    · -- the match ends inside the retained head: its tail is a head of that pattern
      rcases hmax with h0 | ⟨q, hq, hhead⟩
      · omega
      · exact no_tail_in_head hb hmem hq hat hhead (by omega) (by omega) (by omega)
    · -- it ends after the text: a longer head would have been retained
      have hhead := headEnds_of_at hmem (by omega) hat (by omega) (by omega)
      have := hle _ ⟨p, hmem, hhead⟩
      omega

end

end PiiProxy
