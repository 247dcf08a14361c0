import PiiProxy.RedactText
import PiiProxy.Tiling

/-!
# Patterns in mixed case

The automaton folds ASCII case, the boundary search does not (engine.rs:291, 302). A
pattern with a capital in it is not seen coming: text that ends inside it is released,
and neither part of it matches on its own. `survivor_iff` says exactly when that
happens to the default patterns: some push had more text in hand than the longest
pattern, ending inside an occurrence whose part so far has a capital letter.
-/

namespace PiiProxy

open Utf8 (encode)
open Search (Match Occurs)

/-! ## Survivors -/

/-- The input bytes let through, joined between replacements. -/
def joined : List OutputSegment → List Bytes
  | [] => [[]]
  | .input b :: segs => match joined segs with
    | [] => [b]
    | run :: runs => (b ++ run) :: runs
  | .replacement _ :: segs => [] :: joined segs

/-- Some pattern, in any case, is still in the joined input bytes. -/
def Survivor (patterns : List String) (segs : List OutputSegment) : Prop :=
  ∃ run ∈ joined segs, ∃ p ∈ patterns, Find.Has ((encode p).map asciiLower) (run.map asciiLower)

/-- A byte up to case; a mark is no byte. -/
def Token.key : Token → Option UInt8
  | .byte b => some (asciiLower b)
  | .mark _ => none

@[simp] theorem key_byte (b : UInt8) : (Token.byte b).key = some (asciiLower b) := rfl

/-- A word that stands in the tokens as it stands in bytes. -/
def word (p : String) : List (Option UInt8) := (encode p).map fun b => some (asciiLower b)

theorem word_eq (p : String) : word p = ((encode p).map asciiLower).map some := by simp [word]

/-- The bytes before the first mark. -/
def headRun : List Token → Bytes
  | .byte b :: ts => b :: headRun ts
  | _ => []

/-- The runs after the first mark. -/
def tailRuns : List Token → List Bytes
  | [] => []
  | .byte _ :: ts => tailRuns ts
  | .mark _ :: ts => headRun ts :: tailRuns ts

theorem headRun_bytes (b : Bytes) (ts : List Token) : headRun (b.map .byte ++ ts) = b ++ headRun ts := by
  induction b with
  | nil => rfl
  | cons x b ih => simp [headRun, ih]

theorem tailRuns_bytes (b : Bytes) (ts : List Token) : tailRuns (b.map .byte ++ ts) = tailRuns ts := by
  induction b with
  | nil => rfl
  | cons x b ih => simp [tailRuns, ih]

theorem joined_eq : ∀ segs : List OutputSegment, joined segs = headRun (tokens segs) :: tailRuns (tokens segs)
  | [] => rfl
  | .input b :: segs => by
    have ht : tokens (.input b :: segs) = b.map .byte ++ tokens segs := rfl
    rw [joined, joined_eq segs, ht, headRun_bytes, tailRuns_bytes]
  | .replacement r :: segs => by
    have ht : tokens (.replacement r :: segs) = .mark r :: tokens segs := rfl
    rw [joined, joined_eq segs, ht]
    rfl

theorem map_some_isPrefix_iff (w : Bytes) : ∀ ts : List Token,
    w.map some <+: ts.map Token.key ↔ w <+: (headRun ts).map asciiLower := by
  induction w with
  | nil => simp
  | cons x w ih =>
    intro ts
    match ts with
    | [] => simp [headRun]
    | .mark r :: ts => simp [headRun, Token.key]
    | .byte b :: ts => simp [headRun, Token.key, List.cons_prefix_cons, ih ts]

theorem has_tokens {w : Bytes} (hw : w ≠ []) : ∀ ts : List Token,
    Find.Has (w.map some) (ts.map Token.key) ↔
      Find.Has w ((headRun ts).map asciiLower) ∨ ∃ run ∈ tailRuns ts, Find.Has w (run.map asciiLower)
  | [] => by simp [headRun, tailRuns, Find.not_has_nil hw, Find.not_has_nil (w := w.map some) (by simpa using hw)]
  | .byte b :: ts => by
    have ih := has_tokens hw ts
    have hpre := map_some_isPrefix_iff w (.byte b :: ts)
    rw [List.map_cons, Find.has_cons, ih]
    simp only [headRun, tailRuns, List.map_cons, Find.has_cons] at hpre ⊢
    rw [hpre, or_assoc]
  | .mark r :: ts => by
    have ih := has_tokens hw ts
    have hpre : ¬ w.map some <+: (Token.mark r :: ts).map Token.key := by
      rw [map_some_isPrefix_iff]
      simpa [headRun] using hw
    rw [List.map_cons] at hpre ⊢
    rw [Find.has_cons, ih]
    simp [headRun, tailRuns, Find.not_has_nil hw, hpre]

theorem survivor_iff_tokens {patterns : List String} (hne : ∀ p ∈ patterns, p ≠ "") (segs : List OutputSegment) :
    Survivor patterns segs ↔ ∃ p ∈ patterns, Find.Has (word p) ((tokens segs).map Token.key) := by
  have hkey : ∀ p ∈ patterns, Find.Has (word p) ((tokens segs).map Token.key) ↔
      ∃ run ∈ joined segs, Find.Has ((encode p).map asciiLower) (run.map asciiLower) := by
    intro p hp
    rw [word_eq, has_tokens (by simpa using encode_ne_nil (hne p hp)), joined_eq]
    simp
  constructor
  · rintro ⟨run, hrun, p, hp, h⟩
    exact ⟨p, hp, (hkey p hp).2 ⟨run, hrun, h⟩⟩
  · rintro ⟨p, hp, h⟩
    obtain ⟨run, hrun, h⟩ := (hkey p hp).1 h
    exact ⟨run, hrun, p, hp, h⟩

theorem has_bytes_mark {w : Bytes} (hw : w ≠ []) (b r : Bytes) (ts : List Token) :
    Find.Has (w.map some) ((b.map Token.byte ++ Token.mark r :: ts).map Token.key) ↔
      Find.Has w (b.map asciiLower) ∨ Find.Has (w.map some) (ts.map Token.key) := by
  rw [has_tokens hw, has_tokens hw, headRun_bytes, tailRuns_bytes]
  simp [headRun, tailRuns]

theorem has_bytes {w : Bytes} (hw : w ≠ []) (b : Bytes) :
    Find.Has (w.map some) ((b.map Token.byte).map Token.key) ↔ Find.Has w (b.map asciiLower) := by
  have h := has_tokens hw (b.map .byte)
  have h1 := headRun_bytes b []
  have h2 := tailRuns_bytes b []
  simp only [List.append_nil] at h1 h2
  rw [h, h1, h2]
  simp [headRun, tailRuns]

section

variable {state : EngineState} {hay : Bytes} {p : String}

/-- **Nothing survives in a piece that is searched whole.** -/
theorem redact_no_survivor (hne : ∀ p ∈ state.patterns, p ≠ "") (hp : p ∈ state.patterns) {last : Nat}
    {ms : List Match} (h : Search.Standard asciiLower (state.patterns.map encode) hay last ms) :
    ¬ Find.Has (word p) ((tokensFrom state hay last ms).map Token.key) := by
  have hw : (encode p).map asciiLower ≠ [] := by simpa using encode_ne_nil (hne p hp)
  rw [word_eq]
  induction h with
  | @done last hno =>
    rw [tokensFrom, has_bytes hw]
    rintro ⟨i, hi⟩
    rw [List.map_drop, Find.At, List.drop_drop] at hi
    obtain ⟨n, hn, hstart, _⟩ := occurs_of_at hne hp hi
    have := hno n hn
    omega
  | @next last m ms hocc hle hmin _ ih =>
    rw [tokensFrom, has_bytes_mark hw]
    rintro (⟨i, hi⟩ | h)
    · -- it would end before the match that is reported
      have hbound := hi.le hw
      simp only [List.length_map, List.length_drop, List.length_take] at hbound
      rw [List.map_drop, Find.At, List.drop_drop] at hi
      have hat : Find.At ((encode p).map asciiLower) (hay.map asciiLower) (last + i) := by
        rw [← List.take_append_drop m.start hay, List.map_append]
        have hpos := List.length_pos_iff.2 hw
        rw [List.length_map] at hpos
        exact (Find.at_append_left (by simp; omega)).2 hi
      obtain ⟨n, hn, hstart, hstop⟩ := occurs_of_at hne hp hat
      have h1 := Match.stop_le_of_not_earlier (hmin n hn (by omega))
      have h2 := hocc.start_lt (patterns_ne hne)
      have hpos := List.length_pos_iff.2 hw
      rw [List.length_map] at hpos
      omega
    · exact ih h

end

/-! ## Patterns that never overlap -/

/-- Patterns none of whose occurrences, up to case, can overlap. -/
structure Separated (patterns : List String) : Prop where
  ne : ∀ p ∈ patterns, p ≠ ""
  lower : ∀ p ∈ patterns, NoUpper (encode p)
  borderless : Borderless patterns
  unnested : ∀ p ∈ patterns, ∀ q ∈ patterns, ∀ i < (encode p).length, Find.At (encode q) (encode p) i → i = 0 ∧ q = p

section

variable {state : EngineState} {hay : Bytes} {m n : Match}

theorem occurs_lower (hs : Separated state.patterns) (h : Occurs asciiLower (state.patterns.map encode) hay m) :
    ∃ p ∈ state.patterns, m.stop = m.start + (encode p).length ∧
      Find.At (encode p) (hay.map asciiLower) m.start := by
  obtain ⟨q, hq, hlen, _, hat⟩ := h
  obtain ⟨p, hp, rfl⟩ := List.mem_map.1 (List.mem_of_getElem? hq)
  rw [(hs.lower p hp).map_asciiLower] at hat
  exact ⟨p, hp, hlen, hat⟩

/-- Two occurrences that overlap, the first starting no later, are one. -/
theorem at_overlap {patterns : List String} (hs : Separated patterns) {p q : String} {i j : Nat} {l : Bytes}
    (hp : p ∈ patterns) (hq : q ∈ patterns) (hi : Find.At (encode p) l i) (hj : Find.At (encode q) l j)
    (h1 : i ≤ j) (h2 : j < i + (encode p).length) : i = j ∧ p = q := by
  have hdrop := hi.drop_eq (n := j) h1
  by_cases hin : j + (encode q).length ≤ i + (encode p).length
  · have hat : Find.At (encode q) (encode p) (j - i) := by
      rw [Find.At, hdrop]
      exact List.prefix_take_iff.2 ⟨hj, by omega⟩
    obtain ⟨h0, rfl⟩ := hs.unnested p hp q hq _ (by omega) hat
    exact ⟨by omega, rfl⟩
  · have hpre : (encode p).drop (j - i) <+: encode q := by
      rw [hdrop]
      exact List.prefix_of_prefix_length_le (List.take_prefix _ _) hj (by simp; omega)
    by_cases hij : i = j
    · subst hij
      rw [Nat.sub_self, List.drop_zero] at hpre
      have hpos := List.length_pos_iff.2 (encode_ne_nil (hs.ne q hq))
      obtain ⟨_, h⟩ := hs.unnested q hq p hp 0 hpos (Find.at_zero.2 hpre)
      exact ⟨rfl, h⟩
    · -- the end of `p` begins `q`
      refine absurd (hs.borderless p hp q hq _ ?_ (List.drop_suffix _ _) ?_ hpre) ?_ <;>
        refine ne_of_apply_ne List.length ?_ <;> simp only [List.length_drop, List.length_nil] <;> omega

/-- **Occurrences never overlap.** -/
theorem occurs_disjoint (hs : Separated state.patterns) (hm : Occurs asciiLower (state.patterns.map encode) hay m)
    (hn : Occurs asciiLower (state.patterns.map encode) hay n) (h1 : m.start < n.stop) (h2 : n.start < m.stop) :
    m.start = n.start ∧ m.stop = n.stop := by
  obtain ⟨p, hp, hpl, hpat⟩ := occurs_lower hs hm
  obtain ⟨q, hq, hql, hqat⟩ := occurs_lower hs hn
  rcases Nat.le_total m.start n.start with hle | hle
  · obtain ⟨h, rfl⟩ := at_overlap hs hp hq hpat hqat hle (by omega)
    omega
  · obtain ⟨h, rfl⟩ := at_overlap hs hq hp hqat hpat hle (by omega)
    omega

end

/-! ## Across a cut -/

/-- Tokens that read as bytes are bytes. -/
theorem bytes_of_key : ∀ {ts : List Token} {v : Bytes}, ts.map Token.key = v.map some →
    ∃ w : Bytes, ts = w.map .byte ∧ w.map asciiLower = v
  | [], [], _ => ⟨[], rfl, rfl⟩
  | .byte b :: ts, x :: v, h => by
    simp only [List.map_cons, key_byte, List.cons.injEq, Option.some.injEq] at h
    obtain ⟨w, rfl, rfl⟩ := bytes_of_key h.2
    exact ⟨b :: w, rfl, by simp [h.1]⟩
  | .mark r :: ts, x :: v, h => by simp [Token.key] at h
  | [], x :: v, h => by simp at h
  | t :: ts, [], h => by simp at h

section

variable {state : EngineState} {left right : Bytes} {ts ts' : List Token}

/-- A word across the seam of two token strings was across the seam of the texts. -/
theorem straddle_of_at {p : String} {i : Nat} (hne : ∀ p ∈ state.patterns, p ≠ "") (hp : p ∈ state.patterns)
    (hl : Tiles state left ts) (hr : Tiles state right ts')
    (hi : Find.At (word p) (ts.map Token.key ++ ts'.map Token.key) i) (h1 : i < ts.length)
    (h2 : ts.length < i + (encode p).length) :
    ∃ m, Occurs asciiLower (state.patterns.map encode) (left ++ right) m ∧ m.start < left.length ∧
      left.length < m.stop := by
  have hword : (word p).length = (encode p).length := by simp [word]
  -- the tokens of the word
  have hsplit := hi.split
  rw [← List.map_append, List.append_assoc] at hsplit
  obtain ⟨t1, t23, hts, ht1, h23⟩ := List.map_eq_append_iff.1 hsplit
  obtain ⟨t2, t3, rfl, ht2, _⟩ := List.map_eq_append_iff.1 h23
  rw [word_eq] at ht2
  obtain ⟨w, rfl, hw⟩ := bytes_of_key ht2
  have hwlen : w.length = (encode p).length := by simpa using congrArg List.length hw
  have hi1 : t1.length = i := by
    have := congrArg List.length ht1
    simp only [List.length_map, List.length_take, List.length_append] at this
    omega
  -- cut at the seam
  obtain ⟨x, rfl, hx⟩ := append_cut hts (by omega)
  rw [List.length_append] at h1 h2
  obtain ⟨y, hxy, rfl⟩ := append_cut hx (by simp; omega)
  obtain ⟨w1, w2, rfl, rfl, rfl⟩ := List.map_eq_append_iff.1 hxy
  obtain ⟨l1, l2, rfl, _, hl2⟩ := hl.split
  obtain ⟨r1, r2, rfl, hr1, _⟩ := hr.split
  rw [hl2.eq_bytes, hr1.eq_bytes]
  have hat : Find.At ((encode p).map asciiLower) ((l1 ++ w1 ++ (w2 ++ r2)).map asciiLower) l1.length := by
    have := Find.at_of_split (w := (encode p).map asciiLower) (p := l1.map asciiLower) (s := r2.map asciiLower)
    rw [← hw, List.length_map] at this
    rw [← hw]
    simpa using this
  obtain ⟨m, hm, hstart, hstop⟩ := occurs_of_at hne hp hat
  simp only [List.length_append, List.length_map] at *
  exact ⟨m, hm, by omega, by omega⟩

/-- No other occurrence meets one across the seam, so neither part of it is touched. -/
theorem untouched_across {m : Match} (hs : Separated state.patterns) (hl : Tiles state left ts)
    (hr : Tiles state right ts') (hm : Occurs asciiLower (state.patterns.map encode) (left ++ right) m)
    (h1 : m.start < left.length) (h2 : left.length < m.stop) :
    (∃ a, ts = a ++ (left.drop m.start).map .byte) ∧
      ∃ b, ts' = (right.take (m.stop - left.length)).map .byte ++ b := by
  have hmr := hm.stop_le
  rw [List.length_append] at hmr
  constructor
  · rw [← List.take_append_drop m.start left] at hl
    refine hl.back hs.ne fun n hn => ?_
    rw [List.take_append_drop] at hn
    by_contra hlt
    have hle := hn.stop_le
    have hlen : (left.take m.start).length = m.start := by simp; omega
    have := occurs_disjoint hs hm hn.left (by omega) (by have := hn.start_le; omega)
    omega
  · rw [← List.take_append_drop (m.stop - left.length) right] at hr
    refine hr.front fun n hn => ?_
    rw [List.take_append_drop] at hn
    by_contra hlt
    have hlen : (right.take (m.stop - left.length)).length = m.stop - left.length := by simp; omega
    have hle := hn.start_le
    have := occurs_disjoint hs hm (Search.occurs_append_right (a := left).2 hn)
      (by simp only [Match.shift_stop]; omega) (by simp only [Match.shift_start]; omega)
    simp only [Match.shift_start] at this
    omega

/-- An occurrence across the seam leaves its bytes on both sides. -/
theorem has_of_straddle {m : Match} (hs : Separated state.patterns) (hl : Tiles state left ts)
    (hr : Tiles state right ts') (hm : Occurs asciiLower (state.patterns.map encode) (left ++ right) m)
    (h1 : m.start < left.length) (h2 : left.length < m.stop) :
    ∃ p ∈ state.patterns, Find.Has (word p) (ts.map Token.key ++ ts'.map Token.key) := by
  have hmr := hm.stop_le
  rw [List.length_append] at hmr
  obtain ⟨⟨a, rfl⟩, b, rfl⟩ := untouched_across hs hl hr hm h1 h2
  obtain ⟨q, hq, hlen, _, hat⟩ := hm
  obtain ⟨p, hp, rfl⟩ := List.mem_map.1 (List.mem_of_getElem? hq)
  have hbytes : (left.drop m.start ++ right.take (m.stop - left.length)).map asciiLower =
      (encode p).map asciiLower := by
    have := hat.take_eq
    rw [List.length_map, ← List.map_drop, ← List.map_take, List.drop_append_of_le_length (by omega),
      List.take_append, List.take_of_length_le (by simp; omega)] at this
    rw [← this]
    congr 3
    simp; omega
  refine ⟨p, hp, a.length, ?_⟩
  have := Find.at_of_split (w := word p) (p := a.map Token.key) (s := b.map Token.key)
  rw [word_eq, ← hbytes, List.length_map] at this
  rw [word_eq, ← hbytes]
  simpa [Function.comp_def] using this

/-- **The seam.** With nothing left in the first part, a pattern survives in the whole if one
lies across the cut or survives in the second. -/
theorem seam_iff (hs : Separated state.patterns) (hl : Tiles state left ts) (hr : Tiles state right ts')
    (hno : ∀ p ∈ state.patterns, ¬ Find.Has (word p) (ts.map Token.key)) :
    (∃ p ∈ state.patterns, Find.Has (word p) ((ts ++ ts').map Token.key)) ↔
      (∃ m, Occurs asciiLower (state.patterns.map encode) (left ++ right) m ∧ m.start < left.length ∧
        left.length < m.stop) ∨ ∃ p ∈ state.patterns, Find.Has (word p) (ts'.map Token.key) := by
  rw [List.map_append]
  constructor
  · rintro ⟨p, hp, i, hi⟩
    rcases Find.at_append_cases hi with ⟨_, h⟩ | ⟨_, h⟩ | ⟨h1, h2⟩
    · exact absurd ⟨i, h⟩ (hno p hp)
    · exact Or.inr ⟨p, hp, _, h⟩
    · refine Or.inl (straddle_of_at hs.ne hp hl hr hi (by simpa using h1) ?_)
      simpa [word] using h2
  · rintro (⟨m, hm, h1, h2⟩ | ⟨p, hp, h⟩)
    · exact has_of_straddle hs hl hr hm h1 h2
    · exact ⟨p, hp, h.append_right⟩

end

/-! ## The boundary search and capitals -/

/-- With more text in hand than the longest pattern, an occurrence that the text ends inside
has no capital in the part that is there. -/
def EngineState.HeadsLower (state : EngineState) (text rest : Bytes) : Prop :=
  state.maxPatternLen < text.length → ∀ m, Occurs asciiLower (state.patterns.map encode) rest m →
    m.start < text.length → text.length < m.stop → NoUpper (text.drop m.start)

section

variable {state : EngineState} {text rest : Bytes} {m : Match} {p q : String} {n : Nat}

/-- Text that a pattern ends does not end inside an occurrence. -/
theorem not_inside_of_ends (hs : Separated state.patterns) (hends : EndsPattern state text)
    (hm : Occurs asciiLower (state.patterns.map encode) (text ++ rest) m) (h1 : m.start < text.length) :
    ¬ text.length < m.stop := by
  intro h2
  obtain ⟨q, hq, s, hsuf⟩ := hends
  have hpos := List.length_pos_iff.2 (encode_ne_nil (hs.ne q hq))
  have hlen := congrArg List.length hsuf
  simp only [List.length_append] at hlen
  have hat : Find.At (encode q) (text ++ rest) s.length := by
    rw [← hsuf]
    exact Find.at_of_split
  obtain ⟨n, hn, hn1, hn2⟩ := occurs_of_at hs.ne hq (hat.map asciiLower)
  have := occurs_disjoint hs hm hn (by omega) (by omega)
  omega

theorem HeadEnds.lower (h : HeadEnds text q n) (hq : NoUpper (encode q)) : HeadEnds (text.map asciiLower) q n := by
  obtain ⟨h1, h2, h3, s, hsuf⟩ := h
  refine ⟨h1, h2, by simpa using h3, s.map asciiLower, ?_⟩
  have htake : ((encode q).take n).map asciiLower = (encode q).take n := by
    rw [List.map_take, hq.map_asciiLower]
  conv => lhs; rw [← htake]
  rw [← List.map_append, hsuf]

/-- A lower-case part of an occurrence is a pattern head that ends the text. -/
theorem headEnds_of_noUpper (hp : p ∈ state.patterns)
    (hlong : state.maxPatternLen < text.length)
    (hat : Find.At (encode p) ((text ++ rest).map asciiLower) m.start) (h1 : m.start < text.length)
    (h2 : text.length < m.start + (encode p).length) (hup : NoUpper (text.drop m.start)) :
    HeadEnds text p (text.length - m.start) := by
  have hle := state.length_le hp
  refine ⟨by omega, by omega, by omega, text.take m.start, ?_⟩
  have hpre := hat.take_eq
  have htext : (encode p).take (text.length - m.start) = text.drop m.start := by
    rw [← hup.map_asciiLower, ← hpre, List.take_take, Nat.min_eq_left (by omega), ← List.map_drop,
      List.drop_append_of_le_length (by omega), List.map_append, List.take_left' (by simp)]
  rw [htext, List.take_append_drop]

/-- **Where a pattern is cut**: exactly where the text in hand ends inside it, past the
longest pattern's length, with a capital in the part seen. -/
theorem straddle_iff (hs : Separated state.patterns) (text rest : Bytes) :
    (∃ m, Occurs asciiLower (state.patterns.map encode) (text ++ rest) m ∧ m.start < state.safeLen text ∧
      state.safeLen text < m.stop) ↔ ¬ state.HeadsLower text (text ++ rest) := by
  unfold EngineState.safeLen
  constructor
  · rintro ⟨m, hm, h1, h2⟩ hheads
    split at h1
    · omega
    rename_i hlong
    rw [if_neg hlong] at h2
    split at h1
    · rename_i hends
      rw [if_pos hends] at h2
      exact not_inside_of_ends hs hends hm h1 h2
    rename_i hends
    rw [if_neg hends] at h2
    obtain ⟨hmax, hle⟩ := retainLen_spec state.patterns text
    obtain ⟨p, hp, hlen, hat⟩ := occurs_lower hs hm
    by_cases hin : m.stop ≤ text.length
    · rcases hmax with h0 | ⟨q, hq, hhead⟩
      · omega
      · rw [List.map_append] at hat
        refine no_tail_in_head hs.borderless hp hq hat (hhead.lower (hs.lower q hq)) ?_ ?_ ?_ <;>
          rw [List.length_map] <;> omega
    · have hup := hheads (by omega) m hm (by omega) (by omega)
      have := hle _ ⟨p, hp, headEnds_of_noUpper hp (by omega) hat (by omega) (by omega) hup⟩
      omega
  · intro hheads
    simp only [EngineState.HeadsLower, Classical.not_imp, not_forall] at hheads
    obtain ⟨hlong, m, hm, h1, h2, hup⟩ := hheads
    have hends : ¬ EndsPattern state text := fun hends => not_inside_of_ends hs hends hm h1 h2
    rw [if_neg (by omega), if_neg hends]
    refine ⟨m, hm, ?_, by omega⟩
    by_contra hge
    -- what is retained is lower case, and covers the part of `m` in the text
    rcases (retainLen_spec state.patterns text).1 with h0 | ⟨q, hq, _, _, _, hsuf⟩
    · omega
    · refine hup fun x hx => hs.lower q hq x ?_
      have htail := List.suffix_of_suffix_length_le (List.drop_suffix m.start text) hsuf (by simp; omega)
      exact List.mem_of_mem_take (htail.subset hx)

end

/-- **The run lemma**: a pattern survives a run exactly when some push was not `HeadsLower`. -/
theorem run_survivor : ∀ {chunks : List Bytes} {r : StreamRedactor} {segs : List OutputSegment}
    (_ : r.state.Aligned) (_ : Separated r.state.patterns) (_ : r.redactChunks chunks = .ok segs),
    (∃ p ∈ r.state.patterns, Find.Has (word p) ((tokens segs).map Token.key)) ↔
      ¬ r.AtEveryPush chunks r.state.HeadsLower
  | [], r, segs, ha, hs, hr => by
    have hvac : r.AtEveryPush [] r.state.HeadsLower := by
      intro pre c post outs r' he
      simp at he
    refine iff_of_false ?_ fun h => h hvac
    rintro ⟨p, hp, h⟩
    obtain ⟨r', hf⟩ := StreamRedactor.redactChunks_nil_ok hr
    rcases finish_ok ha hf with ⟨_, rfl⟩ | ⟨_, rfl⟩
    · refine Find.not_has_nil ?_ h
      simpa [word] using encode_ne_nil (hs.ne p hp)
    · rw [tokens_segments] at h
      exact redact_no_survivor hs.ne hp (r.state.ac.standard (patterns_ne hs.ne) _) h
  | c :: cs, r, segs, ha, hs, hr => by
    obtain ⟨out, r1, rest, hp, hr1, rfl⟩ := StreamRedactor.redactChunks_cons_ok hr
    have pushed := push_ok ha hp
    have hst := pushed.state_eq
    have ih := run_survivor (by rw [hst]; exact ha) (by rw [hst]; exact hs) hr1
    have htiles := run_tiles (by rw [hst]; exact ha) hr1
    rw [hst] at ih htiles
    rw [StreamRedactor.atEveryPush_cons hp, not_and_or, tokens_append]
    by_cases hc : c = []
    · obtain ⟨rfl, rfl⟩ := pushed.idle hc
      simpa [hc, tokens] using ih
    · rw [pushed.pending_eq hc] at htiles
      have hk : ((r.pending ++ c).take (r.state.cut (r.pending ++ c))).length = r.state.cut (r.pending ++ c) := by
        rw [List.length_take, Nat.min_eq_left cut_le]
      obtain ⟨tail, ht⟩ := complete_split (r.pending ++ c)
      have hall : r.pending ++ c ++ cs.flatten = complete (r.pending ++ c) ++ (tail ++ cs.flatten) := by
        rw [← List.append_assoc, ← ht]
      rw [pushed.out_eq hc, tokens_segments,
        seam_iff hs (tiles_redact r.state _) htiles fun p hp =>
          redact_no_survivor hs.ne hp (r.state.ac.standard (patterns_ne hs.ne) _),
        hk, ← List.append_assoc, List.take_append_drop, ih, hall]
      refine or_congr ?_ Iff.rfl
      simp only [hc, ne_eq, not_false_eq_true, forall_const]
      exact straddle_iff hs _ _

theorem separated_default : Separated defaultPatterns where
  ne := by decide
  lower := by decide +kernel
  borderless := by decide
  unnested := by decide

/-- **When the default patterns are all redacted.** In any letter case and however the text
is cut: exactly when no push ends inside an occurrence whose part so far has a capital. -/
theorem no_survivor_iff (build : Builder) (replacements : List String) (vault : PiiVault)
    (hvault : PiiVault.new build defaultPatterns replacements = .ok vault)
    (maxCapacity : Nat) (r : StreamRedactor) (hr : StreamRedactor.withMaxCapacity vault maxCapacity = .ok r)
    (chunks : List Bytes) (segs : List OutputSegment) (hrun : r.redactChunks chunks = .ok segs) :
    ¬ Survivor defaultPatterns segs ↔ r.AtEveryPush chunks r.state.HeadsLower := by
  obtain ⟨hbuilt, hstate⟩ := PiiVault.built_of_new hvault
  have hrs := StreamRedactor.state_of_withMaxCapacity hr
  have hpats : r.state.patterns = defaultPatterns := by rw [hrs, hstate]; rfl
  have ha : r.state.Aligned := by rw [hrs]; exact hbuilt.aligned
  have h := run_survivor ha (hpats ▸ separated_default) hrun
  rw [hpats] at h
  rw [survivor_iff_tokens separated_default.ne, h, not_not]

/-! ### `PASS`, then `WORD` -/

def defaultVault : PiiVault :=
  ⟨defaultPatterns, buildRedactionDfa (Search.AhoCorasick.scan asciiLower) defaultPatterns,
    ["[REDACTED]", "[REDACTED]", "[REDACTED]"],
    .new (Search.AhoCorasick.scan asciiLower) defaultPatterns ["[REDACTED]", "[REDACTED]", "[REDACTED]"]⟩

def defaultRedactor : StreamRedactor := ⟨defaultVault.engineState, [], 65536, by decide⟩

theorem defaultVault_new : PiiVault.new (Search.AhoCorasick.scan asciiLower) defaultPatterns
    ["[REDACTED]", "[REDACTED]", "[REDACTED]"] = .ok defaultVault := by
  rw [PiiVault.new, if_pos (by decide)]
  rfl

theorem defaultRedactor_new : StreamRedactor.withMaxCapacity defaultVault 65536 = .ok defaultRedactor :=
  withMaxCapacity_of_pos (by decide)

def upperSegments : List OutputSegment := [.input (encode "aaaaaaaaaPASS"), .input (encode "WORD")]

theorem upper_run : defaultRedactor.redactChunks [encode "aaaaaaaaaPASS", encode "WORD"] = .ok upperSegments := by
  decide +kernel

theorem no_survivor_iff_upper :
    defaultRedactor.redactChunks [encode "aaaaaaaaaPASS", encode "WORD"] = .ok upperSegments ∧
    (¬ Survivor defaultPatterns upperSegments ↔
      defaultRedactor.AtEveryPush [encode "aaaaaaaaaPASS", encode "WORD"] defaultRedactor.state.HeadsLower) :=
  ⟨upper_run, no_survivor_iff _ _ _ defaultVault_new 65536 _ defaultRedactor_new _ _ upper_run⟩

theorem upper_password_survives :
    ¬ ∀ (build : Builder) (replacements : List String) (vault : PiiVault),
      PiiVault.new build defaultPatterns replacements = .ok vault → ∀ maxCapacity r,
      StreamRedactor.withMaxCapacity vault maxCapacity = .ok r → ∀ (text : String) (chunks : List Bytes),
      chunks.flatten = encode text → ∀ segs, r.redactChunks chunks = .ok segs →
      ¬ Survivor defaultPatterns segs := by
  intro h
  refine h _ _ _ defaultVault_new 65536 _ defaultRedactor_new "aaaaaaaaaPASSWORD" _ rfl _
    upper_run ⟨encode "aaaaaaaaaPASSWORD", by decide, "password", by decide, by decide⟩

end PiiProxy
