import Mathlib.Data.List.Forall2
import PiiProxy.ChatEvents
import PiiProxy.RedactorUtf8

/-!
# What is left in the text a client rebuilds

`ChoiceState` (domain.rs:86-132) describes per-choice tails for fragments that span a pattern's
boundary, but nothing uses it: the redactor runs over the bytes of the stream
(lib.rs:741-760). A pattern that goes on in the choice's next event is therefore never seen.

* `has_rebuilt_iff` — what the client can find of a pattern: in the tokens of one content, or across
  two of them
* `choice_text_clean` — where no pattern goes on in the next event and no cut lies inside one, the
  text is clean; for a pattern that cannot overlap itself, exactly where none goes on
-/

namespace PiiProxy

open Utf8 (encode)
open Find (At Has Crosses)

/-- The pattern lies across the boundary between two events of a choice. -/
def CrossesEvents (pattern : Bytes) (contents : List Bytes) : Prop :=
  ∃ above below, contents = above ++ below ∧ Crosses pattern above.flatten below.flatten

theorem crossesEvents_iff_take {pattern : Bytes} {contents : List Bytes} : CrossesEvents pattern contents ↔
    ∃ n < contents.length, Crosses pattern (contents.take n).flatten (contents.drop n).flatten := by
  constructor
  · rintro ⟨above, below, rfl, hc⟩
    refine ⟨above.length, ?_, by rwa [List.take_left, List.drop_left]⟩
    obtain ⟨u, v, -, hv, -, -, hpre⟩ := hc
    have hne : below ≠ [] := by
      rintro rfl
      exact hv (List.prefix_nil.1 hpre)
    have := List.length_pos_iff.2 hne
    rw [List.length_append]
    omega
  · rintro ⟨n, -, hc⟩
    exact ⟨_, _, (List.take_append_drop n contents).symm, hc⟩

instance (pattern : Bytes) (contents : List Bytes) : Decidable (CrossesEvents pattern contents) :=
  decidable_of_iff _ crossesEvents_iff_take.symm

/-! ## Words in the output -/

section

variable {w : Bytes} {ts : List Token}

theorem prefix_render_iff : ∀ {w : Bytes} {ts : List Token}, (∀ r, .mark r ∈ ts → r ≠ [] ∧ ∀ b ∈ r, b ∉ w) →
    (w <+: ts.flatMap Token.bytes ↔ w.map .byte <+: ts)
  | [], ts, _ => by simp
  | x :: w, [], _ => by simp
  | x :: w, .byte b :: ts, h => by
    have ih := @prefix_render_iff w ts fun r hr =>
      ⟨(h r (by simp [hr])).1, fun c hc hw => (h r (by simp [hr])).2 c hc (List.mem_cons_of_mem _ hw)⟩
    simp [Token.bytes, List.cons_prefix_cons, ih]
  | x :: w, .mark r :: ts, h => by
    obtain ⟨hne, hr⟩ := h r (by simp)
    obtain ⟨y, r, rfl⟩ := List.exists_cons_of_ne_nil hne
    have hxy : x ≠ y := fun e => hr y (by simp) (by simp [e])
    simp [Token.bytes, List.cons_prefix_cons, hxy]

/-- A word none of whose letters is in a mark is in the output as bytes of the text. -/
theorem has_render_iff (hw : w ≠ []) : ∀ {ts : List Token}, (∀ r, .mark r ∈ ts → r ≠ [] ∧ ∀ b ∈ r, b ∉ w) →
    (Has w (ts.flatMap Token.bytes) ↔ Has (w.map .byte) ts)
  | [], _ => by
    have h1 : ¬ Has w [] := Find.not_has_nil hw
    have h2 : ¬ Has (w.map Token.byte) [] := Find.not_has_nil (by simpa using hw)
    simp [h1, h2]
  | .byte b :: ts, h => by
    have ih := has_render_iff hw fun r hr => h r (List.mem_cons_of_mem _ hr)
    have hpre := @prefix_render_iff w (.byte b :: ts) h
    rw [List.flatMap_cons, Token.bytes, List.singleton_append] at hpre ⊢
    rw [Find.has_cons, Find.has_cons, ih, hpre]
  | .mark r :: ts, h => by
    have ih := has_render_iff hw fun r hr => h r (List.mem_cons_of_mem _ hr)
    have hpre := @prefix_render_iff w (.mark r :: ts) h
    have hr := (h r (by simp)).2
    have hno : ¬ Has w r := by
      rintro ⟨i, hi⟩
      obtain ⟨x, hx⟩ := List.exists_mem_of_ne_nil _ hw
      exact hr x (List.mem_of_mem_drop (hi.subset hx)) hx
    have hcross : ¬ Crosses w r (ts.flatMap Token.bytes) := by
      rintro ⟨u, v, hu, -, rfl, hsuf, -⟩
      obtain ⟨x, hx⟩ := List.exists_mem_of_ne_nil _ hu
      exact hr x (hsuf.subset hx) (List.mem_append_left _ hx)
    have hmark : ¬ w.map .byte <+: Token.mark r :: ts := by
      obtain ⟨x, w, rfl⟩ := List.exists_cons_of_ne_nil hw
      simp [List.cons_prefix_cons]
    rw [List.flatMap_cons, Token.bytes, Find.has_append_iff hw, Find.has_cons, ih]
    simp [hno, hcross, hmark]

end

/-! ## Streams of events -/

/-- A replacement such as `[REDACTED]`: JSON text, and no letter of a pattern comes from it. -/
structure IsMask (replacement : String) : Prop where
  ne : replacement ≠ ""
  plain : ∀ b ∈ encode replacement, IsPrintable b ∧ ¬ IsLower b ∧ b ≠ 34 ∧ b ≠ 92

/-- A policy of one pattern of lowercase letters. -/
structure LetterPolicy (pattern replacement : String) : Prop where
  ne : pattern ≠ ""
  letters : ∀ b ∈ encode pattern, IsLower b
  mask : IsMask replacement

theorem masking_new (build : Builder) {p mask : String} (h : LetterPolicy p mask) :
    (EngineState.new build [p] [mask]).Masking := by
  refine ⟨rfl, ?_, ?_⟩
  · intro q hq
    obtain rfl := List.mem_singleton.1 hq
    exact h.letters
  · intro r hr
    have hr' : r = encode mask := by simpa [EngineState.new] using hr
    subst hr'
    refine ⟨encode_ne_nil h.mask.ne, fun b hb => ?_⟩
    obtain ⟨⟨hge, -⟩, hlow, hquote, -⟩ := h.mask.plain b hb
    refine ⟨hlow, hquote, ?_⟩
    rintro rfl
    exact absurd hge (by decide)

/-- A single pattern of which no end is a beginning cannot overlap itself. -/
theorem separated_singleton {p mask : String} (h : LetterPolicy p mask) (hb : Borderless [p]) : Separated [p] where
  ne := by simpa using h.ne
  lower := by
    intro q hq b hm hup
    obtain rfl := List.mem_singleton.1 hq
    exact absurd (UInt8.le_trans (h.letters b hm).1 hup.2) (by decide)
  borderless := hb
  unnested := by
    intro q hq q' hq' i hi hat
    obtain rfl := List.mem_singleton.1 hq
    obtain rfl := List.mem_singleton.1 hq'
    have := hat.le (encode_ne_nil h.ne)
    exact ⟨by omega, rfl⟩

theorem ChatEvent.Valid.utf8 {pattern : Bytes} {e : ChatEvent} (hv : e.Valid pattern) : Utf8.Valid e.bytes := by
  have hascii : ∀ b, IsPrintable b → b < 0x80 := by
    rintro b ⟨-, hb⟩
    exact UInt8.lt_of_le_of_lt hb (by decide)
  have hhead : Utf8.Valid e.head := Utf8.valid_of_ascii fun b hb => hascii b (hv.framing b (by simp [hb]))
  have hmid : Utf8.Valid e.mid := Utf8.valid_of_ascii fun b hb => hascii b (hv.framing b (by simp [hb]))
  have htail : Utf8.Valid e.tail := Utf8.valid_of_ascii fun b hb => hascii b (hv.framing b (by simp [hb]))
  have hcontent : Utf8.Valid e.content := Utf8.valid_of_ascii fun b hb => hascii b (hv.content b hb).1
  have hnumber : Utf8.Valid e.number :=
    (((Utf8.valid_encode _).append (Utf8.valid_encode _)).append (Utf8.valid_encode _)).append hmid
  have hopening : Utf8.Valid e.opening :=
    ((((Utf8.valid_encode _).append hhead).append (Utf8.valid_encode _)).append hnumber).append (Utf8.valid_encode _)
  exact (hopening.append hcontent).append (((Utf8.valid_encode _).append htail).append (Utf8.valid_encode _))

theorem valid_chatStream {pattern : Bytes} : ∀ {events : List ChatEvent}, (∀ e ∈ events, e.Valid pattern) →
    Utf8.Valid (chatStream events)
  | [], _ => rfl
  | e :: events, h => by
    rw [chatStream, List.flatMap_cons]
    exact (h e (by simp)).utf8.append (valid_chatStream fun e he => h e (List.mem_cons_of_mem _ he))

section

variable {state : EngineState} {p : String} {contents : List Bytes} {tss : List (List Token)}

theorem tiles_flatten (h : List.Forall₂ (Tiles state) contents tss) : Tiles state contents.flatten tss.flatten := by
  induction h with
  | nil => exact .nil
  | cons h _ ih => exact h.append ih

/-- What the client can find: a pattern in the tokens of one content, or across those of several. -/
theorem has_rebuilt_iff (hm : state.Masking) (hp : p ∈ state.patterns) (hne : p ≠ "")
    (h : List.Forall₂ (Tiles state) contents tss) : Has (encode p) (tss.flatten.flatMap Token.bytes) ↔
      (∃ t ∈ tss, Has ((encode p).map .byte) t) ∨
      ∃ as bs, tss = as ++ bs ∧ Crosses ((encode p).map .byte) as.flatten bs.flatten := by
  have hmarks : ∀ r, .mark r ∈ tss.flatten → r ≠ [] ∧ ∀ b ∈ r, b ∉ encode p := by
    intro r hr
    obtain ⟨hr', hb⟩ := hm.replaced r ((tiles_flatten h).mark_mem hm.aligned hr)
    exact ⟨hr', fun b hbr hbp => (hb b hbr).1 (hm.letters p hp b hbp)⟩
  rw [has_render_iff (encode_ne_nil hne) hmarks, Find.has_flatten_iff (by simpa using encode_ne_nil hne)]

theorem crossesEvents_of_tokens (h : List.Forall₂ (Tiles state) contents tss) {as bs : List (List Token)}
    (hsplit : tss = as ++ bs) (hc : Crosses ((encode p).map .byte) as.flatten bs.flatten) :
    CrossesEvents (encode p) contents := by
  subst hsplit
  exact ⟨_, _, (List.take_append_drop as.length contents).symm,
    crosses_of_tokens (tiles_flatten (List.forall₂_take_append _ _ _ h)) (tiles_flatten (List.forall₂_drop_append _ _ _ h)) hc⟩

/-- **No content to itself holds the pattern**: the client finds it exactly across events. -/
theorem has_rebuilt_iff_crosses (hm : state.Masking) (hs : Separated state.patterns) (hp : p ∈ state.patterns)
    (h : List.Forall₂ (Tiles state) contents tss) (hno : ∀ t ∈ tss, ¬ Has ((encode p).map .byte) t) :
    Has (encode p) (tss.flatten.flatMap Token.bytes) ↔ CrossesEvents (encode p) contents := by
  rw [has_rebuilt_iff hm hp (hs.ne p hp) h]
  constructor
  · rintro (⟨t, ht, hhas⟩ | ⟨as, bs, hsplit, hc⟩)
    · exact absurd hhas (hno t ht)
    · exact crossesEvents_of_tokens h hsplit hc
  · rintro ⟨above, below, rfl, hc⟩
    refine Or.inr ⟨tss.take above.length, tss.drop above.length, (List.take_append_drop _ _).symm, ?_⟩
    have hflip := h.flip
    have ha := (List.forall₂_take_append _ _ _ hflip).flip
    have hb := (List.forall₂_drop_append _ _ _ hflip).flip
    exact (crosses_tokens_iff hs hp (tiles_flatten ha) (tiles_flatten hb)).2 hc

end

/-! ## The run -/

section

variable {r : StreamRedactor} {p : String} {events : List ChatEvent} {chunks : List Bytes} {segs : List OutputSegment}

/-- Whole cuts leave the pattern in no content to itself. -/
theorem not_has_of_whole (hm : r.state.Masking) (hne : ∀ q ∈ r.state.patterns, q ≠ "") (hp : p ∈ r.state.patterns)
    (hrun : r.redactChunks chunks = .ok segs) (hwhole : r.AtEveryPush chunks r.state.Whole) {t : List Token}
    (ht : t <:+: tokens segs) : ¬ Has ((encode p).map .byte) t := fun hhas =>
  run_verbatim hm.aligned hne hrun hwhole hp (hhas.of_infix (by simpa using encode_ne_nil (hne p hp)) ht)

/-- A pattern that cannot overlap itself is rebuilt exactly where it lies across two events. -/
theorem rebuilt_iff_crosses (hm : r.state.Masking) (hpats : r.state.patterns = [p]) (hs : Separated r.state.patterns)
    (hpend : r.pending = []) (hevents : ∀ e ∈ events, e.Valid (encode p))
    (hchunks : chunks.flatten = chatStream events) (hrun : r.redactChunks chunks = .ok segs) (i : Nat) :
    Has (encode p) (rebuilt (outputBytes segs) i) ↔ CrossesEvents (encode p) (contentsOf i events) := by
  have hp : p ∈ r.state.patterns := by simp [hpats]
  have htiles := run_tiles hm.aligned hrun
  rw [hpend, List.nil_append, hchunks] at htiles
  have hwhole : r.AtEveryPush chunks r.state.Whole :=
    atEveryPush_of_suffix hm.aligned fun text rest _ => whole_of_separated hs text rest
  obtain ⟨tss, hall, hsub, hout⟩ := rebuilt_stream hm hpats (hs.ne p hp) i hevents htiles
  rw [outputBytes_eq, hout]
  exact has_rebuilt_iff_crosses hm hs hp hall fun t ht => not_has_of_whole hm hs.ne hp hrun hwhole (hsub t ht)

end

/-- **What the client is left with.** Events of any choices, cut into chunks anywhere. With room for a
pattern the run succeeds. Where no pattern lies across two events of a choice, and none, letter
for letter, across a place where the redactor cuts, the client rebuilds none. For a pattern that
cannot overlap itself, it rebuilds none exactly where none lies across two events. -/
theorem choice_text_clean (build : Builder) (p mask : String) (hpolicy : LetterPolicy p mask) (vault : PiiVault)
    (hvault : PiiVault.new build [p] [mask] = .ok vault) (maxCapacity : Nat) (r : StreamRedactor)
    (hr : StreamRedactor.withMaxCapacity vault maxCapacity = .ok r) (events : List ChatEvent)
    (hevents : ∀ e ∈ events, e.Valid (encode p)) (chunks : List Bytes) (hchunks : chunks.flatten = chatStream events) :
    ((encode p).length + 3 ≤ maxCapacity → ∃ segs, r.redactChunks chunks = .ok segs) ∧
    ∀ segs, r.redactChunks chunks = .ok segs →
      ((∀ i, ¬ CrossesEvents (encode p) (contentsOf i events)) → r.AtEveryPush chunks r.state.Whole →
        ∀ i, ¬ Has (encode p) (rebuilt (outputBytes segs) i)) ∧
      (Borderless [p] → ((∀ i, ¬ Has (encode p) (rebuilt (outputBytes segs) i)) ↔
        ∀ i, ¬ CrossesEvents (encode p) (contentsOf i events))) := by
  obtain ⟨hbuilt, hstate⟩ := PiiVault.built_of_new hvault
  obtain ⟨hrs, hpend, hmax⟩ := withStateMaxCapacity_ok hr
  rw [hstate] at hrs
  have hm : r.state.Masking := hrs ▸ masking_new build hpolicy
  have hpats : r.state.patterns = [p] := by rw [hrs]; rfl
  have hp : p ∈ r.state.patterns := by simp [hpats]
  have hne : ∀ q ∈ r.state.patterns, q ≠ "" := by simpa [hpats] using hpolicy.ne
  refine ⟨?_, ?_⟩
  · intro hcap
    apply StreamRedactor.redactChunks_total hm.aligned
    · rw [hpend, hchunks]
      exact valid_chatStream hevents
    · rw [hmax, hrs]
      simpa [EngineState.new, maxLen] using hcap
  · intro segs hrun
    refine ⟨fun hcross hwhole i hhas => ?_, fun hb => ?_⟩
    · have htiles := run_tiles hm.aligned hrun
      rw [hpend, List.nil_append, hchunks] at htiles
      obtain ⟨tss, hall, hsub, hout⟩ := rebuilt_stream hm hpats hpolicy.ne i hevents htiles
      rw [outputBytes_eq, hout, has_rebuilt_iff hm hp hpolicy.ne hall] at hhas
      rcases hhas with ⟨t, ht, hhas⟩ | ⟨as, bs, hsplit, hc⟩
      · exact not_has_of_whole hm hne hp hrun hwhole (hsub t ht) hhas
      · exact hcross i (crossesEvents_of_tokens hall hsplit hc)
    · have hs : Separated r.state.patterns := by
        rw [hpats]
        exact separated_singleton hpolicy hb
      exact forall_congr' fun i => not_congr (rebuilt_iff_crosses hm hpats hs hpend hevents hchunks hrun i)

/-! ### `pass`, then `word` -/

/-- The event `data: {"choices":[{"index":i,"delta":{"content":c}}]}`. -/
def chatEvent (i : Nat) (content : String) : ChatEvent :=
  ⟨encode "\"choices\":[\x7b", i, [], encode content, encode "\x7d]"⟩

theorem letterPolicy_password : LetterPolicy "password" "[REDACTED]" :=
  ⟨by decide, by decide +kernel, by decide, by decide +kernel⟩

theorem borderless_password : Borderless ["password"] := by
  decide

def passwordVault : PiiVault :=
  ⟨["password"], buildRedactionDfa (Search.AhoCorasick.scan asciiLower) ["password"], ["[REDACTED]"],
    .new (Search.AhoCorasick.scan asciiLower) ["password"] ["[REDACTED]"]⟩

theorem passwordVault_new : PiiVault.new (Search.AhoCorasick.scan asciiLower) ["password"] ["[REDACTED]"] =
    .ok passwordVault := if_pos rfl

def passwordRedactor : StreamRedactor := ⟨passwordVault.engineState, [], 65536, Nat.succ_pos _⟩

theorem passwordRedactor_new : StreamRedactor.withMaxCapacity passwordVault 65536 = .ok passwordRedactor :=
  withMaxCapacity_of_pos (by decide)

/-- A choice's password in one event, with another choice's event in between. -/
def interleavedEvents : List ChatEvent := [chatEvent 0 "my pass", chatEvent 1 "word", chatEvent 0 " is password"]

theorem valid_interleaved : ∀ e ∈ interleavedEvents, e.Valid (encode "password") := by
  decide +kernel

theorem choice_text_clean_interleaved : ∃ segs, passwordRedactor.redactChunks [chatStream interleavedEvents] = .ok segs ∧
    ∀ i, ¬ Has (encode "password") (rebuilt (outputBytes segs) i) := by
  obtain ⟨hrun, hclean⟩ := choice_text_clean _ _ _ letterPolicy_password _ passwordVault_new 65536 _ passwordRedactor_new
    interleavedEvents valid_interleaved [chatStream interleavedEvents] (by simp)
  obtain ⟨segs, hsegs⟩ := hrun (by decide)
  refine ⟨segs, hsegs, ((hclean segs hsegs).2 borderless_password).2 ?_⟩
  intro i
  match i with
  | 0 => decide
  | 1 => decide
  | i + 2 =>
    have hnone : contentsOf (i + 2) interleavedEvents = [] := by simp [contentsOf, interleavedEvents, chatEvent]
    rw [hnone]
    decide

def splitEvents : List ChatEvent := [chatEvent 0 "my pass", chatEvent 0 "word"]

theorem split_password_rebuilt :
    ¬ ∀ (build : Builder) (p mask : String) (vault : PiiVault), LetterPolicy p mask →
      PiiVault.new build [p] [mask] = .ok vault → ∀ (maxCapacity : Nat) (r : StreamRedactor),
      StreamRedactor.withMaxCapacity vault maxCapacity = .ok r → ∀ events : List ChatEvent,
      (∀ e ∈ events, e.Valid (encode p)) → ∀ chunks : List Bytes, chunks.flatten = chatStream events →
      ∀ segs, r.redactChunks chunks = .ok segs → ∀ i, ¬ Has (encode p) (rebuilt (outputBytes segs) i) := by
  intro h
  have hvalid : ∀ e ∈ splitEvents, e.Valid (encode "password") := by
    decide +kernel
  have hm : passwordRedactor.state.Masking := masking_new _ letterPolicy_password
  obtain ⟨segs, hsegs⟩ := @StreamRedactor.redactChunks_total passwordRedactor [chatStream splitEvents] hm.aligned
    (by simpa [passwordRedactor] using valid_chatStream hvalid) (by decide)
  refine h _ _ _ _ letterPolicy_password passwordVault_new 65536 _ passwordRedactor_new splitEvents hvalid
    [chatStream splitEvents] (by simp) segs hsegs 0 ?_
  rw [rebuilt_iff_crosses hm rfl (separated_singleton letterPolicy_password borderless_password) rfl hvalid (by simp)
    hsegs]
  decide

end PiiProxy
