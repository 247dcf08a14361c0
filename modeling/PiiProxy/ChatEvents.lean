import Mathlib.Tactic.MkIffOfInductiveProp
import PiiProxy.Lib.Lines
import PiiProxy.Verbatim

/-!
# Chat-completion events and the client that reads them

An event is one `data:` line with the choice's index and its piece of content, and a blank
line (`ChatEvent.bytes`). A client keeps the contents of one choice, in order
(`rebuilt`). Contents have no quotes or backslashes here, so the strings of an event are what
stands between its quotes.

The redactor sees none of that (lib.rs:741-760). A pattern of letters cannot reach over a quote or
a line end, so it redacts each content on its own:

* `rebuilt_stream` — the client rebuilds what the tokens of a choice's contents spell
-/

namespace PiiProxy

open Utf8 (encode)
open Lines (lines)
open Find (At Has)

def IsLower (b : UInt8) : Prop := 97 ≤ b ∧ b ≤ 122

instance (b : UInt8) : Decidable (IsLower b) := inferInstanceAs (Decidable (_ ∧ _))

/-- From the space to the tilde. -/
def IsPrintable (b : UInt8) : Prop := 32 ≤ b ∧ b ≤ 126

instance (b : UInt8) : Decidable (IsPrintable b) := inferInstanceAs (Decidable (_ ∧ _))

/-! ## Events -/

structure ChatEvent where
  /-- The members before the index. -/
  head : Bytes
  index : Nat
  /-- The members between the index and the delta. -/
  mid : Bytes
  content : Bytes
  /-- What follows the delta. -/
  tail : Bytes

namespace ChatEvent

def title (e : ChatEvent) : Bytes := encode "data: \x7b" ++ e.head

/-- The index and what follows it, up to the delta's quote. -/
def number (e : ChatEvent) : Bytes := encode ":" ++ encode (toString e.index) ++ encode "," ++ e.mid

def opening (e : ChatEvent) : Bytes :=
  e.title ++ encode "\"index\"" ++ e.number ++ encode "\"delta\":\x7b\"content\":\""

def closing (e : ChatEvent) : Bytes := encode "\"\x7d" ++ e.tail ++ encode "\x7d\n\n"

def bytes (e : ChatEvent) : Bytes := e.opening ++ e.content ++ e.closing

/-- An event a client can read, in whose framing `pattern` does not occur. -/
@[mk_iff]
structure Valid (pattern : Bytes) (e : ChatEvent) : Prop where
  framing : ∀ b ∈ e.head ++ e.mid ++ e.tail, IsPrintable b
  content : ∀ b ∈ e.content, IsPrintable b ∧ b ≠ 34 ∧ b ≠ 92
  /-- No other member in front is named like the two that are read. -/
  index_first : encode "index" ∉ e.title.splitOn 34
  content_first : encode "content" ∉ e.title.splitOn 34 ++ e.number.splitOn 34
  opening_clean : ¬ Has pattern e.opening
  closing_clean : ¬ Has pattern e.closing

-- byte by byte along the lists, not over all bytes
instance (pattern : Bytes) (e : ChatEvent) : Decidable (e.Valid pattern) :=
  @decidable_of_iff _ _ (valid_iff pattern e).symm
    (@instDecidableAnd _ _ (List.decidableBAll _ _) (@instDecidableAnd _ _ (List.decidableBAll _ _) inferInstance))

end ChatEvent

def chatStream (events : List ChatEvent) : Bytes := events.flatMap ChatEvent.bytes

/-- The contents of one choice, in order. -/
def contentsOf (i : Nat) (events : List ChatEvent) : List Bytes :=
  (events.filter (·.index = i)).map ChatEvent.content

/-! ## The client -/

/-- What follows the first string that is `key`, between quotes. -/
def fieldAfter (key : Bytes) : List Bytes → List Bytes
  | [] => []
  | q :: qs => if q = key then qs else fieldAfter key qs

/-- The digits of the index. -/
def choiceIndex (line : Bytes) : Option Bytes :=
  match fieldAfter (encode "index") (line.splitOn 34) with
  | v :: _ => some ((v.drop 1).takeWhile fun b => 48 ≤ b ∧ b ≤ 57)
  | [] => none

def deltaContent (line : Bytes) : Bytes :=
  match fieldAfter (encode "content") (line.splitOn 34) with
  | _ :: c :: _ => c
  | _ => []

/-- What a client has of choice `i` once it has read `out`. -/
def rebuilt (out : Bytes) (i : Nat) : Bytes :=
  (lines 10 out).flatMap fun line =>
    if choiceIndex line = some (encode (toString i)) then deltaContent line else []

theorem fieldAfter_append {key : Bytes} {b : List Bytes} : ∀ {a : List Bytes}, key ∉ a →
    fieldAfter key (a ++ b) = fieldAfter key b
  | [], _ => rfl
  | q :: a, h => by
    have hq : q ≠ key := fun e => h (by simp [e])
    rw [List.cons_append, fieldAfter, if_neg hq, fieldAfter_append fun hm => h (List.mem_cons_of_mem _ hm)]

theorem fieldAfter_self {key : Bytes} {b : List Bytes} : fieldAfter key (key :: b) = b := if_pos rfl

/-- What has no separator in it starts the first piece. -/
theorem splitOn_append {x : UInt8} {b : Bytes} : ∀ {a : Bytes}, x ∉ a →
    ∃ q qs, (a ++ b).splitOn x = (a ++ q) :: qs
  | [], _ => by
    obtain ⟨q, qs, h⟩ := List.exists_cons_of_ne_nil (List.splitOn_ne_nil x b)
    exact ⟨q, qs, h⟩
  | y :: a, h => by
    have hy : y ≠ x := fun e => h (by simp [e])
    obtain ⟨q, qs, hq⟩ := @splitOn_append x b a fun hm => h (List.mem_cons_of_mem _ hm)
    refine ⟨q, qs, ?_⟩
    rw [List.cons_append, List.splitOn_cons_eq_if_modifyHead, if_neg (by simpa using hy), hq]
    rfl

theorem toList_toString (n : Nat) : (toString n).toList = Nat.toDigits 10 n := by
  rw [Nat.toString_eq_repr, Nat.toList_repr]

theorem toString_injective : Function.Injective (toString : Nat → String) := by
  intro m n h
  have hd : Nat.toDigits 10 m = Nat.toDigits 10 n := by rw [← toList_toString, ← toList_toString, h]
  rw [← @Nat.ofDigitChars_ten_toDigits m, hd, Nat.ofDigitChars_ten_toDigits]

theorem digits_toString (n : Nat) : ∀ b ∈ encode (toString n), 48 ≤ b ∧ b ≤ 57 := by
  intro b hb
  rw [Utf8.encode_eq, toList_toString, List.mem_flatMap] at hb
  obtain ⟨c, hc, hb⟩ := hb
  have hd := Nat.isDigit_of_mem_toDigits (b := 10) (by decide) (by decide) hc
  have hmem : c ∈ ['0', '1', '2', '3', '4', '5', '6', '7', '8', '9'] := by
    simp only [Char.isDigit, Bool.and_eq_true, decide_eq_true_eq, UInt32.le_iff_toNat_le] at hd
    simp only [List.mem_cons, List.not_mem_nil, or_false, Char.ext_iff, ← UInt32.toNat_inj]
    simp at hd ⊢
    omega
  have hall : (['0', '1', '2', '3', '4', '5', '6', '7', '8', '9'].all fun c =>
      (String.utf8EncodeChar c).all fun b => decide (48 ≤ b ∧ b ≤ 57)) = true := rfl
  exact of_decide_eq_true (List.all_eq_true.1 (List.all_eq_true.1 hall c hmem) b hb)

/-! ## What redaction leaves alone -/

/-- Patterns of lowercase letters, and replacements that have none of them and are JSON text. -/
structure EngineState.Masking (state : EngineState) : Prop where
  aligned : state.Aligned
  letters : ∀ p ∈ state.patterns, ∀ b ∈ encode p, IsLower b
  replaced : ∀ r ∈ state.replacements, r ≠ [] ∧ ∀ b ∈ r, ¬ IsLower b ∧ b ≠ 34 ∧ b ≠ 10

section

variable {state : EngineState} {x y : Bytes} {ts : List Token}

/-- No letter, no place in a pattern. -/
theorem EngineState.Masking.separates (hm : state.Masking) {b : UInt8} (hb : ¬ IsLower (asciiLower b)) :
    ∀ p ∈ state.patterns, asciiLower b ∉ (encode p).map asciiLower := by
  intro p hp hmem
  obtain ⟨c, hc, he⟩ := List.mem_map.1 hmem
  have hlow := hm.letters p hp c hc
  have hsame : asciiLower c = c := by
    rw [asciiLower, if_neg]
    rintro ⟨-, hle⟩
    exact absurd (UInt8.le_trans hlow.1 hle) (by decide)
  exact hb (he ▸ hsame.symm ▸ hlow)

theorem not_mem_render (hm : state.Masking) {b : UInt8} (hb : b = 34 ∨ b = 10) (h : Tiles state x ts) (hx : b ∉ x) :
    b ∉ ts.flatMap Token.bytes := by
  intro hmem
  obtain ⟨t, ht, hbt⟩ := List.mem_flatMap.1 hmem
  cases t with
  | byte c =>
    simp only [Token.bytes, List.mem_singleton] at hbt
    obtain ⟨s1, s2, rfl⟩ := List.append_of_mem ht
    obtain ⟨l1, l2, rfl, -, h2⟩ := h.split
    cases h2
    exact hx (by simp [hbt])
  | mark r =>
    have := (hm.replaced r (h.mark_mem hm.aligned ht)).2 b hbt
    rcases hb with rfl | rfl
    · exact this.2.1 rfl
    · exact this.2.2 rfl

/-- Text in lower case without the patterns comes out as it is. -/
theorem Tiles.eq_bytes_of_clean (hm : state.Masking) (h : Tiles state x ts) (hx : NoUpper x)
    (hno : ∀ p ∈ state.patterns, ¬ Has (encode p) x) : ts = x.map .byte := by
  refine h.untouched fun m hocc => ?_
  have hup : ∀ p ∈ state.patterns, NoUpper (encode p) := by
    intro p hp b hb
    have := (hm.letters p hp b hb).1
    rintro ⟨-, hle⟩
    exact absurd (UInt8.le_trans this hle) (by decide)
  obtain ⟨p, hp, -, hat⟩ := occurs_literal hup hx hocc
  exact hno p hp ⟨_, hat⟩

/-- So does text without letters. -/
theorem Tiles.eq_bytes_of_no_letters (hm : state.Masking) (hne : ∀ p ∈ state.patterns, p ≠ "") (h : Tiles state x ts)
    (hx : ∀ b ∈ x, ¬ IsLower (asciiLower b)) : ts = x.map .byte := by
  induction h with
  | nil => rfl
  | byte _ ih => rw [List.map_cons, ih fun b hb => hx b (List.mem_cons_of_mem _ hb)]
  | @mark k p w w' ts hk hw _ _ =>
    have hp := List.mem_of_getElem? hk
    cases w with
    | nil => exact absurd (List.map_eq_nil_iff.1 hw.symm) (encode_ne_nil (hne p hp))
    | cons b w =>
      refine absurd ?_ (hm.separates (hx b (by simp)) p hp)
      rw [← hw]
      simp

/-- Letters in the output are letters of the text. -/
theorem Tiles.eq_of_render (hm : state.Masking) (h : Tiles state x ts) (hy : ts.flatMap Token.bytes = y)
    (hlow : ∀ b ∈ y, IsLower b) : x = y := by
  have hbytes : ∀ t ∈ ts, ∃ b, t = .byte b := by
    intro t ht
    cases t with
    | byte b => exact ⟨b, rfl⟩
    | mark r =>
      obtain ⟨hne, hr⟩ := hm.replaced r (h.mark_mem hm.aligned ht)
      obtain ⟨b, hb⟩ := List.exists_mem_of_ne_nil _ hne
      exact absurd (hlow b (hy ▸ List.mem_flatMap.2 ⟨_, ht, hb⟩)) (hr b hb).1
  have hts : ts = (ts.flatMap Token.bytes).map .byte := by
    clear h hy
    induction ts with
    | nil => rfl
    | cons t ts ih =>
      obtain ⟨b, rfl⟩ := hbytes t (by simp)
      rw [List.flatMap_cons, List.map_append, ← ih fun t ht => hbytes t (List.mem_cons_of_mem _ ht)]
      rfl
  rw [hts, hy] at h
  exact h.eq_bytes

/-- A name between quotes in the output stood between quotes in the text. -/
theorem mem_splitOn_of_render (hm : state.Masking) {key : Bytes} (hkey : ∀ b ∈ key, IsLower b) (n : Nat) :
    ∀ {x : Bytes} {ts : List Token}, x.length = n → Tiles state x ts →
      key ∈ (ts.flatMap Token.bytes).splitOn 34 → key ∈ x.splitOn 34 := by
  induction n using Nat.strong_induction_on with
  | _ n ih =>
    intro x ts hn h hmem
    by_cases hq : (34 : UInt8) ∈ x
    · obtain ⟨a, b, rfl⟩ := List.append_of_mem hq
      obtain ⟨ts1, ts2, rfl, h1, h2⟩ := h.split_byte (hm.separates (by decide))
      have hrender : (ts1 ++ .byte 34 :: ts2).flatMap Token.bytes =
          ts1.flatMap Token.bytes ++ 34 :: ts2.flatMap Token.bytes := by simp [Token.bytes]
      rw [List.length_append, List.length_cons] at hn
      rw [hrender, List.splitOn_append_cons_self, List.mem_append] at hmem
      rw [List.splitOn_append_cons_self, List.mem_append]
      rcases hmem with hmem | hmem
      · exact Or.inl (ih a.length (by omega) rfl h1 hmem)
      · exact Or.inr (ih b.length (by omega) rfl h2 hmem)
    · rw [List.splitOn_eq_singleton (not_mem_render hm (Or.inl rfl) h hq), List.mem_singleton] at hmem
      rw [List.splitOn_eq_singleton hq, List.mem_singleton, h.eq_of_render hm hmem.symm hkey]

end

/-! ## One event -/

/-- A line with an event's strings, and what stands between them. -/
def eventLine (title number c rest : Bytes) : Bytes :=
  title ++ 34 :: (encode "index" ++ 34 :: (number ++ 34 :: (encode "delta" ++ 34 :: (encode ":\x7b" ++ 34 ::
    (encode "content" ++ 34 :: (encode ":" ++ 34 :: (c ++ 34 :: rest)))))))

/-- The client reads the index and the content. -/
theorem read_eventLine {title number c rest w : Bytes} {i : Nat} (h1 : encode "index" ∉ title.splitOn 34)
    (h2 : encode "content" ∉ title.splitOn 34) (h3 : encode "content" ∉ number.splitOn 34)
    (hnum : number = encode ":" ++ encode (toString i) ++ 44 :: w) (hc : 34 ∉ c) :
    choiceIndex (eventLine title number c rest) = some (encode (toString i)) ∧
      deltaContent (eventLine title number c rest) = c := by
  have hi : (encode "index").splitOn 34 = [encode "index"] := by decide
  have hd : (encode "delta").splitOn 34 = [encode "delta"] := by decide
  have hb : (encode ":\x7b").splitOn 34 = [encode ":\x7b"] := by decide
  have hk : (encode "content").splitOn 34 = [encode "content"] := by decide
  have hv : (encode ":").splitOn 34 = [encode ":"] := by decide
  have hskip : encode "content" ∉ title.splitOn 34 ++ (encode "index" :: (number.splitOn 34 ++
      [encode "delta", encode ":\x7b"])) := by
    have hne : encode "content" ≠ encode "index" ∧ encode "content" ∉ [encode "delta", encode ":\x7b"] := by decide
    simp only [List.mem_append, List.mem_cons, not_or]
    exact ⟨h2, hne.1, h3, by simpa using hne.2⟩
  constructor
  · have hdig : ∀ b ∈ encode (toString i), decide (48 ≤ b ∧ b ≤ 57) = true := by
      intro b hb
      simpa using digits_toString i b hb
    have hno : (34 : UInt8) ∉ encode ":" ++ encode (toString i) ++ [44] := by
      intro hm
      simp only [List.mem_append] at hm
      rcases hm with (hm | hm) | hm
      · exact absurd hm (by decide)
      · exact absurd (digits_toString i 34 hm).1 (by decide)
      · exact absurd hm (by decide)
    obtain ⟨q, qs, hq⟩ := @splitOn_append 34 w _ hno
    have hnum' : number = encode ":" ++ encode (toString i) ++ [44] ++ w := by rw [hnum]; simp
    rw [choiceIndex, eventLine, List.splitOn_append_cons_self, List.splitOn_append_cons_self, fieldAfter_append h1, hi,
      List.singleton_append, fieldAfter_self, List.splitOn_append_cons_self, hnum', hq, List.cons_append]
    have hcolon : encode ":" = [58] := by decide
    simp only [hcolon, List.append_assoc, List.cons_append, List.nil_append, List.drop_succ_cons, List.drop_zero,
      Option.some.injEq]
    rw [List.takeWhile_append_of_pos hdig, List.takeWhile_cons_of_neg (by decide), List.append_nil]
  · rw [deltaContent, eventLine]
    simp only [List.splitOn_append_cons_self, hi, hd, hb, hk, hv, List.splitOn_eq_singleton hc, List.singleton_append]
    have hassoc (l : List Bytes) : title.splitOn 34 ++ (encode "index" :: (number.splitOn 34 ++ (encode "delta" ::
        encode ":\x7b" :: l))) = (title.splitOn 34 ++ (encode "index" :: (number.splitOn 34 ++
        [encode "delta", encode ":\x7b"]))) ++ l := by simp
    rw [hassoc, fieldAfter_append hskip, fieldAfter_self]

theorem ChatEvent.bytes_eq (e : ChatEvent) :
    e.bytes = eventLine e.title e.number e.content (encode "\x7d" ++ e.tail ++ encode "\x7d") ++ 10 :: [10] := by
  have h1 : encode "\"index\"" = 34 :: (encode "index" ++ [34]) := by decide
  have h2 : encode "\"delta\":\x7b\"content\":\"" =
      34 :: (encode "delta" ++ 34 :: (encode ":\x7b" ++ 34 :: (encode "content" ++ 34 :: (encode ":" ++ [34])))) := by decide
  have h3 : encode "\"\x7d" = 34 :: encode "\x7d" := by decide
  have h4 : encode "\x7d\n\n" = encode "\x7d" ++ 10 :: [10] := by decide
  simp [bytes, opening, closing, eventLine, h1, h2, h3, h4]

section

variable {state : EngineState} {p : String} {e : ChatEvent} {ts : List Token}

theorem render_split (ts1 ts2 : List Token) (b : UInt8) :
    (ts1 ++ .byte b :: ts2).flatMap Token.bytes = ts1.flatMap Token.bytes ++ b :: ts2.flatMap Token.bytes := by
  simp [Token.bytes]

/-- **The redacted event.** Its strings are where they were, and only its content, its title and its
other members can have changed. -/
theorem tiles_eventLine {title number c rest : Bytes} (hm : state.Masking)
    (hclean : ∀ q ∈ state.patterns, ∀ x ∈ [encode "index", encode "delta", encode ":\x7b", encode "content", encode ":"],
      ¬ Has (encode q) x) (h : Tiles state (eventLine title number c rest) ts) :
    ∃ t n k z, Tiles state title t ∧ Tiles state number n ∧ Tiles state c k ∧ Tiles state rest z ∧ k <:+: ts ∧
      ts.flatMap Token.bytes = eventLine (t.flatMap Token.bytes) (n.flatMap Token.bytes) (k.flatMap Token.bytes)
        (z.flatMap Token.bytes) := by
  have hsep := hm.separates (b := 34) (by decide)
  have hkeep : ∀ x ∈ [encode "index", encode "delta", encode ":\x7b", encode "content", encode ":"],
      ∀ {t : List Token}, Tiles state x t → t = x.map .byte := by
    intro x hx t ht
    have hup : ∀ x ∈ [encode "index", encode "delta", encode ":\x7b", encode "content", encode ":"], NoUpper x := by
      decide +kernel
    exact ht.eq_bytes_of_clean hm (hup x hx) fun q hq => hclean q hq x hx
  obtain ⟨t, ts1, rfl, ht, h⟩ := h.split_byte hsep
  obtain ⟨t2, ts2, rfl, h2, h⟩ := h.split_byte hsep
  obtain ⟨n, ts3, rfl, hn, h⟩ := h.split_byte hsep
  obtain ⟨t4, ts4, rfl, h4, h⟩ := h.split_byte hsep
  obtain ⟨t5, ts5, rfl, h5, h⟩ := h.split_byte hsep
  obtain ⟨t6, ts6, rfl, h6, h⟩ := h.split_byte hsep
  obtain ⟨t7, ts7, rfl, h7, h⟩ := h.split_byte hsep
  obtain ⟨k, z, rfl, hk, hz⟩ := h.split_byte hsep
  refine ⟨t, n, k, z, ht, hn, hk, hz, ?_, ?_⟩
  · refine ⟨t ++ .byte 34 :: (t2 ++ .byte 34 :: (n ++ .byte 34 :: (t4 ++ .byte 34 :: (t5 ++ .byte 34 :: (t6 ++
      .byte 34 :: (t7 ++ [.byte 34])))))), .byte 34 :: z, ?_⟩
    simp
  · rw [hkeep _ (by simp) h2, hkeep _ (by simp) h4, hkeep _ (by simp) h5, hkeep _ (by simp) h6, hkeep _ (by simp) h7]
    simp only [render_split, flatMap_byte, eventLine]

theorem ChatEvent.Valid.clean (hv : e.Valid (encode p)) (hp : p ≠ "") :
    ∀ x ∈ [encode "index", encode "delta", encode ":\x7b", encode "content", encode ":"], ¬ Has (encode p) x := by
  have hparts : ∀ x ∈ [encode "index", encode "delta", encode ":\x7b", encode "content", encode ":"],
      x <:+: encode "\"index\"" ∨ x <:+: encode "\"delta\":\x7b\"content\":\"" := by decide
  intro x hx hhas
  have hne := encode_ne_nil hp
  refine hv.opening_clean ?_
  rcases hparts x hx with h | h
  · exact (((hhas.of_infix hne h).append_right.append_left hne).append_left hne)
  · exact (hhas.of_infix hne h).append_right

theorem ChatEvent.Valid.no_newline (hv : e.Valid (encode p)) :
    10 ∉ eventLine e.title e.number e.content (encode "\x7d" ++ e.tail ++ encode "\x7d") := by
  have hf : 10 ∉ e.head ++ e.mid ++ e.tail := fun h => absurd (hv.framing 10 h).1 (by decide)
  have hc : 10 ∉ e.content := fun h => absurd (hv.content 10 h).1.1 (by decide)
  have hd : 10 ∉ encode (toString e.index) := fun h => absurd (digits_toString _ 10 h).1 (by decide)
  have hlits : 10 ∉ encode "data: \x7b" ∧ 10 ∉ encode "index" ∧ 10 ∉ encode ":" ∧ 10 ∉ encode "," ∧
      10 ∉ encode "delta" ∧ 10 ∉ encode ":\x7b" ∧ 10 ∉ encode "content" ∧ 10 ∉ encode "\x7d" := by decide
  simp only [List.mem_append, not_or] at hf
  unfold eventLine ChatEvent.title ChatEvent.number
  generalize encode (toString e.index) = digits at hd ⊢
  simp [hf, hc, hd, hlits]

theorem eventLine_append (title number c rest l : Bytes) :
    eventLine title number c rest ++ l = eventLine title number c (rest ++ l) := by
  simp [eventLine]

/-- **One event read back**, whatever was redacted in it and whatever follows. -/
theorem rebuilt_event (hm : state.Masking) (hpats : state.patterns = [p]) (hp : p ≠ "") (hv : e.Valid (encode p))
    (h : Tiles state e.bytes ts) : ∃ k, Tiles state e.content k ∧ k <:+: ts ∧
      ∀ rest i, rebuilt (ts.flatMap Token.bytes ++ rest) i =
        (if e.index = i then k.flatMap Token.bytes else []) ++ rebuilt rest i := by
  have hne : ∀ q ∈ state.patterns, q ≠ "" := by simpa [hpats] using hp
  rw [ChatEvent.bytes_eq] at h
  obtain ⟨ts', t10, rfl, hline, h10⟩ := h.split_byte (hm.separates (by decide))
  rw [h10.eq_bytes_of_no_letters hm hne (by decide +kernel)]
  obtain ⟨t, n, k, z, ht, hn, hk, hz, hinf, hrender⟩ := tiles_eventLine hm (by simpa [hpats] using hv.clean hp) hline
  -- the index's digits are no letters
  obtain ⟨w, hnum⟩ : ∃ w, n.flatMap Token.bytes = encode ":" ++ encode (toString e.index) ++ 44 :: w := by
    have hcomma : e.number = (encode ":" ++ encode (toString e.index)) ++ 44 :: e.mid := by
      have : encode "," = [44] := by decide
      simp [ChatEvent.number, this]
    rw [hcomma] at hn
    obtain ⟨n1, n2, rfl, h1, -⟩ := hn.split_byte (hm.separates (by decide))
    refine ⟨n2.flatMap Token.bytes, ?_⟩
    rw [render_split, h1.eq_bytes_of_no_letters hm hne, flatMap_byte]
    intro b hb
    rcases List.mem_append.1 hb with hb | hb
    · have hcolon : ∀ b ∈ encode ":", ¬ IsLower (asciiLower b) := by decide +kernel
      exact hcolon b hb
    · have hle := (digits_toString _ b hb).2
      rw [asciiLower, if_neg fun h => absurd (UInt8.le_trans h.1 hle) (by decide)]
      exact fun h => absurd (UInt8.le_trans h.1 hle) (by decide)
  have hkey (key : Bytes) (hlow : ∀ b ∈ key, IsLower b) {x : Bytes} {t : List Token} (h : Tiles state x t)
      (hno : key ∉ x.splitOn 34) : key ∉ (t.flatMap Token.bytes).splitOn 34 :=
    fun hmem => hno (mem_splitOn_of_render hm hlow _ rfl h hmem)
  have hindex : ∀ b ∈ encode "index", IsLower b := by decide +kernel
  have hname : ∀ b ∈ encode "content", IsLower b := by decide +kernel
  obtain ⟨hfirst, hsecond⟩ := not_or.1 (mt List.mem_append.2 hv.content_first)
  obtain ⟨hidx, hcontent⟩ := @read_eventLine (t.flatMap Token.bytes) (n.flatMap Token.bytes) (k.flatMap Token.bytes)
    (z.flatMap Token.bytes ++ [10]) w e.index (hkey _ hindex ht hv.index_first) (hkey _ hname ht hfirst)
    (hkey _ hname hn hsecond) hnum (not_mem_render hm (Or.inl rfl) hk fun hq => (hv.content 34 hq).2.1 rfl)
  have hcomplete : Lines.Complete 10 (ts'.flatMap Token.bytes ++ [10]) :=
    ⟨_, not_mem_render hm (Or.inr rfl) hline hv.no_newline, rfl⟩
  have hblank : Lines.Complete 10 ([10] : Bytes) := ⟨[], by simp, rfl⟩
  refine ⟨k, hk, hinf.trans ⟨[], _, rfl⟩, ?_⟩
  intro rest i
  have hsplit : (ts' ++ Token.byte 10 :: [10].map Token.byte).flatMap Token.bytes ++ rest =
      (ts'.flatMap Token.bytes ++ [10]) ++ ([10] ++ rest) := by
    simp [Token.bytes]
  rw [hsplit, rebuilt, hcomplete.lines_append, hblank.lines_append, List.flatMap_cons, List.flatMap_cons, hrender,
    eventLine_append, hidx, hcontent]
  have hnone : choiceIndex [10] = none := rfl
  have hskip : (if choiceIndex [10] = some (encode (toString i)) then deltaContent [10] else []) = [] := by simp [hnone]
  rw [hskip, List.nil_append]
  by_cases hi : e.index = i
  · rw [if_pos hi, if_pos (by rw [hi])]
    rfl
  · rw [if_neg hi, if_neg fun h => hi (toString_injective (Utf8.encode_injective (Option.some.inj h)))]
    rfl

/-- **The stream read back**: of each choice, what the tokens of its contents spell. -/
theorem rebuilt_stream (hm : state.Masking) (hpats : state.patterns = [p]) (hp : p ≠ "") (i : Nat) :
    ∀ {events : List ChatEvent} {ts : List Token}, (∀ e ∈ events, e.Valid (encode p)) →
      Tiles state (chatStream events) ts → ∃ tss : List (List Token),
        List.Forall₂ (Tiles state) (contentsOf i events) tss ∧ (∀ t ∈ tss, t <:+: ts) ∧
        rebuilt (ts.flatMap Token.bytes) i = tss.flatten.flatMap Token.bytes
  | [], ts, _, h => by
    have hts : ts = [] := h.eq_bytes_of_no_letters hm (by simpa [hpats] using hp) (by simp [chatStream])
    subst hts
    exact ⟨[], .nil, by simp, rfl⟩
  | e :: events, ts, hv, h => by
    -- the event's last newline cuts the tokens
    have hlast : chatStream (e :: events) = (eventLine e.title e.number e.content
        (encode "\x7d" ++ e.tail ++ encode "\x7d") ++ [10]) ++ 10 :: chatStream events := by
      rw [chatStream, List.flatMap_cons, ChatEvent.bytes_eq]
      simp [chatStream]
    rw [hlast] at h
    obtain ⟨ts1, ts2, rfl, h1, h2⟩ := h.split_byte (hm.separates (by decide))
    have hevent : Tiles state e.bytes (ts1 ++ [.byte 10]) := by
      have h10 := h1.append (tiles_bytes state [10])
      rwa [List.append_assoc, List.singleton_append, ← ChatEvent.bytes_eq] at h10
    obtain ⟨k, hk, hinf, hread⟩ := rebuilt_event hm hpats hp (hv e (by simp)) hevent
    obtain ⟨tss, hall, hsub, hrest⟩ := rebuilt_stream hm hpats hp i (fun e he => hv e (List.mem_cons_of_mem _ he)) h2
    have hsplit : ts1 ++ .byte 10 :: ts2 = (ts1 ++ [.byte 10]) ++ ts2 := by simp
    have hout : rebuilt ((ts1 ++ .byte 10 :: ts2).flatMap Token.bytes) i =
        (if e.index = i then k.flatMap Token.bytes else []) ++ tss.flatten.flatMap Token.bytes := by
      rw [hsplit, List.flatMap_append, hread, hrest]
    have hsub' : ∀ t ∈ tss, t <:+: ts1 ++ .byte 10 :: ts2 := by
      intro t ht
      exact (hsub t ht).trans ⟨ts1 ++ [.byte 10], [], by simp⟩
    by_cases hi : e.index = i
    · refine ⟨k :: tss, ?_, ?_, ?_⟩
      · simpa [contentsOf, hi] using And.intro hk hall
      · intro t ht
        rcases List.mem_cons.1 ht with rfl | ht
        · exact hinf.trans ⟨[], ts2, by simp⟩
        · exact hsub' t ht
      · rw [hout, if_pos hi, List.flatten_cons, List.flatMap_append]
    · refine ⟨tss, ?_, hsub', ?_⟩
      · simpa [contentsOf, hi] using hall
      · rw [hout, if_neg hi, List.nil_append]

end

end PiiProxy
