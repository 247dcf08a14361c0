import Mathlib.Data.List.Basic

/-!
# UTF-8 validation, one byte at a time

`walk` is the acceptor of well-formed UTF-8 (Unicode Table 3-7): its state is the
list of ranges the bytes still owed by the current character must lie in, so `[]`
is "between characters". `fromUtf8` reports what `std::str::from_utf8` documents:
`validUpTo` is the end of the last complete character, and `errorLen` is `none`
exactly when the input stops inside a character that more bytes could complete.

| here | there |
| --- | --- |
| `fromUtf8`, `Utf8Error` | `std::str::from_utf8`, `Utf8Error::{valid_up_to, error_len}` |
| `isCharBoundary`        | `str::is_char_boundary` |
| `fromUtf8Lossy`         | `String::from_utf8_lossy` |
-/

namespace Utf8

abbrev Range := UInt8 × UInt8

/-- `0x80..=0xBF`, the bytes that never start a character. -/
def IsCont (b : UInt8) : Prop := 0x80 ≤ b ∧ b ≤ 0xBF

instance (b : UInt8) : Decidable (IsCont b) := inferInstanceAs (Decidable (_ ∧ _))

/-- What must follow a character's first byte; `none` if no character starts with it. -/
def follow (b : UInt8) : Option (List Range) :=
  if b < 0x80 then some []
  else if 0xC2 ≤ b ∧ b ≤ 0xDF then some [(0x80, 0xBF)]
  else if b = 0xE0 then some [(0xA0, 0xBF), (0x80, 0xBF)]
  else if b = 0xED then some [(0x80, 0x9F), (0x80, 0xBF)]
  else if 0xE1 ≤ b ∧ b ≤ 0xEF then some [(0x80, 0xBF), (0x80, 0xBF)]
  else if b = 0xF0 then some [(0x90, 0xBF), (0x80, 0xBF), (0x80, 0xBF)]
  else if b = 0xF4 then some [(0x80, 0x8F), (0x80, 0xBF), (0x80, 0xBF)]
  else if 0xF1 ≤ b ∧ b ≤ 0xF3 then some [(0x80, 0xBF), (0x80, 0xBF), (0x80, 0xBF)]
  else none

def step : List Range → UInt8 → Option (List Range)
  | [], b => follow b
  | (lo, hi) :: rs, b => if lo ≤ b ∧ b ≤ hi then some rs else none

/-- The ranges owed after reading `bs`; `none` once a byte is refused. -/
def walk : List Range → List UInt8 → Option (List Range)
  | rs, [] => some rs
  | rs, b :: bs => match step rs b with
    | none => none
    | some rs' => walk rs' bs

/-- Well-formed UTF-8. -/
def Valid (b : List UInt8) : Prop := walk [] b = some []

instance (b : List UInt8) : Decidable (Valid b) := inferInstanceAs (Decidable (_ = _))

structure Utf8Error where
  validUpTo : Nat
  errorLen : Option Nat
deriving DecidableEq, Repr

/-- `rs` is owed, `taken` bytes of the current character are read, and the
characters before it end at `upTo`. -/
def check (rs : List Range) (taken upTo : Nat) : List UInt8 → Except Utf8Error Unit
  | [] => if rs = [] then .ok () else .error ⟨upTo, none⟩
  | b :: bs => match step rs b with
    | none => .error ⟨upTo, some (max taken 1)⟩
    | some [] => check [] 0 (upTo + taken + 1) bs
    | some (r :: rs') => check (r :: rs') (taken + 1) upTo bs

def fromUtf8 (b : List UInt8) : Except Utf8Error Unit := check [] 0 0 b

/-- `i` is 0, the length, or the offset of a byte that is no continuation byte. -/
def isCharBoundary (b : List UInt8) (i : Nat) : Bool :=
  i == 0 || (match b[i]? with
    | some x => decide (¬ IsCont x)
    | none => i == b.length)

/-- U+FFFD. -/
def replacementChar : List UInt8 := [0xEF, 0xBF, 0xBD]

/-- `cur` is the part of the current character read so far. A refused byte ends the
broken character and is looked at again as a first byte. -/
def lossy (rs : List Range) (cur : List UInt8) : List UInt8 → List UInt8
  | [] => if rs = [] then [] else replacementChar
  | b :: bs => match step rs b with
    | some [] => cur ++ b :: lossy [] [] bs
    | some (r :: rs') => lossy (r :: rs') (cur ++ [b]) bs
    | none =>
      if rs = [] then replacementChar ++ lossy [] [] bs
      else replacementChar ++ match follow b with
        | none => replacementChar ++ lossy [] [] bs
        | some [] => b :: lossy [] [] bs
        | some (r :: rs') => lossy (r :: rs') [b] bs

def fromUtf8Lossy (b : List UInt8) : List UInt8 := lossy [] [] b

/-! ## The acceptor -/

variable {a b bs cur pre : List UInt8} {rs rs' : List Range} {i : Nat}

@[simp] theorem walk_nil : walk rs [] = some rs := rfl

theorem valid_nil : Valid [] := rfl

theorem walk_append : ∀ (a b : List UInt8) (rs : List Range),
    walk rs (a ++ b) = (walk rs a).bind fun rs' => walk rs' b
  | [], b, rs => rfl
  | x :: a, b, rs => by
    simp only [List.cons_append, walk]
    cases step rs x with
    | none => rfl
    | some rs' => exact walk_append a b rs'

theorem Valid.append (ha : Valid a) (hb : Valid b) : Valid (a ++ b) := by
  rw [Valid, walk_append, ha]; exact hb

/-- ASCII is well formed. -/
theorem valid_of_ascii : ∀ {b : List UInt8}, (∀ x ∈ b, x < 0x80) → Valid b
  | [], _ => rfl
  | x :: b, h => by
    have hx : step [] x = some [] := if_pos (h x (by simp))
    rw [Valid, walk, hx]
    exact valid_of_ascii fun y hy => h y (List.mem_cons_of_mem _ hy)

theorem Valid.right (hab : Valid (a ++ b)) (ha : Valid a) : Valid b := by
  rw [Valid, walk_append, ha] at hab; exact hab

/-- A prefix of well-formed text is never refused. -/
theorem Valid.walk_left (hab : Valid (a ++ b)) : ∃ rs, walk [] a = some rs ∧ walk rs b = some [] := by
  rw [Valid, walk_append] at hab
  cases h : walk [] a with
  | none => simp [h] at hab
  | some rs => exact ⟨rs, rfl, by simpa [h] using hab⟩

/-- Owed ranges hold continuation bytes only. -/
def Owed (rs : List Range) : Prop := ∀ r ∈ rs, 0x80 ≤ r.1 ∧ r.2 ≤ 0xBF

theorem follow_owed {x : UInt8} (h : follow x = some rs) : Owed rs ∧ rs.length ≤ 3 ∧ ¬ IsCont x := by
  unfold follow at h
  have key : ∀ {P : Prop} [Decidable P] {l : List Range} {o : Option (List Range)},
      (if P then some l else o) = some rs → (P ∧ l = rs) ∨ (¬ P ∧ o = some rs) := by
    intro P _ l o h
    by_cases hp : P
    · simp only [hp, if_true, Option.some.injEq] at h; exact Or.inl ⟨hp, h⟩
    · simp only [hp, if_false] at h; exact Or.inr ⟨hp, h⟩
  rcases key h with ⟨hp, rfl⟩ | ⟨-, h⟩
  · refine ⟨by simp [Owed], by simp, ?_⟩
    rintro ⟨h1, -⟩; exact absurd hp (UInt8.not_lt.2 h1)
  have high : ∀ {c : UInt8}, 0xC0 ≤ c → ¬ IsCont c := by
    rintro c hc ⟨-, h2⟩
    exact absurd (UInt8.le_trans hc h2) (by decide)
  rcases key h with ⟨hp, rfl⟩ | ⟨-, h⟩
  · exact ⟨by simp [Owed], by simp, high (UInt8.le_trans (by decide) hp.1)⟩
  rcases key h with ⟨rfl, rfl⟩ | ⟨-, h⟩
  · exact ⟨by simp [Owed], by simp, by decide⟩
  rcases key h with ⟨rfl, rfl⟩ | ⟨-, h⟩
  · exact ⟨by simp [Owed], by simp, by decide⟩
  rcases key h with ⟨hp, rfl⟩ | ⟨-, h⟩
  · exact ⟨by simp [Owed], by simp, high (UInt8.le_trans (by decide) hp.1)⟩
  rcases key h with ⟨rfl, rfl⟩ | ⟨-, h⟩
  · exact ⟨by simp [Owed], by simp, by decide⟩
  rcases key h with ⟨rfl, rfl⟩ | ⟨-, h⟩
  · exact ⟨by simp [Owed], by simp, by decide⟩
  rcases key h with ⟨hp, rfl⟩ | ⟨-, h⟩
  · exact ⟨by simp [Owed], by simp, high (UInt8.le_trans (by decide) hp.1)⟩
  · cases h

theorem step_owed {x : UInt8} (ho : Owed rs) (h : step rs x = some rs') :
    Owed rs' ∧ (rs ≠ [] → IsCont x) := by
  match rs, ho, h with
  | [], _, h => exact ⟨(follow_owed h).1, by simp⟩
  | (lo, hi) :: rs, ho, h =>
    simp only [step, Option.ite_none_right_eq_some, Option.some.injEq] at h
    obtain ⟨⟨h1, h2⟩, rfl⟩ := h
    have hr := ho (lo, hi) (by simp)
    exact ⟨fun r hr => ho r (by simp [hr]),
      fun _ => ⟨UInt8.le_trans hr.1 h1, UInt8.le_trans h2 hr.2⟩⟩

theorem walk_owed : ∀ {b : List UInt8} {rs rs' : List Range}, Owed rs → walk rs b = some rs' → Owed rs'
  | [], rs, rs', ho, h => by simp only [walk_nil, Option.some.injEq] at h; exact h ▸ ho
  | x :: b, rs, rs', ho, h => by
    simp only [walk] at h
    cases hs : step rs x with
    | none => simp [hs] at h
    | some q => rw [hs] at h; exact walk_owed (step_owed ho hs).1 h

/-- Some bytes make `b` well formed. -/
def Extendable (b : List UInt8) : Prop := ∃ c, Valid (b ++ c)

/-- Every owed range has a byte in it. -/
def Fillable (rs : List Range) : Prop := ∀ r ∈ rs, r.1 ≤ r.2

theorem follow_fillable {x : UInt8} (h : follow x = some rs) : Fillable rs := by
  unfold follow at h
  repeat' split at h
  all_goals cases h
  all_goals simp [Fillable]

theorem step_fillable {x : UInt8} (hf : Fillable rs) (h : step rs x = some rs') : Fillable rs' := by
  match rs, hf, h with
  | [], _, h => exact follow_fillable h
  | (lo, hi) :: rs, hf, h =>
    simp only [step, Option.ite_none_right_eq_some, Option.some.injEq] at h
    exact h.2 ▸ fun r hr => hf r (by simp [hr])

theorem walk_fillable : ∀ {b : List UInt8} {rs rs' : List Range}, Fillable rs → walk rs b = some rs' → Fillable rs'
  | [], rs, rs', hf, h => by simp only [walk_nil, Option.some.injEq] at h; exact h ▸ hf
  | x :: b, rs, rs', hf, h => by
    simp only [walk] at h
    cases hs : step rs x with
    | none => simp [hs] at h
    | some q => rw [hs] at h; exact walk_fillable (step_fillable hf hs) h

/-- The least byte of each range owed. -/
theorem walk_fill : ∀ {rs : List Range}, Fillable rs → walk rs (rs.map Prod.fst) = some []
  | [], _ => rfl
  | (lo, hi) :: rs, hf => by
    have hlo : lo ≤ lo ∧ lo ≤ hi := ⟨UInt8.le_refl lo, hf (lo, hi) (by simp)⟩
    simp only [List.map_cons, walk, step, hlo, and_self, if_true]
    exact walk_fill fun r hr => hf r (by simp [hr])

/-- **A byte is refused only when nothing can follow.** -/
theorem extendable_iff : Extendable b ↔ ∃ rs, walk [] b = some rs := by
  constructor
  · rintro ⟨c, hc⟩
    obtain ⟨rs, hw, -⟩ := hc.walk_left
    exact ⟨rs, hw⟩
  · rintro ⟨rs, hw⟩
    have hfill : Fillable rs := walk_fillable (by simp [Fillable]) hw
    refine ⟨rs.map Prod.fst, ?_⟩
    rw [Valid, walk_append, hw]
    exact walk_fill hfill

theorem Valid.extendable (h : Valid b) : Extendable b := ⟨[], by rwa [List.append_nil]⟩

theorem Extendable.left (h : Extendable (a ++ b)) : Extendable a := by
  obtain ⟨c, hc⟩ := h
  exact ⟨b ++ c, by rwa [← List.append_assoc]⟩

/-- Complete text in front changes nothing. -/
theorem Valid.extendable_append (ha : Valid a) : Extendable (a ++ b) ↔ Extendable b := by
  rw [extendable_iff, extendable_iff, walk_append, ha]
  rfl

theorem Valid.valid_append (ha : Valid a) : Valid (a ++ b) ↔ Valid b := ⟨fun h => h.right ha, ha.append⟩

/-- Well-formed text starts with no continuation byte. -/
theorem Valid.head {x : UInt8} (h : Valid (x :: b)) : ¬ IsCont x := by
  simp only [Valid, walk, step] at h
  cases hf : follow x with
  | none => simp [hf] at h
  | some q => exact (follow_owed hf).2.2

/-- **Self-synchronisation.** Before a byte that is no continuation byte, the
acceptor is between characters, so the text splits there. -/
theorem Valid.split_at {x : UInt8} (h : Valid (a ++ x :: b)) (hx : ¬ IsCont x) :
    Valid a ∧ Valid (x :: b) := by
  obtain ⟨rs, ha, hb⟩ := h.walk_left
  have ho : Owed rs := walk_owed (by simp [Owed]) ha
  simp only [walk] at hb
  cases hs : step rs x with
  | none => simp [hs] at hb
  | some q =>
    have hnil : rs = [] := by
      by_contra hne
      exact hx ((step_owed ho hs).2 hne)
    subst hnil
    exact ⟨ha, h.right ha⟩

theorem isCharBoundary_length : isCharBoundary b b.length = true := by
  simp [isCharBoundary]

/-- Text cut at a char boundary is text on both sides. -/
theorem Valid.cut (h : Valid b) (hi : isCharBoundary b i = true) :
    Valid (b.take i) ∧ Valid (b.drop i) := by
  simp only [isCharBoundary, Bool.or_eq_true, beq_iff_eq] at hi
  rcases hi with rfl | hi
  · exact ⟨valid_nil, h⟩
  · cases hx : b[i]? with
    | none =>
      simp only [hx, beq_iff_eq] at hi
      subst hi
      simpa using ⟨h, valid_nil⟩
    | some x =>
      simp only [hx, decide_eq_true_eq] at hi
      obtain ⟨hlt, hxi⟩ := List.getElem?_eq_some_iff.1 hx
      have hd := List.drop_eq_getElem_cons hlt
      rw [← List.take_append_drop i b, hd] at h
      have := h.split_at (hxi ▸ hi)
      exact ⟨this.1, hd ▸ this.2⟩

/-- A cut of well-formed text into well-formed halves is a char boundary. -/
theorem isCharBoundary_of_valid (hb : Valid b) : isCharBoundary (a ++ b) a.length = true := by
  cases b with
  | nil => simp [isCharBoundary]
  | cons x b => simp [isCharBoundary, hb.head]

/-! ## `fromUtf8` -/

/-- `cur` is what is read of a character that still owes `rs`. -/
structure Partial (cur : List UInt8) (rs : List Range) : Prop where
  walk_cur : walk [] cur = some rs
  short : cur.length + rs.length ≤ 4
  idle : rs = [] → cur = []

theorem Partial.nil : Partial [] [] := ⟨rfl, by simp, fun _ => rfl⟩

theorem Partial.walk_snoc {x : UInt8} {q : List Range} (h : Partial cur rs) (hq : step rs x = some q) :
    walk [] (cur ++ [x]) = some q := by
  simp [walk_append, h.walk_cur, walk, hq]

/-- A byte that does not complete the character leaves it partial. -/
theorem Partial.step {x : UInt8} {r : Range} (h : Partial cur rs) (hs : Utf8.step rs x = some (r :: rs')) :
    Partial (cur ++ [x]) (r :: rs') := by
  refine ⟨h.walk_snoc hs, ?_, by simp⟩
  match rs, h, hs with
  | [], h, hs =>
    have := (follow_owed hs).2.1
    simp [h.idle rfl] at *; omega
  | (lo, hi) :: rs, h, hs =>
    simp only [Utf8.step, Option.ite_none_right_eq_some, Option.some.injEq] at hs
    have := h.short
    simp [← hs.2] at *; omega

theorem check_ok : ∀ {bs : List UInt8} {rs : List Range} {taken upTo : Nat},
    walk rs bs = some [] → check rs taken upTo bs = .ok ()
  | [], rs, taken, upTo, h => by simp only [walk_nil, Option.some.injEq] at h; simp [check, h]
  | x :: bs, rs, taken, upTo, h => by
    simp only [walk] at h
    simp only [check]
    match hs : step rs x, h with
    | some [], h => exact check_ok h
    | some (r :: rs'), h => exact check_ok h

/-- The input stops inside a character: everything before that character is well
formed, and at most three bytes of it are there. -/
theorem check_incomplete : ∀ {bs cur pre : List UInt8} {rs rs' : List Range},
    Valid pre → Partial cur rs → walk rs bs = some rs' → rs' ≠ [] →
    ∃ v tail, pre ++ cur ++ bs = v ++ tail ∧ Valid v ∧ tail ≠ [] ∧ tail.length ≤ 3 ∧
      walk [] tail = some rs' ∧ check rs cur.length pre.length bs = .error ⟨v.length, none⟩
  | [], cur, pre, rs, rs', hv, hp, h, hne => by
    simp only [walk_nil, Option.some.injEq] at h
    subst h
    refine ⟨pre, cur, by simp, hv, ?_, ?_, hp.walk_cur, by simp [check, hne]⟩
    · rintro rfl
      have := hp.walk_cur
      simp only [walk_nil, Option.some.injEq] at this
      exact hne this.symm
    · have := hp.short
      have := List.length_pos_iff.2 hne
      omega
  | x :: bs, cur, pre, rs, rs', hv, hp, h, hne => by
    simp only [walk] at h
    simp only [check]
    match hs : step rs x, h with
    | some [], h =>
      have hv' : Valid (pre ++ (cur ++ [x])) := hv.append (hp.walk_snoc hs)
      obtain ⟨v, tail, h1, h2⟩ := check_incomplete hv' Partial.nil h hne
      refine ⟨v, tail, by simpa using h1, ?_⟩
      simpa [Nat.add_assoc] using h2
    | some (r :: q), h =>
      obtain ⟨v, tail, h1, h2⟩ := check_incomplete hv (hp.step hs) h hne
      refine ⟨v, tail, by simpa using h1, ?_⟩
      simpa using h2

/-- What `fromUtf8` says about an input the acceptor does not refuse. -/
theorem fromUtf8_of_walk (h : walk [] b = some rs) :
    (rs = [] ∧ fromUtf8 b = .ok ()) ∨
    (∃ v tail, b = v ++ tail ∧ Valid v ∧ tail ≠ [] ∧ tail.length ≤ 3 ∧ walk [] tail = some rs ∧
      fromUtf8 b = .error ⟨v.length, none⟩) := by
  by_cases hrs : rs = []
  · subst hrs; exact Or.inl ⟨rfl, check_ok h⟩
  · obtain ⟨v, tail, h1, h2⟩ := check_incomplete valid_nil Partial.nil h hrs
    exact Or.inr ⟨v, tail, by simpa using h1, by simpa [fromUtf8] using h2⟩

theorem Valid.fromUtf8_eq (h : Valid b) : fromUtf8 b = .ok () := check_ok h

theorem check_refused : ∀ {bs : List UInt8} {rs : List Range} {taken upTo : Nat},
    walk rs bs = none → ∃ n k, check rs taken upTo bs = .error ⟨n, some k⟩
  | [], rs, taken, upTo, h => by simp at h
  | x :: bs, rs, taken, upTo, h => by
    simp only [walk] at h
    simp only [check]
    match hs : step rs x, h with
    | none, _ => exact ⟨_, _, rfl⟩
    | some [], h => exact check_refused h
    | some (r :: rs'), h => exact check_refused h

theorem lossy_of_walk : ∀ {bs cur : List UInt8} {rs : List Range},
    walk rs bs = some [] → (rs = [] → cur = []) → lossy rs cur bs = cur ++ bs
  | [], cur, rs, h, hi => by
    simp only [walk_nil, Option.some.injEq] at h
    simp [lossy, h, hi h]
  | x :: bs, cur, rs, h, hi => by
    simp only [walk] at h
    simp only [lossy]
    match hs : step rs x, h with
    | some [], h => simp [lossy_of_walk h (fun _ => rfl)]
    | some (r :: rs'), h => simp [lossy_of_walk h (by simp)]

/-- Well-formed text survives `from_utf8_lossy` unchanged. -/
theorem Valid.lossy_eq (h : Valid b) : fromUtf8Lossy b = b := by
  simpa [fromUtf8Lossy] using lossy_of_walk h (fun _ => rfl)

/-! ## Strings -/

/-- The UTF-8 bytes of a string (`str::as_bytes`, `str.encode("utf-8")`). -/
def encode (s : String) : List UInt8 := s.toByteArray.data.toList

theorem encode_eq (s : String) : encode s = s.toList.flatMap String.utf8EncodeChar := by
  rw [encode, ← String.utf8Encode_toList, List.utf8Encode]
  simp

theorem encode_append (s t : String) : encode (s ++ t) = encode s ++ encode t := by
  simp [encode]

theorem encode_injective : Function.Injective encode := by
  intro s t h
  rw [encode, encode, Array.toList_inj] at h
  exact String.toByteArray_inj.1 (ByteArray.ext h)

theorem follow_eq_toNat (x : UInt8) : follow x =
    if x.toNat < 0x80 then some []
    else if 0xC2 ≤ x.toNat ∧ x.toNat ≤ 0xDF then some [(0x80, 0xBF)]
    else if x.toNat = 0xE0 then some [(0xA0, 0xBF), (0x80, 0xBF)]
    else if x.toNat = 0xED then some [(0x80, 0x9F), (0x80, 0xBF)]
    else if 0xE1 ≤ x.toNat ∧ x.toNat ≤ 0xEF then some [(0x80, 0xBF), (0x80, 0xBF)]
    else if x.toNat = 0xF0 then some [(0x90, 0xBF), (0x80, 0xBF), (0x80, 0xBF)]
    else if x.toNat = 0xF4 then some [(0x80, 0x8F), (0x80, 0xBF), (0x80, 0xBF)]
    else if 0xF1 ≤ x.toNat ∧ x.toNat ≤ 0xF3 then some [(0x80, 0xBF), (0x80, 0xBF), (0x80, 0xBF)]
    else none := by
  simp only [follow, UInt8.lt_iff_toNat_lt, UInt8.le_iff_toNat_le, ← UInt8.toNat_inj]
  rfl

theorem step_cons_ofNat {lo hi : UInt8} {n : Nat} (h1 : lo.toNat ≤ n) (h2 : n ≤ hi.toNat) :
    step ((lo, hi) :: rs) (UInt8.ofNat n) = some rs := by
  have hn : n < 256 := Nat.lt_of_le_of_lt h2 hi.toNat_lt
  simp only [step, UInt8.le_iff_toNat_le, UInt8.toNat_ofNat_of_lt' hn]
  simp [h1, h2]

/-- The four encoding lengths of a scalar value; the surrogate gap is what keeps the
three-byte form inside `0xED`'s narrower range. -/
theorem valid_encodeChar (c : Char) : Valid (String.utf8EncodeChar c) := by
  have hv : c.val.toNat < 0xD800 ∨ (0xDFFF < c.val.toNat ∧ c.val.toNat < 0x110000) := c.valid
  unfold String.utf8EncodeChar
  dsimp only
  generalize c.val.toNat = v at hv
  have lead : ∀ {n : Nat} {l : List UInt8}, n < 256 →
      walk [] (UInt8.ofNat n :: l) = (follow (UInt8.ofNat n)).bind (walk · l) := by
    intro n l _
    simp only [walk, step]
    cases follow (UInt8.ofNat n) <;> rfl
  split
  · rw [Valid, lead (by omega), follow_eq_toNat, UInt8.toNat_ofNat_of_lt' (by simp [UInt8.size]; omega),
      if_pos (by omega)]
    rfl
  split
  · rw [Valid, lead (by omega), follow_eq_toNat, UInt8.toNat_ofNat_of_lt' (by simp [UInt8.size]; omega),
      if_neg (by omega), if_pos (by omega)]
    simp only [Option.bind_some, walk]
    rw [step_cons_ofNat (by simp) (by simp; omega)]
  split
  · rw [Valid, lead (by omega), follow_eq_toNat, UInt8.toNat_ofNat_of_lt' (by simp [UInt8.size]; omega),
      if_neg (by omega), if_neg (by omega)]
    by_cases h0 : v / 4096 = 0
    · rw [if_pos (by omega)]
      simp only [Option.bind_some, walk]
      rw [step_cons_ofNat (by simp; omega) (by simp; omega)]
      simp only
      rw [step_cons_ofNat (by simp) (by simp; omega)]
    · rw [if_neg (by omega)]
      by_cases hD : v / 4096 = 13
      · rw [if_pos (by omega)]
        simp only [Option.bind_some, walk]
        rw [step_cons_ofNat (by simp) (by simp; omega)]
        simp only
        rw [step_cons_ofNat (by simp) (by simp; omega)]
      · rw [if_neg (by omega), if_pos (by omega)]
        simp only [Option.bind_some, walk]
        rw [step_cons_ofNat (by simp) (by simp; omega)]
        simp only
        rw [step_cons_ofNat (by simp) (by simp; omega)]
  · rw [Valid, lead (by omega), follow_eq_toNat, UInt8.toNat_ofNat_of_lt' (by simp [UInt8.size]; omega),
      if_neg (by omega), if_neg (by omega), if_neg (by omega), if_neg (by omega), if_neg (by omega)]
    have tail2 : walk [(0x80, 0xBF), (0x80, 0xBF)]
        [UInt8.ofNat (v / 64 % 0x40 + 0x80), UInt8.ofNat (v % 0x40 + 0x80)] = some [] := by
      simp only [walk]
      rw [step_cons_ofNat (by simp) (by simp; omega)]
      simp only
      rw [step_cons_ofNat (by simp) (by simp; omega)]
    by_cases h0 : v / 262144 = 0
    · rw [if_pos (by omega), Option.bind_some, walk, step_cons_ofNat (by simp; omega) (by simp; omega)]
      exact tail2
    · rw [if_neg (by omega)]
      by_cases h4 : v / 262144 = 4
      · rw [if_pos (by omega), Option.bind_some, walk, step_cons_ofNat (by simp) (by simp; omega)]
        exact tail2
      · rw [if_neg (by omega), if_pos (by omega), Option.bind_some, walk,
          step_cons_ofNat (by simp) (by simp; omega)]
        exact tail2

theorem valid_flatMap_encodeChar : ∀ cs : List Char, Valid (cs.flatMap String.utf8EncodeChar)
  | [] => valid_nil
  | c :: cs => by
    rw [List.flatMap_cons]
    exact (valid_encodeChar c).append (valid_flatMap_encodeChar cs)

/-- The bytes of a string are well-formed UTF-8. -/
theorem valid_encode (s : String) : Valid (encode s) := by
  rw [encode_eq]
  exact valid_flatMap_encodeChar _

/-- An ASCII byte is a whole character. -/
theorem encodeChar_of_ascii_mem {c : Char} {b : UInt8} (hb : b ∈ String.utf8EncodeChar c) (h : b < 0x80) :
    String.utf8EncodeChar c = [b] ∧ c.toNat = b.toNat := by
  have hv : c.val.toNat < 0x110000 := by
    have : c.val.toNat < 0xD800 ∨ (0xDFFF < c.val.toNat ∧ c.val.toNat < 0x110000) := c.valid
    omega
  have hc : c.toNat = c.val.toNat := rfl
  rw [UInt8.lt_iff_toNat_lt] at h
  have hbig : ∀ n, 128 ≤ n → n < 256 → b ≠ UInt8.ofNat n := by
    rintro n h1 h2 rfl
    rw [UInt8.toNat_ofNat_of_lt' h2] at h
    exact absurd h (by simpa using h1)
  unfold String.utf8EncodeChar at hb ⊢
  dsimp only at hb ⊢
  rw [hc]
  generalize c.val.toNat = v at hv hb
  split at hb
  · rename_i hle
    rw [if_pos hle]
    obtain rfl := List.mem_singleton.1 hb
    rw [UInt8.toNat_ofNat_of_lt' (by simp [UInt8.size]; omega)]
    exact ⟨rfl, rfl⟩
  split at hb
  · simp only [List.mem_cons, List.not_mem_nil, or_false] at hb
    rcases hb with hb | hb
    · exact absurd hb (hbig _ (by omega) (by omega))
    · exact absurd hb (hbig _ (by omega) (by omega))
  split at hb
  · simp only [List.mem_cons, List.not_mem_nil, or_false] at hb
    rcases hb with hb | hb | hb
    · exact absurd hb (hbig _ (by omega) (by omega))
    · exact absurd hb (hbig _ (by omega) (by omega))
    · exact absurd hb (hbig _ (by omega) (by omega))
  · simp only [List.mem_cons, List.not_mem_nil, or_false] at hb
    rcases hb with hb | hb | hb | hb
    · exact absurd hb (hbig _ (by omega) (by omega))
    · exact absurd hb (hbig _ (by omega) (by omega))
    · exact absurd hb (hbig _ (by omega) (by omega))
    · exact absurd hb (hbig _ (by omega) (by omega))

theorem fromUTF8?_eq_some {b : List UInt8} {s : String} : String.fromUTF8? ⟨b.toArray⟩ = some s ↔ encode s = b := by
  rw [String.fromUTF8?]
  constructor
  · intro h
    split at h
    · rw [Option.some.injEq] at h
      rw [← h]
      simp [encode, String.fromUTF8]
    · simp at h
  · rintro rfl
    have hb : (⟨(encode s).toArray⟩ : ByteArray) = s.toByteArray := by
      simp [encode]
    rw [hb, dif_pos s.isValidUTF8, Option.some.injEq, ← String.toByteArray_inj]
    rfl
end Utf8
