import Mathlib.Data.List.Basic

/-!
# Base64 and hexadecimal texts of bytes

Base64 with the standard alphabet and padding, read strictly: whole groups of four, the
padding there and the bits it leaves out zero. Such a reader accepts one text for each
sequence of bytes. Hexadecimal is read in either case.

* `decode_encode`, `encode_decode` — the two are inverse
-/

namespace Base64

/-! ## Sextets -/

def sextetChar (n : Nat) : Char :=
  if n < 26 then Char.ofNat (65 + n)
  else if n < 52 then Char.ofNat (71 + n)
  else if n < 62 then Char.ofNat (n - 4)
  else if n = 62 then '+'
  else '/'

def sextetValue (c : Char) : Option Nat :=
  if 65 ≤ c.toNat ∧ c.toNat ≤ 90 then some (c.toNat - 65)
  else if 97 ≤ c.toNat ∧ c.toNat ≤ 122 then some (c.toNat - 71)
  else if 48 ≤ c.toNat ∧ c.toNat ≤ 57 then some (c.toNat + 4)
  else if c = '+' then some 62
  else if c = '/' then some 63
  else none

theorem sextetValue_sextetChar : ∀ n < 64, sextetValue (sextetChar n) = some n := by decide

theorem sextetChar_ne_pad : ∀ n < 64, sextetChar n ≠ '=' := by decide

theorem sextetValue_pad : sextetValue '=' = none := by decide

theorem char_eq_ofNat {c : Char} {n : Nat} (h : c.toNat = n) : Char.ofNat n = c := by
  rw [← h, Char.ofNat_toNat]

theorem sextetChar_of_value {c : Char} {n : Nat} (h : sextetValue c = some n) : n < 64 ∧ sextetChar n = c := by
  unfold sextetValue at h
  split_ifs at h with h1 h2 h3 h4 h5 <;> cases h
  · refine ⟨by omega, ?_⟩
    rw [sextetChar, if_pos (by omega)]
    exact char_eq_ofNat (by omega)
  · refine ⟨by omega, ?_⟩
    rw [sextetChar, if_neg (by omega), if_pos (by omega)]
    exact char_eq_ofNat (by omega)
  · refine ⟨by omega, ?_⟩
    rw [sextetChar, if_neg (by omega), if_neg (by omega), if_pos (by omega)]
    exact char_eq_ofNat (by omega)
  · exact ⟨by decide, h4.symm⟩
  · exact ⟨by decide, h5.symm⟩

/-! ## Groups -/

def encode : List UInt8 → List Char
  | [] => []
  | [x] => [sextetChar (x.toNat / 4), sextetChar (x.toNat % 4 * 16), '=', '=']
  | [x, y] => [sextetChar (x.toNat / 4), sextetChar (x.toNat % 4 * 16 + y.toNat / 16), sextetChar (y.toNat % 16 * 4), '=']
  | x :: y :: z :: b =>
    sextetChar (x.toNat / 4) :: sextetChar (x.toNat % 4 * 16 + y.toNat / 16) ::
      sextetChar (y.toNat % 16 * 4 + z.toNat / 64) :: sextetChar (z.toNat % 64) :: encode b

/-- What holds of the letters and of the pad holds of every character. -/
theorem forall_mem_encode {p : Char → Prop} (hletter : ∀ n < 64, p (sextetChar n)) (hpad : p '=') (b : List UInt8) :
    ∀ c ∈ encode b, p c := by
  induction b using encode.induct with
  | case1 => simp [encode]
  | case2 x =>
    have hx := x.toNat_lt
    simp only [encode, List.forall_mem_cons]
    exact ⟨hletter _ (by omega), hletter _ (by omega), hpad, hpad, by simp⟩
  | case3 x y =>
    have hx := x.toNat_lt
    have hy := y.toNat_lt
    simp only [encode, List.forall_mem_cons]
    exact ⟨hletter _ (by omega), hletter _ (by omega), hletter _ (by omega), hpad, by simp⟩
  | case4 x y z b ih =>
    have hx := x.toNat_lt
    have hy := y.toNat_lt
    have hz := z.toNat_lt
    simp only [encode, List.forall_mem_cons]
    exact ⟨hletter _ (by omega), hletter _ (by omega), hletter _ (by omega), hletter _ (by omega), ih⟩

/-- A last group: one byte for two pads, two for one, three for none. -/
def decodeLast (a b c d : Char) : Option (List UInt8) := do
  let a ← sextetValue a
  let b ← sextetValue b
  if c = '=' then
    if d = '=' ∧ b % 16 = 0 then return [UInt8.ofNat (a * 4 + b / 16)] else none
  else do
    let c ← sextetValue c
    if d = '=' then
      if c % 4 = 0 then return [UInt8.ofNat (a * 4 + b / 16), UInt8.ofNat (b % 16 * 16 + c / 4)] else none
    else do
      let d ← sextetValue d
      return [UInt8.ofNat (a * 4 + b / 16), UInt8.ofNat (b % 16 * 16 + c / 4), UInt8.ofNat (c % 4 * 64 + d)]

/-- A group that another one follows. -/
def decodeGroup (a b c d : Char) : Option (List UInt8) := do
  let a ← sextetValue a
  let b ← sextetValue b
  let c ← sextetValue c
  let d ← sextetValue d
  return [UInt8.ofNat (a * 4 + b / 16), UInt8.ofNat (b % 16 * 16 + c / 4), UInt8.ofNat (c % 4 * 64 + d)]

def decode : List Char → Option (List UInt8)
  | [] => some []
  | [a, b, c, d] => decodeLast a b c d
  | a :: b :: c :: d :: s => do
    let group ← decodeGroup a b c d
    let rest ← decode s
    return group ++ rest
  | _ => none

theorem ofNat_eq {x : UInt8} {n : Nat} (h : n = x.toNat) : UInt8.ofNat n = x := by
  rw [h, UInt8.ofNat_toNat]

theorem decodeGroup_encode (x y z : UInt8) : decodeGroup (sextetChar (x.toNat / 4))
    (sextetChar (x.toNat % 4 * 16 + y.toNat / 16)) (sextetChar (y.toNat % 16 * 4 + z.toNat / 64))
    (sextetChar (z.toNat % 64)) = some [x, y, z] := by
  have hx := x.toNat_lt
  have hy := y.toNat_lt
  have hz := z.toNat_lt
  have h₁ : UInt8.ofNat (x.toNat / 4 * 4 + (x.toNat % 4 * 16 + y.toNat / 16) / 16) = x := ofNat_eq (by omega)
  have h₂ : UInt8.ofNat ((x.toNat % 4 * 16 + y.toNat / 16) % 16 * 16 + (y.toNat % 16 * 4 + z.toNat / 64) / 4) = y :=
    ofNat_eq (by omega)
  have h₃ : UInt8.ofNat ((y.toNat % 16 * 4 + z.toNat / 64) % 4 * 64 + z.toNat % 64) = z := ofNat_eq (by omega)
  simp only [decodeGroup, sextetValue_sextetChar _ (show x.toNat / 4 < 64 by omega),
    sextetValue_sextetChar _ (show x.toNat % 4 * 16 + y.toNat / 16 < 64 by omega),
    sextetValue_sextetChar _ (show y.toNat % 16 * 4 + z.toNat / 64 < 64 by omega),
    sextetValue_sextetChar _ (show z.toNat % 64 < 64 by omega), Option.bind_eq_bind, Option.bind_some, Option.pure_def,
    h₁, h₂, h₃]

/-- A last group without pads is like any other. -/
theorem decodeLast_of_group {a b c d : Char} {g : List UInt8} (h : decodeGroup a b c d = some g) :
    decodeLast a b c d = some g := by
  simp only [decodeGroup, Option.bind_eq_bind, Option.bind_eq_some_iff] at h
  obtain ⟨va, ha, vb, hb, vc, hc, vd, hd, h⟩ := h
  have hcp : c ≠ '=' := by rintro rfl; rw [sextetValue_pad] at hc; cases hc
  have hdp : d ≠ '=' := by rintro rfl; rw [sextetValue_pad] at hd; cases hd
  simp only [decodeLast, ha, hb, hc, hd, hcp, hdp, if_false, Option.bind_eq_bind, Option.bind_some]
  exact h

/-- **Every text the encoder writes is read back.** -/
theorem decode_encode (b : List UInt8) : decode (encode b) = some b := by
  induction b using encode.induct with
  | case1 => rfl
  | case2 x =>
    have hx := x.toNat_lt
    have h₁ : UInt8.ofNat (x.toNat / 4 * 4 + x.toNat % 4 * 16 / 16) = x := ofNat_eq (by omega)
    simp only [encode, decode, decodeLast, sextetValue_sextetChar _ (show x.toNat / 4 < 64 by omega),
      sextetValue_sextetChar _ (show x.toNat % 4 * 16 < 64 by omega), Option.bind_eq_bind, Option.bind_some,
      Nat.mul_mod_left, h₁]
    rfl
  | case3 x y =>
    have hx := x.toNat_lt
    have hy := y.toNat_lt
    have h₁ : UInt8.ofNat (x.toNat / 4 * 4 + (x.toNat % 4 * 16 + y.toNat / 16) / 16) = x := ofNat_eq (by omega)
    have h₂ : UInt8.ofNat ((x.toNat % 4 * 16 + y.toNat / 16) % 16 * 16 + y.toNat % 16 * 4 / 4) = y := ofNat_eq (by omega)
    have hc := sextetChar_ne_pad (y.toNat % 16 * 4) (by omega)
    simp only [encode, decode, decodeLast, sextetValue_sextetChar _ (show x.toNat / 4 < 64 by omega),
      sextetValue_sextetChar _ (show x.toNat % 4 * 16 + y.toNat / 16 < 64 by omega), hc, if_false,
      sextetValue_sextetChar _ (show y.toNat % 16 * 4 < 64 by omega), Option.bind_eq_bind, Option.bind_some,
      Nat.mul_mod_left, h₁, h₂]
    rfl
  | case4 x y z b ih =>
    have hg := decodeGroup_encode x y z
    rw [encode]
    cases hb : encode b with
    | nil =>
      rw [hb, decode, Option.some.injEq] at ih
      rw [decode, decodeLast_of_group hg, ih]
    | cons c s =>
      rw [hb] at ih
      rw [decode, hg, ih]
      · rfl
      · simp

theorem toNat_ofNat {n : Nat} (h : n < 256) : (UInt8.ofNat n).toNat = n := by
  rw [UInt8.toNat_ofNat', Nat.mod_eq_of_lt h]

theorem encode_of_group {a b c d : Char} {g : List UInt8} (h : decodeGroup a b c d = some g) (rest : List UInt8) :
    encode (g ++ rest) = a :: b :: c :: d :: encode rest := by
  simp only [decodeGroup, Option.bind_eq_bind, Option.bind_eq_some_iff, Option.pure_def, Option.some.injEq] at h
  obtain ⟨va, ha, vb, hb, vc, hc, vd, hd, rfl⟩ := h
  obtain ⟨ha, rfl⟩ := sextetChar_of_value ha
  obtain ⟨hb, rfl⟩ := sextetChar_of_value hb
  obtain ⟨hc, rfl⟩ := sextetChar_of_value hc
  obtain ⟨hd, rfl⟩ := sextetChar_of_value hd
  simp only [List.cons_append, List.nil_append, encode, toNat_ofNat (show va * 4 + vb / 16 < 256 by omega),
    toNat_ofNat (show vb % 16 * 16 + vc / 4 < 256 by omega), toNat_ofNat (show vc % 4 * 64 + vd < 256 by omega)]
  congr 2
  · omega
  congr 2
  · omega
  congr 2
  · omega
  congr 2
  omega

theorem encode_of_last {a b c d : Char} {g : List UInt8} (h : decodeLast a b c d = some g) : encode g = [a, b, c, d] := by
  by_cases hcp : c = '='
  · simp only [decodeLast, hcp, if_true, Option.bind_eq_bind, Option.bind_eq_some_iff] at h
    obtain ⟨va, ha, vb, hb, h⟩ := h
    obtain ⟨ha, rfl⟩ := sextetChar_of_value ha
    obtain ⟨hb, rfl⟩ := sextetChar_of_value hb
    split_ifs at h with hd
    obtain ⟨rfl, hz⟩ := hd
    simp only [Option.pure_def, Option.some.injEq] at h
    subst h
    simp only [encode, toNat_ofNat (show va * 4 + vb / 16 < 256 by omega), hcp]
    congr 2
    · omega
    congr 2
    omega
  · by_cases hdp : d = '='
    · simp only [decodeLast, hcp, hdp, if_true, if_false, Option.bind_eq_bind, Option.bind_eq_some_iff] at h
      obtain ⟨va, ha, vb, hb, vc, hc, h⟩ := h
      obtain ⟨ha, rfl⟩ := sextetChar_of_value ha
      obtain ⟨hb, rfl⟩ := sextetChar_of_value hb
      obtain ⟨hc, rfl⟩ := sextetChar_of_value hc
      split_ifs at h with hz
      simp only [Option.pure_def, Option.some.injEq] at h
      subst h
      simp only [encode, toNat_ofNat (show va * 4 + vb / 16 < 256 by omega),
        toNat_ofNat (show vb % 16 * 16 + vc / 4 < 256 by omega), hdp]
      congr 2
      · omega
      congr 2
      · omega
      congr 2
      omega
    · have hg : decodeGroup a b c d = some g := by
        simp only [decodeLast, hcp, hdp, if_false] at h
        exact h
      have := encode_of_group hg []
      rwa [List.append_nil] at this

/-- **A text that is read is the one the encoder writes.** -/
theorem encode_decode {s : List Char} : ∀ {b : List UInt8}, decode s = some b → encode b = s := by
  induction s using decode.induct with
  | case1 =>
    intro b h
    cases h
    rfl
  | case2 a b c d => exact fun h => encode_of_last h
  | case3 a b c d s hne ih =>
    intro bytes h
    rw [decode] at h
    · simp only [Option.bind_eq_bind, Option.bind_eq_some_iff, Option.pure_def, Option.some.injEq] at h
      obtain ⟨g, hg, rest, hrest, rfl⟩ := h
      rw [encode_of_group hg, ih hrest]
    · exact hne
  | case4 s h1 h2 h3 =>
    intro b h
    rw [decode] at h
    · cases h
    all_goals assumption

/-! ## Hexadecimal -/

def hexValue (c : Char) : Option Nat :=
  if 48 ≤ c.toNat ∧ c.toNat ≤ 57 then some (c.toNat - 48)
  else if 97 ≤ c.toNat ∧ c.toNat ≤ 102 then some (c.toNat - 87)
  else if 65 ≤ c.toNat ∧ c.toNat ≤ 70 then some (c.toNat - 55)
  else none

/-- Pairs of digits, in either case. -/
def hexDecode : List Char → Option (List UInt8)
  | [] => some []
  | [_] => none
  | a :: b :: s => do
    let a ← hexValue a
    let b ← hexValue b
    let rest ← hexDecode s
    return UInt8.ofNat (16 * a + b) :: rest

theorem hexDecode_mem {s : List Char} : ∀ {b : List UInt8}, hexDecode s = some b → ∀ c ∈ s, hexValue c ≠ none := by
  induction s using hexDecode.induct with
  | case1 => simp
  | case2 c =>
    intro b h
    cases h
  | case3 x y s ih =>
    intro b h c hc
    simp only [hexDecode, Option.bind_eq_bind, Option.bind_eq_some_iff] at h
    obtain ⟨vx, hx, vy, hy, rest, hrest, -⟩ := h
    simp only [List.mem_cons] at hc
    rcases hc with rfl | rfl | hc
    · simp [hx]
    · simp [hy]
    · exact ih hrest c hc

/-- Bytes that are not whole groups of three are written with a pad. -/
theorem pad_mem_encode (b : List UInt8) (h : b.length % 3 ≠ 0) : '=' ∈ encode b := by
  induction b using encode.induct with
  | case1 => exact absurd rfl h
  | case2 x => simp [encode]
  | case3 x y => simp [encode]
  | case4 x y z b ih =>
    simp only [List.length_cons] at h
    simp only [encode, List.mem_cons]
    exact .inr (.inr (.inr (.inr (ih (by omega)))))

/-- So a hexadecimal reader refuses what the encoder writes of them. -/
theorem hexDecode_encode (b : List UInt8) (h : b.length % 3 ≠ 0) : hexDecode (encode b) = none := by
  cases hd : hexDecode (encode b) with
  | none => rfl
  | some _ => exact absurd (by decide) (hexDecode_mem hd '=' (pad_mem_encode b h))

end Base64
