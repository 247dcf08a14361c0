import PiiProxy.Lib.Find
import PiiProxy.Lib.Utf8

/-!
# Bytes, panics and the text of digests

| here | there |
| --- | --- |
| `Bytes`              | `bytes::Bytes`, `BytesMut`, `&[u8]` (Rust), `bytes` (Python) |
| `slice`, `checkedSub`, `copyFromSlice` | range indexing, `usize` subtraction and `copy_from_slice`, each with the panic it can raise |
| `toHex`              | `Hash::to_hex().to_string()`, `hex::encode`, `bytes.hex()` |
| `u64be`              | `(n as u64).to_be_bytes()` |

A `BLAKE3` hasher is modelled by the bytes fed to it (`update` appends), so
`finalize` is the digest function applied to that list.
-/

namespace PiiProxy

abbrev Bytes := List UInt8

inductive Panic where
  /-- A slice range out of bounds, or a `copy_from_slice` of the wrong length. -/
  | slice
  /-- A string cut inside a character. -/
  | charBoundary
  /-- `usize` underflow. -/
  | overflow
  /-- A failed `assert!`. -/
  | assertion
deriving DecidableEq, Repr

/-- `b[lo..hi]`. -/
def slice (b : Bytes) (lo hi : Nat) : Except Panic Bytes :=
  if lo ≤ hi ∧ hi ≤ b.length then .ok ((b.take hi).drop lo) else .error .slice

/-- `a - b` on `usize`. -/
def checkedSub (a b : Nat) : Except Panic Nat :=
  if b ≤ a then .ok (a - b) else .error .overflow

/-- `dst[lo..hi].copy_from_slice(src)`. -/
def copyFromSlice (dst : Bytes) (lo hi : Nat) (src : Bytes) : Except Panic Bytes :=
  if lo ≤ hi ∧ hi ≤ dst.length ∧ src.length = hi - lo then .ok (dst.take lo ++ src ++ dst.drop hi)
  else .error .slice

@[simp] theorem bind_ok {ε α β : Type} (a : α) (f : α → Except ε β) : (Except.ok a >>= f) = f a := rfl

@[simp] theorem bind_error {ε α β : Type} (e : ε) (f : α → Except ε β) :
    ((Except.error e : Except ε α) >>= f) = .error e := rfl

theorem bind_eq_ok {ε α β : Type} {x : Except ε α} {f : α → Except ε β} {b : β} :
    (x >>= f) = .ok b ↔ ∃ a, x = .ok a ∧ f a = .ok b := by
  cases x with
  | error e => simp
  | ok a => simp

@[simp] theorem throw_eq_error {ε α : Type} (e : ε) : (throw e : Except ε α) = .error e := rfl

@[simp] theorem pure_eq_ok {ε α : Type} (a : α) : (pure a : Except ε α) = .ok a := rfl

theorem drop_append_right {α : Type} {a b : List α} {n : Nat} (h : a.length ≤ n) :
    (a ++ b).drop n = b.drop (n - a.length) := by
  rw [List.drop_append, List.drop_eq_nil_of_le h, List.nil_append]

/-- A tail, cut once more. -/
theorem drop_split {α : Type} {l : List α} {i j : Nat} (h1 : i ≤ j) (h2 : j ≤ l.length) :
    l.drop i = (l.take j).drop i ++ l.drop j := by
  rw [← List.drop_append_of_le_length (by simp; omega), List.take_append_drop]

/-- Two cuts of one list, the first no further than the second. -/
theorem append_cut {α : Type} {a b x y : List α} (h : a ++ b = x ++ y) (hle : x.length ≤ a.length) :
    ∃ z, a = x ++ z ∧ y = z ++ b := by
  have hx : x <+: a := List.prefix_of_prefix_length_le (h ▸ List.prefix_append x y) (List.prefix_append a b) hle
  obtain ⟨z, rfl⟩ := hx
  rw [List.append_assoc, List.append_cancel_left_eq] at h
  exact ⟨z, rfl, h.symm⟩

theorem slice_to {b : Bytes} {n : Nat} (h : n ≤ b.length) : slice b 0 n = .ok (b.take n) := by
  simp [slice, h]

theorem slice_from {b : Bytes} {n : Nat} (h : n ≤ b.length) : slice b n b.length = .ok (b.drop n) := by
  simp [slice, h]

theorem checkedSub_of_le {a b : Nat} (h : b ≤ a) : checkedSub a b = .ok (a - b) := by
  simp [checkedSub, h]

/-! ## Hexadecimal -/

def hexDigit (n : Nat) : Char :=
  if n < 10 then Char.ofNat (48 + n) else Char.ofNat (87 + n)

/-- Lower-case hexadecimal text, two digits a byte. -/
def toHex (b : Bytes) : String :=
  String.ofList (b.flatMap fun x => [hexDigit (x.toNat / 16), hexDigit (x.toNat % 16)])

theorem hexDigit_inj : ∀ m < 16, ∀ n < 16, hexDigit m = hexDigit n → m = n := by decide

theorem toHex_injective : Function.Injective toHex := by
  intro a b h
  have h := String.ofList_injective h
  clear * - h
  induction a generalizing b with
  | nil => cases b with
    | nil => rfl
    | cons y b => simp at h
  | cons x a ih => cases b with
    | nil => simp at h
    | cons y b =>
      simp only [List.flatMap_cons, List.cons_append, List.nil_append, List.cons.injEq] at h
      obtain ⟨h1, h2, h3⟩ := h
      have hx := x.toNat_lt
      have hy := y.toNat_lt
      have q := hexDigit_inj _ (by omega) _ (by omega) h1
      have r := hexDigit_inj _ (by omega) _ (by omega) h2
      have hxy : x = y := UInt8.toNat_inj.1 (by omega)
      rw [hxy, ih h3]

theorem length_toHex (b : Bytes) : (toHex b).length = 2 * b.length := by
  rw [toHex, String.length_ofList]
  induction b with
  | nil => rfl
  | cons x b ih =>
    simp only [List.flatMap_cons, List.length_append, List.length_cons, List.length_nil, ih]
    omega

theorem length_encode_toHex (b : Bytes) : (Utf8.encode (toHex b)).length = 2 * b.length := by
  have hd : ∀ n < 16, (String.utf8EncodeChar (hexDigit n)).length = 1 := by decide
  rw [Utf8.encode_eq, toHex, String.toList_ofList]
  induction b with
  | nil => rfl
  | cons x b ih =>
    have hx := x.toNat_lt
    simp only [List.flatMap_cons, List.flatMap_append, List.flatMap_nil, List.length_append, List.length_nil, ih,
      hd (x.toNat / 16) (by omega), hd (x.toNat % 16) (by omega), List.length_cons]
    omega

def hexValue (c : UInt8) : Nat :=
  if c < 58 then c.toNat - 48 else c.toNat - 87

/-- The bytes a lower-case hexadecimal text stands for. -/
def ofHex (s : String) : Bytes :=
  let rec go : Bytes → Bytes
    | a :: b :: cs => UInt8.ofNat (16 * hexValue a + hexValue b) :: go cs
    | _ => []
  go (Utf8.encode s)

/-- `(n as u64).to_be_bytes()`. -/
def u64be (n : Nat) : Bytes :=
  [56, 48, 40, 32, 24, 16, 8, 0].map fun s => UInt8.ofNat ((n % UInt64.size) >>> s)

end PiiProxy
