import Mathlib.Data.List.DropRight
import PiiProxy.Receipt

/-!
# The Python values the verifiers work on

| here | there |
| --- | --- |
| `PyStr`, `Json`, `Dict`   | `str` (its code points, lone surrogates included), what `json.loads` returns, `dict` |
| `PyError`                 | the exceptions the two scripts raise, catch or let through |
| `strip`, `rstripCrLf`, `isSpace` | `bytes.strip()`, `bytes.rstrip(b"\r\n")`, `bytes.isspace()` |
| `fromhex`, `encodeUtf8`, `decodeUtf8`, `toBytes8` | `bytes.fromhex`, `str.encode("utf-8")`, `bytes.decode("utf-8")`, `int.to_bytes(8, "big")` |
| `PyJson`, `PyKeys`        | the modules `json`, and `base64` and `cryptography` |

`json`, `base64` and Ed25519 are parameters, as partial functions: a call either
returns or raises.
-/

namespace PiiProxy

open Utf8 (encode)

/-- The code points of a `str`. -/
abbrev PyStr := List Nat

def pyStr (s : String) : PyStr := s.toList.map Char.toNat

inductive Json where
  | null
  | bool (b : Bool)
  | int (n : Int)
  /-- A number with a fraction or an exponent, as its text. -/
  | float (text : String)
  | str (s : PyStr)
  | list (items : List Json)
  /-- The items of a `dict`. -/
  | dict (items : List (PyStr × Json))

abbrev Dict := List (PyStr × Json)

inductive PyError where
  | valueError (text : String)
  /-- A `ValueError`. -/
  | jsonDecodeError (text : String)
  /-- A `ValueError`. -/
  | unicodeEncodeError (text : String)
  /-- A `ValueError`; the offset of the first ill-formed sequence. -/
  | unicodeDecodeError (start : Nat)
  /-- `binascii.Error`, a `ValueError`. -/
  | binasciiError (text : String)
  | keyError (key : String)
  | attributeError (text : String)
  | typeError
  | overflowError
  | recursionError
  | invalidSignature
  | assertionError (text : String)
deriving DecidableEq, Repr

/-- The module `json`. -/
structure PyJson where
  /-- `json.loads` of bytes. -/
  loads : Bytes → Except PyError Json
  /-- `json.loads` of a `str`. -/
  loadsText : PyStr → Except PyError Json
  /-- `json.JSONDecoder().raw_decode(text, idx)`. -/
  rawDecode : PyStr → Nat → Except PyError (Json × Nat)

/-- The modules `base64` and `cryptography`. -/
structure PyKeys where
  /-- `base64.b64decode(text, validate=True)`. -/
  b64decode : PyStr → Except PyError Bytes
  /-- `Ed25519PublicKey.from_public_bytes(key).verify(signature, message)`. -/
  verify : Bytes → Bytes → Bytes → Except PyError Unit

/-! ## Dictionaries -/

/-- `d.get(key)`; `none` is `None`. -/
def Dict.get (d : Dict) (key : String) : Option Json := d.lookup (pyStr key)

/-- `d[key]`. -/
def Dict.index (d : Dict) (key : String) : Except PyError Json :=
  match d.get key with
  | some v => .ok v
  | none => .error (.keyError key)

def Json.typeName : Json → String
  | .null => "NoneType"
  | .bool _ => "bool"
  | .int _ => "int"
  | .float _ => "float"
  | .str _ => "str"
  | .list _ => "list"
  | .dict _ => "dict"

/-- `data.get`, which only a `dict` has. -/
def Json.items : Json → Except PyError Dict
  | .dict d => .ok d
  | j => .error (.attributeError ("'" ++ j.typeName ++ "' object has no attribute 'get'"))

/-- `isinstance(j, str) and j`, false of the empty string. -/
def Json.isText : Json → Bool
  | .str s => !s.isEmpty
  | _ => false

/-- The characters of a value already known to be a `str`. -/
def Json.chars : Json → PyStr
  | .str s => s
  | _ => []

/-- `isinstance(j, int) and j >= 0`; a `bool` is an `int`. -/
def Json.isNonNegInt : Json → Bool
  | .bool _ => true
  | .int n => decide (0 ≤ n)
  | _ => false

/-! ## Bytes -/

/-- `bytes.isspace()` of one byte. -/
def isSpace (b : UInt8) : Bool := b ∈ [9, 10, 11, 12, 13, 32]

def strip (b : Bytes) : Bytes := (b.dropWhile isSpace).rdropWhile isSpace

/-- `b.rstrip(b"\r\n")`. -/
def rstripCrLf (b : Bytes) : Bytes := b.rdropWhile (· ∈ [13, 10])

/-- `n.to_bytes(8, "big")`. -/
def toBytes8 (n : Nat) : Except PyError Bytes :=
  if n < UInt64.size then .ok (u64be n) else .error .overflowError

def decodeUtf8 (b : Bytes) : Except PyError PyStr :=
  match String.fromUTF8? ⟨b.toArray⟩ with
  | some s => .ok (pyStr s)
  | none => .error (.unicodeDecodeError (match Utf8.fromUtf8 b with
    | .error e => e.validUpTo
    | .ok () => 0))

/-! ## Strings -/

def isSurrogate (n : Nat) : Bool := 0xD800 ≤ n && n ≤ 0xDFFF

/-- `str(exc)` for a `UnicodeEncodeError` at the surrogates of `s` from offset `i` on. -/
def surrogateText (s : PyStr) (i : Nat) : String :=
  match (s.drop i).takeWhile isSurrogate with
  | [n] => "'utf-8' codec can't encode character '\\u" ++
      String.ofList [hexDigit (n / 4096 % 16), hexDigit (n / 256 % 16), hexDigit (n / 16 % 16), hexDigit (n % 16)] ++
      "' in position " ++ toString i ++ ": surrogates not allowed"
  | run => "'utf-8' codec can't encode characters in position " ++ toString i ++ "-" ++
      toString (i + run.length - 1) ++ ": surrogates not allowed"

def encodeUtf8 (s : PyStr) : Except PyError Bytes :=
  match s.findIdx? isSurrogate with
  | some i => .error (.unicodeEncodeError (surrogateText s i))
  | none => .ok (s.flatMap fun n => String.utf8EncodeChar (Char.ofNat n))

def isHexDigit (n : Nat) : Bool :=
  (48 ≤ n && n ≤ 57) || (65 ≤ n && n ≤ 70) || (97 ≤ n && n ≤ 102)

def hexDigitValue (n : Nat) : Nat :=
  if n ≤ 57 then n - 48 else if n ≤ 70 then n - 55 else n - 87

def fromhexError (pos : Nat) : PyError :=
  .valueError ("non-hexadecimal number found in fromhex() arg at position " ++ toString pos)

/-- Pairs of digits, with white space between the pairs only. -/
def fromhexFrom (pos : Nat) : PyStr → Except PyError Bytes
  | [] => .ok []
  | a :: s =>
    if a ∈ [9, 10, 11, 12, 13, 32] then fromhexFrom (pos + 1) s
    else if !isHexDigit a then .error (fromhexError pos)
    else match s with
      | [] => .error (fromhexError (pos + 1))
      | b :: s =>
        if !isHexDigit b then .error (fromhexError (pos + 1))
        else (UInt8.ofNat (16 * hexDigitValue a + hexDigitValue b) :: ·) <$> fromhexFrom (pos + 2) s

/-- A character outside ASCII is reported before anything else. -/
def fromhex (s : PyStr) : Except PyError Bytes :=
  match s.findIdx? (128 ≤ ·) with
  | some i => .error (fromhexError i)
  | none => fromhexFrom 0 s

/-! ## Exceptions -/

/-- `except (ValueError, KeyError) as exc` around `fromhex` and `canonical_receipt_digest`:
the text of `exc`, and `none` for what passes it (`to_bytes` raises `OverflowError`). -/
def PyError.valueOrKeyText : PyError → Option String
  | .valueError t => some t
  | .unicodeEncodeError t => some t
  | .keyError k => some ("'" ++ k ++ "'")
  | _ => none

theorem pyStr_injective : Function.Injective pyStr := by
  intro s t h
  have hc : Function.Injective Char.toNat := fun a b hab => Char.toNat_inj.1 hab
  exact String.toList_injective (List.map_injective_iff.2 hc h)

@[simp] theorem length_pyStr (s : String) : (pyStr s).length = s.length := by
  simp [pyStr, String.length_toList]

theorem pyStr_append (s t : String) : pyStr (s ++ t) = pyStr s ++ pyStr t := by
  simp [pyStr]

@[simp] theorem decodeUtf8_encode (s : String) : decodeUtf8 (encode s) = .ok (pyStr s) := by
  have h : String.fromUTF8? ⟨(encode s).toArray⟩ = some s := Utf8.fromUTF8?_eq_some.2 rfl
  rw [decodeUtf8, h]

/-- A Rust `char`, and so every character of a Rust string, is no surrogate. -/
theorem isSurrogate_toNat (c : Char) : isSurrogate c.toNat = false := by
  have := c.valid
  simp only [isSurrogate, Bool.and_eq_false_iff, decide_eq_false_iff_not]
  rcases this with h | ⟨h, -⟩
  · left
    simp only [Char.toNat]
    omega
  · right
    simp only [Char.toNat]
    omega

@[simp] theorem encodeUtf8_pyStr (s : String) : encodeUtf8 (pyStr s) = .ok (encode s) := by
  have h : (pyStr s).findIdx? isSurrogate = none := by
    rw [List.findIdx?_eq_none_iff, pyStr]
    intro n hn
    obtain ⟨c, -, rfl⟩ := List.mem_map.1 hn
    exact isSurrogate_toNat c
  rw [encodeUtf8, h, Utf8.encode_eq, pyStr]
  simp [List.flatMap_map]

/-! ## Hexadecimal -/

theorem hexDigit_read : ∀ n < 16, (hexDigit n).toNat < 128 ∧
    (hexDigit n).toNat ∉ [9, 10, 11, 12, 13, 32] ∧ isHexDigit (hexDigit n).toNat = true ∧
    hexDigitValue (hexDigit n).toNat = n := by decide

theorem pyStr_toHex_cons (x : UInt8) (b : Bytes) : pyStr (toHex (x :: b)) =
    (hexDigit (x.toNat / 16)).toNat :: (hexDigit (x.toNat % 16)).toNat :: pyStr (toHex b) := by
  simp [pyStr, toHex]

theorem fromhexFrom_toHex : ∀ (b : Bytes) (pos : Nat), fromhexFrom pos (pyStr (toHex b)) = .ok b
  | [], _ => rfl
  | x :: b, pos => by
    have hx := x.toNat_lt
    obtain ⟨-, hw, hd, hv⟩ := hexDigit_read (x.toNat / 16) (by omega)
    obtain ⟨-, -, hd', hv'⟩ := hexDigit_read (x.toNat % 16) (by omega)
    have hxv : UInt8.ofNat (16 * (x.toNat / 16) + x.toNat % 16) = x := by
      rw [Nat.div_add_mod, UInt8.ofNat_toNat]
    rw [pyStr_toHex_cons, fromhexFrom, if_neg hw, hd, hd', hv, hv', hxv, fromhexFrom_toHex b]
    rfl

/-- **`bytes.fromhex` reads back what `to_hex` writes.** -/
theorem fromhex_toHex (b : Bytes) : fromhex (pyStr (toHex b)) = .ok b := by
  have hascii : (pyStr (toHex b)).findIdx? (128 ≤ ·) = none := by
    rw [List.findIdx?_eq_none_iff]
    induction b with
    | nil => simp [pyStr, toHex]
    | cons x b ih =>
      have hx := x.toNat_lt
      have h1 := (hexDigit_read (x.toNat / 16) (by omega)).1
      have h2 := (hexDigit_read (x.toNat % 16) (by omega)).1
      intro n hn
      rw [pyStr_toHex_cons, List.mem_cons, List.mem_cons] at hn
      rcases hn with rfl | rfl | hn
      · simpa using h1
      · simpa using h2
      · exact ih n hn
  rw [fromhex, hascii]
  exact fromhexFrom_toHex b 0

end PiiProxy
