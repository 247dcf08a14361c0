import PiiProxy.Base

/-!
# `str::parse::<IpAddr>`

| here | there |
| --- | --- |
| `toDigit`           | `char::to_digit` |
| `readGivenChar`, `readSeparator`, `readNumber` | the methods of that name of `Parser` (`std::net::parser`) |
| `readIpv4Addr`, `readGroups`, `readIpv6Addr` | `Parser::read_ipv4_addr`, `Parser::read_ipv6_addr` |
| `parse`             | `IpAddr::from_str` |

A reader takes bytes from the front or fails and takes none. An IPv4 address is four
decimal numbers; an IPv6 address is eight groups of up to four hexadecimal digits, where
one run of zero groups may be left out and the last two may be an IPv4 address.
-/

namespace PiiProxy

inductive IpAddr where
  | v4 (octets : List Nat)
  | v6 (segments : List Nat)
deriving DecidableEq, Repr

namespace IpAddr

def toDigit (radix : Nat) (b : UInt8) : Option Nat :=
  let digit :=
    if 48 ≤ b ∧ b ≤ 57 then some (b.toNat - 48)
    else if 97 ≤ b ∧ b ≤ 122 then some (b.toNat - 87)
    else if 65 ≤ b ∧ b ≤ 90 then some (b.toNat - 55)
    else none
  digit.filter (· < radix)

def readGivenChar (c : UInt8) : Bytes → Option Bytes
  | [] => none
  | b :: s => if b = c then some s else none

/-- `inner`, behind a separator unless it is the first. -/
def readSeparator {α : Type} (sep : UInt8) (index : Nat) (inner : Bytes → Option (α × Bytes)) (s : Bytes) :
    Option (α × Bytes) :=
  if 0 < index then (readGivenChar sep s).bind inner else inner s

/-- The loop of `read_number`: the number, how many digits it has, and the rest. -/
def readDigits (radix maxDigits : Nat) : (result digitCount : Nat) → Bytes → Option (Nat × Nat × Bytes)
  | result, digitCount, [] => some (result, digitCount, [])
  | result, digitCount, b :: s => match toDigit radix b with
    | none => some (result, digitCount, b :: s)
    | some digit =>
      if maxDigits < digitCount + 1 then none
      else readDigits radix maxDigits (result * radix + digit) (digitCount + 1) s

/-- A number of type `u8` or `u16`, by its `max`. -/
def readNumber (radix maxDigits : Nat) (allowZeroPrefix : Bool) (max : Nat) (s : Bytes) : Option (Nat × Bytes) := do
  let (result, digitCount, rest) ← readDigits radix maxDigits 0 0 s
  if digitCount = 0 then none
  else if !allowZeroPrefix && s.head? == some 48 && 1 < digitCount then none
  else if max < result then none
  else some (result, rest)

def readIpv4Addr (s : Bytes) : Option (List Nat × Bytes) := do
  let (a, s) ← readSeparator 46 0 (readNumber 10 3 false 255) s
  let (b, s) ← readSeparator 46 1 (readNumber 10 3 false 255) s
  let (c, s) ← readSeparator 46 2 (readNumber 10 3 false 255) s
  let (d, s) ← readSeparator 46 3 (readNumber 10 3 false 255) s
  return ([a, b, c, d], s)

/-- The groups from `i` on, of `left` that are still wanted: those read, whether they end in an
IPv4 address, and the rest. -/
def readGroups : (left i : Nat) → Bytes → List Nat × Bool × Bytes
  | 0, _, s => ([], false, s)
  | left + 1, i, s =>
    -- An IPv4 address takes two groups.
    match if 0 < left then readSeparator 58 i readIpv4Addr s else none with
    | some (octets, rest) => ([octets.getD 0 0 * 256 + octets.getD 1 0, octets.getD 2 0 * 256 + octets.getD 3 0], true, rest)
    | none => match readSeparator 58 i (readNumber 16 4 true 65535) s with
      | none => ([], false, s)
      | some (group, rest) =>
        let (groups, ipv4, rest) := readGroups left (i + 1) rest
        (group :: groups, ipv4, rest)

def readIpv6Addr (s : Bytes) : Option (List Nat × Bytes) :=
  let (head, headIpv4, s) := readGroups 8 0 s
  if head.length = 8 then some (head, s)
  else if headIpv4 then none
  else do
    let s ← readGivenChar 58 s
    let s ← readGivenChar 58 s
    let limit := 8 - (head.length + 1)
    let (tail, _, s) := readGroups limit 0 s
    return (head ++ List.replicate (8 - head.length - tail.length) 0 ++ tail, s)

/-- Nothing may be left; an IPv6 address is not tried once an IPv4 address was read. -/
def parse (s : Bytes) : Option IpAddr := do
  let (addr, rest) ← match readIpv4Addr s with
    | some (octets, rest) => some (IpAddr.v4 octets, rest)
    | none => (readIpv6Addr s).map fun (segments, rest) => (IpAddr.v6 segments, rest)
  if rest = [] then some addr else none

/-! ## How an address starts -/

theorem toDigit_eq_none_of_le {radix radix' : Nat} {b : UInt8} (hle : radix' ≤ radix) (h : toDigit radix b = none) :
    toDigit radix' b = none := by
  rw [toDigit, Option.filter_eq_none_iff] at h ⊢
  intro d hd
  have := h d hd
  simp only [decide_eq_true_eq] at this ⊢
  omega

theorem readNumber_eq_none {radix maxDigits max : Nat} {zero : Bool} {b : UInt8} {s : Bytes}
    (h : toDigit radix b = none) : readNumber radix maxDigits zero max (b :: s) = none := by
  simp [readNumber, readDigits, h]

theorem readIpv4Addr_eq_none {b : UInt8} {s : Bytes} (h : toDigit 16 b = none) : readIpv4Addr (b :: s) = none := by
  simp [readIpv4Addr, readSeparator, readNumber_eq_none (toDigit_eq_none_of_le (by decide : 10 ≤ 16) h)]

/-- **An address starts with a hexadecimal digit or a colon.** -/
theorem parse_eq_none {b : UInt8} {s : Bytes} (hd : toDigit 16 b = none) (hc : b ≠ 58) : parse (b :: s) = none := by
  have hgroups : readGroups 8 0 (b :: s) = ([], false, b :: s) := by
    simp [readGroups, readSeparator, readIpv4Addr_eq_none hd, readNumber_eq_none hd]
  have hv6 : readIpv6Addr (b :: s) = none := by
    simp [readIpv6Addr, hgroups, readGivenChar, hc]
  simp [parse, readIpv4Addr_eq_none hd, hv6]

end IpAddr

end PiiProxy
