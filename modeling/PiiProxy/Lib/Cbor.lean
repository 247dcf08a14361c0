import Mathlib.Algebra.Group.Nat.Defs
import PiiProxy.Lib.Utf8

/-!
# CBOR items

The items of a document with lengths given in advance: integers, byte and text strings, arrays
and maps. `Reads B n t v` says that the bytes `t` are read as `v`
whatever follows, nested at most `n` deep; the rules for it follow the writer, which gives
every length its shortest head.

* `head_writeHead` — a head is read back
* `reads_nat`, `reads_bytes`, `reads_text`, `reads_list`, `reads_map` — the rules
-/

namespace Cbor

/-- How the reader makes its values. -/
structure Build (V : Type) where
  int : Int → V
  bytes : List UInt8 → V
  text : String → V
  list : List V → V
  /-- The entries, in order. -/
  map : List (V × V) → V

variable {V : Type}

/-! ## Heads -/

/-- The last `k` bytes of `n`, high ones first. -/
def bigEndian : Nat → Nat → List UInt8
  | 0, _ => []
  | k + 1, n => bigEndian k (n / 256) ++ [UInt8.ofNat n]

def fromBigEndian (b : List UInt8) : Nat := b.foldl (fun n x => 256 * n + x.toNat) 0

/-- Major type and argument, in the shortest form. -/
def writeHead (major n : Nat) : List UInt8 :=
  if n < 24 then [UInt8.ofNat (32 * major + n)]
  else if n < 256 then UInt8.ofNat (32 * major + 24) :: bigEndian 1 n
  else if n < 65536 then UInt8.ofNat (32 * major + 25) :: bigEndian 2 n
  else if n < 4294967296 then UInt8.ofNat (32 * major + 26) :: bigEndian 4 n
  else UInt8.ofNat (32 * major + 27) :: bigEndian 8 n

/-- A number of exactly `k` bytes. -/
def argument (k : Nat) (s : List UInt8) : Option (Nat × List UInt8) :=
  if k ≤ s.length then some (fromBigEndian (s.take k), s.drop k) else none

/-- Major type, argument and what follows; lengths that are not given in advance are refused. -/
def head : List UInt8 → Option (Nat × Nat × List UInt8)
  | [] => none
  | b :: s =>
    let info := b.toNat % 32
    (if info < 24 then some (info, s)
      else if info = 24 then argument 1 s
      else if info = 25 then argument 2 s
      else if info = 26 then argument 4 s
      else if info = 27 then argument 8 s
      else none).map fun p => (b.toNat / 32, p.1, p.2)

/-! ## The reader -/

/-- `n` things, one after the other. -/
def many {α : Type} (one : List UInt8 → Option (α × List UInt8)) : Nat → List UInt8 → Option (List α × List UInt8)
  | 0, s => some ([], s)
  | n + 1, s => do
    let (a, s) ← one s
    let (as, s) ← many one n s
    return (a :: as, s)

def entry (one : List UInt8 → Option (V × List UInt8)) (s : List UInt8) : Option ((V × V) × List UInt8) := do
  let (k, s) ← one s
  let (v, s) ← one s
  return ((k, v), s)

/-- The first `n` bytes, if there are as many. -/
def prefixOf (n : Nat) (s : List UInt8) : Option (List UInt8 × List UInt8) :=
  if n ≤ s.length then some (s.take n, s.drop n) else none

/-- An item that holds no other. -/
def scalar (B : Build V) (major n : Nat) (s : List UInt8) : Option (V × List UInt8) :=
  if major = 0 then some (B.int n, s)
  else if major = 1 then some (B.int (-1 - (n : Int)), s)
  else if major = 2 then (prefixOf n s).map fun p => (B.bytes p.1, p.2)
  else if major = 3 then (prefixOf n s).bind fun p => (String.fromUTF8? ⟨p.1.toArray⟩).map fun t => (B.text t, p.2)
  else none

/-- An item at the front, nested at most `n` deep. -/
def item (B : Build V) : Nat → List UInt8 → Option (V × List UInt8)
  | 0, s => (head s).bind fun h => scalar B h.1 h.2.1 h.2.2
  | n + 1, s => (head s).bind fun h =>
    if h.1 = 4 then (many (item B n) h.2.1 h.2.2).map fun p => (B.list p.1, p.2)
    else if h.1 = 5 then (many (entry (item B n)) h.2.1 h.2.2).map fun p => (B.map p.1, p.2)
    else scalar B h.1 h.2.1 h.2.2

/-- A document that is one item. -/
def read (B : Build V) (n : Nat) (s : List UInt8) : Option V :=
  match item B n s with
  | some (v, []) => some v
  | _ => none

/-! ## Heads are read back -/

theorem length_bigEndian (k n : Nat) : (bigEndian k n).length = k := by
  induction k generalizing n with
  | zero => rfl
  | succ k ih => simp [bigEndian, ih]

theorem fromBigEndian_append (a b : List UInt8) :
    fromBigEndian (a ++ b) = b.foldl (fun n x => 256 * n + x.toNat) (fromBigEndian a) := by
  simp [fromBigEndian]

theorem fromBigEndian_bigEndian (k : Nat) : ∀ {n : Nat}, n < 256 ^ k → fromBigEndian (bigEndian k n) = n := by
  induction k with
  | zero =>
    intro n h
    simp only [Nat.pow_zero] at h
    rw [bigEndian, fromBigEndian]
    simp only [List.foldl_nil]
    omega
  | succ k ih =>
    intro n h
    have hdiv : n / 256 < 256 ^ k := by
      rw [Nat.pow_succ] at h
      exact Nat.div_lt_of_lt_mul (by rwa [Nat.mul_comm] at h)
    rw [bigEndian, fromBigEndian_append, ih hdiv]
    simp only [List.foldl_cons, List.foldl_nil, UInt8.toNat_ofNat']
    omega

theorem argument_bigEndian {k n : Nat} (h : n < 256 ^ k) (s : List UInt8) :
    argument k (bigEndian k n ++ s) = some (n, s) := by
  have hlen := length_bigEndian k n
  rw [argument, if_pos (by rw [List.length_append]; omega), List.take_left' hlen, List.drop_left' hlen,
    fromBigEndian_bigEndian k h]

/-- **A head is read back**, for the eight major types and lengths of 64 bits. -/
theorem head_writeHead {major n : Nat} (hm : major < 8) (hn : n < 2 ^ 64) (s : List UInt8) :
    head (writeHead major n ++ s) = some (major, n, s) := by
  have hbyte : ∀ i < 32, (UInt8.ofNat (32 * major + i)).toNat = 32 * major + i := by
    intro i hi
    rw [UInt8.toNat_ofNat', Nat.mod_eq_of_lt (by omega)]
  have hinfo : ∀ i < 32, (32 * major + i) % 32 = i ∧ (32 * major + i) / 32 = major := by
    intro i hi
    omega
  unfold writeHead
  split_ifs with h1 h2 h3 h4
  · simp only [List.singleton_append, head, hbyte n (by omega), hinfo n (by omega), h1, if_true, Option.map_some]
  · simp only [List.cons_append, head, hbyte 24 (by omega), hinfo 24 (by omega), argument_bigEndian (k := 1) (by omega)]
    rfl
  · simp only [List.cons_append, head, hbyte 25 (by omega), hinfo 25 (by omega), argument_bigEndian (k := 2) (by omega)]
    rfl
  · simp only [List.cons_append, head, hbyte 26 (by omega), hinfo 26 (by omega), argument_bigEndian (k := 4) (by omega)]
    rfl
  · simp only [List.cons_append, head, hbyte 27 (by omega), hinfo 27 (by omega), argument_bigEndian (k := 8) (by omega)]
    rfl

/-! ## The writer and the rules -/

def writeBytes (b : List UInt8) : List UInt8 := writeHead 2 b.length ++ b

def writeText (t : String) : List UInt8 := writeHead 3 (Utf8.encode t).length ++ Utf8.encode t

def writeList (items : List (List UInt8)) : List UInt8 := writeHead 4 items.length ++ items.flatten

def writeMap (entries : List (List UInt8 × List UInt8)) : List UInt8 :=
  writeHead 5 entries.length ++ (entries.map fun e => e.1 ++ e.2).flatten

/-- A value, as a writer takes it. -/
inductive Value where
  | bytes (b : List UInt8)
  | text (t : String)
  | array (items : List Value)
  | map (entries : List (Value × Value))

def Value.write : Value → List UInt8
  | .bytes b => writeBytes b
  | .text t => writeText t
  | .array items => writeList (items.map fun v => v.write)
  | .map entries => writeMap (entries.map fun e => (e.1.write, e.2.write))
decreasing_by
  · decreasing_tactic
  all_goals
    have := List.sizeOf_lt_of_mem ‹e ∈ entries›
    cases e
    simp only [Prod.mk.sizeOf_spec, map.sizeOf_spec] at *
    omega

section Rules

variable {α : Type} {B : Build V} {n : Nat}

/-- The bytes `t` are read as `v`, whatever follows. -/
def Reads (B : Build V) (n : Nat) (t : List UInt8) (v : V) : Prop := ∀ rest, item B n (t ++ rest) = some (v, rest)

theorem item_scalar {major k : Nat} {s t : List UInt8} (hm : major ≠ 4 ∧ major ≠ 5) (h : head t = some (major, k, s)) :
    item B n t = scalar B major k s := by
  cases n with
  | zero => rw [item, h, Option.bind_some]
  | succ n => rw [item, h, Option.bind_some, if_neg hm.1, if_neg hm.2]

theorem reads_nat (B : Build V) (n : Nat) {k : Nat} (hk : k < 2 ^ 64) : Reads B n (writeHead 0 k) (B.int k) := by
  intro rest
  rw [item_scalar (by decide) (head_writeHead (by decide) hk rest), scalar, if_pos rfl]

theorem prefixOf_append (b rest : List UInt8) : prefixOf b.length (b ++ rest) = some (b, rest) := by
  rw [prefixOf, if_pos (by rw [List.length_append]; omega), List.take_left, List.drop_left]

theorem reads_bytes (B : Build V) (n : Nat) {b : List UInt8} (hb : b.length < 2 ^ 64) :
    Reads B n (writeBytes b) (B.bytes b) := by
  intro rest
  have hh := @head_writeHead 2 _ (by decide) hb (b ++ rest)
  rw [← List.append_assoc] at hh
  rw [writeBytes, item_scalar (by decide) hh, scalar, if_neg (by decide), if_neg (by decide), if_pos rfl, prefixOf_append]
  rfl

theorem reads_text (B : Build V) (n : Nat) {t : String} (ht : (Utf8.encode t).length < 2 ^ 64) :
    Reads B n (writeText t) (B.text t) := by
  intro rest
  have hh := @head_writeHead 3 _ (by decide) ht (Utf8.encode t ++ rest)
  have hutf : String.fromUTF8? ⟨(Utf8.encode t).toArray⟩ = some t := Utf8.fromUTF8?_eq_some.2 rfl
  rw [← List.append_assoc] at hh
  rw [writeText, item_scalar (by decide) hh, scalar, if_neg (by decide), if_neg (by decide), if_neg (by decide), if_pos rfl,
    prefixOf_append, Option.bind_some, hutf]
  rfl

/-- Things that are each read whatever follows are read one after the other. -/
theorem many_flatten {one : List UInt8 → Option (α × List UInt8)} {ts : List (List UInt8 × α)} (rest : List UInt8)
    (h : ∀ p ∈ ts, ∀ rest, one (p.1 ++ rest) = some (p.2, rest)) :
    many one ts.length ((ts.map Prod.fst).flatten ++ rest) = some (ts.map Prod.snd, rest) := by
  induction ts with
  | nil => rfl
  | cons p ts ih =>
    have hp := h p List.mem_cons_self
    have hts := ih fun q hq => h q (List.mem_cons_of_mem _ hq)
    simp only [List.length_cons, many, List.map_cons, List.flatten_cons, List.append_assoc, hp, hts, Option.bind_eq_bind,
      Option.bind_some, Option.pure_def]

theorem reads_list {ts : List (List UInt8 × V)} (hlen : ts.length < 2 ^ 64) (h : ∀ p ∈ ts, Reads B n p.1 p.2) :
    Reads B (n + 1) (writeList (ts.map Prod.fst)) (B.list (ts.map Prod.snd)) := by
  intro rest
  have hh := @head_writeHead 4 _ (by decide) hlen ((ts.map Prod.fst).flatten ++ rest)
  rw [← List.append_assoc] at hh
  rw [writeList, List.length_map, item, hh, Option.bind_some, if_pos rfl, many_flatten rest h]
  rfl

theorem reads_map {es : List ((List UInt8 × V) × (List UInt8 × V))} (hlen : es.length < 2 ^ 64)
    (h : ∀ e ∈ es, Reads B n e.1.1 e.1.2 ∧ Reads B n e.2.1 e.2.2) :
    Reads B (n + 1) (writeMap (es.map fun e => (e.1.1, e.2.1))) (B.map (es.map fun e => (e.1.2, e.2.2))) := by
  intro rest
  have hentry : ∀ p ∈ es.map fun e => (e.1.1 ++ e.2.1, (e.1.2, e.2.2)), ∀ rest,
      entry (item B n) (p.1 ++ rest) = some (p.2, rest) := by
    intro p hp rest
    obtain ⟨e, he, rfl⟩ := List.mem_map.1 hp
    simp only [entry, List.append_assoc, (h e he).1 _, (h e he).2 _, Option.bind_eq_bind, Option.bind_some, Option.pure_def]
  have hmany := many_flatten rest hentry
  simp only [List.length_map, List.map_map, Function.comp_def] at hmany
  have hh := @head_writeHead 5 _ (by decide) hlen ((es.map fun e => e.1.1 ++ e.2.1).flatten ++ rest)
  rw [← List.append_assoc] at hh
  simp only [writeMap, List.length_map, List.map_map, Function.comp_def]
  rw [item, hh, Option.bind_some, if_neg (show ¬ 5 = 4 by decide), if_pos rfl, hmany]
  rfl

theorem read_reads {t : List UInt8} {v : V} (h : Reads B n t v) : read B n t = some v := by
  have := h []
  rw [List.append_nil] at this
  rw [read, this]

end Rules

end Cbor
