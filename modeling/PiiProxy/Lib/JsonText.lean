import Mathlib.Algebra.Group.Nat.Defs
import Mathlib.Data.List.Basic
import Mathlib.Data.Nat.Notation

/-!
# JSON texts

A reader of JSON texts over code points, as the scanner of Python's `json` reads them, and
the strings a writer such as `serde_json` escapes. `Reads B n t v` says that the text `t` is
read as `v` wherever it stands, nested at most `n` deep; the rules for it follow the grammar.

* `reads_quote`, `reads_nat`, `reads_list`, `reads_dict` — the rules
* `read_reads` — a text that is one value
-/

namespace JsonText

/-- How the reader makes its values. -/
structure Build (V : Type) where
  null : V
  bool : Bool → V
  int : Int → V
  /-- A number with a fraction or an exponent, by its text. -/
  float : List Nat → V
  str : List Nat → V
  list : List V → V
  /-- The members, in order. -/
  dict : List (List Nat × V) → V

variable {V : Type}

/-! ## The reader -/

def isWs (c : Nat) : Bool := c == 32 || c == 9 || c == 10 || c == 13

def skipWs (s : List Nat) : List Nat := s.dropWhile isWs

def isDigit (c : Nat) : Bool := 48 ≤ c && c ≤ 57

def hexValue (c : Nat) : Option Nat :=
  if isDigit c then some (c - 48)
  else if 97 ≤ c && c ≤ 102 then some (c - 87)
  else if 65 ≤ c && c ≤ 70 then some (c - 55)
  else none

def hex4 (a b c d : Nat) : Option Nat := do
  let a ← hexValue a
  let b ← hexValue b
  let c ← hexValue c
  let d ← hexValue d
  return ((a * 16 + b) * 16 + c) * 16 + d

/-- The character after a backslash, but for `u`. -/
def unescape (c : Nat) : Option Nat :=
  if c == 34 || c == 92 || c == 47 then some c
  else if c == 98 then some 8
  else if c == 102 then some 12
  else if c == 110 then some 10
  else if c == 114 then some 13
  else if c == 116 then some 9
  else none

/-- The units of a string up to its closing quote, each with whether it is written `\uXXXX`. -/
def chars : List Nat → Option (List (Nat × Bool) × List Nat)
  | [] => none
  | c :: s =>
    if c = 34 then some ([], s)
    else if c = 92 then
      match s with
      | [] => none
      | e :: s =>
        if e = 117 then
          match s with
          | a :: b :: c :: d :: s => do
            let u ← hex4 a b c d
            let (us, rest) ← chars s
            return ((u, true) :: us, rest)
          | _ => none
        else do
          let u ← unescape e
          let (us, rest) ← chars s
          return ((u, false) :: us, rest)
    else if c < 32 then none
    else do
      let (us, rest) ← chars s
      return ((c, false) :: us, rest)

def isHigh (u : Nat) : Bool := 0xD800 ≤ u && u ≤ 0xDBFF

def isLow (u : Nat) : Bool := 0xDC00 ≤ u && u ≤ 0xDFFF

/-- Two escapes that are a surrogate pair make one code point. -/
def pairUp (u : Nat × Bool) (us : List (Nat × Bool)) : List (Nat × Bool) :=
  match us with
  | [] => [u]
  | l :: us' =>
    if u.2 && l.2 && isHigh u.1 && isLow l.1 then (0x10000 + (u.1 - 0xD800) * 1024 + (l.1 - 0xDC00), false) :: us'
    else u :: us

/-- A string after its opening quote. -/
def string (s : List Nat) : Option (List Nat × List Nat) :=
  (chars s).map fun p => ((p.1.foldr pairUp []).map Prod.fst, p.2)

def digitsValue (ds : List Nat) : Nat := ds.foldl (fun n d => 10 * n + (d - 48)) 0

/-- A zero, or digits that start with no zero. -/
def intPart : List Nat → Option (List Nat × List Nat)
  | [] => none
  | c :: s =>
    if c = 48 then some ([48], s)
    else if isDigit c then some (c :: s.takeWhile isDigit, s.dropWhile isDigit)
    else none

def fracPart (s : List Nat) : List Nat × List Nat :=
  match s with
  | [] => ([], s)
  | c :: s' => if c = 46 ∧ s'.takeWhile isDigit ≠ [] then (c :: s'.takeWhile isDigit, s'.dropWhile isDigit) else ([], s)

def signPart : List Nat → List Nat × List Nat
  | [] => ([], [])
  | c :: s => if c = 43 ∨ c = 45 then ([c], s) else ([], c :: s)

def expPart (s : List Nat) : List Nat × List Nat :=
  match s with
  | [] => ([], s)
  | c :: s' =>
    let (sign, ds) := signPart s'
    if (c = 101 ∨ c = 69) ∧ ds.takeWhile isDigit ≠ [] then (c :: sign ++ ds.takeWhile isDigit, ds.dropWhile isDigit)
    else ([], s)

/-- The digits `int` turns into a number, at most (`sys.int_info.default_max_str_digits`). -/
def maxDigits : Nat := 4300

def unsigned (B : Build V) (negative : Bool) (s : List Nat) : Option (V × List Nat) := do
  let (ds, s) ← intPart s
  let (frac, s) := fracPart s
  let (exp, s) := expPart s
  if frac = [] ∧ exp = [] then
    if ds.length ≤ maxDigits then
      return (B.int (if negative then -(digitsValue ds : Int) else digitsValue ds), s)
    else none
  else return (B.float ((if negative then [45] else []) ++ ds ++ frac ++ exp), s)

def number (B : Build V) (s : List Nat) : Option (V × List Nat) :=
  match s with
  | [] => none
  | c :: s' => if c = 45 then unsigned B true s' else unsigned B false s

/-- A word that must stand at the front. -/
def word (w : List Nat) (v : V) (s : List Nat) : Option (V × List Nat) :=
  if w <+: s then some (v, s.drop w.length) else none

/-- A value that is no list and no object. -/
def scalar (B : Build V) (s : List Nat) : Option (V × List Nat) :=
  match s with
  | [] => none
  | c :: s' =>
    if c = 34 then (string s').map fun p => (B.str p.1, p.2)
    else if c = 110 then word [110, 117, 108, 108] B.null s
    else if c = 116 then word [116, 114, 117, 101] (B.bool true) s
    else if c = 102 then word [102, 97, 108, 115, 101] (B.bool false) s
    else number B s

/-- Items with commas between them, up to `close`. -/
def items {α : Type} (item : List Nat → Option (α × List Nat)) (close : Nat) :
    Nat → List Nat → Option (List α × List Nat)
  | 0, _ => none
  | n + 1, s => do
    let (a, s) ← item s
    match skipWs s with
    | [] => none
    | c :: s =>
      if c = 44 then do
        let (as, s) ← items item close n (skipWs s)
        return (a :: as, s)
      else if c = close then return ([a], s)
      else none

def member (val : List Nat → Option (V × List Nat)) (s : List Nat) : Option ((List Nat × V) × List Nat) :=
  match s with
  | [] => none
  | q :: s =>
    if q = 34 then do
      let (k, s) ← string s
      match skipWs s with
      | [] => none
      | c :: s =>
        if c = 58 then do
          let (v, s) ← val (skipWs s)
          return ((k, v), s)
        else none
    else none

/-- What stands between brackets: nothing, or items. -/
def bracketed {α : Type} (item : List Nat → Option (α × List Nat)) (close : Nat) (s : List Nat) :
    Option (List α × List Nat) :=
  match skipWs s with
  | [] => none
  | c :: s' => if c = close then some ([], s') else items item close (c :: s').length (c :: s')

/-- A value at the front of a text, nested at most `n` deep. -/
def value (B : Build V) : Nat → List Nat → Option (V × List Nat)
  | 0, s => scalar B s
  | n + 1, s =>
    match s with
    | [] => none
    | c :: s' =>
      if c = 91 then (bracketed (value B n) 93 s').map fun p => (B.list p.1, p.2)
      else if c = 123 then (bracketed (member (value B n)) 125 s').map fun p => (B.dict p.1, p.2)
      else scalar B s

/-- A text that is one value, with white space around it. -/
def read (B : Build V) (n : Nat) (s : List Nat) : Option V :=
  match value B n (skipWs s) with
  | some (v, rest) => if skipWs rest = [] then some v else none
  | none => none

/-! ## The writer -/

def hexChar (n : Nat) : Char := if n < 10 then Char.ofNat (48 + n) else Char.ofNat (87 + n)

/-- A character of a string: quotes, backslashes and what is below the space are written escaped. -/
def escape (c : Char) : List Char :=
  if c = '"' then ['\\', '"']
  else if c = '\\' then ['\\', '\\']
  else if c.toNat = 8 then ['\\', 'b']
  else if c.toNat = 9 then ['\\', 't']
  else if c.toNat = 10 then ['\\', 'n']
  else if c.toNat = 12 then ['\\', 'f']
  else if c.toNat = 13 then ['\\', 'r']
  else if c.toNat < 32 then ['\\', 'u', '0', '0', hexChar (c.toNat / 16), hexChar (c.toNat % 16)]
  else [c]

def quote (s : List Char) : List Char := '"' :: (s.flatMap escape ++ ['"'])

theorem hexChar_ge : ∀ n < 16, 32 ≤ (hexChar n).toNat := by decide

/-- What is written of a string is printable. -/
theorem escape_ge {c c' : Char} (h : c' ∈ escape c) : 32 ≤ c'.toNat := by
  unfold escape at h
  split_ifs at h with h1 h2 h3 h4 h5 h6 h7 h8
  all_goals simp only [List.mem_cons, List.not_mem_nil, or_false] at h
  iterate 7
    · rcases h with rfl | rfl <;> decide
  · rcases h with rfl | rfl | rfl | rfl | rfl | rfl
    · decide
    · decide
    · decide
    · decide
    · exact hexChar_ge _ (by omega)
    · exact hexChar_ge _ (by omega)
  · subst h
    omega

theorem quote_ge {s : List Char} {c : Char} (h : c ∈ quote s) : 32 ≤ c.toNat := by
  simp only [quote, List.mem_cons, List.mem_append, List.mem_flatMap, List.not_mem_nil, or_false] at h
  rcases h with rfl | ⟨c', -, h⟩ | rfl
  · decide
  · exact escape_ge h
  · decide

/-- A string without quotes, backslashes and control characters is written as it is. -/
theorem flatMap_escape {s : List Char} (h : ∀ c ∈ s, c ≠ '"' ∧ c ≠ '\\' ∧ 32 ≤ c.toNat) : s.flatMap escape = s := by
  induction s with
  | nil => rfl
  | cons c s ih =>
    obtain ⟨hq, hb, hp⟩ := h c List.mem_cons_self
    have hc : escape c = [c] := by
      rw [escape, if_neg hq, if_neg hb]
      repeat rw [if_neg (by omega)]
    rw [List.flatMap_cons, hc, ih fun x hx => h x (List.mem_cons_of_mem _ hx)]
    rfl

/-- Texts with a comma, and `gap` after it, between them. -/
def commaJoin (gap : List Nat) : List (List Nat) → List Nat
  | [] => []
  | [t] => t
  | t :: ts => t ++ 44 :: (gap ++ commaJoin gap ts)

/-! ## Strings -/

section Strings

variable {c : Char} {s : List Char} {rest : List Nat}

/-- The code points of a text. -/
def codes (s : List Char) : List Nat := s.map Char.toNat

theorem hexValue_hexChar : ∀ n < 16, hexValue (hexChar n).toNat = some n := by decide

theorem chars_close : chars (34 :: rest) = some ([], rest) := by
  rw [chars.eq_def]
  rfl

theorem chars_plain {u : Nat} (hq : u ≠ 34) (hb : u ≠ 92) (hs : 32 ≤ u) :
    chars (u :: rest) = (chars rest).map fun p => ((u, false) :: p.1, p.2) := by
  rw [chars.eq_def]
  simp only [if_neg hq, if_neg hb, if_neg (Nat.not_lt.2 hs)]
  cases chars rest <;> rfl

theorem chars_short {e u : Nat} (he : e ≠ 117) (hu : unescape e = some u) :
    chars (92 :: e :: rest) = (chars rest).map fun p => ((u, false) :: p.1, p.2) := by
  rw [chars.eq_def]
  simp only [Nat.reduceEqDiff, if_false, if_true, if_neg he, hu]
  cases chars rest <;> rfl

theorem chars_long {a b c d u : Nat} (hu : hex4 a b c d = some u) :
    chars (92 :: 117 :: a :: b :: c :: d :: rest) = (chars rest).map fun p => ((u, true) :: p.1, p.2) := by
  rw [chars.eq_def]
  simp only [Nat.reduceEqDiff, if_false, if_true, hu]
  cases chars rest <;> rfl

/-- A written character is read as one unit. -/
theorem chars_escape (c : Char) (rest : List Nat) : ∃ long,
    chars (codes (escape c) ++ rest) = (chars rest).map fun p => ((c.toNat, long) :: p.1, p.2) := by
  unfold escape
  split_ifs with h1 h2 h3 h4 h5 h6 h7 h8
  · subst h1
    exact ⟨false, chars_short (by decide) (by decide)⟩
  · subst h2
    exact ⟨false, chars_short (by decide) (by decide)⟩
  · exact ⟨false, h3 ▸ chars_short (by decide) (by decide)⟩
  · exact ⟨false, h4 ▸ chars_short (by decide) (by decide)⟩
  · exact ⟨false, h5 ▸ chars_short (by decide) (by decide)⟩
  · exact ⟨false, h6 ▸ chars_short (by decide) (by decide)⟩
  · exact ⟨false, h7 ▸ chars_short (by decide) (by decide)⟩
  · have hx := hexValue_hexChar (c.toNat / 16) (by omega)
    have hy := hexValue_hexChar (c.toNat % 16) (by omega)
    have hz : hexValue 48 = some 0 := by decide
    have hu : hex4 48 48 (hexChar (c.toNat / 16)).toNat (hexChar (c.toNat % 16)).toNat = some c.toNat := by
      simp only [hex4, hx, hy, hz, Option.bind_eq_bind, Option.bind_some, Option.pure_def, Option.some.injEq]
      omega
    exact ⟨true, chars_long hu⟩
  · have hq : c.toNat ≠ 34 := fun h => h1 (Char.toNat_inj.1 h)
    have hb : c.toNat ≠ 92 := fun h => h2 (Char.toNat_inj.1 h)
    exact ⟨false, chars_plain hq hb (by omega)⟩

/-- A written string is read as its characters. -/
theorem chars_flatMap (s : List Char) (rest : List Nat) : ∃ us,
    chars (codes (s.flatMap escape) ++ 34 :: rest) = some (us, rest) ∧ us.map Prod.fst = codes s := by
  induction s with
  | nil => exact ⟨[], chars_close, rfl⟩
  | cons c s ih =>
    obtain ⟨us, hus, hmap⟩ := ih
    obtain ⟨long, hc⟩ := chars_escape c (codes (s.flatMap escape) ++ 34 :: rest)
    refine ⟨(c.toNat, long) :: us, ?_, ?_⟩
    · rw [List.flatMap_cons, codes, List.map_append, List.append_assoc]
      exact hc.trans (by rw [hus]; rfl)
    · rw [List.map_cons, hmap]
      rfl

/-- No unit of a Rust string is half of a surrogate pair. -/
theorem not_isHigh (c : Char) : isHigh c.toNat = false := by
  have hv := c.valid
  simp only [isHigh, Bool.and_eq_false_iff, decide_eq_false_iff_not]
  rcases hv with h | ⟨h, -⟩
  · exact .inl (by simp only [Char.toNat]; omega)
  · exact .inr (by simp only [Char.toNat]; omega)

theorem foldr_pairUp {us : List (Nat × Bool)} (h : ∀ u ∈ us, isHigh u.1 = false) : us.foldr pairUp [] = us := by
  induction us with
  | nil => rfl
  | cons u us ih =>
    rw [List.foldr_cons, ih fun v hv => h v (List.mem_cons_of_mem _ hv)]
    unfold pairUp
    cases us with
    | nil => rfl
    | cons l us => simp [h u List.mem_cons_self]

theorem string_quote (s : List Char) (rest : List Nat) :
    string (codes (s.flatMap escape) ++ 34 :: rest) = some (codes s, rest) := by
  obtain ⟨us, hus, hmap⟩ := chars_flatMap s rest
  have hlow : ∀ u ∈ us, isHigh u.1 = false := by
    intro u hu
    have hm : u.1 ∈ codes s := hmap ▸ List.mem_map_of_mem hu
    obtain ⟨c, -, hc⟩ := List.mem_map.1 hm
    rw [← hc]
    exact not_isHigh c
  rw [string, hus, Option.map_some, foldr_pairUp hlow, hmap]

end Strings

/-! ## Numbers -/

section Numbers

variable {B : Build V} {rest : List Nat}

/-- What follows goes on with no number. -/
def Stops (rest : List Nat) : Prop := ∀ c, rest.head? = some c → isDigit c = false ∧ c ≠ 46 ∧ c ≠ 101 ∧ c ≠ 69

theorem stops_nil : Stops [] := by simp [Stops]

theorem stops_cons {c : Nat} (h : isDigit c = false ∧ c ≠ 46 ∧ c ≠ 101 ∧ c ≠ 69) : Stops (c :: rest) := by
  intro d hd
  cases hd
  exact h

theorem fracPart_stops (h : Stops rest) : fracPart rest = ([], rest) := by
  cases rest with
  | nil => rfl
  | cons c rest => simp [fracPart, (h c rfl).2.1]

theorem expPart_stops (h : Stops rest) : expPart rest = ([], rest) := by
  cases rest with
  | nil => rfl
  | cons c rest => simp [expPart, (h c rfl).2.2]

def natText (n : Nat) : List Nat := codes (Nat.toDigits 10 n)

theorem isDigit_natText {n d : Nat} (h : d ∈ natText n) : isDigit d = true := by
  obtain ⟨c, hc, rfl⟩ := List.mem_map.1 h
  have hd := Nat.isDigit_of_mem_toDigits (b := 10) (by decide) (by decide) hc
  simp only [Char.isDigit, Bool.and_eq_true, decide_eq_true_eq, UInt32.le_iff_toNat_le] at hd
  simp only [isDigit, Bool.and_eq_true, decide_eq_true_eq]
  exact hd

theorem digitsValue_natText (n : Nat) : digitsValue (natText n) = n := by
  have h := @Nat.ofDigitChars_ten_toDigits n
  rw [Nat.ofDigitChars_eq_foldl] at h
  rw [digitsValue, natText, codes, List.foldl_map]
  exact h

/-- A number but zero starts with no zero. -/
theorem natText_head {n : Nat} (h : n ≠ 0) : ∃ d ds, natText n = d :: ds ∧ d ≠ 48 := by
  induction n using Nat.strongRecOn with
  | ind n ih =>
    by_cases hn : n < 10
    · refine ⟨n.digitChar.toNat, [], ?_, ?_⟩
      · rw [natText, Nat.toDigits_of_lt_base hn]
        rfl
      · rw [Nat.toNat_digitChar_of_lt_ten hn]
        omega
    · obtain ⟨d, ds, hd, hne⟩ := ih (n / 10) (by omega) (by omega)
      refine ⟨d, ds ++ [(n % 10).digitChar.toNat], ?_, hne⟩
      rw [natText, Nat.toDigits_of_base_le (by decide) (by omega), codes, List.map_append]
      exact congrArg (· ++ [(n % 10).digitChar.toNat]) hd

theorem dropWhile_digits (ds : List Nat) (hds : ∀ d ∈ ds, isDigit d = true) (h : Stops rest) :
    (ds ++ rest).takeWhile isDigit = ds ∧ (ds ++ rest).dropWhile isDigit = rest := by
  rw [List.takeWhile_append_of_pos hds, List.dropWhile_append_of_pos hds]
  cases rest with
  | nil => simp
  | cons c rest => simp [(h c rfl).1]

theorem intPart_natText (n : Nat) (h : Stops rest) : intPart (natText n ++ rest) = some (natText n, rest) := by
  by_cases hn : n = 0
  · subst hn
    rfl
  · obtain ⟨d, ds, hd, hne⟩ := natText_head hn
    have hdig : ∀ x ∈ d :: ds, isDigit x = true := fun x hx => isDigit_natText (hd ▸ hx)
    obtain ⟨htake, hdrop⟩ := dropWhile_digits ds (fun x hx => hdig x (List.mem_cons_of_mem _ hx)) h
    rw [hd, List.cons_append, intPart, if_neg hne, if_pos (hdig d List.mem_cons_self), htake, hdrop]

theorem length_natText_le {n : Nat} (h : n < 10 ^ maxDigits) : (natText n).length ≤ maxDigits := by
  rw [natText, codes, List.length_map]
  exact (Nat.length_toDigits_le_iff (by decide) (by decide)).2 h

theorem scalar_natText {n : Nat} (hn : n < 10 ^ maxDigits) (h : Stops rest) :
    scalar B (natText n ++ rest) = some (B.int n, rest) := by
  have hun : unsigned B false (natText n ++ rest) = some (B.int n, rest) := by
    simp only [unsigned, intPart_natText n h, fracPart_stops h, expPart_stops h, digitsValue_natText,
      if_pos (length_natText_le hn), Option.bind_eq_bind, Option.bind_some]
    rfl
  obtain ⟨d, ds, hd⟩ : ∃ d ds, natText n = d :: ds :=
    List.exists_cons_of_ne_nil (by simp [natText, codes])
  have hdig : isDigit d = true := isDigit_natText (n := n) (hd ▸ List.mem_cons_self)
  simp only [isDigit, Bool.and_eq_true, decide_eq_true_eq] at hdig
  rw [hd, List.cons_append] at hun ⊢
  rw [scalar, if_neg (by omega), if_neg (by omega), if_neg (by omega), if_neg (by omega), number, if_neg (by omega), hun]

end Numbers

/-! ## The rules -/

section Rules

variable {α : Type} {B : Build V} {n : Nat} {t rest gap : List Nat} {v : V}

/-- A text that starts with no white space. -/
def Solid (t : List Nat) : Prop := ∃ c s, t = c :: s ∧ isWs c = false

/-- White space. -/
def Blank (gap : List Nat) : Prop := ∀ c ∈ gap, isWs c = true

/-- The text `t` is read as `v` wherever it stands. -/
structure Reads (B : Build V) (n : Nat) (t : List Nat) (v : V) : Prop where
  solid : Solid t
  value : ∀ rest, Stops rest → value B n (t ++ rest) = some (v, rest)

theorem skipWs_solid (h : Solid t) : skipWs (t ++ rest) = t ++ rest := by
  obtain ⟨c, s, rfl, hc⟩ := h
  simp [skipWs, hc]

theorem skipWs_gap (hg : Blank gap) (h : Solid t) : skipWs (gap ++ (t ++ rest)) = t ++ rest := by
  rw [skipWs, List.dropWhile_append_of_pos hg]
  exact skipWs_solid h

theorem solid_singleton {c : Nat} (h : isWs c = false) : Solid [c] := ⟨c, [], rfl, h⟩

theorem value_scalar {c : Nat} {s : List Nat} (hl : c ≠ 91) (ho : c ≠ 123) : value B n (c :: s) = scalar B (c :: s) := by
  cases n with
  | zero => rfl
  | succ n => rw [value, if_neg hl, if_neg ho]

theorem codes_quote (s : List Char) (rest : List Nat) :
    codes (quote s) ++ rest = 34 :: (codes (s.flatMap escape) ++ 34 :: rest) := by
  simp [codes, quote]

theorem reads_quote (B : Build V) (n : Nat) (s : List Char) : Reads B n (codes (quote s)) (B.str (codes s)) where
  solid := ⟨34, _, rfl, by decide⟩
  value rest _ := by
    rw [codes_quote, value_scalar (by decide) (by decide), scalar, if_pos rfl, string_quote]
    rfl

theorem reads_nat (B : Build V) (n : Nat) {k : Nat} (hk : k < 10 ^ maxDigits) : Reads B n (natText k) (B.int k) := by
  obtain ⟨d, ds, hd⟩ : ∃ d ds, natText k = d :: ds :=
    List.exists_cons_of_ne_nil (by simp [natText, codes])
  have hdig : isDigit d = true := isDigit_natText (n := k) (hd ▸ List.mem_cons_self)
  simp only [isDigit, Bool.and_eq_true, decide_eq_true_eq] at hdig
  refine ⟨⟨d, ds, hd, ?_⟩, fun rest hr => ?_⟩
  · simp only [isWs, Bool.or_eq_false_iff, beq_eq_false_iff_ne]
    omega
  · rw [← scalar_natText hk hr, hd, List.cons_append, value_scalar (by omega) (by omega)]

/-- Items that are each read wherever they stand are read one after the other. -/
theorem items_commaJoin {item : List Nat → Option (α × List Nat)} {close : Nat} (hg : Blank gap)
    (hclose : isWs close = false ∧ close ≠ 44 ∧ Stops (close :: rest)) :
    ∀ {ts : List (List Nat × α)} {k : Nat}, ts ≠ [] → ts.length ≤ k →
      (∀ p ∈ ts, Solid p.1 ∧ ∀ rest, Stops rest → item (p.1 ++ rest) = some (p.2, rest)) →
      items item close k (commaJoin gap (ts.map Prod.fst) ++ close :: rest) = some (ts.map Prod.snd, rest) := by
  intro ts
  induction ts with
  | nil => intro k hne; exact absurd rfl hne
  | cons p ts ih =>
    intro k _ hk hts
    obtain ⟨k, rfl⟩ := Nat.exists_eq_succ_of_ne_zero (Nat.ne_of_gt (Nat.lt_of_lt_of_le (Nat.succ_pos _) hk))
    obtain ⟨-, hp⟩ := hts p List.mem_cons_self
    cases ts with
    | nil =>
      have hskip : skipWs (close :: rest) = close :: rest := skipWs_solid (solid_singleton hclose.1)
      simp only [List.map_cons, List.map_nil, commaJoin, items, hp _ hclose.2.2, hskip, Option.bind_eq_bind,
        Option.bind_some, if_neg hclose.2.1, if_true]
      rfl
    | cons q ts =>
      have hsolid : ∃ u, commaJoin gap ((q :: ts).map Prod.fst) = q.1 ++ u := by
        cases ts with
        | nil => exact ⟨[], by simp [commaJoin]⟩
        | cons r ts => exact ⟨_, rfl⟩
      obtain ⟨u, hu⟩ := hsolid
      have hq := (hts q (by simp)).1
      have hih := ih (List.cons_ne_nil _ _) (Nat.le_of_succ_le_succ hk) fun x hx => hts x (List.mem_cons_of_mem _ hx)
      have hcomma : Stops (44 :: (gap ++ commaJoin gap ((q :: ts).map Prod.fst) ++ close :: rest)) :=
        stops_cons (by decide)
      have hskip : skipWs (44 :: (gap ++ commaJoin gap ((q :: ts).map Prod.fst) ++ close :: rest)) =
          44 :: (gap ++ commaJoin gap ((q :: ts).map Prod.fst) ++ close :: rest) :=
        skipWs_solid (t := [44]) (solid_singleton (by decide))
      have hgap : skipWs (gap ++ commaJoin gap ((q :: ts).map Prod.fst) ++ close :: rest) =
          commaJoin gap ((q :: ts).map Prod.fst) ++ close :: rest := by
        rw [hu, List.append_assoc, List.append_assoc]
        exact skipWs_gap hg hq
      have hjoin : commaJoin gap ((p :: q :: ts).map Prod.fst) ++ close :: rest =
          p.1 ++ 44 :: (gap ++ commaJoin gap ((q :: ts).map Prod.fst) ++ close :: rest) := by
        simp [commaJoin]
      rw [hjoin, items, hp _ hcomma]
      simp only [Option.bind_eq_bind, Option.bind_some, hskip, if_true, hgap, hih]
      rfl

theorem length_le_commaJoin : ∀ {ts : List (List Nat)}, (∀ t ∈ ts, Solid t) → ts.length ≤ (commaJoin gap ts).length := by
  intro ts
  induction ts with
  | nil => intro _; exact Nat.zero_le _
  | cons t ts ih =>
    intro h
    have hts := ih fun x hx => h x (List.mem_cons_of_mem _ hx)
    obtain ⟨c, s, rfl, -⟩ := h t List.mem_cons_self
    cases ts with
    | nil => simp [commaJoin]
    | cons u ts =>
      simp only [commaJoin, List.length_append, List.length_cons] at hts ⊢
      omega

theorem bracketed_commaJoin {item : List Nat → Option (α × List Nat)} {close : Nat} {ts : List (List Nat × α)}
    (hg : Blank gap) (hclose : isWs close = false ∧ close ≠ 44 ∧ Stops (close :: rest))
    (hts : ∀ p ∈ ts, Solid p.1 ∧ p.1.head? ≠ some close ∧ ∀ rest, Stops rest → item (p.1 ++ rest) = some (p.2, rest)) :
    bracketed item close (commaJoin gap (ts.map Prod.fst) ++ close :: rest) = some (ts.map Prod.snd, rest) := by
  cases ts with
  | nil =>
    have hskip : skipWs (close :: rest) = close :: rest := skipWs_solid (solid_singleton hclose.1)
    simp [commaJoin, bracketed, hskip]
  | cons p ts =>
    obtain ⟨hsolid, hhead, -⟩ := hts p List.mem_cons_self
    obtain ⟨u, hu⟩ : ∃ u, commaJoin gap ((p :: ts).map Prod.fst) = p.1 ++ u := by
      cases ts with
      | nil => exact ⟨[], by simp [commaJoin]⟩
      | cons q ts => exact ⟨_, rfl⟩
    have hlen : (p :: ts).length ≤ (commaJoin gap ((p :: ts).map Prod.fst) ++ close :: rest).length := by
      have h := @length_le_commaJoin gap ((p :: ts).map Prod.fst) fun t ht => by
        obtain ⟨x, hx, rfl⟩ := List.mem_map.1 ht
        exact (hts x hx).1
      rw [List.length_map] at h
      rw [List.length_append]
      omega
    have hitems := items_commaJoin hg hclose (List.cons_ne_nil p ts) hlen fun x hx => ⟨(hts x hx).1, (hts x hx).2.2⟩
    obtain ⟨c, s, hc, hws⟩ := hsolid
    have hstart : commaJoin gap ((p :: ts).map Prod.fst) ++ close :: rest = c :: (s ++ u ++ close :: rest) := by
      rw [hu, hc]
      simp
    rw [hstart] at hitems ⊢
    have hskip : skipWs (c :: (s ++ u ++ close :: rest)) = c :: (s ++ u ++ close :: rest) :=
      skipWs_solid (t := [c]) (solid_singleton hws)
    have hne : c ≠ close := by
      intro h
      rw [hc] at hhead
      exact hhead (by rw [h]; rfl)
    rw [bracketed, hskip]
    simp only [if_neg hne]
    exact hitems

def listText (gap : List Nat) (ts : List (List Nat)) : List Nat := 91 :: (commaJoin gap ts ++ [93])

theorem reads_list {ts : List (List Nat × V)} (hg : Blank gap) (hts : ∀ p ∈ ts, Reads B n p.1 p.2 ∧ p.1.head? ≠ some 93) :
    Reads B (n + 1) (listText gap (ts.map Prod.fst)) (B.list (ts.map Prod.snd)) where
  solid := ⟨91, _, rfl, by decide⟩
  value rest _ := by
    have hb := @bracketed_commaJoin V rest gap (value B n) 93 ts hg ⟨by decide, by decide, stops_cons (by decide)⟩
      fun p hp => ⟨(hts p hp).1.solid, (hts p hp).2, (hts p hp).1.value⟩
    rw [listText, List.cons_append, List.append_assoc, List.singleton_append, value, if_pos rfl, hb]
    rfl

/-- A member of an object: key, colon, `gap`, value. -/
def memberText (gap : List Nat) (k : List Char) (t : List Nat) : List Nat := codes (quote k) ++ 58 :: (gap ++ t)

theorem member_memberText {k : List Char} (hg : Blank gap) (h : Reads B n t v) (hr : Stops rest) :
    member (value B n) (memberText gap k t ++ rest) = some ((codes k, v), rest) := by
  have hskip : skipWs (58 :: (gap ++ t ++ rest)) = 58 :: (gap ++ t ++ rest) :=
    skipWs_solid (t := [58]) (solid_singleton (by decide))
  have hgap : skipWs (gap ++ t ++ rest) = t ++ rest := by
    rw [List.append_assoc]
    exact skipWs_gap hg h.solid
  have htext : memberText gap k t ++ rest = 34 :: (codes (k.flatMap escape) ++ 34 :: 58 :: (gap ++ t ++ rest)) := by
    rw [memberText, List.append_assoc, codes_quote]
    simp
  rw [htext, member, if_pos rfl, string_quote]
  simp only [Option.bind_eq_bind, Option.bind_some, hskip, if_true, hgap, h.value rest hr]
  rfl

def dictText (gap : List Nat) (ms : List (List Char × List Nat)) : List Nat :=
  123 :: (commaJoin gap (ms.map fun m => memberText gap m.1 m.2) ++ [125])

/-- An object ends with its brace, so that it is read whatever follows. -/
theorem value_dict {ms : List (List Char × List Nat × V)} (hg : Blank gap) (hms : ∀ m ∈ ms, Reads B n m.2.1 m.2.2)
    (rest : List Nat) : value B (n + 1) (dictText gap (ms.map fun m => (m.1, m.2.1)) ++ rest) =
      some (B.dict (ms.map fun m => (codes m.1, m.2.2)), rest) := by
  have hb := @bracketed_commaJoin (List Nat × V) rest gap (member (value B n)) 125
    (ms.map fun m => (memberText gap m.1 m.2.1, codes m.1, m.2.2)) hg
    ⟨by decide, by decide, stops_cons (by decide)⟩ (by
      intro p hp
      obtain ⟨m, hm, rfl⟩ := List.mem_map.1 hp
      exact ⟨⟨34, _, rfl, by decide⟩, by simp [memberText, codes, quote], fun rest hr => member_memberText hg (hms m hm) hr⟩)
  simp only [List.map_map, Function.comp_def] at hb
  simp only [dictText, List.map_map, Function.comp_def]
  rw [List.cons_append, List.append_assoc, List.singleton_append, value, if_neg (by decide), if_pos rfl, hb]
  rfl

theorem reads_dict {ms : List (List Char × List Nat × V)} (hg : Blank gap) (hms : ∀ m ∈ ms, Reads B n m.2.1 m.2.2) :
    Reads B (n + 1) (dictText gap (ms.map fun m => (m.1, m.2.1))) (B.dict (ms.map fun m => (codes m.1, m.2.2))) where
  solid := ⟨123, _, rfl, by decide⟩
  value rest _ := value_dict hg hms rest

/-- A text that is one value, and nothing else, is read as it. -/
theorem read_reads (h : Reads B n t v) : read B n t = some v := by
  have hv := h.value [] stops_nil
  have hs := @skipWs_solid t [] h.solid
  rw [List.append_nil] at hv hs
  rw [read, hs, hv]
  rfl

end Rules

end JsonText
