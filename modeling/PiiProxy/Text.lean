import Mathlib.Data.List.DropRight
import PiiProxy.Base

/-!
# `str` in the configuration files and the CONNECT request

Texts are lists of characters.

| here | there |
| --- | --- |
| `isWhitespace`      | `char::is_whitespace`, the Unicode property `White_Space` |
| `trim`, `lines`     | `str::trim`, `str::lines` |
| `splitOnce`, `rsplitOnce` | `str::split_once`, `str::rsplit_once` |
| `splitCrlf`, `splitWhitespace` | `str::split("\r\n")`, `str::split_whitespace` |
| `hashKeyring`       | `hash_keyring` (main.rs:428) |

`str::split` on a set of characters is `List.splitOnP`.
-/

namespace PiiProxy

open Find (first Has)

namespace Text

def isWhitespace (c : Char) : Bool :=
  let n := c.toNat
  (0x09 ≤ n && n ≤ 0x0D) || n == 0x20 || n == 0x85 || n == 0xA0 || n == 0x1680 || (0x2000 ≤ n && n ≤ 0x200A) ||
    n == 0x2028 || n == 0x2029 || n == 0x202F || n == 0x205F || n == 0x3000

def trim (s : List Char) : List Char := (s.dropWhile isWhitespace).rdropWhile isWhitespace

/-- What stands before and after the first `c`. -/
def splitOnce (c : Char) (s : List Char) : Option (List Char × List Char) :=
  match s.span (· != c) with
  | (_, []) => none
  | (before, _ :: after) => some (before, after)

/-- What stands before and after the last `c`. -/
def rsplitOnce (c : Char) (s : List Char) : Option (List Char × List Char) :=
  (splitOnce c s.reverse).map fun (after, before) => (before.reverse, after.reverse)

def splitCrlf : List Char → List (List Char)
  | [] => [[]]
  | '\r' :: '\n' :: s => [] :: splitCrlf s
  | c :: s => (splitCrlf s).modifyHead (c :: ·)

/-- The words between runs of white space. -/
def splitWhitespace (s : List Char) : List (List Char) := (s.splitOnP isWhitespace).filter (· ≠ [])

/-- A carriage return at the end of a line that a newline ended. -/
def stripCr (line : List Char) : List Char := if line.getLast? = some '\r' then line.dropLast else line

/-- The last piece is a line only if it has characters, and keeps its carriage return. -/
def lines (s : List Char) : List (List Char) :=
  let pieces := s.splitOnP (· == '\n')
  pieces.dropLast.map stripCr ++ (pieces.getLast?.toList.filter (· ≠ []))

theorem splitOnce_cons (c x : Char) (s : List Char) : splitOnce c (x :: s) =
    if x = c then some ([], s) else (splitOnce c s).map fun (before, after) => (x :: before, after) := by
  unfold splitOnce
  simp only [List.span_eq_takeWhile_dropWhile, List.takeWhile_cons, List.dropWhile_cons]
  by_cases h : x = c
  · simp [h]
  · simp only [bne_iff_ne, ne_eq, h, not_false_eq_true, if_true, if_false]
    cases s.dropWhile (· != c) <;> rfl

theorem splitOnce_eq_some {c : Char} : ∀ {s before after : List Char},
    splitOnce c s = some (before, after) ↔ s = before ++ c :: after ∧ c ∉ before
  | [], before, after => by simp [splitOnce]
  | x :: s, before, after => by
    rw [splitOnce_cons]
    by_cases h : x = c
    · subst h
      cases before with
      | nil => simp
      | cons b before =>
        simp only [if_true, Option.some.injEq, Prod.mk.injEq, reduceCtorEq, false_and, List.cons_append,
          List.cons.injEq, List.mem_cons, not_or, false_iff]
        rintro ⟨⟨rfl, -⟩, hx, -⟩
        exact hx rfl
    · cases before with
      | nil => simp [h]
      | cons b before =>
        simp only [h, if_false, Option.map_eq_some_iff, Prod.exists, splitOnce_eq_some (s := s), Prod.mk.injEq,
          List.cons.injEq, List.cons_append, List.mem_cons, not_or]
        constructor
        · rintro ⟨a, b', ⟨hs, hc⟩, ⟨rfl, rfl⟩, rfl⟩
          exact ⟨⟨rfl, hs⟩, Ne.symm h, hc⟩
        · rintro ⟨⟨rfl, hs⟩, -, hc⟩
          exact ⟨before, after, ⟨hs, hc⟩, ⟨rfl, rfl⟩, rfl⟩

theorem rsplitOnce_eq_some {c : Char} {s before after : List Char} :
    rsplitOnce c s = some (before, after) ↔ s = before ++ c :: after ∧ c ∉ after := by
  simp only [rsplitOnce, Option.map_eq_some_iff, Prod.exists, splitOnce_eq_some, Prod.mk.injEq]
  constructor
  · rintro ⟨a, b, ⟨hs, hc⟩, rfl, rfl⟩
    refine ⟨?_, by simpa using hc⟩
    rw [← List.reverse_reverse s, hs]
    simp
  · rintro ⟨rfl, hc⟩
    exact ⟨after.reverse, before.reverse, ⟨by simp, by simpa using hc⟩, by simp, by simp⟩

/-- The first piece is what stands before the first line end. -/
theorem head?_splitCrlf : ∀ {s : List Char} {i : Nat}, first ['\r', '\n'] s = some i →
    (splitCrlf s).head? = some (s.take i) := by
  intro s
  fun_induction splitCrlf s with
  | case1 => simp [first]
  | case2 s ih => simp [first]
  | case3 c s hne ih =>
    intro i h
    have hc : ¬ ['\r', '\n'] <+: c :: s := by
      rintro ⟨t, ht⟩
      simp only [List.cons_append, List.nil_append, List.cons.injEq] at ht
      exact hne t ht.1.symm ht.2.symm
    rw [first, if_neg hc, Option.map_eq_some_iff] at h
    obtain ⟨j, hj, rfl⟩ := h
    obtain ⟨tail, hsplit⟩ := List.head?_eq_some_iff.1 (ih hj)
    simp [hsplit]

theorem trim_eq_nil {s : List Char} : trim s = [] ↔ ∀ c ∈ s, isWhitespace c = true := by
  unfold trim
  rw [List.rdropWhile_eq_nil_iff]
  constructor
  · intro h c hc
    rw [← List.takeWhile_append_dropWhile (p := isWhitespace) (l := s)] at hc
    rcases List.mem_append.1 hc with hc | hc
    · exact List.mem_takeWhile_imp hc
    · exact h c hc
  · intro h c hc
    exact h c ((List.dropWhile_suffix _).subset hc)

/-- No white space at either end. -/
structure Trimmed (s : List Char) : Prop where
  head : ∀ c ∈ s.head?, isWhitespace c = false
  last : ∀ c ∈ s.getLast?, isWhitespace c = false

instance (s : List Char) : Decidable (Trimmed s) :=
  decidable_of_iff (s.head?.all (!isWhitespace ·) = true ∧ s.getLast?.all (!isWhitespace ·) = true) <| by
    simp only [Option.all_eq_true, Bool.not_eq_true']
    exact ⟨fun ⟨hhead, hlast⟩ => ⟨hhead, hlast⟩, fun h => ⟨h.head, h.last⟩⟩

theorem dropWhile_of_head {s : List Char} (h : ∀ c ∈ s.head?, isWhitespace c = false) :
    s.dropWhile isWhitespace = s := by
  cases s with
  | nil => rfl
  | cons x s => rw [List.dropWhile_cons, h x rfl, if_neg Bool.false_ne_true]

/-- Only what surrounds a text is trimmed. -/
theorem trim_surrounded {s before after : List Char} (hs : Trimmed s) (hb : ∀ c ∈ before, isWhitespace c = true)
    (ha : ∀ c ∈ after, isWhitespace c = true) : trim (before ++ s ++ after) = s := by
  by_cases hnil : s = []
  · subst hnil
    rw [trim_eq_nil, List.append_nil]
    intro c hc
    exact (List.mem_append.1 hc).elim (hb c) (ha c)
  · have hhead : ∀ c ∈ (s ++ after).head?, isWhitespace c = false := by
      rw [List.head?_append_of_ne_nil _ hnil]
      exact hs.head
    have hlast : ∀ c ∈ s.reverse.head?, isWhitespace c = false := by
      rw [List.head?_reverse]
      exact hs.last
    rw [trim, List.append_assoc, List.dropWhile_append_of_pos hb, dropWhile_of_head hhead, List.rdropWhile,
      List.reverse_append, List.dropWhile_append_of_pos (by simpa using ha), dropWhile_of_head hlast,
      List.reverse_reverse]

theorem exists_surround (s : List Char) : ∃ before after, s = before ++ trim s ++ after ∧
    (∀ c ∈ before, isWhitespace c = true) ∧ ∀ c ∈ after, isWhitespace c = true := by
  refine ⟨s.takeWhile isWhitespace, (s.dropWhile isWhitespace).rtakeWhile isWhitespace, ?_, ?_, ?_⟩
  · rw [trim, List.append_assoc, List.rdropWhile_append_rtakeWhile, List.takeWhile_append_dropWhile]
  · intro c hc
    exact List.mem_takeWhile_imp hc
  · intro c hc
    exact List.mem_rtakeWhile_imp hc

/-- The pieces hold the characters that are not separators. -/
theorem mem_splitOnP {p : Char → Bool} {c : Char} : ∀ {s : List Char},
    (∃ piece ∈ s.splitOnP p, c ∈ piece) ↔ c ∈ s ∧ p c = false
  | [] => by simp
  | x :: s => by
    have ih := mem_splitOnP (p := p) (c := c) (s := s)
    rw [List.splitOnP_cons_eq_if_modifyHead]
    split
    · rename_i hx
      simp only [List.mem_cons, exists_eq_or_imp, List.not_mem_nil, false_or, ih]
      constructor
      · rintro ⟨hc, hp⟩
        exact ⟨.inr hc, hp⟩
      · rintro ⟨rfl | hc, hp⟩
        · rw [hx] at hp
          cases hp
        · exact ⟨hc, hp⟩
    · rename_i hx
      obtain ⟨head, tail, hsplit⟩ := List.exists_cons_of_ne_nil (List.splitOnP_ne_nil p s)
      rw [hsplit] at ih ⊢
      simp only [List.modifyHead_cons, List.mem_cons, exists_eq_or_imp] at ih ⊢
      rw [or_assoc, ih]
      constructor
      · rintro (rfl | ⟨hc, hp⟩)
        · exact ⟨.inl rfl, by simpa using hx⟩
        · exact ⟨.inr hc, hp⟩
      · rintro ⟨rfl | hc, hp⟩
        · exact .inl rfl
        · exact .inr ⟨hc, hp⟩

/-! ## ASCII in UTF-8 -/

/-- The character of an ASCII byte. -/
def ofByte (b : UInt8) : Char := Char.ofNat b.toNat

theorem eq_ofByte {c : Char} {b : UInt8} (hb : b ∈ String.utf8EncodeChar c) (h : b < 0x80) :
    String.utf8EncodeChar c = [b] ∧ c = ofByte b := by
  obtain ⟨he, hn⟩ := Utf8.encodeChar_of_ascii_mem hb h
  exact ⟨he, by rw [ofByte, ← hn, Char.ofNat_toNat]⟩

theorem prefix_of_ascii : ∀ {w : Bytes} {cs : List Char}, (∀ b ∈ w, b < 0x80) →
    w <+: cs.flatMap String.utf8EncodeChar → w.map ofByte <+: cs
  | [], _, _, _ => by simp
  | b :: w, [], _, h => by simp at h
  | b :: w, c :: cs, hw, h => by
    obtain ⟨x, xs, hx⟩ := List.exists_cons_of_ne_nil (String.utf8EncodeChar_ne_nil (c := c))
    rw [List.flatMap_cons, hx, List.cons_append, List.cons_prefix_cons] at h
    obtain ⟨rfl, h⟩ := h
    obtain ⟨he, rfl⟩ := eq_ofByte (c := c) (b := b) (by simp [hx]) (hw b (by simp))
    obtain ⟨-, rfl⟩ := List.cons.inj (hx.symm.trans he)
    rw [List.map_cons, List.cons_prefix_cons]
    exact ⟨rfl, prefix_of_ascii (fun x hx => hw x (List.mem_cons_of_mem _ hx)) h⟩

/-- **An ASCII word in the bytes of a text is one in its characters.** -/
theorem has_of_ascii {w : Bytes} (hw : ∀ b ∈ w, b < 0x80) (hne : w ≠ []) : ∀ {cs : List Char},
    Has w (cs.flatMap String.utf8EncodeChar) → Has (w.map ofByte) cs
  | [], h => absurd h (Find.not_has_nil hne)
  | c :: cs, ⟨i, hi⟩ => by
    rw [Find.has_cons]
    by_cases hc : i < (String.utf8EncodeChar c).length
    · -- An occurrence that starts inside a character starts at its only byte.
      left
      obtain ⟨b, w', rfl⟩ := List.exists_cons_of_ne_nil hne
      have hget := Find.at_iff_getElem.1 hi 0 (by simp)
      rw [List.flatMap_cons, Nat.add_zero, List.getElem?_append_left hc] at hget
      have hone := (eq_ofByte (List.mem_of_getElem? hget) (hw b (by simp))).1
      have hi0 : i = 0 := by
        rw [hone] at hc
        simpa using hc
      subst hi0
      exact prefix_of_ascii hw (Find.at_zero.1 hi)
    · right
      rw [List.flatMap_cons, Find.at_append_right' (by omega)] at hi
      exact has_of_ascii hw hne ⟨_, hi⟩

end Text

/-- The digests of the tokens in an auth file, one a line. -/
def hashKeyring (blake3 : Bytes → Bytes) (source : String) : List Bytes :=
  (((Text.lines source.toList).map Text.trim).filter (· ≠ [])).map fun token => blake3 (Utf8.encode (String.ofList token))

end PiiProxy
