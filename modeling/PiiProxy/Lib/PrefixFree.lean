import Mathlib.Data.Set.Function

/-!
# Codes that are read off the front

A code is prefix free on a set when a code word can be told apart from another whatever
follows the two. A known number of such words, one after another, is read in one way
only. A text behind its length, the length in a fixed width, is such a code.
-/

namespace PrefixFree

variable {α β : Type}

/-- Two words of `s` that start one text are equal, and so is what follows them. -/
def PrefixFreeOn (s : Set α) (code : α → List β) : Prop :=
  ∀ a ∈ s, ∀ b ∈ s, ∀ t u, code a ++ t = code b ++ u → a = b ∧ t = u

/-- **As many words, one after another, are the same words.** -/
theorem PrefixFreeOn.flatMap_inj {s : Set α} {code : α → List β} (h : PrefixFreeOn s code) :
    ∀ {as bs : List α}, (∀ a ∈ as, a ∈ s) → (∀ b ∈ bs, b ∈ s) → as.length = bs.length →
      as.flatMap code = bs.flatMap code → as = bs
  | [], [], _, _, _, _ => rfl
  | a :: as, b :: bs, ha, hb, hl, he => by
    rw [List.flatMap_cons, List.flatMap_cons] at he
    obtain ⟨rfl, htail⟩ := h a (ha a (by simp)) b (hb b (by simp)) _ _ he
    have ih : as = bs := h.flatMap_inj (fun x hx => ha x (List.mem_cons_of_mem _ hx))
      (fun x hx => hb x (List.mem_cons_of_mem _ hx)) (by simpa using hl) htail
    rw [ih]

/-- **A text behind its length**, for lengths below a bound that `len` tells apart. -/
theorem prefixFreeOn_length {len : Nat → List β} {text : α → List β} {w bound : Nat}
    (hw : ∀ n, (len n).length = w) (hlen : Set.InjOn len {n | n < bound}) (htext : Function.Injective text) :
    PrefixFreeOn {a | (text a).length < bound} fun a => len (text a).length ++ text a := by
  intro a ha b hb t u h
  simp only [List.append_assoc] at h
  have h1 : len (text a).length = len (text b).length ∧ text a ++ t = text b ++ u :=
    List.append_inj h (by rw [hw, hw])
  have hl : (text a).length = (text b).length := hlen ha hb h1.1
  have h2 : text a = text b ∧ t = u := List.append_inj h1.2 hl
  exact ⟨htext h2.1, h2.2⟩

end PrefixFree
