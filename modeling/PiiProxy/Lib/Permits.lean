import Mathlib.Data.List.Perm.Basic
import Mathlib.Logic.Function.Basic

/-!
# Counting permits

Pools of permits, taken and given back in batches. A `Permit` is a batch that is out;
`Conserved P live` says that what a pool has left and the permits of it among `live` make
up what it started with. Taking a batch puts it in front of `live`, giving it back
takes it from there, and the order of `live` does not matter.

* `Conserved.acquire`, `Conserved.join`, `Conserved.release`, `Conserved.add` — what each operation keeps
* `Conserved.le` — any permits among the live ones are within the pool
-/

namespace Permits

structure Permit (ι : Type) where
  pool : ι
  count : Nat
deriving DecidableEq, Repr

structure Pools (ι : Type) where
  initial : ι → Nat
  available : ι → Nat

variable {ι : Type} [DecidableEq ι] {P P' : Pools ι} {p : Permit ι} {live live' : List (Permit ι)} {i : ι} {n : Nat}

namespace Pools

/-- All or nothing, without waiting. -/
def tryAcquire (P : Pools ι) (i : ι) (n : Nat) : Option (Pools ι) :=
  if n ≤ P.available i then some { P with available := Function.update P.available i (P.available i - n) } else none

def release (P : Pools ι) (p : Permit ι) : Pools ι :=
  { P with available := Function.update P.available p.pool (P.available p.pool + p.count) }

/-- A pool of `n` permits at `i`, none of them out. -/
def add (P : Pools ι) (i : ι) (n : Nat) : Pools ι :=
  { initial := Function.update P.initial i n, available := Function.update P.available i n }

theorem tryAcquire_ok (h : n ≤ P.available i) :
    P.tryAcquire i n = some { P with available := Function.update P.available i (P.available i - n) } := if_pos h

/-- A batch given back at once. -/
theorem release_tryAcquire (h : P.tryAcquire i n = some P') : P'.release ⟨i, n⟩ = P := by
  unfold tryAcquire at h
  split at h
  · cases h
    simp only [release, Function.update_self, Function.update_idem]
    rw [Nat.sub_add_cancel (by assumption), Function.update_eq_self]
  · cases h

theorem tryAcquire_available (h : P.tryAcquire i n = some P') (j : ι) :
    P'.available j + (if j = i then n else 0) = P.available j := by
  unfold tryAcquire at h
  split at h
  · cases h
    by_cases hij : j = i
    · subst hij
      simp only [Function.update_self, if_true]
      omega
    · simp only [Function.update_of_ne hij, if_neg hij, Nat.add_zero]
  · cases h

theorem tryAcquire_initial (h : P.tryAcquire i n = some P') : P'.initial = P.initial := by
  unfold tryAcquire at h
  split at h
  · cases h
    rfl
  · cases h

end Pools

/-- The permits of pool `i` that are out. -/
def held (i : ι) : List (Permit ι) → Nat
  | [] => 0
  | p :: ps => (if p.pool = i then p.count else 0) + held i ps

@[simp] theorem held_append (i : ι) : ∀ ps qs : List (Permit ι), held i (ps ++ qs) = held i ps + held i qs
  | [], qs => by simp [held]
  | p :: ps, qs => by
    have ih := held_append i ps qs
    simp only [List.cons_append, held]
    omega

theorem held_perm {ps qs : List (Permit ι)} (h : ps.Perm qs) : held i ps = held i qs := by
  induction h with
  | nil => rfl
  | cons p _ ih => simp only [held, ih]
  | swap p q _ =>
    simp only [held]
    omega
  | trans _ _ ih₁ ih₂ => rw [ih₁, ih₂]

/-- The permits of one pool, all of the same count. -/
theorem held_replicate (n k : Nat) : held i (List.replicate k ⟨i, n⟩) = n * k := by
  induction k with
  | zero => rfl
  | succ k ih =>
    rw [List.replicate_succ, held, ih, if_pos rfl, Nat.mul_succ, Nat.add_comm]

theorem held_eq_zero : ∀ {ps : List (Permit ι)}, (∀ p ∈ ps, p.pool ≠ i) → held i ps = 0
  | [], _ => rfl
  | p :: ps, h => by
    rw [held, if_neg (h p (by simp)), held_eq_zero fun q hq => h q (List.mem_cons_of_mem _ hq)]

/-! ## Conservation -/

/-- Every pool: what is left and what is out make up what there was. -/
def Conserved (P : Pools ι) (live : List (Permit ι)) : Prop := ∀ i, P.available i + held i live = P.initial i

theorem Conserved.perm (h : Conserved P live) (hp : live.Perm live') : Conserved P live' := by
  intro i
  rw [← held_perm hp]
  exact h i

theorem Conserved.acquire (h : Conserved P live) (ha : P.tryAcquire i n = some P') :
    Conserved P' (⟨i, n⟩ :: live) := by
  unfold Pools.tryAcquire at ha
  split at ha
  · cases ha
    intro j
    have hj := h j
    by_cases hij : i = j
    · subst hij
      simp only [held, if_true, Function.update_self]
      omega
    · simp only [held, if_neg hij, Function.update_of_ne (Ne.symm hij), Nat.zero_add]
      exact hj
  · cases ha

theorem Conserved.release (h : Conserved P (p :: live)) : Conserved (P.release p) live := by
  intro j
  have hj := h j
  by_cases hij : p.pool = j
  · subst hij
    simp only [held, if_true] at hj
    simp only [Pools.release, Function.update_self]
    omega
  · simp only [held, if_neg hij, Nat.zero_add] at hj
    simp only [Pools.release, Function.update_of_ne (Ne.symm hij)]
    exact hj

/-- Two batches of one pool are one. -/
theorem Conserved.join {m : Nat} (h : Conserved P (⟨i, m⟩ :: ⟨i, n⟩ :: live)) : Conserved P (⟨i, n + m⟩ :: live) := by
  intro j
  rw [← h j]
  by_cases hij : i = j
  · simp only [held, if_pos hij]
    omega
  · simp only [held, if_neg hij, Nat.zero_add]

theorem Conserved.empty (h : Conserved P live) (i : ι) : Conserved P (⟨i, 0⟩ :: live) := by
  intro j
  rw [← h j, held, ite_self, Nat.zero_add]

/-- A new pool, under a name that no permit bears. -/
theorem Conserved.add (h : Conserved P live) (hi : ∀ p ∈ live, p.pool ≠ i) : Conserved (P.add i n) live := by
  intro j
  by_cases hij : j = i
  · subst hij
    simp only [Pools.add, Function.update_self, held_eq_zero hi, Nat.add_zero]
  · simp only [Pools.add, Function.update_of_ne hij]
    exact h j

theorem Conserved.le (h : Conserved P (live ++ live')) (i : ι) : held i live ≤ P.initial i := by
  have hi := h i
  rw [held_append] at hi
  omega

end Permits
