import Mathlib.Algebra.GroupWithZero.Nat
import PiiProxy.BudgetQueue
import PiiProxy.Lib.Machine
import PiiProxy.Lib.Permits

/-!
# Requests in flight

| here | there |
| --- | --- |
| `Pool.streams`, `maxActiveUpstreamStreams` | `UPSTREAM_STREAM_LIMIT` (lib.rs:55-56) |
| `Pool.memory`             | `global_memory`, 256 MiB (main.rs:171) |
| `Phase`, `step`           | `proxy_with_upstream` by what it holds (lib.rs:535-562, 669-699) |
| `Sys.gauge`               | `ACTIVE_SSE_STREAMS` and its two functions (lib.rs:57, 187-201) |

Every request takes a stream permit and then a memory permit, and moves both into the stream's
task. The memory permit is a batch, and a request that waits for it may hold a part already:
`acquire_many` takes what there is and is given the rest as it comes back, in any number of
parts; a wait that is cut off gives its part back. Only a stream of events is counted by the
gauge: up before the task is spawned, down when its guard is dropped, which is declared first
and so goes last, after both permits.

* `requests_accounted` — in every interleaving the permits that are out are those of the requests, and the
  gauge counts the guards
-/

namespace PiiProxy.StreamSlots

open Permits (Pools Permit Conserved held)

inductive Pool where
  | streams
  | memory
deriving DecidableEq, Repr

def maxActiveUpstreamStreams : Nat := 1000

/-- The semaphores at the start. -/
def initialPermits : Pool → Nat
  | .streams => maxActiveUpstreamStreams
  | .memory => 256 * 1024 * 1024

def streamPermit : Permit Pool := ⟨.streams, 1⟩

def memoryPermit : Permit Pool := ⟨.memory, BudgetQueue.globalMemoryChunk⟩

inductive Phase where
  /-- Waits for a stream permit. -/
  | waiting
  /-- Waits for memory, two seconds at most, with a part of it assigned. -/
  | permitted (part : Fin BudgetQueue.globalMemoryChunk)
  /-- Waits for the upstream. -/
  | sending
  | streaming (isSse : Bool)
  /-- The task is over and its locals go, the last one first. -/
  | memoryDropped (isSse : Bool)
  | permitDropped (isSse : Bool)
deriving DecidableEq, Repr

structure Sys where
  pools : Pools Pool
  /-- An `AtomicUsize`. -/
  gauge : Nat
  requests : List Phase
  /-- The memory that queued segments hold. -/
  queued : List (Permit Pool)

def Sys.new : Sys := ⟨⟨initialPermits, initialPermits⟩, 0, [], []⟩

inductive Move where
  | arrive
  | streamPermit (i : Nat)
  /-- A part of the memory, not all that is missing. -/
  | memoryPart (i n : Nat)
  /-- What is missing. -/
  | memoryPermit (i : Nat)
  /-- No memory in time: 503. -/
  | loadShed (i : Nat)
  /-- The upstream fails, or answers with an error status. -/
  | upstreamFailed (i : Nat)
  | spawned (i : Nat) (isSse : Bool)
  /-- The client goes before there is a task, and the handler is dropped. -/
  | cancelled (i : Nat)
  | taskEnds (i : Nat)
  | dropStreamPermit (i : Nat)
  | dropGuard (i : Nat)
  /-- A segment is queued, or read, by some stream. -/
  | enqueue (bytes : Nat)
  | dequeue (k : Nat)

def usizeModulus : Nat := 2 ^ 64

/-- The count goes around at both ends. -/
def increment (gauge : Nat) : Nat := (gauge + 1) % usizeModulus
def decrement (gauge : Nat) : Nat := (gauge + (usizeModulus - 1)) % usizeModulus

/-- The semaphores once the handler of a request is dropped; a task is not dropped with it. -/
def Phase.cancel (pools : Pools Pool) : Phase → Option (Pools Pool)
  | .waiting => some pools
  | .permitted part => some ((pools.release ⟨.memory, part⟩).release streamPermit)
  | .sending => some ((pools.release memoryPermit).release streamPermit)
  | .streaming _ | .memoryDropped _ | .permitDropped _ => none

def step (s : Sys) : Move → Option Sys
  | .arrive => some { s with requests := s.requests ++ [.waiting] }
  | .streamPermit i => match s.requests[i]? with
    | some .waiting => (s.pools.tryAcquire .streams 1).map fun pools =>
      { s with pools, requests := s.requests.set i (.permitted ⟨0, by decide⟩) }
    | _ => none
  | .memoryPart i n => match s.requests[i]? with
    | some (.permitted part) =>
      if h : part + n < BudgetQueue.globalMemoryChunk then
        (s.pools.tryAcquire .memory n).map fun pools =>
          { s with pools, requests := s.requests.set i (.permitted ⟨part + n, h⟩) }
      else none
    | _ => none
  | .memoryPermit i => match s.requests[i]? with
    | some (.permitted part) => (s.pools.tryAcquire .memory (BudgetQueue.globalMemoryChunk - part)).map fun pools =>
      { s with pools, requests := s.requests.set i .sending }
    | _ => none
  | .loadShed i => match s.requests[i]? with
    | some (.permitted part) =>
      some { s with pools := (s.pools.release ⟨.memory, part⟩).release streamPermit, requests := s.requests.eraseIdx i }
    | _ => none
  | .upstreamFailed i => match s.requests[i]? with
    | some .sending =>
      some { s with pools := (s.pools.release memoryPermit).release streamPermit, requests := s.requests.eraseIdx i }
    | _ => none
  | .spawned i isSse => match s.requests[i]? with
    | some .sending =>
      some { s with gauge := if isSse then increment s.gauge else s.gauge, requests := s.requests.set i (.streaming isSse) }
    | _ => none
  | .cancelled i => (s.requests[i]?).bind fun ph => (ph.cancel s.pools).map fun pools =>
    { s with pools, requests := s.requests.eraseIdx i }
  | .taskEnds i => match s.requests[i]? with
    | some (.streaming isSse) =>
      some { s with pools := s.pools.release memoryPermit, requests := s.requests.set i (.memoryDropped isSse) }
    | _ => none
  | .dropStreamPermit i => match s.requests[i]? with
    | some (.memoryDropped isSse) =>
      some { s with pools := s.pools.release streamPermit, requests := s.requests.set i (.permitDropped isSse) }
    | _ => none
  | .dropGuard i => match s.requests[i]? with
    | some (.permitDropped isSse) =>
      some { s with gauge := if isSse then decrement s.gauge else s.gauge, requests := s.requests.eraseIdx i }
    | _ => none
  | .enqueue bytes => (s.pools.tryAcquire .memory bytes).map fun pools =>
    { s with pools, queued := ⟨.memory, bytes⟩ :: s.queued }
  | .dequeue k => (s.queued[k]?).map fun permit =>
    { s with pools := s.pools.release permit, queued := s.queued.eraseIdx k }

/-! ## The invariant -/

/-- What a request holds. -/
def Phase.permits : Phase → List (Permit Pool)
  | .waiting | .permitDropped _ => []
  | .permitted part => [⟨.memory, part⟩, streamPermit]
  | .memoryDropped _ => [streamPermit]
  | .sending | .streaming _ => [memoryPermit, streamPermit]

/-- Whether the guard of an event stream is still to be dropped. -/
def Phase.counted : Phase → Bool
  | .streaming isSse | .memoryDropped isSse | .permitDropped isSse => isSse
  | _ => false

/-- All permits that are out. -/
def Sys.live (s : Sys) : List (Permit Pool) := s.requests.flatMap Phase.permits ++ s.queued

structure Sound (s : Sys) : Prop where
  conserved : Conserved s.pools s.live
  gauge : s.gauge = s.requests.countP Phase.counted % usizeModulus
  initial : s.pools.initial = initialPermits

section Steps

variable {s s' : Sys} {m : Move} {i : Nat} {ph ph' : Phase} {before after : List Phase}

/-- A request and the others around it. -/
structure At (s : Sys) (i : Nat) (ph : Phase) (before after : List Phase) : Prop where
  requests : s.requests = before ++ ph :: after
  set : ∀ ph', s.requests.set i ph' = before ++ ph' :: after
  erase : s.requests.eraseIdx i = before ++ after

theorem exists_at (h : s.requests[i]? = some ph) : ∃ before after, At s i ph before after := by
  obtain ⟨hi, rfl⟩ := List.getElem?_eq_some_iff.1 h
  refine ⟨s.requests.take i, s.requests.drop (i + 1), ?_, ?_, ?_⟩
  · rw [List.cons_getElem_drop_succ, List.take_append_drop]
  · intro ph'
    rw [List.set_eq_take_append_cons_drop, if_pos hi]
  · exact List.eraseIdx_eq_take_drop_succ ..

/-- The permits of the other requests and of the queues. -/
def others (s : Sys) (before after : List Phase) : List (Permit Pool) := (before ++ after).flatMap Phase.permits ++ s.queued

theorem live_perm (ph : Phase) (before after : List Phase) (queued : List (Permit Pool)) :
    ((before ++ ph :: after).flatMap Phase.permits ++ queued).Perm
      (ph.permits ++ ((before ++ after).flatMap Phase.permits ++ queued)) := by
  rw [← List.append_assoc]
  refine List.Perm.append_right _ ?_
  rw [List.flatMap_append, List.flatMap_cons, List.flatMap_append]
  exact List.perm_append_comm_assoc ..

theorem countP_counted (ph : Phase) (before after : List Phase) :
    (before ++ ph :: after).countP Phase.counted = (before ++ after).countP Phase.counted + ph.counted.toNat := by
  rw [List.countP_append, List.countP_append, List.countP_cons, ← Nat.add_assoc]
  cases ph.counted <;> rfl

theorem Sound.at (h : Sound s) (ha : At s i ph before after) : Conserved s.pools (ph.permits ++ others s before after) := by
  have hc := h.conserved
  rw [Sys.live, ha.requests] at hc
  exact hc.perm (live_perm ph before after s.queued)

/-- The gauge counts the others, and the request if it has a guard. -/
theorem Sound.gauge_at (h : Sound s) (ha : At s i ph before after) :
    s.gauge = ((before ++ after).countP Phase.counted + ph.counted.toNat) % usizeModulus := by
  rw [h.gauge, ha.requests, countP_counted]

/-- A request goes on: what it holds then is out in place of what it held, and the gauge counts it as it should. -/
theorem Sound.moves {pools : Pools Pool} {gauge : Nat} (h : Sound s) (hph : s.requests[i]? = some ph) (ph' : Phase)
    (hp : ∀ rest, Conserved s.pools (ph.permits ++ rest) → Conserved pools (ph'.permits ++ rest))
    (hi : pools.initial = s.pools.initial)
    (hg : ∀ n, s.gauge = (n + ph.counted.toNat) % usizeModulus → gauge = (n + ph'.counted.toNat) % usizeModulus) :
    Sound { s with pools, gauge, requests := s.requests.set i ph' } := by
  obtain ⟨before, after, ha⟩ := exists_at hph
  refine ⟨?_, ?_, hi.trans h.initial⟩
  · rw [Sys.live, ha.set]
    exact (hp _ (h.at ha)).perm (live_perm ph' before after s.queued).symm
  · rw [hg _ (h.gauge_at ha), ha.set, countP_counted]

/-- A request goes, with all that it held. -/
theorem Sound.leaves {pools : Pools Pool} {gauge : Nat} (h : Sound s) (hph : s.requests[i]? = some ph)
    (hp : ∀ rest, Conserved s.pools (ph.permits ++ rest) → Conserved pools rest) (hi : pools.initial = s.pools.initial)
    (hg : ∀ n, s.gauge = (n + ph.counted.toNat) % usizeModulus → gauge = n % usizeModulus) :
    Sound { s with pools, gauge, requests := s.requests.eraseIdx i } := by
  obtain ⟨before, after, ha⟩ := exists_at hph
  refine ⟨?_, ?_, hi.trans h.initial⟩
  · rw [Sys.live, ha.erase]
    exact hp _ (h.at ha)
  · rw [hg _ (h.gauge_at ha), ha.erase]

/-! ## Every step -/

theorem increment_mod (n : Nat) : increment (n % usizeModulus) = (n + 1) % usizeModulus := by
  rw [increment, Nat.mod_add_mod]

theorem decrement_mod (n : Nat) : decrement ((n + 1) % usizeModulus) = n % usizeModulus := by
  have h : 1 + (usizeModulus - 1) = usizeModulus := Nat.add_sub_of_le Nat.one_le_two_pow
  rw [decrement, Nat.mod_add_mod, Nat.add_assoc, h, Nat.add_mod_right]

/-- **No step loses a permit or a count.** -/
theorem step_sound (h : Sound s) (hs : step s m = some s') : Sound s' := by
  cases m with
  | arrive =>
    simp only [step, Option.some.injEq] at hs
    subst hs
    refine ⟨?_, ?_, h.initial⟩
    · have hlive : Sys.live { s with requests := s.requests ++ [.waiting] } = s.live := by
        simp [Sys.live, Phase.permits]
      rw [hlive]
      exact h.conserved
    · rw [h.gauge]
      simp [Phase.counted]
  | streamPermit i =>
    simp only [step] at hs
    split at hs
    · rename_i hph
      obtain ⟨pools, hacq, rfl⟩ := Option.map_eq_some_iff.1 hs
      exact h.moves hph (.permitted ⟨0, by decide⟩) (fun _ hp => (hp.acquire hacq).empty .memory)
        (Pools.tryAcquire_initial hacq) fun _ hg => hg
    · cases hs
  | memoryPart i n =>
    simp only [step] at hs
    split at hs
    · rename_i part hph
      split at hs
      · rename_i hlt
        obtain ⟨pools, hacq, rfl⟩ := Option.map_eq_some_iff.1 hs
        exact h.moves hph (.permitted ⟨part + n, hlt⟩) (fun _ hp => (hp.acquire hacq).join)
          (Pools.tryAcquire_initial hacq) fun _ hg => hg
      · cases hs
    · cases hs
  | memoryPermit i =>
    simp only [step] at hs
    split at hs
    · rename_i part hph
      obtain ⟨pools, hacq, rfl⟩ := Option.map_eq_some_iff.1 hs
      refine h.moves hph .sending (fun rest hp => ?_) (Pools.tryAcquire_initial hacq) fun _ hg => hg
      have hall := (hp.acquire hacq).join
      rw [Nat.add_sub_cancel' part.isLt.le] at hall
      exact hall
    · cases hs
  | loadShed i =>
    simp only [step] at hs
    split at hs
    · rename_i part hph
      cases hs
      exact h.leaves hph (fun _ hp => hp.release.release) rfl fun _ hg => hg
    · cases hs
  | upstreamFailed i =>
    simp only [step] at hs
    split at hs
    · rename_i hph
      cases hs
      exact h.leaves hph (fun _ hp => hp.release.release) rfl fun _ hg => hg
    · cases hs
  | spawned i isSse =>
    simp only [step] at hs
    split at hs
    · rename_i hph
      cases hs
      refine h.moves hph (.streaming isSse) (fun _ hp => hp) rfl fun n hg => ?_
      cases isSse with
      | false => exact hg
      | true => rw [if_pos rfl, hg]; exact increment_mod n
    · cases hs
  | cancelled i =>
    obtain ⟨ph, hph, hs⟩ := Option.bind_eq_some_iff.1 hs
    obtain ⟨pools, hcancel, rfl⟩ := Option.map_eq_some_iff.1 hs
    cases ph with
    | waiting =>
      cases hcancel
      exact h.leaves hph (fun _ hp => hp) rfl fun _ hg => hg
    | permitted part =>
      cases hcancel
      exact h.leaves hph (fun _ hp => hp.release.release) rfl fun _ hg => hg
    | sending =>
      cases hcancel
      exact h.leaves hph (fun _ hp => hp.release.release) rfl fun _ hg => hg
    | streaming isSse => cases hcancel
    | memoryDropped isSse => cases hcancel
    | permitDropped isSse => cases hcancel
  | taskEnds i =>
    simp only [step] at hs
    split at hs
    · rename_i isSse hph
      cases hs
      exact h.moves hph (.memoryDropped isSse) (fun _ hp => hp.release) rfl fun _ hg => hg
    · cases hs
  | dropStreamPermit i =>
    simp only [step] at hs
    split at hs
    · rename_i isSse hph
      cases hs
      exact h.moves hph (.permitDropped isSse) (fun _ hp => hp.release) rfl fun _ hg => hg
    · cases hs
  | dropGuard i =>
    simp only [step] at hs
    split at hs
    · rename_i isSse hph
      cases hs
      refine h.leaves hph (fun _ hp => hp) rfl fun n hg => ?_
      cases isSse with
      | false => exact hg
      | true => rw [if_pos rfl, hg]; exact decrement_mod n
    · cases hs
  | enqueue bytes =>
    obtain ⟨pools, hacq, rfl⟩ := Option.map_eq_some_iff.1 hs
    refine ⟨?_, h.gauge, (Pools.tryAcquire_initial hacq).trans h.initial⟩
    exact (h.conserved.acquire hacq).perm List.perm_middle.symm
  | dequeue k =>
    obtain ⟨permit, hk, rfl⟩ := Option.map_eq_some_iff.1 hs
    obtain ⟨hlt, rfl⟩ := List.getElem?_eq_some_iff.1 hk
    refine ⟨?_, h.gauge, h.initial⟩
    have hperm : s.live.Perm (s.queued[k] :: (s.requests.flatMap Phase.permits ++ s.queued.eraseIdx k)) :=
      ((List.getElem_cons_eraseIdx_perm hlt).symm.append_left _).trans List.perm_middle
    exact (h.conserved.perm hperm).release

end Steps

/-! ## Every run -/

/-- Whether a request holds a stream permit. -/
def Phase.holdsPermit (ph : Phase) : Bool := streamPermit ∈ ph.permits

/-- Whether a request holds its memory. -/
def Phase.holdsMemory : Phase → Bool
  | .sending | .streaming _ => true
  | _ => false

/-- The part of its memory that a waiting request holds. -/
def Phase.part : Phase → Nat
  | .permitted part => part
  | _ => 0

theorem held_streams (requests : List Phase) :
    held .streams (requests.flatMap Phase.permits) = requests.countP Phase.holdsPermit := by
  induction requests with
  | nil => rfl
  | cons ph requests ih =>
    rw [List.flatMap_cons, Permits.held_append, ih, List.countP_cons, Nat.add_comm]
    cases ph <;> simp [held, Phase.permits, Phase.holdsPermit, streamPermit, memoryPermit]

theorem held_memory (requests : List Phase) : held .memory (requests.flatMap Phase.permits) =
    BudgetQueue.globalMemoryChunk * requests.countP Phase.holdsMemory + (requests.map Phase.part).sum := by
  induction requests with
  | nil => rfl
  | cons ph requests ih =>
    rw [List.flatMap_cons, Permits.held_append, ih, List.countP_cons, Nat.mul_add, List.map_cons, List.sum_cons]
    cases ph <;> simp [held, Phase.permits, Phase.holdsMemory, Phase.part, streamPermit, memoryPermit] <;> omega

theorem sound_new : Sound Sys.new := by
  refine ⟨?_, rfl, rfl⟩
  intro i
  simp [Sys.live, Sys.new, held]

/-- Only memory is queued. -/
theorem queued_memory {ms : List Move} {s : Sys} (h : Machine.run step Sys.new ms = some s) :
    ∀ p ∈ s.queued, p.pool = .memory := by
  refine Machine.run_invariant (I := fun s => ∀ p ∈ s.queued, p.pool = .memory) (fun _ => True) ?_ (by simp [Sys.new])
    (fun _ _ => trivial) h
  intro s m s' hs _ hstep
  cases m with
  | enqueue bytes =>
    obtain ⟨pools, -, rfl⟩ := Option.map_eq_some_iff.1 hstep
    exact List.forall_mem_cons.2 ⟨rfl, hs⟩
  | dequeue k =>
    obtain ⟨permit, -, rfl⟩ := Option.map_eq_some_iff.1 hstep
    exact fun p hp => hs p (List.mem_of_mem_eraseIdx hp)
  | arrive =>
    cases hstep
    exact hs
  | streamPermit i | memoryPermit i =>
    simp only [step] at hstep
    split at hstep
    · obtain ⟨pools, -, rfl⟩ := Option.map_eq_some_iff.1 hstep
      exact hs
    · cases hstep
  | memoryPart i n =>
    simp only [step] at hstep
    split at hstep
    · split at hstep
      · obtain ⟨pools, -, rfl⟩ := Option.map_eq_some_iff.1 hstep
        exact hs
      · cases hstep
    · cases hstep
  | cancelled i =>
    obtain ⟨ph, -, hstep⟩ := Option.bind_eq_some_iff.1 hstep
    obtain ⟨pools, -, rfl⟩ := Option.map_eq_some_iff.1 hstep
    exact hs
  | loadShed i | upstreamFailed i | spawned i isSse | taskEnds i | dropStreamPermit i | dropGuard i =>
    simp only [step] at hstep
    split at hstep
    · cases hstep
      exact hs
    · cases hstep

/-- **Requests and what they hold**, in every interleaving of requests, cancellations, tasks and queues. The permits
that are gone from the two semaphores are those of the requests, a waiting one's part included, and of the queues, so
at most 1000 requests are between their permit and its release; and the gauge is the number of event streams whose
guard is not dropped, also where it goes around, and nothing once all requests are gone. -/
theorem requests_accounted {ms : List Move} {s : Sys} (h : Machine.run step Sys.new ms = some s) :
    s.pools.available .streams + s.requests.countP Phase.holdsPermit = maxActiveUpstreamStreams ∧
    s.pools.available .memory + (BudgetQueue.globalMemoryChunk * s.requests.countP Phase.holdsMemory +
      (s.requests.map Phase.part).sum) + held .memory s.queued = 256 * 1024 * 1024 ∧
    s.gauge = s.requests.countP Phase.counted % 2 ^ 64 := by
  have hsound : Sound s :=
    Machine.run_invariant (fun _ => True) (fun _ _ _ hs _ hstep => step_sound hs hstep) sound_new (fun _ _ => trivial) h
  have hstreams := hsound.conserved .streams
  have hmemory := hsound.conserved .memory
  have hqueued : held .streams s.queued = 0 :=
    Permits.held_eq_zero fun p hp => by rw [queued_memory h p hp]; decide
  rw [hsound.initial, Sys.live, Permits.held_append] at hstreams hmemory
  rw [held_streams, hqueued] at hstreams
  rw [held_memory] at hmemory
  refine ⟨hstreams, ?_, hsound.gauge⟩
  rw [Nat.add_assoc]
  exact hmemory

/-- Two event streams, one of which has given its permit back while its guard still counts, and a request that waits
for the rest of its memory. -/
def twoStreams : List Move :=
  [.arrive, .streamPermit 0, .memoryPermit 0, .spawned 0 true, .arrive, .streamPermit 1, .memoryPart 1 4096, .memoryPermit 1,
    .spawned 1 true, .enqueue 100, .arrive, .streamPermit 2, .memoryPart 2 4096, .taskEnds 0, .dropStreamPermit 0]

theorem requests_accounted_two : ∃ s, Machine.run step Sys.new twoStreams = some s ∧
    s.pools.available .streams + 2 = 1000 ∧
    s.pools.available .memory + (BudgetQueue.globalMemoryChunk + 4096) + held .memory s.queued = 256 * 1024 * 1024 ∧
    s.gauge = 2 := by
  have hrun : (Machine.run step Sys.new twoStreams).map (fun s => s.requests) =
      some [.permitDropped true, .streaming true, .permitted ⟨4096, by decide⟩] := rfl
  obtain ⟨s, hs, hrequests⟩ := Option.map_eq_some_iff.1 hrun
  obtain ⟨hstreams, hmemory, hgauge⟩ := requests_accounted hs
  rw [hrequests] at hstreams hmemory hgauge
  exact ⟨s, hs, hstreams, hmemory, hgauge⟩

end PiiProxy.StreamSlots
