import PiiProxy.Lib.Machine
import PiiProxy.Lib.Permits
import PiiProxy.Text

/-!
# Byte budgets and the response channel

| here | there |
| --- | --- |
| `Memory`                 | every `Arc<Semaphore>`, by its address, and `PROXY_BYTE_BUDGET_IN_USE` (budget_queue.rs:14) |
| `ByteBudget`, `withTenant` | `ByteBudget` (budget_queue.rs:57), `with_tenant` (budget_queue.rs:89) |
| `tenantPermit`           | `ByteBudget::tenant_permit` (budget_queue.rs:115) |
| `reserve`, `dropSegment` | `BudgetedSegment::reserve` and its `Drop` (budget_queue.rs:157, 183) |
| `Stream`, `pollFrame`    | `channel(32)`, `BudgetedBody` and its `poll_frame` (budget_queue.rs:192, 229, 249) |
| `Stream.step`            | what the stream task and the server do with one stream |
| `slices`, `enqueueMoves` | `enqueue` (budget_queue.rs:197) |
| `Sys`, `Sys.step`        | all streams of a process, with `watch_auth_file` (main.rs:437) and the stream memory permits (lib.rs:545-562) |

One move is one operation on the shared state: tokio's semaphores grant and take back
a batch at once. What a value owns is given back when it is dropped.
-/

namespace PiiProxy.BudgetQueue

open Permits (Permit Pools)

/-- The address of a semaphore. -/
abbrev Sem := Nat

abbrev TenantId := Vector UInt8 32

def globalMemoryChunk : Nat := 64 * 1024

def tenantMemoryBudget : Nat := 16 * 1024 * 1024

def outputByteBudget : Nat := 2 * 1024 * 1024

/-- `u32::MAX`. -/
def u32Max : Nat := UInt32.size - 1

/-- `n as u32`. -/
def asU32 (n : Nat) : Nat := n % UInt32.size

/-- `Semaphore::MAX_PERMITS`: `usize::MAX >> 3`. -/
def maxPermits : Nat := (UInt64.size - 1) / 8

theorem asU32_of_le {n : Nat} (h : n ≤ u32Max) : asU32 n = n := by
  apply Nat.mod_eq_of_lt
  have : 0 < UInt32.size := by decide
  unfold u32Max at h
  omega

inductive BudgetError where
  | capacity
  | tenantLimitExceeded
  | globalLimitExceeded
deriving DecidableEq, Repr

structure Memory where
  pools : Pools Sem
  /-- The address of the next semaphore. -/
  next : Sem
  inUse : UInt64

structure ByteBudget where
  semaphore : Sem
  globalMemory : Sem
  capacity : Nat
  capacity_pos : 0 < capacity

/-- Holds as many permits of each pool as it has bytes. -/
structure BudgetedSegment where
  bytes : Bytes
  globalPermit : Permit Sem
  localPermit : Permit Sem
  global_count : globalPermit.count = bytes.length
  local_count : localPermit.count = bytes.length

abbrev Granted (sem : Sem) (n : Nat) : Type := { p : Permit Sem // p = ⟨sem, n⟩ }

namespace Memory

variable {m m' : Memory} {b : ByteBudget} {n : Nat} {bytes : Bytes} {seg : BudgetedSegment}

/-- `try_acquire_many_owned(n)`. -/
def tryAcquireMany (m : Memory) (sem : Sem) (n : Nat) : Option (Granted sem n × Memory) :=
  (m.pools.tryAcquire sem n).map fun pools => (⟨⟨sem, n⟩, rfl⟩, { m with pools := pools })

def releasePermit (m : Memory) (p : Permit Sem) : Memory := { m with pools := m.pools.release p }

/-- `Semaphore::new`, at a fresh address. -/
def newSemaphore (m : Memory) (permits : Nat) : Sem × Memory :=
  (m.next, { m with pools := m.pools.add m.next permits, next := m.next + 1 })

def tenantPermit (m : Memory) (b : ByteBudget) (bytes : Nat) :
    Except BudgetError (Granted b.semaphore (asU32 bytes) × Memory) :=
  if bytes = 0 ∨ b.capacity < bytes ∨ u32Max < bytes then .error .capacity
  else match m.tryAcquireMany b.semaphore (asU32 bytes) with
    | none => .error .tenantLimitExceeded
    | some r => .ok r

/-- `fetch_add` and `fetch_sub` wrap. -/
def recordBudgetInUse (m : Memory) (delta : Int) : Memory :=
  if 0 < delta then { m with inUse := m.inUse + UInt64.ofNat delta.natAbs }
  else { m with inUse := m.inUse - UInt64.ofNat delta.natAbs }

theorem tenantPermit_fits {r} (h : m.tenantPermit b n = .ok r) : asU32 n = n := by
  unfold tenantPermit at h
  split at h
  · cases h
  · exact asU32_of_le (by omega)

/-- The tenant's permit goes back when the global pool refuses. -/
def reserve (m : Memory) (b : ByteBudget) (bytes : Bytes) : Except BudgetError BudgetedSegment × Memory :=
  if bytes = [] then (.error .capacity, m)
  else match h : m.tenantPermit b bytes.length with
    | .error e => (.error e, m)
    | .ok (localPermit, m₁) =>
      match m₁.tryAcquireMany b.globalMemory (asU32 bytes.length) with
      | none => (.error .globalLimitExceeded, m₁.releasePermit localPermit.1)
      | some (globalPermit, m₂) =>
        (.ok { bytes := bytes
               globalPermit := globalPermit.1
               localPermit := localPermit.1
               global_count := by rw [globalPermit.2]; exact tenantPermit_fits h
               local_count := by rw [localPermit.2]; exact tenantPermit_fits h },
          m₂.recordBudgetInUse bytes.length)

/-- The counter first, then the fields in their order. -/
def dropSegment (m : Memory) (seg : BudgetedSegment) : Memory :=
  ((m.recordBudgetInUse (-seg.localPermit.count)).releasePermit seg.globalPermit).releasePermit seg.localPermit

def dropSegments (m : Memory) (segs : List BudgetedSegment) : Memory := segs.foldl dropSegment m

theorem tryAcquireMany_some {sem : Sem} {r} (h : m.tryAcquireMany sem n = some r) :
    m.pools.tryAcquire sem n = some r.2.pools ∧ r.2 = { m with pools := r.2.pools } := by
  unfold tryAcquireMany at h
  rw [Option.map_eq_some_iff] at h
  obtain ⟨pools, h, rfl⟩ := h
  exact ⟨h, rfl⟩

theorem tenantPermit_ok {r} (h : m.tenantPermit b n = .ok r) :
    m.pools.tryAcquire b.semaphore n = some r.2.pools ∧ r.2 = { m with pools := r.2.pools } := by
  have hn := tenantPermit_fits h
  unfold tenantPermit at h
  split at h
  · cases h
  · split at h
    · cases h
    · rename_i r' ha
      cases h
      obtain ⟨hp, hr⟩ := tryAcquireMany_some ha
      exact ⟨(congrArg (m.pools.tryAcquire b.semaphore) hn).symm.trans hp, hr⟩

/-- Everything a reservation can do. -/
theorem reserve_cases (m : Memory) (b : ByteBudget) (bytes : Bytes) :
    (∃ seg pools₁ pools₂, m.reserve b bytes = (.ok seg, { m with pools := pools₂, inUse := m.inUse + UInt64.ofNat bytes.length }) ∧
      seg.bytes = bytes ∧ seg.localPermit = ⟨b.semaphore, bytes.length⟩ ∧ seg.globalPermit = ⟨b.globalMemory, bytes.length⟩ ∧
      m.pools.tryAcquire b.semaphore bytes.length = some pools₁ ∧ pools₁.tryAcquire b.globalMemory bytes.length = some pools₂) ∨
    ∃ e, m.reserve b bytes = (.error e, m) := by
  unfold reserve
  split
  · exact .inr ⟨_, rfl⟩
  · rename_i hne
    split
    · exact .inr ⟨_, rfl⟩
    · rename_i localPermit m₁ h
      have hfits := tenantPermit_fits h
      obtain ⟨h₁, hm₁⟩ := tenantPermit_ok h
      simp only at h₁ hm₁
      have hl : localPermit.1 = ⟨b.semaphore, bytes.length⟩ := by rw [localPermit.2, hfits]
      split
      · refine .inr ⟨.globalLimitExceeded, ?_⟩
        rw [releasePermit, hl, Pools.release_tryAcquire h₁, hm₁]
      · rename_i globalPermit m₂ h₂
        obtain ⟨h₂, hm₂⟩ := tryAcquireMany_some h₂
        simp only at h₂ hm₂
        rw [hfits] at h₂
        have hg : globalPermit.1 = ⟨b.globalMemory, bytes.length⟩ := by rw [globalPermit.2, hfits]
        have hpos : (0 : Int) < bytes.length := by
          have := List.length_pos_of_ne_nil hne
          omega
        have hm : m₂.recordBudgetInUse bytes.length =
            { m with pools := m₂.pools, inUse := m.inUse + UInt64.ofNat bytes.length } := by
          rw [hm₂, hm₁, recordBudgetInUse, if_pos hpos, Int.natAbs_natCast]
        exact .inl ⟨_, m₁.pools, m₂.pools, Prod.ext rfl hm, rfl, hl, hg, h₁, h₂⟩

theorem tryAcquireMany_of_le {sem : Sem} (h : n ≤ m.pools.available sem) : m.tryAcquireMany sem n ≠ none := by
  rw [tryAcquireMany, Pools.tryAcquire_ok h]
  exact Option.some_ne_none _

/-- A reservation that both pools can serve. -/
theorem reserve_ok (hne : bytes ≠ []) (hcap : bytes.length ≤ b.capacity) (hu32 : bytes.length ≤ u32Max)
    (hlocal : bytes.length ≤ m.pools.available b.semaphore) (hglobal : bytes.length ≤ m.pools.available b.globalMemory)
    (hsem : b.globalMemory ≠ b.semaphore) : ∃ seg, (m.reserve b bytes).1 = .ok seg := by
  have hn := asU32_of_le hu32
  have hpos := List.length_pos_of_ne_nil hne
  have hlen : ¬(bytes.length = 0 ∨ b.capacity < bytes.length ∨ u32Max < bytes.length) := by omega
  unfold reserve
  rw [if_neg hne]
  split
  · rename_i e h
    unfold tenantPermit at h
    rw [if_neg hlen] at h
    split at h
    · rename_i ha
      exact absurd ha (tryAcquireMany_of_le (by rwa [hn]))
    · cases h
  · rename_i localPermit m₁ h
    obtain ⟨h₁, -⟩ := tenantPermit_ok h
    simp only at h₁
    rw [Pools.tryAcquire_ok hlocal, Option.some.injEq] at h₁
    split
    · rename_i ha
      refine absurd ha (tryAcquireMany_of_le ?_)
      rw [hn, ← h₁]
      simpa only [Function.update_of_ne hsem] using hglobal
    · exact ⟨_, rfl⟩

end Memory

/-! ## Streams -/

/-- One response: the task's end of the channel, the channel and the body. -/
structure Stream where
  tenant : TenantId
  budget : ByteBudget
  /-- Not on the channel: in an `enqueue` that waits to send, or in the error of one that could not. -/
  reserved : List BudgetedSegment
  queue : List BudgetedSegment
  inFlight : Option BudgetedSegment
  /-- Taken off the channel by `recv`. -/
  received : List BudgetedSegment
  ended : Bool
  /-- The receiver is gone. -/
  closed : Bool
  /-- The task has returned: its sender and its budget are gone. -/
  finished : Bool

def Stream.open (tenant : TenantId) (budget : ByteBudget) : Stream :=
  ⟨tenant, budget, [], [], none, [], false, false, false⟩

/-- The segments of a stream that are live. -/
def Stream.segments (st : Stream) : List BudgetedSegment :=
  st.reserved ++ st.queue ++ st.inFlight.toList ++ st.received

inductive Poll (α : Type) where
  | pending
  | ready (a : α)

def Stream.pollFrame (m : Memory) (st : Stream) : Memory × Stream × Poll (Option Bytes) :=
  if st.ended then (m, st, .ready none)
  else
    let m := m.dropSegments st.inFlight.toList
    match st.queue with
    | seg :: queue => (m, { st with inFlight := some seg, queue := queue }, .ready (some seg.bytes))
    | [] =>
      if st.finished then (m, { st with inFlight := none, ended := true }, .ready none)
      else (m, { st with inFlight := none }, .pending)

/-- `channel(32)`. -/
def queueItems : Nat := 32

inductive StreamMove where
  | reserve (bytes : Bytes)
  /-- Fails once the receiver is gone: the segment comes back in the error. -/
  | send (k : Nat)
  /-- A segment that was not sent: the future was cancelled, or the error dropped. -/
  | discard (k : Nat)
  | recv
  | dropReceived (k : Nat)
  | poll
  | dropBody
  | finish

/-- `none` where the move cannot be made now: its side is gone, or a `send` waits for room. -/
def Stream.step (m : Memory) (st : Stream) : StreamMove → Option (Memory × Stream)
  | .reserve bytes =>
    if st.finished then none
    else match m.reserve st.budget bytes with
      | (.ok seg, m) => some (m, { st with reserved := st.reserved ++ [seg] })
      | (.error _, m) => some (m, st)
  | .send k =>
    if st.finished then none
    else match st.reserved[k]? with
      | none => none
      | some seg =>
        if st.closed then some (m, st)
        else if st.queue.length < queueItems then
          some (m, { st with reserved := st.reserved.eraseIdx k, queue := st.queue ++ [seg] })
        else none
  | .discard k => match st.reserved[k]? with
    | none => none
    | some seg => some (m.dropSegment seg, { st with reserved := st.reserved.eraseIdx k })
  | .recv =>
    if st.closed then none
    else match st.queue with
      | [] => none
      | seg :: queue => some (m, { st with queue := queue, received := seg :: st.received })
  | .dropReceived k => match st.received[k]? with
    | none => none
    | some seg => some (m.dropSegment seg, { st with received := st.received.eraseIdx k })
  | .poll => if st.closed then none else some ((st.pollFrame m).1, (st.pollFrame m).2.1)
  | .dropBody =>
    if st.closed then none
    else some (m.dropSegments (st.queue ++ st.inFlight.toList), { st with queue := [], inFlight := none, closed := true })
  | .finish =>
    if st.finished then none else some (m.dropSegments st.reserved, { st with reserved := [], finished := true })

/-! ## The process -/

structure Sys where
  mem : Memory
  globalMemory : Sem
  tenantBudgets : TenantId → Option Sem
  streams : List Stream
  /-- `GLOBAL_MEMORY_CHUNK` permits each. -/
  memoryPermits : List (Permit Sem)
  keyring : List Bytes

inductive Move where
  | openStream (tenant : TenantId) (capacity : Nat)
  | stream (i : Nat) (move : StreamMove)
  | memoryPermit
  | dropMemoryPermit (k : Nat)
  /-- A readable auth file. -/
  | reload (contents : String)

namespace Sys

def segments (s : Sys) : List BudgetedSegment := s.streams.flatMap Stream.segments

/-- A process with `g` permits of global memory. -/
def init (g : Nat) (keyring : List Bytes) : Sys :=
  { mem := (Memory.newSemaphore ⟨⟨fun _ => 0, fun _ => 0⟩, 0, 0⟩ g).2
    globalMemory := 0
    tenantBudgets := fun _ => none
    streams := []
    memoryPermits := []
    keyring := keyring }

/-- The tenant's semaphore, made where the map has none. -/
def tenantSemaphore (s : Sys) (tenant : TenantId) : Sem × Sys :=
  match s.tenantBudgets tenant with
  | some sem => (sem, s)
  | none =>
    let r := s.mem.newSemaphore tenantMemoryBudget
    (r.1, { s with mem := r.2, tenantBudgets := Function.update s.tenantBudgets tenant (some r.1) })

/-- `none` for the failed assertion. -/
def withTenant (s : Sys) (tenant : TenantId) (capacity : Nat) : Option (ByteBudget × Sys) :=
  if h : 0 < capacity then
    let r := s.tenantSemaphore tenant
    some (⟨r.1, s.globalMemory, capacity, h⟩, r.2)
  else none

/-- An auth file without tokens is refused. -/
def watchAuthFile (blake3 : Bytes → Bytes) (s : Sys) (contents : String) : Sys :=
  let next := hashKeyring blake3 contents
  if next = [] then s else { s with tenantBudgets := fun _ => none, keyring := next }

def step (blake3 : Bytes → Bytes) (s : Sys) : Move → Option Sys
  | .openStream tenant capacity => (s.withTenant tenant capacity).map fun (budget, s) =>
    { s with streams := s.streams ++ [.open tenant budget] }
  | .stream i move => match s.streams[i]? with
    | none => none
    | some st => (st.step s.mem move).map fun (m, st) => { s with mem := m, streams := s.streams.set i st }
  | .memoryPermit => match s.mem.tryAcquireMany s.globalMemory (asU32 globalMemoryChunk) with
    | none => some s
    | some (permit, m) => some { s with mem := m, memoryPermits := permit.1 :: s.memoryPermits }
  | .dropMemoryPermit k => match s.memoryPermits[k]? with
    | none => none
    | some permit =>
      some { s with mem := s.mem.releasePermit permit, memoryPermits := s.memoryPermits.eraseIdx k }
  | .reload contents => some (s.watchAuthFile blake3 contents)

def run (blake3 : Bytes → Bytes) : Sys → List Move → Option Sys := Machine.run (step blake3)

end Sys

/-- The slices of `enqueue`, from `start` in steps of `size`. -/
def slices (size : Nat) (bytes : Bytes) : List Bytes :=
  (List.range ((bytes.length + size - 1) / size)).map fun k =>
    (bytes.take (min (k * size + size) bytes.length)).drop (k * size)

/-- An `enqueue` on stream `i` that nothing refuses. -/
def enqueueMoves (i capacity : Nat) (bytes : Bytes) : List Move :=
  (slices capacity bytes).flatMap fun segment => [.stream i (.reserve segment), .stream i (.send 0)]

end PiiProxy.BudgetQueue
