import Mathlib.Algebra.Group.Nat.Defs
import Mathlib.Algebra.Group.Basic
import PiiProxy.BudgetRuns

/-!
# What a tenant and a stream may hold

`with_tenant` hands out the tenant's semaphore, and the capacity only cuts an output into
slices. A tenant is within `TENANT_MEMORY_BUDGET` as long as all its streams share one
semaphore: a reload that clears the map while some of them run ends that. A stream is within
its capacity only where one of the two pools is no larger.

* `slices_cons`, `flatten_slices` — an output is the join of its slices
* `run_pieces` — outputs that the pools can serve reach the channel
* `tenant_within_budget` — while a tenant's streams share a semaphore
* `queued_within_capacity_iff` — when a stream is within its capacity
-/

namespace PiiProxy.BudgetQueue

open Permits (Permit Pools)

/-! ## Slices -/

theorem slices_nil (size : Nat) : slices size [] = [] := by
  have h : (([] : Bytes).length + size - 1) / size = 0 := by
    rcases Nat.eq_zero_or_pos size with rfl | hpos
    · rfl
    · exact Nat.div_eq_of_lt (by simp; omega)
  rw [slices, h]
  rfl

/-- How many slices the loop makes. -/
theorem slice_count {n size : Nat} (hsize : 0 < size) (hn : 0 < n) :
    (n + size - 1) / size = (n - size + size - 1) / size + 1 := by
  rcases Nat.lt_or_ge n size with hlt | hge
  · have h1 : n + size - 1 = (n - 1) + size := by omega
    have h2 : n - size + size - 1 = size - 1 := by omega
    rw [h1, h2, Nat.add_div_right _ hsize, Nat.div_eq_of_lt (by omega), Nat.div_eq_of_lt (by omega)]
  · have h1 : n + size - 1 = (n - size + size - 1) + size := by omega
    rw [h1, Nat.add_div_right _ hsize]

theorem slices_cons {size : Nat} {bytes : Bytes} (hsize : 0 < size) (hne : bytes ≠ []) :
    slices size bytes = bytes.take size :: slices size (bytes.drop size) := by
  unfold slices
  rw [slice_count hsize (List.length_pos_of_ne_nil hne), List.length_drop, List.range_succ_eq_map, List.map_cons,
    List.map_map]
  congr 1
  · rw [Nat.zero_mul, List.drop_zero, Nat.zero_add]
    exact List.take_eq_take_min.symm
  · apply List.map_congr_left
    intro k _
    simp only [Function.comp, Nat.succ_mul, List.drop_take, List.drop_drop, Nat.add_comm size]
    congr 1
    omega

/-- An output is the join of its slices, and each of them fits. -/
theorem flatten_slices {size : Nat} (hsize : 0 < size) (bytes : Bytes) :
    (slices size bytes).flatten = bytes ∧ ∀ piece ∈ slices size bytes, piece ≠ [] ∧ piece.length ≤ size := by
  induction hn : bytes.length using Nat.strongRecOn generalizing bytes with
  | ind n ih =>
    by_cases hne : bytes = []
    · rw [hne, slices_nil]
      simp
    · have hlen := List.length_pos_of_ne_nil hne
      obtain ⟨hflat, hmem⟩ := ih (bytes.drop size).length (by rw [List.length_drop]; omega) _ rfl
      rw [slices_cons hsize hne]
      constructor
      · rw [List.flatten_cons, hflat, List.take_append_drop]
      · intro piece hp
        rcases List.mem_cons.1 hp with rfl | hp
        · refine ⟨?_, List.length_take_le _ _⟩
          rw [Ne, List.take_eq_nil_iff]
          rintro (h | h)
          · omega
          · exact hne h
        · exact hmem piece hp

/-- The queued bytes and the in-flight bytes of a stream. -/
def Stream.queued (st : Stream) : Nat := size st.queue + size st.inFlight.toList

/-! ## Outputs that the pools can serve -/

namespace Sys

variable {blake3 : Bytes → Bytes} {g : Nat} {keyring : List Bytes} {s s' : Sys} {st st' : Stream} {i : Nat}
  {piece : Bytes} {pieces : List Bytes} {moves : List Move}

/-- Stream `i` is `st`, between two outputs. -/
structure Idle (s : Sys) (i : Nat) (st : Stream) : Prop where
  at_index : s.streams[i]? = some st
  running : st.finished = false
  connected : st.closed = false
  reserved : st.reserved = []
  pools : st.budget.globalMemory ≠ st.budget.semaphore

/-- `s'` is `s` with `n` bytes more in the queue of stream `i`. -/
structure Enqueued (s : Sys) (i : Nat) (st : Stream) (n : Nat) (s' : Sys) (st' : Stream) : Prop where
  idle : s'.Idle i st'
  frame : s' = { s with mem := s'.mem, streams := s.streams.set i st' }
  next : s'.mem.next = s.mem.next
  queue : ∃ segs, st' = { st with queue := st.queue ++ segs } ∧ size segs = n
  available : ∀ sem, s'.mem.pools.available sem + (if sem = st.budget.semaphore then n else 0) +
    (if sem = st.budget.globalMemory then n else 0) = s.mem.pools.available sem

theorem step_stream {m' : Memory} {mv : StreamMove} (hst : s.streams[i]? = some st)
    (hmv : st.step s.mem mv = some (m', st')) :
    s.step blake3 (.stream i mv) = some { s with mem := m', streams := s.streams.set i st' } := by
  simp only [step, hst, hmv, Option.map_some]

theorem run_piece (h : s.Idle i st) (hroom : st.queue.length < queueItems) (hne : piece ≠ [])
    (hcap : piece.length ≤ st.budget.capacity) (hu32 : piece.length ≤ u32Max)
    (hlocal : piece.length ≤ s.mem.pools.available st.budget.semaphore)
    (hglobal : piece.length ≤ s.mem.pools.available st.budget.globalMemory) :
    ∃ s' st', s.run blake3 [.stream i (.reserve piece), .stream i (.send 0)] = some s' ∧
      s.Enqueued i st piece.length s' st' ∧ st'.queue.length = st.queue.length + 1 := by
  obtain ⟨seg, hok⟩ := Memory.reserve_ok hne hcap hu32 hlocal hglobal h.pools
  rcases s.mem.reserve_cases st.budget piece with ⟨seg', pools₁, pools₂, hr, hbytes, -, -, h₁, h₂⟩ | ⟨e, he⟩
  · obtain ⟨hi, -⟩ := List.getElem?_eq_some_iff.1 h.at_index
    let m' : Memory := { s.mem with pools := pools₂, inUse := s.mem.inUse + UInt64.ofNat piece.length }
    let sent : Stream := { st with queue := st.queue ++ [seg'] }
    refine ⟨{ s with mem := m', streams := s.streams.set i sent }, sent, ?_, ?_, ?_⟩
    · have hreserve : st.step s.mem (.reserve piece) = some (m', { st with reserved := [seg'] }) := by
        simp [Stream.step, h.running, hr, h.reserved, m']
      have hsend : Stream.step m' { st with reserved := [seg'] } (.send 0) = some (m', sent) := by
        simp [Stream.step, h.running, h.connected, hroom, sent, ← h.reserved]
      rw [run, Machine.run_cons, step_stream h.at_index hreserve, Option.bind_some, Machine.run_cons,
        step_stream (List.getElem?_set_self hi) hsend, Option.bind_some, Machine.run_nil, List.set_set]
    · exact {
        idle := ⟨List.getElem?_set_self hi, h.running, h.connected, h.reserved, h.pools⟩
        frame := rfl
        next := rfl
        queue := ⟨[seg'], rfl, by rw [size_cons, hbytes]; rfl⟩
        available := by
          intro sem
          have e₁ := Pools.tryAcquire_available h₁ sem
          have e₂ := Pools.tryAcquire_available h₂ sem
          change pools₂.available sem + _ + _ = _
          omega }
    · exact List.length_append
  · rw [he] at hok
    cases hok

/-- Pieces that the pools and the channel have room for. -/
theorem run_pieces (blake3 : Bytes → Bytes) : ∀ {pieces : List Bytes} {s : Sys} {st : Stream}, s.Idle i st →
    st.queue.length + pieces.length ≤ queueItems →
    (∀ piece ∈ pieces, piece ≠ [] ∧ piece.length ≤ st.budget.capacity ∧ piece.length ≤ u32Max) →
    pieces.flatten.length ≤ s.mem.pools.available st.budget.semaphore →
    pieces.flatten.length ≤ s.mem.pools.available st.budget.globalMemory →
    ∃ s' st', s.run blake3 (pieces.flatMap fun piece => [.stream i (.reserve piece), .stream i (.send 0)]) = some s' ∧
      s.Enqueued i st pieces.flatten.length s' st'
  | [], s, st, h, _, _, _, _ => by
    obtain ⟨hi, hst⟩ := List.getElem?_eq_some_iff.1 h.at_index
    refine ⟨s, st, rfl, h, ?_, rfl, ⟨[], ?_, rfl⟩, fun sem => ?_⟩
    · rw [← hst, List.set_getElem_self]
    · rw [List.append_nil]
    · simp
  | piece :: pieces, s, st, h, hroom, hp, hlocal, hglobal => by
    rw [List.length_cons] at hroom
    rw [List.flatten_cons, List.length_append] at hlocal hglobal
    obtain ⟨hne, hcap, hu32⟩ := hp piece List.mem_cons_self
    obtain ⟨s₁, st₁, hr₁, he₁, hq₁⟩ := run_piece h (by omega) hne hcap hu32 (by omega) (by omega)
    obtain ⟨segs₁, rfl, hsize₁⟩ := he₁.queue
    have hav := he₁.available
    have hav₁ := hav st.budget.semaphore
    have hav₂ := hav st.budget.globalMemory
    rw [if_pos rfl, if_neg (Ne.symm h.pools)] at hav₁
    rw [if_neg h.pools, if_pos rfl] at hav₂
    obtain ⟨s₂, st₂, hr₂, he₂⟩ := run_pieces blake3 he₁.idle (by simp only [hq₁]; omega)
      (fun piece' hp' => hp piece' (List.mem_cons_of_mem _ hp')) (by simp only; omega) (by simp only; omega)
    obtain ⟨segs₂, rfl, hsize₂⟩ := he₂.queue
    refine ⟨s₂, _, ?_, he₂.idle, ?_, he₂.next.trans he₁.next, ⟨segs₁ ++ segs₂, ?_, ?_⟩, fun sem => ?_⟩
    · rw [List.flatMap_cons]
      exact (Machine.run_append_some hr₁).trans hr₂
    · have hframe := he₂.frame
      rw [he₁.frame] at hframe
      simpa only [List.set_set] using hframe
    · simp only [List.append_assoc]
    · rw [size_append, hsize₁, hsize₂, List.flatten_cons, List.length_append]
    · have e₁ := he₁.available sem
      have e₂ := he₂.available sem
      rw [List.flatten_cons, List.length_append, ite_add_zero, ite_add_zero]
      simp only at e₁ e₂
      omega

/-- An output that the pools and the channel have room for. -/
theorem run_enqueue (blake3 : Bytes → Bytes) (bytes : Bytes) (h : s.Idle i st)
    (hroom : st.queue.length + (bytes.length + st.budget.capacity - 1) / st.budget.capacity ≤ queueItems)
    (hu32 : st.budget.capacity ≤ u32Max) (hlocal : bytes.length ≤ s.mem.pools.available st.budget.semaphore)
    (hglobal : bytes.length ≤ s.mem.pools.available st.budget.globalMemory) :
    ∃ s' st', s.run blake3 (enqueueMoves i st.budget.capacity bytes) = some s' ∧ s.Enqueued i st bytes.length s' st' := by
  obtain ⟨hflat, hmem⟩ := flatten_slices st.budget.capacity_pos bytes
  have hcount : (slices st.budget.capacity bytes).length = (bytes.length + st.budget.capacity - 1) / st.budget.capacity := by
    rw [slices, List.length_map, List.length_range]
  have hfit : ∀ piece ∈ slices st.budget.capacity bytes,
      piece ≠ [] ∧ piece.length ≤ st.budget.capacity ∧ piece.length ≤ u32Max :=
    fun piece hp => ⟨(hmem piece hp).1, (hmem piece hp).2, (hmem piece hp).2.trans hu32⟩
  have hrun := run_pieces blake3 h (hcount ▸ hroom) hfit (hflat.symm ▸ hlocal) (hflat.symm ▸ hglobal)
  rwa [hflat] at hrun

/-- The first stream of a tenant. -/
theorem step_openStream (blake3 : Bytes → Bytes) {tenant : TenantId} {capacity : Nat} (h : s.Sound g)
    (hnone : s.tenantBudgets tenant = none) (hpos : 0 < capacity) :
    ∃ s' st, s.step blake3 (.openStream tenant capacity) = some s' ∧
      s'.streams = s.streams ++ [st] ∧ s'.Idle s.streams.length st ∧ st = .open tenant st.budget ∧
      st.budget.capacity = capacity ∧ s'.mem.pools.available st.budget.semaphore = tenantMemoryBudget ∧
      s'.mem.pools.available st.budget.globalMemory = s.mem.pools.available s.globalMemory ∧
      st.budget.globalMemory = s.globalMemory ∧ s'.globalMemory = s.globalMemory ∧
      s'.tenantBudgets tenant = some st.budget.semaphore := by
  have hne := Nat.ne_of_lt h.global.1
  simp only [step, withTenant, dif_pos hpos, Option.map_some, tenantSemaphore, hnone]
  refine ⟨_, _, rfl, rfl, ⟨?_, rfl, rfl, rfl, hne⟩, rfl, rfl, ?_, ?_, rfl, rfl, ?_⟩
  · exact List.getElem?_concat_length
  · exact Function.update_self _ _ _
  · exact Function.update_of_ne hne _ _
  · exact Function.update_self _ _ _

/-- `s'` is `s` with a new stream, whose `n` bytes are on the channel. -/
structure Opened (s : Sys) (tenant : TenantId) (capacity n : Nat) (s' : Sys) (st : Stream) : Prop where
  streams : s'.streams = s.streams ++ [st]
  tenant : st.tenant = tenant
  capacity : st.budget.capacity = capacity
  queued : st.queued = n
  segments : size st.segments = n
  globalMemory : s'.globalMemory = s.globalMemory
  available : s'.mem.pools.available s.globalMemory + n = s.mem.pools.available s.globalMemory
  mapped : s'.tenantBudgets st.tenant = some st.budget.semaphore
  left : s'.mem.pools.available st.budget.semaphore + n = tenantMemoryBudget

/-- The first output of a tenant's first stream. -/
theorem run_first_output (blake3 : Bytes → Bytes) {tenant : TenantId} {capacity : Nat} {bytes : Bytes} (h : s.Sound g)
    (hnone : s.tenantBudgets tenant = none) (hpos : 0 < capacity) (hu32 : capacity ≤ u32Max)
    (hroom : (bytes.length + capacity - 1) / capacity ≤ queueItems) (hlocal : bytes.length ≤ tenantMemoryBudget)
    (hglobal : bytes.length ≤ s.mem.pools.available s.globalMemory) :
    ∃ s' st, s.run blake3 (.openStream tenant capacity :: enqueueMoves s.streams.length capacity bytes) = some s' ∧
      s.Opened tenant capacity bytes.length s' st := by
  obtain ⟨s₁, st₁, hopen, hstreams, hidle, hst, hcap, hsem, hgm, hgs, hgs', hmap⟩ := step_openStream blake3 h hnone hpos
  obtain ⟨s₂, st₂, hrun, he⟩ := run_enqueue blake3 bytes hidle (by rw [hcap, hst]; simpa [Stream.open] using hroom)
    (by rwa [hcap]) (by rwa [hsem]) (by rwa [hgm])
  obtain ⟨segs, rfl, hsize⟩ := he.queue
  refine ⟨s₂, { st₁ with queue := st₁.queue ++ segs }, ?_, ?_⟩
  · rw [hcap] at hrun
    exact Machine.run_cons_some.2 ⟨s₁, hopen, hrun⟩
  · exact {
      streams := by
        rw [he.frame, hstreams]
        simp
      tenant := by rw [hst]; rfl
      capacity := hcap
      queued := by
        rw [hst]
        simp [Stream.queued, Stream.open, hsize]
      segments := by
        rw [hst]
        simp [Stream.segments, Stream.open, hsize]
      globalMemory := by rw [he.frame, hgs']
      available := by
        have hav := he.available st₁.budget.globalMemory
        rw [if_neg hidle.pools, if_pos rfl, hgm, hgs] at hav
        exact hav
      mapped := by
        have ht : st₁.tenant = tenant := by rw [hst]; rfl
        rw [he.frame]
        exact ht ▸ hmap
      left := by
        have hav := he.available st₁.budget.semaphore
        rw [if_pos rfl, if_neg hidle.pools.symm, hsem] at hav
        exact hav }

/-! ## One stream -/

theorem Sound.queued_le (h : s.Sound g) (hst : st ∈ s.streams) : st.queued ≤ tenantMemoryBudget ∧ st.queued ≤ g := by
  obtain ⟨i, hi⟩ := List.getElem?_of_mem hst
  have ho := h.owned st hst
  have hsize : st.queued ≤ size st.segments := by
    simp only [Stream.queued, Stream.segments, size_append]
    omega
  constructor
  · rw [← ho.semaphore.initial]
    exact hsize.trans (h.size_le (segments_perm hi) fun seg hseg => .inl (ho.segments seg hseg).1)
  · rw [← h.global.2]
    exact hsize.trans (h.size_le (segments_perm hi) fun seg hseg => .inr (ho.segments seg hseg).2)

/-- One output of `capacity + 1` bytes, on the first stream of a process. -/
theorem run_enqueue_over (tenant : TenantId) {capacity : Nat} (hpos : 0 < capacity)
    (htenant : capacity < tenantMemoryBudget) (hglobal : capacity < g) :
    ∃ s' st, (init g keyring).run blake3
        (.openStream tenant capacity :: enqueueMoves 0 capacity (List.replicate (capacity + 1) 0)) = some s' ∧
      st ∈ s'.streams ∧ st.budget.capacity = capacity ∧ st.queued = capacity + 1 := by
  have hu32 : tenantMemoryBudget ≤ u32Max := by decide
  have hlen : (List.replicate (capacity + 1) (0 : UInt8)).length = capacity + 1 := List.length_replicate
  have hroom : (capacity + 1 + capacity - 1) / capacity ≤ queueItems := by
    have h2 : capacity + 1 + capacity - 1 = capacity * 2 := by omega
    rw [h2, Nat.mul_div_cancel_left _ hpos]
    decide
  have hg : (init g keyring).mem.pools.available (init g keyring).globalMemory = g := rfl
  obtain ⟨s, st, hrun, ho⟩ := run_first_output blake3 (sound_init g keyring)
    (show (init g keyring).tenantBudgets tenant = none from rfl) hpos (by omega) (by rwa [hlen]) (by rw [hlen]; omega)
    (by rw [hlen, hg]; omega)
  exact ⟨s, st, hrun, by rw [ho.streams]; simp, ho.capacity, ho.queued.trans hlen⟩

/-- **A stream is within its capacity exactly where a pool is.** Over every run, `queued bytes + in-flight
bytes ≤ capacity` for the streams of that capacity, iff the tenant's pool or the global one is no larger. -/
theorem queued_within_capacity_iff {capacity : Nat} (hpos : 0 < capacity) :
    (∀ moves s, (init g keyring).run blake3 moves = some s →
      ∀ st ∈ s.streams, st.budget.capacity = capacity → st.queued ≤ capacity) ↔
    tenantMemoryBudget ≤ capacity ∨ g ≤ capacity := by
  constructor
  · intro h
    by_contra hcon
    obtain ⟨s, st, hrun, hst, hcap, hqueued⟩ := run_enqueue_over (g := g) (Vector.replicate 32 0) hpos (by omega) (by omega)
    have := h _ s hrun st hst hcap
    omega
  · rintro hcap moves s hrun st hst -
    obtain ⟨htenant, hglobal⟩ := (run_sound (sound_init g keyring) hrun).queued_le hst
    rcases hcap with hcap | hcap
    · exact htenant.trans hcap
    · exact hglobal.trans hcap

theorem queued_within_tenant_capacity : 0 < tenantMemoryBudget ∧
    ∀ moves s, (init (256 * 1024 * 1024) []).run (fun b => b) moves = some s →
      ∀ st ∈ s.streams, st.budget.capacity = tenantMemoryBudget → st.queued ≤ tenantMemoryBudget :=
  ⟨by decide, (queued_within_capacity_iff (by decide)).2 (.inl (Nat.le_refl _))⟩

/-- The sizes of the server: one output of 2 MiB and a byte is on the channel whole. -/
theorem queued_over_capacity : ∃ s st, (init (256 * 1024 * 1024) []).run (fun b => b)
      (.openStream (Vector.replicate 32 1) outputByteBudget ::
        enqueueMoves 0 outputByteBudget (List.replicate (outputByteBudget + 1) 0)) = some s ∧
    st ∈ s.streams ∧ st.budget.capacity = outputByteBudget ∧ st.queued = outputByteBudget + 1 :=
  run_enqueue_over _ (by decide) (by decide) (by decide)

/-! ## One tenant -/

/-- The live segments of a tenant, across its streams. -/
def tenantSegments (s : Sys) (tenant : TenantId) : List BudgetedSegment :=
  (s.streams.filter (·.tenant = tenant)).flatMap Stream.segments

/-- Still running, or with live segments. -/
def Active (st : Stream) : Prop := st.finished = false ∨ st.segments ≠ []

/-- The streams of a tenant that still count draw on one semaphore, the one that the map has if it has one. -/
structure Shared (s : Sys) : Prop where
  agree : ∀ st ∈ s.streams, ∀ st' ∈ s.streams, Active st → Active st' → st.tenant = st'.tenant →
    st.budget.semaphore = st'.budget.semaphore
  mapped : ∀ st ∈ s.streams, Active st → ∀ sem, s.tenantBudgets st.tenant = some sem → st.budget.semaphore = sem

/-- A new semaphore is made for a tenant only once its streams are over and their segments gone. -/
def OpensInTurn (s : Sys) : Move → Prop
  | .openStream tenant _ => s.tenantBudgets tenant = none →
    ∀ st ∈ s.streams, st.tenant = tenant → st.finished = true ∧ st.segments = []
  | _ => True

/-- Every step of the run meets `C`. -/
def Meets (blake3 : Bytes → Bytes) (C : Sys → Move → Prop) : Sys → List Move → Prop
  | _, [] => True
  | s, move :: moves => C s move ∧ ∀ s', s.step blake3 move = some s' → Meets blake3 C s' moves

/-- Streams that have no new counterpart, in a map with no new entries. -/
theorem Shared.of_streams (h : s.Shared)
    (hmap : ∀ tenant sem, s'.tenantBudgets tenant = some sem → s.tenantBudgets tenant = some sem)
    (hstreams : ∀ st' ∈ s'.streams, Active st' →
      ∃ st ∈ s.streams, Active st ∧ st'.tenant = st.tenant ∧ st'.budget = st.budget) : s'.Shared := by
  constructor
  · intro st₁ h₁ st₂ h₂ ha₁ ha₂ ht
    obtain ⟨st₁', h₁', ha₁', ht₁, hb₁⟩ := hstreams st₁ h₁ ha₁
    obtain ⟨st₂', h₂', ha₂', ht₂, hb₂⟩ := hstreams st₂ h₂ ha₂
    rw [hb₁, hb₂]
    exact h.agree st₁' h₁' st₂' h₂' ha₁' ha₂' (ht₁.symm.trans (ht.trans ht₂))
  · intro st₁ h₁ ha₁ sem hsem
    obtain ⟨st₁', h₁', ha₁', ht₁, hb₁⟩ := hstreams st₁ h₁ ha₁
    rw [hb₁]
    exact h.mapped st₁' h₁' ha₁' sem (hmap _ _ (ht₁ ▸ hsem))

/-- A stream that is over stays so. -/
theorem active_of_step {m m' : Memory} {mv : StreamMove} (h : st.step m mv = some (m', st')) (ha : Active st') :
    Active st := by
  obtain ⟨-, -, hf⟩ := Stream.step_keeps h
  by_contra hna
  unfold Active at hna
  simp only [not_or, Bool.not_eq_false, not_not] at hna
  obtain ⟨hfin, hsegs⟩ := hna
  rcases Stream.step_cases h with ⟨_, _, -, hrun, -⟩ | ⟨dropped, -, hp⟩
  · rw [hfin] at hrun
    cases hrun
  · rw [hsegs] at hp
    rcases ha with ha | ha
    · rw [hf hfin] at ha
      cases ha
    · exact ha (List.append_eq_nil_iff.1 (List.nil_perm.1 hp)).2

/-- The semaphore handed out is the one in the map from then on. -/
theorem tenantSemaphore_map (s : Sys) (tenant : TenantId) : (s.tenantSemaphore tenant).2.tenantBudgets =
    Function.update s.tenantBudgets tenant (some (s.tenantSemaphore tenant).1) := by
  unfold tenantSemaphore
  split
  · rename_i sem hsem
    rw [← hsem, Function.update_eq_self]
  · rfl

theorem tenantSemaphore_shared {tenant : TenantId} {capacity : Nat} (h : s.Shared)
    (hc : s.OpensInTurn (.openStream tenant capacity)) (hst : st ∈ s.streams) (ha : Active st) (ht : st.tenant = tenant) :
    st.budget.semaphore = (s.tenantSemaphore tenant).1 := by
  unfold tenantSemaphore
  split
  · rename_i sem hsem
    exact h.mapped st hst ha sem (ht ▸ hsem)
  · rename_i hnone
    obtain ⟨hf, hsegs⟩ := hc hnone st hst ht
    rcases ha with ha | ha
    · rw [hf] at ha
      cases ha
    · exact absurd hsegs ha

theorem shared_openStream {tenant : TenantId} {capacity : Nat} (h : s.Shared)
    (hc : s.OpensInTurn (.openStream tenant capacity))
    (hs : s.step blake3 (.openStream tenant capacity) = some s') : s'.Shared := by
  simp only [step, withTenant, Option.map_dif, Option.dite_none_right_eq_some, Option.some.injEq] at hs
  obtain ⟨hpos, rfl⟩ := hs
  obtain ⟨hstreams, -⟩ := s.tenantSemaphore_streams tenant
  have hmap := s.tenantSemaphore_map tenant
  constructor
  · simp only [hstreams, List.mem_append, List.mem_singleton]
    rintro st₁ (h₁ | rfl) st₂ (h₂ | rfl) ha₁ ha₂ ht
    · exact h.agree st₁ h₁ st₂ h₂ ha₁ ha₂ ht
    · exact tenantSemaphore_shared h hc h₁ ha₁ ht
    · exact (tenantSemaphore_shared h hc h₂ ha₂ ht.symm).symm
    · rfl
  · simp only [hstreams, List.mem_append, List.mem_singleton, hmap, Function.update_apply]
    rintro st₁ (h₁ | rfl) ha₁ sem hsem
    · split at hsem
      · rename_i ht
        rw [tenantSemaphore_shared h hc h₁ ha₁ ht]
        exact Option.some.inj hsem
      · exact h.mapped st₁ h₁ ha₁ sem hsem
    · exact Option.some.inj ((if_pos rfl).symm.trans hsem)

theorem step_shared {move : Move} (h : s.Shared) (hc : s.OpensInTurn move) (hs : s.step blake3 move = some s') :
    s'.Shared := by
  cases move with
  | openStream tenant capacity => exact shared_openStream h hc hs
  | stream i mv =>
    obtain ⟨st, m', st', hst, hmv, rfl⟩ := step_stream_cases hs
    refine h.of_streams (fun _ _ hsem => hsem) fun st₁ h₁ ha => ?_
    rcases List.mem_or_eq_of_mem_set h₁ with h₁ | rfl
    · exact ⟨st₁, h₁, ha, rfl, rfl⟩
    · obtain ⟨ht, hb, -⟩ := Stream.step_keeps hmv
      exact ⟨st, List.mem_of_getElem? hst, active_of_step hmv ha, ht, hb⟩
  | memoryPermit =>
    simp only [step] at hs
    split at hs <;> cases hs
    · exact h
    · exact h.of_streams (fun _ _ hsem => hsem) fun st hst ha => ⟨st, hst, ha, rfl, rfl⟩
  | dropMemoryPermit k =>
    simp only [step] at hs
    split at hs <;> cases hs
    exact h.of_streams (fun _ _ hsem => hsem) fun st hst ha => ⟨st, hst, ha, rfl, rfl⟩
  | reload contents =>
    cases hs
    unfold watchAuthFile
    simp only
    split
    · exact h
    · exact h.of_streams (by simp) fun st hst ha => ⟨st, hst, ha, rfl, rfl⟩

theorem run_shared : ∀ {moves : List Move} {s s' : Sys}, s.Shared → s.Meets blake3 OpensInTurn moves →
    s.run blake3 moves = some s' → s'.Shared
  | [], _, _, h, _, hr => by
    cases hr
    exact h
  | _ :: _, _, _, h, ⟨hc, hmeets⟩, hr => by
    obtain ⟨s₁, hs, hr⟩ := Machine.run_cons_some.1 hr
    exact run_shared (step_shared h hc hs) (hmeets s₁ hs) hr

theorem segments_tenant_perm (s : Sys) (tenant : TenantId) : s.segments.Perm
    (s.tenantSegments tenant ++ (s.streams.filter fun st => !decide (st.tenant = tenant)).flatMap Stream.segments) := by
  unfold segments tenantSegments
  rw [← List.flatMap_append]
  exact (List.filter_append_perm _ _).symm.flatMap_right _

/-- **A tenant is within its budget.** In every run where a new semaphore is made for a tenant only once
its earlier streams are over, its live segments never exceed `TENANT_MEMORY_BUDGET`. -/
theorem tenant_within_budget (hrun : (init g keyring).run blake3 moves = some s)
    (hmeets : (init g keyring).Meets blake3 OpensInTurn moves) (tenant : TenantId) :
    size (s.tenantSegments tenant) ≤ tenantMemoryBudget := by
  have hsound := run_sound (sound_init g keyring) hrun
  have hshared : s.Shared := run_shared ⟨by simp [init], by simp [init]⟩ hmeets hrun
  by_cases hnil : s.tenantSegments tenant = []
  · rw [hnil]
    exact Nat.zero_le _
  · -- one live segment of the tenant names the semaphore of all of them
    obtain ⟨seg₀, hseg₀⟩ := List.exists_mem_of_ne_nil _ hnil
    obtain ⟨st₀, hst₀, hseg₀⟩ := List.mem_flatMap.1 hseg₀
    rw [List.mem_filter, decide_eq_true_eq] at hst₀
    rw [← (hsound.owned st₀ hst₀.1).semaphore.initial]
    refine hsound.size_le (s.segments_tenant_perm tenant) fun seg hseg => .inl ?_
    obtain ⟨st, hst, hseg⟩ := List.mem_flatMap.1 hseg
    rw [List.mem_filter, decide_eq_true_eq] at hst
    rw [((hsound.owned st hst.1).segments seg hseg).1]
    exact hshared.agree st hst.1 st₀ hst₀.1 (.inr (List.ne_nil_of_mem hseg)) (.inr (List.ne_nil_of_mem hseg₀))
      (hst.2.trans hst₀.2.symm)

/-- The digest of the one token of the new file. -/
def tokenDigest : Bytes → Bytes
  | [107, 50] => [140, 56, 28, 142, 162, 51, 19, 184, 173, 54, 127, 31, 197, 113, 3, 99,
      244, 244, 14, 209, 88, 127, 162, 195, 138, 209, 156, 146, 184, 234, 213, 83]
  | _ => []

theorem tenant_within_budget_sample : ∃ s, (init 5 []).run tokenDigest (sampleMoves ++ [.reload "k2"]) = some s ∧
    size (s.tenantSegments (Vector.replicate 32 1)) = 4 ∧
    size (s.tenantSegments (Vector.replicate 32 1)) ≤ tenantMemoryBudget := by
  have hrun : ((init 5 []).run tokenDigest (sampleMoves ++ [.reload "k2"])).map
      (fun s => size (s.tenantSegments (Vector.replicate 32 1))) = some 4 := rfl
  obtain ⟨s, hs, hval⟩ := Option.map_eq_some_iff.1 hrun
  refine ⟨s, hs, hval, tenant_within_budget hs ⟨fun _ st hst => ?_, fun _ _ => ?_⟩ _⟩
  · simp [init] at hst
  · exact ⟨trivial, fun _ _ => ⟨trivial, fun _ _ => ⟨trivial, fun _ _ => ⟨trivial, fun _ _ => ⟨trivial, fun _ _ =>
      ⟨trivial, fun _ _ => trivial⟩⟩⟩⟩⟩⟩

/-- A tenant that stays across a reload: one stream before it, one after. -/
def reloadMoves (tenant : TenantId) : List Move :=
  .openStream tenant outputByteBudget :: enqueueMoves 0 outputByteBudget (List.replicate tenantMemoryBudget 0) ++
    .reload "k2" :: .openStream tenant outputByteBudget :: enqueueMoves 1 outputByteBudget [0]

theorem run_reloadMoves (tenant : TenantId) (hkeys : hashKeyring blake3 "k2" ≠ []) (hg : tenantMemoryBudget < g) :
    ∃ s, (init g keyring).run blake3 (reloadMoves tenant) = some s ∧
      size (s.tenantSegments tenant) = tenantMemoryBudget + 1 := by
  have hpos : 0 < outputByteBudget := by decide
  have hu32 : outputByteBudget ≤ u32Max := by decide
  have hlen : (List.replicate tenantMemoryBudget (0 : UInt8)).length = tenantMemoryBudget := List.length_replicate
  have hav : (init g keyring).mem.pools.available (init g keyring).globalMemory = g := rfl
  -- the stream before the reload takes the tenant's whole pool
  obtain ⟨s₁, st₁, hrun₁, ho₁⟩ := run_first_output blake3 (sound_init g keyring)
    (show (init g keyring).tenantBudgets tenant = none from rfl) hpos hu32 (by rw [hlen]; decide) (Nat.le_of_eq hlen)
    (by rw [hlen, hav]; omega)
  have hav₁ := ho₁.available
  rw [hlen, hav, ← ho₁.globalMemory] at hav₁
  -- the reload forgets its semaphore, and the stream after it gets another
  let s₂ : Sys := { s₁ with tenantBudgets := fun _ => none, keyring := hashKeyring blake3 "k2" }
  have hreload : s₁.step blake3 (.reload "k2") = some s₂ := by
    simp only [step, watchAuthFile, if_neg hkeys, s₂]
  obtain ⟨s₃, st₃, hrun₃, ho₃⟩ := run_first_output blake3
    (step_sound (run_sound (sound_init g keyring) hrun₁) hreload) (show s₂.tenantBudgets tenant = none from rfl)
    hpos hu32 (show (([0] : Bytes).length + outputByteBudget - 1) / outputByteBudget ≤ queueItems by decide) (by decide)
    (by change 1 ≤ s₁.mem.pools.available s₁.globalMemory; omega)
  have hstreams : s₃.streams = [st₁, st₃] := by rw [ho₃.streams, show s₂.streams = s₁.streams from rfl, ho₁.streams]; rfl
  have hindex : s₂.streams.length = 1 := by rw [show s₂.streams = s₁.streams from rfl, ho₁.streams]; rfl
  refine ⟨s₃, ?_, ?_⟩
  · rw [hindex] at hrun₃
    rw [show (init g keyring).streams.length = 0 from rfl] at hrun₁
    exact (Machine.run_append_some hrun₁).trans (Machine.run_cons_some.2 ⟨s₂, hreload, hrun₃⟩)
  · rw [tenantSegments, hstreams]
    simp [ho₁.tenant, ho₃.tenant, ho₁.segments, ho₃.segments]

/-- A reload that keeps the tenant: its live segments are a byte over `TENANT_MEMORY_BUDGET`. -/
theorem reload_exceeds_budget : ∃ s,
    (init (256 * 1024 * 1024) []).run tokenDigest (reloadMoves (Vector.replicate 32 1)) = some s ∧
    size (s.tenantSegments (Vector.replicate 32 1)) = tenantMemoryBudget + 1 := by
  apply run_reloadMoves
  · have h : hashKeyring tokenDigest "k2" = [tokenDigest [107, 50]] := rfl
    rw [h]
    exact List.cons_ne_nil _ _
  · decide

end Sys

end PiiProxy.BudgetQueue
