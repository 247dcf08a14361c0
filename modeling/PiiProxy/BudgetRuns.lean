import PiiProxy.BudgetQueue

/-!
# Runs of the byte budgets

Where the permits are, and what the counter says, in every state of a run: a segment holds
its permits from the reservation to its drop, whatever path it takes between.

* `Balanced` — the pools and the counter, against the live segments
* `Stream.step_cases` — a move of a stream reserves one segment, or drops some
* `Sys.Sound`, `Sys.run_sound` — the books of the whole process
-/

namespace PiiProxy.BudgetQueue

open Permits (Permit Pools Conserved held)

variable {m m' : Memory} {b : ByteBudget} {bytes : Bytes} {seg : BudgetedSegment}
  {segs segs' : List BudgetedSegment} {chunks : List (Permit Sem)}

def BudgetedSegment.permits (seg : BudgetedSegment) : List (Permit Sem) := [seg.localPermit, seg.globalPermit]

/-- The permits that these segments hold. -/
def permits (segs : List BudgetedSegment) : List (Permit Sem) := segs.flatMap BudgetedSegment.permits

/-- The bytes of all of them. -/
def size : List BudgetedSegment → Nat
  | [] => 0
  | seg :: segs => seg.bytes.length + size segs

@[simp] theorem permits_cons (seg : BudgetedSegment) (segs : List BudgetedSegment) :
    permits (seg :: segs) = seg.localPermit :: seg.globalPermit :: permits segs := rfl

@[simp] theorem size_nil : size [] = 0 := rfl

@[simp] theorem size_cons (seg : BudgetedSegment) (segs : List BudgetedSegment) :
    size (seg :: segs) = seg.bytes.length + size segs := rfl

@[simp] theorem size_append : ∀ segs segs' : List BudgetedSegment, size (segs ++ segs') = size segs + size segs'
  | [], segs' => (Nat.zero_add _).symm
  | seg :: segs, segs' => by
    rw [List.cons_append, size_cons, size_cons, size_append segs segs', Nat.add_assoc]

theorem size_perm (h : segs.Perm segs') : size segs = size segs' := by
  induction h with
  | nil => rfl
  | cons seg _ ih => rw [size_cons, size_cons, ih]
  | swap seg seg' _ =>
    rw [size_cons, size_cons, size_cons, size_cons]
    omega
  | trans _ _ ih₁ ih₂ => exact ih₁.trans ih₂

/-- Segments that all draw on one pool. -/
theorem size_le_held {sem : Sem} : ∀ {segs : List BudgetedSegment},
    (∀ seg ∈ segs, seg.localPermit.pool = sem ∨ seg.globalPermit.pool = sem) → size segs ≤ held sem (permits segs)
  | [], _ => Nat.le_refl _
  | seg :: segs, h => by
    have ih := size_le_held fun seg' hseg' => h seg' (List.mem_cons_of_mem _ hseg')
    have hl := seg.local_count
    have hg := seg.global_count
    rw [size_cons, permits_cons, held, held]
    rcases h seg List.mem_cons_self with hp | hp
    · rw [if_pos hp]
      omega
    · rw [if_pos hp]
      omega

/-! ## The books -/

/-- What the pools have left and what the segments and the `chunks` hold make up the pools; the
counter is the size of the segments. -/
structure Balanced (m : Memory) (segs : List BudgetedSegment) (chunks : List (Permit Sem)) : Prop where
  conserved : Conserved m.pools (permits segs ++ chunks)
  counted : m.inUse = UInt64.ofNat (size segs)

namespace Balanced

theorem perm (h : Balanced m segs chunks) (hp : segs.Perm segs') : Balanced m segs' chunks :=
  ⟨h.conserved.perm ((hp.flatMap_right _).append_right _), by rw [h.counted, size_perm hp]⟩

theorem reserve (h : Balanced m segs chunks) (hr : m.reserve b bytes = (.ok seg, m')) :
    Balanced m' (seg :: segs) chunks := by
  rcases m.reserve_cases b bytes with ⟨seg', pools₁, pools₂, heq, hbytes, hl, hg, h₁, h₂⟩ | ⟨e, he⟩
  · rw [hr] at heq
    cases heq
    constructor
    · rw [permits_cons, hl, hg]
      exact ((h.conserved.acquire h₁).acquire h₂).perm (.swap _ _ _)
    · simp only [h.counted, size_cons, hbytes]
      rw [Nat.add_comm, UInt64.ofNat_add]
  · rw [hr] at he
    cases he

theorem dropSegment (h : Balanced m (seg :: segs) chunks) : Balanced (m.dropSegment seg) segs chunks := by
  have hneg : ¬ (0 : Int) < -(seg.localPermit.count : Int) := by omega
  constructor
  · have hc := h.conserved
    rw [permits_cons] at hc
    unfold Memory.dropSegment Memory.recordBudgetInUse
    rw [if_neg hneg]
    exact (hc.perm (.swap _ _ _)).release.release
  · unfold Memory.dropSegment Memory.recordBudgetInUse
    rw [if_neg hneg]
    simp only [Memory.releasePermit, h.counted, size_cons, seg.local_count, Int.natAbs_neg, Int.natAbs_natCast]
    rw [Nat.add_comm, UInt64.ofNat_add, UInt64.add_sub_cancel]

theorem dropSegments : ∀ {dropped : List BudgetedSegment} {m : Memory}, Balanced m (dropped ++ segs) chunks →
    Balanced (m.dropSegments dropped) segs chunks
  | [], _, h => h
  | seg :: dropped, m, h => by
    have ih : Balanced ((m.dropSegment seg).dropSegments dropped) segs chunks := dropSegments h.dropSegment
    exact ih

end Balanced

/-! ## One stream -/

theorem Memory.reserve_error {e : BudgetError} (h : m.reserve b bytes = (.error e, m')) : m' = m := by
  rcases m.reserve_cases b bytes with ⟨seg, pools₁, pools₂, heq, -⟩ | ⟨e', he⟩
  · rw [h] at heq
    cases heq
  · rw [h] at he
    cases he
    rfl

theorem eraseIdx_perm {α : Type} {l : List α} {k : Nat} {a : α} (h : l[k]? = some a) : l.Perm (a :: l.eraseIdx k) := by
  obtain ⟨hk, rfl⟩ := List.getElem?_eq_some_iff.1 h
  exact (List.getElem_cons_eraseIdx_perm hk).symm

/-- A poll lets go of the frame before. -/
theorem Stream.pollFrame_cases (st : Stream) : ∃ dropped, (st.pollFrame m).1 = m.dropSegments dropped ∧
    st.segments.Perm (dropped ++ (st.pollFrame m).2.1.segments) := by
  classical
  unfold Stream.pollFrame
  split
  · exact ⟨[], rfl, .refl _⟩
  · refine ⟨st.inFlight.toList, ?_⟩
    split
    · rename_i seg queue hq
      refine ⟨rfl, List.perm_iff_count.2 fun x => ?_⟩
      simp only [Stream.segments, hq, Option.toList_some, List.count_append, List.count_cons, List.count_nil]
      omega
    · rename_i hq
      split
      all_goals
        refine ⟨rfl, List.perm_iff_count.2 fun x => ?_⟩
        simp only [Stream.segments, hq, Option.toList_none, List.count_append, List.count_nil]
        omega

/-- Everything a move of one stream can do with its segments. -/
theorem Stream.step_cases {st st' : Stream} {move : StreamMove} (h : st.step m move = some (m', st')) :
    (∃ bytes seg, m.reserve st.budget bytes = (.ok seg, m') ∧ st.finished = false ∧
      st'.segments.Perm (seg :: st.segments)) ∨
    ∃ dropped, m' = m.dropSegments dropped ∧ st.segments.Perm (dropped ++ st'.segments) := by
  cases move with
  | reserve bytes =>
    simp only [Stream.step] at h
    split at h
    · cases h
    · rename_i hf
      split at h
      · rename_i seg m₁ hr
        cases h
        refine .inl ⟨bytes, seg, hr, by simpa using hf, ?_⟩
        simp only [Stream.segments, List.append_assoc]
        exact List.perm_middle
      · rename_i e m₁ hr
        cases h
        exact .inr ⟨[], Memory.reserve_error hr, .refl _⟩
  | send k =>
    simp only [Stream.step] at h
    split at h
    · cases h
    · split at h
      · cases h
      · rename_i seg hk
        split at h
        · cases h
          exact .inr ⟨[], rfl, .refl _⟩
        · split at h
          · cases h
            refine .inr ⟨[], rfl, ?_⟩
            simp only [Stream.segments, List.append_assoc, List.nil_append]
            refine ((eraseIdx_perm hk).append_right _).trans ?_
            exact (List.perm_middle.symm.trans (.append_left _ List.perm_middle.symm))
          · cases h
  | discard k =>
    simp only [Stream.step] at h
    split at h
    · cases h
    · rename_i seg hk
      cases h
      refine .inr ⟨[seg], rfl, ?_⟩
      simp only [Stream.segments, List.append_assoc, List.singleton_append]
      exact (eraseIdx_perm hk).append_right _
  | recv =>
    simp only [Stream.step] at h
    split at h
    · cases h
    · split at h
      · cases h
      · rename_i seg queue hq
        cases h
        refine .inr ⟨[], rfl, ?_⟩
        simp only [Stream.segments, hq, List.append_assoc, List.nil_append]
        refine .append_left _ ?_
        exact ((List.Perm.append_left _ List.perm_middle).trans List.perm_middle).symm
  | dropReceived k =>
    simp only [Stream.step] at h
    split at h
    · cases h
    · rename_i seg hk
      cases h
      refine .inr ⟨[seg], rfl, ?_⟩
      simp only [Stream.segments, List.singleton_append]
      exact ((eraseIdx_perm hk).append_left _).trans List.perm_middle
  | poll =>
    simp only [Stream.step] at h
    split at h
    · cases h
    · simp only [Option.some.injEq, Prod.mk.injEq] at h
      obtain ⟨rfl, rfl⟩ := h
      exact .inr st.pollFrame_cases
  | dropBody =>
    simp only [Stream.step] at h
    split at h
    · cases h
    · cases h
      refine .inr ⟨_, rfl, ?_⟩
      simp only [Stream.segments, List.append_nil, Option.toList_none]
      rw [List.append_assoc st.reserved, ← List.append_assoc _ st.reserved]
      exact List.perm_append_comm.append_right _
  | finish =>
    simp only [Stream.step] at h
    split at h
    · cases h
    · cases h
      refine .inr ⟨_, rfl, ?_⟩
      simp only [Stream.segments, List.nil_append, List.append_assoc]
      exact .refl _

theorem Stream.pollFrame_keeps (m : Memory) (st : Stream) : (st.pollFrame m).2.1.tenant = st.tenant ∧
    (st.pollFrame m).2.1.budget = st.budget ∧ (st.pollFrame m).2.1.finished = st.finished := by
  unfold Stream.pollFrame
  split
  · exact ⟨rfl, rfl, rfl⟩
  · split
    · exact ⟨rfl, rfl, rfl⟩
    · split <;> exact ⟨rfl, rfl, rfl⟩

/-- What no move of a stream changes; a task that has returned stays so. -/
theorem Stream.step_keeps {st st' : Stream} {move : StreamMove} (h : st.step m move = some (m', st')) :
    st'.tenant = st.tenant ∧ st'.budget = st.budget ∧ (st.finished = true → st'.finished = true) := by
  cases move with
  | poll =>
    obtain ⟨ht, hb, hf⟩ := st.pollFrame_keeps m
    simp only [Stream.step, Option.ite_none_left_eq_some, Option.some.injEq, Prod.mk.injEq] at h
    obtain ⟨-, -, rfl⟩ := h
    exact ⟨ht, hb, fun h => hf.trans h⟩
  | reserve _ | send _ | discard _ | recv | dropReceived _ | dropBody | finish =>
    simp only [Stream.step] at h
    repeat' split at h
    all_goals
      cases h
      try exact ⟨rfl, rfl, fun h => h⟩
    try exact ⟨rfl, rfl, fun _ => rfl⟩

/-! ## The whole process -/

theorem Memory.dropSegments_keeps : ∀ (segs : List BudgetedSegment) (m : Memory),
    (m.dropSegments segs).pools.initial = m.pools.initial ∧ (m.dropSegments segs).next = m.next
  | [], _ => ⟨rfl, rfl⟩
  | seg :: segs, m => by
    obtain ⟨hi, hn⟩ := dropSegments_keeps segs (m.dropSegment seg)
    have hseg : (m.dropSegment seg).pools.initial = m.pools.initial ∧ (m.dropSegment seg).next = m.next := by
      unfold Memory.dropSegment Memory.recordBudgetInUse
      split <;> exact ⟨rfl, rfl⟩
    exact ⟨hi.trans hseg.1, hn.trans hseg.2⟩

theorem Memory.reserve_keeps (h : m.reserve b bytes = (.ok seg, m')) :
    m'.pools.initial = m.pools.initial ∧ m'.next = m.next := by
  rcases m.reserve_cases b bytes with ⟨seg', pools₁, pools₂, heq, -, -, -, h₁, h₂⟩ | ⟨e, he⟩
  · rw [h] at heq
    cases heq
    exact ⟨(Pools.tryAcquire_initial h₂).trans (Pools.tryAcquire_initial h₁), rfl⟩
  · rw [h] at he
    cases he

theorem Stream.step_initial {st st' : Stream} {move : StreamMove} (h : st.step m move = some (m', st')) :
    m'.pools.initial = m.pools.initial ∧ m'.next = m.next := by
  rcases Stream.step_cases h with ⟨bytes, seg, hr, -, -⟩ | ⟨dropped, rfl, -⟩
  · exact Memory.reserve_keeps hr
  · exact Memory.dropSegments_keeps dropped m

namespace Sys

variable {blake3 : Bytes → Bytes} {g : Nat} {keyring : List Bytes} {s s' : Sys} {st st' : Stream} {sem : Sem}
  {move : Move} {moves : List Move}

/-- A semaphore that `with_tenant` made. -/
structure IsTenant (s : Sys) (sem : Sem) : Prop where
  ne_global : sem ≠ s.globalMemory
  allocated : sem < s.mem.next
  initial : s.mem.pools.initial sem = tenantMemoryBudget

/-- A stream draws on its tenant's pool and the global one, and so did its segments. -/
structure Owned (s : Sys) (st : Stream) : Prop where
  semaphore : s.IsTenant st.budget.semaphore
  globalMemory : st.budget.globalMemory = s.globalMemory
  segments : ∀ seg ∈ st.segments, seg.localPermit.pool = st.budget.semaphore ∧ seg.globalPermit.pool = s.globalMemory

structure Sound (g : Nat) (s : Sys) : Prop where
  balanced : Balanced s.mem s.segments s.memoryPermits
  chunks : ∀ p ∈ s.memoryPermits, p = ⟨s.globalMemory, globalMemoryChunk⟩
  global : s.globalMemory < s.mem.next ∧ s.mem.pools.initial s.globalMemory = g
  mapped : ∀ tenant sem, s.tenantBudgets tenant = some sem → s.IsTenant sem
  owned : ∀ st ∈ s.streams, s.Owned st

/-- Semaphores stay where and as large as they are. -/
structure Extends (s s' : Sys) : Prop where
  globalMemory : s'.globalMemory = s.globalMemory
  next : s.mem.next ≤ s'.mem.next
  initial : ∀ sem, sem < s.mem.next → s'.mem.pools.initial sem = s.mem.pools.initial sem

theorem IsTenant.mono (h : s.IsTenant sem) (he : s.Extends s') : s'.IsTenant sem :=
  ⟨he.globalMemory ▸ h.ne_global, Nat.lt_of_lt_of_le h.allocated he.next, (he.initial sem h.allocated).trans h.initial⟩

theorem Owned.mono (h : s.Owned st) (he : s.Extends s') : s'.Owned st :=
  ⟨h.semaphore.mono he, he.globalMemory ▸ h.globalMemory, he.globalMemory ▸ h.segments⟩

/-- What is left to show of a step that keeps the semaphores there are. -/
theorem Sound.extend (h : s.Sound g) (he : s.Extends s') (balanced : Balanced s'.mem s'.segments s'.memoryPermits)
    (chunks : ∀ p ∈ s'.memoryPermits, p = ⟨s.globalMemory, globalMemoryChunk⟩)
    (mapped : ∀ tenant sem, s'.tenantBudgets tenant = some sem → s.tenantBudgets tenant = some sem ∨ s'.IsTenant sem)
    (owned : ∀ st ∈ s'.streams, s.Owned st) : s'.Sound g where
  balanced := balanced
  chunks := by
    rw [he.globalMemory]
    exact chunks
  global := by
    rw [he.globalMemory]
    exact ⟨Nat.lt_of_lt_of_le h.global.1 he.next, (he.initial _ h.global.1).trans h.global.2⟩
  mapped := by
    intro tenant sem hsem
    rcases mapped tenant sem hsem with hold | hnew
    · exact (h.mapped tenant sem hold).mono he
    · exact hnew
  owned := fun st hst => (owned st hst).mono he

/-- No permit is out of a semaphore that does not exist yet. -/
theorem Sound.permit_lt (h : s.Sound g) : ∀ p ∈ permits s.segments ++ s.memoryPermits, p.pool < s.mem.next := by
  intro p hp
  rcases List.mem_append.1 hp with hp | hp
  · obtain ⟨seg, hseg, hp⟩ := List.mem_flatMap.1 hp
    obtain ⟨st, hst, hseg⟩ := List.mem_flatMap.1 hseg
    obtain ⟨hl, hg⟩ := (h.owned st hst).segments seg hseg
    simp only [BudgetedSegment.permits, List.mem_cons, List.not_mem_nil, or_false] at hp
    rcases hp with rfl | rfl
    · rw [hl]
      exact (h.owned st hst).semaphore.allocated
    · rw [hg]
      exact h.global.1
  · rw [h.chunks p hp]
    exact h.global.1

theorem sound_init (g : Nat) (keyring : List Bytes) : (init g keyring).Sound g where
  balanced := by
    constructor
    · intro i
      rfl
    · rfl
  chunks := by simp [init]
  global := by simp [init, Memory.newSemaphore, Pools.add]
  mapped := by simp [init]
  owned := by simp [init]

theorem sound_tenantSemaphore (h : s.Sound g) (tenant : TenantId) :
    (s.tenantSemaphore tenant).2.Sound g ∧ (s.tenantSemaphore tenant).2.IsTenant (s.tenantSemaphore tenant).1 := by
  unfold tenantSemaphore
  split
  · rename_i sem hsem
    exact ⟨h, h.mapped tenant sem hsem⟩
  · rename_i hnone
    have he (map) : s.Extends { s with mem := (s.mem.newSemaphore tenantMemoryBudget).2, tenantBudgets := map } := by
      refine ⟨rfl, Nat.le_succ _, fun sem hsem => ?_⟩
      exact Function.update_of_ne (Nat.ne_of_lt hsem) _ _
    have hnew (map) : IsTenant { s with mem := (s.mem.newSemaphore tenantMemoryBudget).2, tenantBudgets := map } s.mem.next :=
      ⟨Nat.ne_of_gt h.global.1, Nat.lt_succ_self _, Function.update_self _ _ _⟩
    refine ⟨h.extend (he _) ?_ h.chunks ?_ h.owned, hnew _⟩
    · exact ⟨h.balanced.conserved.add fun p hp => Nat.ne_of_lt (h.permit_lt p hp), h.balanced.counted⟩
    · intro tenant' sem hsem
      simp only [Function.update_apply] at hsem
      split at hsem
      · cases hsem
        exact .inr (hnew _)
      · exact .inl hsem

theorem tenantSemaphore_streams (s : Sys) (tenant : TenantId) : (s.tenantSemaphore tenant).2.streams = s.streams ∧
    (s.tenantSemaphore tenant).2.globalMemory = s.globalMemory := by
  unfold tenantSemaphore
  split <;> exact ⟨rfl, rfl⟩

theorem sound_openStream {tenant : TenantId} {capacity : Nat} (h : s.Sound g)
    (hs : s.step blake3 (.openStream tenant capacity) = some s') : s'.Sound g := by
  simp only [step, withTenant, Option.map_dif, Option.dite_none_right_eq_some, Option.some.injEq] at hs
  obtain ⟨hpos, rfl⟩ := hs
  obtain ⟨hsound, hsem⟩ := sound_tenantSemaphore h tenant
  obtain ⟨-, hglobal⟩ := s.tenantSemaphore_streams tenant
  refine hsound.extend ⟨rfl, Nat.le_refl _, fun _ _ => rfl⟩ ?_ hsound.chunks (fun _ _ => .inl) ?_
  · have := hsound.balanced
    simpa [segments, Stream.segments, Stream.open] using this
  · intro st hst
    rcases List.mem_append.1 hst with hst | hst
    · exact hsound.owned st hst
    · rw [List.mem_singleton.1 hst]
      exact ⟨hsem, hglobal.symm, by simp [Stream.segments, Stream.open]⟩

/-- The books with one stream put first. -/
theorem segments_perm {i : Nat} (h : s.streams[i]? = some st) :
    s.segments.Perm (st.segments ++ (s.streams.eraseIdx i).flatMap Stream.segments) :=
  (eraseIdx_perm h).flatMap_right _

theorem segments_set_perm {i : Nat} (h : s.streams[i]? = some st) (st' : Stream) :
    ((s.streams.set i st').flatMap Stream.segments).Perm
      (st'.segments ++ (s.streams.eraseIdx i).flatMap Stream.segments) := by
  obtain ⟨hi, -⟩ := List.getElem?_eq_some_iff.1 h
  exact (List.set_perm_cons_eraseIdx hi st').flatMap_right _

theorem balanced_stream {i : Nat} {mv : StreamMove} (h : s.Sound g) (hst : s.streams[i]? = some st)
    (hmv : st.step s.mem mv = some (m', st')) :
    Balanced m' ((s.streams.set i st').flatMap Stream.segments) s.memoryPermits := by
  have hb := h.balanced.perm (segments_perm hst)
  refine Balanced.perm ?_ (segments_set_perm hst st').symm
  rcases Stream.step_cases hmv with ⟨bytes, seg, hr, -, hp⟩ | ⟨dropped, rfl, hp⟩
  · exact (hb.reserve hr).perm ((hp.append_right _).symm)
  · refine (hb.perm ?_).dropSegments
    rw [← List.append_assoc]
    exact hp.append_right _

theorem owned_step {mv : StreamMove} (h : s.Owned st) (hmv : st.step s.mem mv = some (m', st')) : s.Owned st' := by
  obtain ⟨-, hb, -⟩ := Stream.step_keeps hmv
  refine ⟨hb ▸ h.semaphore, hb ▸ h.globalMemory, ?_⟩
  rw [hb]
  rcases Stream.step_cases hmv with ⟨bytes, seg, hr, -, hp⟩ | ⟨dropped, -, hp⟩
  · intro seg' hseg'
    rcases List.mem_cons.1 (hp.subset hseg') with rfl | hseg'
    · rcases s.mem.reserve_cases st.budget bytes with ⟨seg₁, _, _, heq, -, hl, hg, -, -⟩ | ⟨e, he⟩
      · rw [hr] at heq
        cases heq
        rw [hl, hg]
        exact ⟨rfl, h.globalMemory⟩
      · rw [hr] at he
        cases he
    · exact h.segments seg' hseg'
  · intro seg' hseg'
    exact h.segments seg' (hp.symm.subset (List.mem_append_right _ hseg'))

theorem step_stream_cases {i : Nat} {mv : StreamMove} (hs : s.step blake3 (.stream i mv) = some s') : ∃ st m' st',
    s.streams[i]? = some st ∧ st.step s.mem mv = some (m', st') ∧
      s' = { s with mem := m', streams := s.streams.set i st' } := by
  simp only [step] at hs
  split at hs
  · cases hs
  · rename_i st hst
    obtain ⟨⟨m', st'⟩, hmv, rfl⟩ := Option.map_eq_some_iff.1 hs
    exact ⟨st, m', st', hst, hmv, rfl⟩

theorem sound_stream {i : Nat} {mv : StreamMove} (h : s.Sound g) (hs : s.step blake3 (.stream i mv) = some s') :
    s'.Sound g := by
  obtain ⟨st, m', st', hst, hmv, rfl⟩ := step_stream_cases hs
  obtain ⟨hinit, hnext⟩ := Stream.step_initial hmv
  refine h.extend ⟨rfl, hnext.ge, fun sem _ => congrFun hinit sem⟩ (balanced_stream h hst hmv) h.chunks (fun _ _ => .inl) ?_
  intro st₁ hst₁
  rcases List.mem_or_eq_of_mem_set hst₁ with hst₁ | rfl
  · exact h.owned st₁ hst₁
  · exact owned_step (h.owned st (List.mem_of_getElem? hst)) hmv

theorem sound_memoryPermit (h : s.Sound g) (hs : s.step blake3 .memoryPermit = some s') : s'.Sound g := by
  have hchunk : asU32 globalMemoryChunk = globalMemoryChunk := by decide
  simp only [step] at hs
  split at hs
  · cases hs
    exact h
  · rename_i permit m' hm
    cases hs
    obtain ⟨ha, hm'⟩ := Memory.tryAcquireMany_some hm
    simp only at ha hm'
    have hp := permit.2
    have hinit := Pools.tryAcquire_initial ha
    refine h.extend ⟨rfl, by rw [hm'], fun sem _ => by rw [hinit]⟩ ⟨?_, ?_⟩ ?_ (fun _ _ => .inl)
      h.owned
    · rw [hp]
      exact (h.balanced.conserved.acquire ha).perm List.perm_middle.symm
    · rw [hm']
      exact h.balanced.counted
    · intro p hmem
      rcases List.mem_cons.1 hmem with rfl | hmem
      · rw [hp, hchunk]
      · exact h.chunks p hmem

theorem sound_dropMemoryPermit {k : Nat} (h : s.Sound g) (hs : s.step blake3 (.dropMemoryPermit k) = some s') :
    s'.Sound g := by
  simp only [step] at hs
  split at hs
  · cases hs
  · rename_i permit hk
    cases hs
    refine h.extend ⟨rfl, Nat.le_refl _, fun _ _ => rfl⟩ ⟨?_, h.balanced.counted⟩
      (fun p hp => h.chunks p (List.mem_of_mem_eraseIdx hp)) (fun _ _ => .inl) h.owned
    have hperm := ((eraseIdx_perm hk).append_left (permits s.segments)).trans List.perm_middle
    exact (h.balanced.conserved.perm hperm).release

theorem sound_reload {contents : String} (h : s.Sound g) : (s.watchAuthFile blake3 contents).Sound g := by
  unfold watchAuthFile
  simp only
  split
  · exact h
  · exact h.extend ⟨rfl, Nat.le_refl _, fun _ _ => rfl⟩ h.balanced h.chunks (by simp) h.owned

theorem step_sound (h : s.Sound g) (hs : s.step blake3 move = some s') : s'.Sound g := by
  cases move with
  | openStream tenant capacity => exact sound_openStream h hs
  | stream i mv => exact sound_stream h hs
  | memoryPermit => exact sound_memoryPermit h hs
  | dropMemoryPermit k => exact sound_dropMemoryPermit h hs
  | reload contents =>
    cases hs
    exact sound_reload h

theorem run_sound {moves : List Move} (h : s.Sound g) (hr : s.run blake3 moves = some s') : s'.Sound g :=
  Machine.run_keeps (fun _ _ _ h hs => step_sound h hs) h hr

/-! ## What the books say -/

/-- Live segments that draw on one pool are within it. -/
theorem Sound.size_le {part rest : List BudgetedSegment} (h : s.Sound g) (hp : s.segments.Perm (part ++ rest))
    (hsem : ∀ seg ∈ part, seg.localPermit.pool = sem ∨ seg.globalPermit.pool = sem) :
    size part ≤ s.mem.pools.initial sem := by
  have hb := (h.balanced.perm hp).conserved
  unfold permits at hb
  rw [List.flatMap_append, List.append_assoc] at hb
  exact (size_le_held hsem).trans (hb.le sem)

theorem Sound.size_le_global (h : s.Sound g) : size s.segments ≤ g := by
  rw [← h.global.2]
  have hp : s.segments.Perm (s.segments ++ []) := by rw [List.append_nil]
  refine h.size_le hp fun seg hseg => .inr ?_
  obtain ⟨st, hst, hseg⟩ := List.mem_flatMap.1 hseg
  exact ((h.owned st hst).segments seg hseg).2

theorem Sound.inUse (h : s.Sound g) (hg : g ≤ maxPermits) : s.mem.inUse.toNat = size s.segments := by
  have hsize := h.size_le_global
  have hmax : maxPermits < UInt64.size := by decide
  rw [h.balanced.counted]
  exact UInt64.toNat_ofNat_of_lt' (by omega)

theorem Sound.held_memoryPermits (h : s.Sound g) (sem : Sem) :
    held sem s.memoryPermits = if sem = s.globalMemory then globalMemoryChunk * s.memoryPermits.length else 0 := by
  split
  · rename_i hsem
    rw [List.eq_replicate_iff.2 ⟨rfl, h.chunks⟩, hsem, Permits.held_replicate, List.length_replicate]
  · rename_i hsem
    refine Permits.held_eq_zero fun p hp => ?_
    rw [h.chunks p hp]
    exact Ne.symm hsem

/-- The permits of `sem` that live segments hold. -/
def drawn (s : Sys) (sem : Sem) : Nat := held sem (permits s.segments)

/-- **Permit conservation.** In every state of every run, what a semaphore has left, what live segments
drew from it and, for the global one, the memory permits of the streams make up its size; the counter
is the size of all live segments. -/
theorem permits_conserved (hg : g ≤ maxPermits) (h : (init g keyring).run blake3 moves = some s) :
    (∀ sem, s.mem.pools.available sem + (s.drawn sem +
      if sem = s.globalMemory then globalMemoryChunk * s.memoryPermits.length else 0) = s.mem.pools.initial sem) ∧
    s.mem.pools.initial s.globalMemory = g ∧
    (∀ st ∈ s.streams, s.mem.pools.initial st.budget.semaphore = tenantMemoryBudget) ∧
    s.mem.inUse.toNat = size s.segments ∧
    (∀ seg ∈ s.segments, seg.localPermit.count ≤ s.mem.inUse.toNat) ∧
    (s.segments = [] → s.mem.inUse = 0) := by
  have hs := run_sound (sound_init g keyring) h
  have hinUse := hs.inUse hg
  refine ⟨?_, hs.global.2, fun st hst => (hs.owned st hst).semaphore.initial, hinUse, ?_, ?_⟩
  · intro sem
    have hc := hs.balanced.conserved sem
    rw [Permits.held_append, hs.held_memoryPermits] at hc
    exact hc
  · intro seg hseg
    rw [hinUse, seg.local_count]
    obtain ⟨before, after, hsplit⟩ := List.append_of_mem hseg
    rw [hsplit, size_append, size_cons]
    omega
  · intro hnil
    rw [hs.balanced.counted, hnil]
    rfl

/-- One stream: three bytes are reserved, three more refused by the global pool, the first three sent
and polled, and one more reserved while they are in flight. -/
def sampleMoves : List Move :=
  [.openStream (Vector.replicate 32 1) 4, .stream 0 (.reserve [1, 2, 3]), .stream 0 (.reserve [4, 5, 6]),
    .stream 0 (.send 0), .stream 0 .poll, .stream 0 (.reserve [7])]

theorem permits_conserved_sample : 5 ≤ maxPermits ∧ ∃ s, (init 5 []).run (fun b => b) sampleMoves = some s ∧
    s.segments.length = 2 ∧ s.mem.inUse.toNat = 4 ∧ s.mem.inUse.toNat = size s.segments := by
  have hg : 5 ≤ maxPermits := by decide
  have hrun : ((init 5 []).run (fun b => b) sampleMoves).map (fun s => (s.segments.length, s.mem.inUse.toNat)) =
      some (2, 4) := rfl
  obtain ⟨s, hs, hval⟩ := Option.map_eq_some_iff.1 hrun
  obtain ⟨-, -, -, hinUse, -, -⟩ := permits_conserved hg hs
  exact ⟨hg, s, hs, congrArg Prod.fst hval, congrArg Prod.snd hval, hinUse⟩

end Sys

end PiiProxy.BudgetQueue
