import PiiProxy.BudgetBounds
import PiiProxy.Policy
import PiiProxy.TaskDelivery
import PiiProxy.TaskShutdown

/-!
# How a stream task gives up

| here | there |
| --- | --- |
| `enqueueWithTimeout` | `enqueue_with_timeout` (lib.rs:930) around `enqueue` (budget_queue.rs:197) |
| `Slot`               | the pools at one reservation, and whether the channel takes the slice in time |
| `Wait`, `wait`       | a step of the task, with the outcome of an enqueue worked out from the pools |

Every error of the upstream or the redactor, and every failed enqueue of a plain output in
the loop, sends a terminal error frame. A failed enqueue of an SSE event or of an output of
the final flush sends nothing, and the frame itself needs room in the pools that may just
have refused.

* `enqueueWithTimeout_ok` — when an enqueue succeeds
* `waits_reported_iff` — the run lemma
* `truncation_reported_iff` — for every run of a server's stream that nobody cuts off
-/

namespace PiiProxy.StreamTask

open BudgetQueue (ByteBudget Memory TenantId slices u32Max outputByteBudget tenantMemoryBudget enqueueMoves)

variable {P : Primitives} {key : Bytes} {t t' : StreamTask} {r₀ : StreamRedactor} {got : List Bytes} {eof : Bool}
  {b : ByteBudget}

/-! ## The enqueue -/

/-- What one slice of an output meets. -/
structure Slot where
  /-- When it is reserved. -/
  mem : Memory
  /-- The channel has room for it before the five seconds are over. -/
  taken : Bool

/-- The loop of `enqueue`, with `queued` bytes on the channel; without a slot the time is over. -/
def enqueueSlices (b : ByteBudget) : List Bytes → List Slot → Nat → Outcome
  | [], _, _ => .ok
  | _ :: _, [], queued => .failed .other queued
  | piece :: pieces, slot :: slots, queued =>
    match (slot.mem.reserve b piece).1 with
    | .error .tenantLimitExceeded => .failed .tenantLimit queued
    | .error .globalLimitExceeded => .failed .globalLimit queued
    | .error .capacity => .failed .other queued
    | .ok _ => if slot.taken then enqueueSlices b pieces slots (queued + piece.length) else .failed .other queued

def enqueueWithTimeout (b : ByteBudget) (bytes : Bytes) (slots : List Slot) : Outcome :=
  enqueueSlices b (slices b.capacity bytes) slots 0

/-- Each slice finds its bytes in both pools, and room in time. -/
def Served (b : ByteBudget) : List Bytes → List Slot → Prop
  | [], _ => True
  | _ :: _, [] => False
  | piece :: pieces, slot :: slots => piece.length ≤ slot.mem.pools.available b.semaphore ∧
    piece.length ≤ slot.mem.pools.available b.globalMemory ∧ slot.taken = true ∧ Served b pieces slots

/-- The budget of a response: two pools, and slices that a `u32` can count. -/
structure Separate (b : ByteBudget) : Prop where
  pools : b.globalMemory ≠ b.semaphore
  capacity : b.capacity ≤ u32Max

theorem reserve_ok_iff (hb : Separate b) {m : Memory} {piece : Bytes} (hne : piece ≠ []) (hcap : piece.length ≤ b.capacity) :
    (∃ seg, (m.reserve b piece).1 = .ok seg) ↔
      piece.length ≤ m.pools.available b.semaphore ∧ piece.length ≤ m.pools.available b.globalMemory := by
  constructor
  · rintro ⟨seg, hok⟩
    rcases m.reserve_cases b piece with ⟨_, pools₁, pools₂, -, -, -, -, h₁, h₂⟩ | ⟨e, he⟩
    · have e₁ := Permits.Pools.tryAcquire_available h₁
      have e₂ := Permits.Pools.tryAcquire_available h₂ b.globalMemory
      have el := e₁ b.semaphore
      have eg := e₁ b.globalMemory
      rw [if_pos rfl] at el e₂
      rw [if_neg hb.pools] at eg
      omega
    · rw [he] at hok
      cases hok
  · rintro ⟨hl, hg⟩
    exact Memory.reserve_ok hne hcap (hcap.trans hb.capacity) hl hg hb.pools

theorem enqueueSlices_ok (hb : Separate b) : ∀ {pieces : List Bytes} {slots : List Slot} {queued : Nat},
    (∀ piece ∈ pieces, piece ≠ [] ∧ piece.length ≤ b.capacity) →
    (enqueueSlices b pieces slots queued = .ok ↔ Served b pieces slots)
  | [], _, _, _ => by simp [enqueueSlices, Served]
  | _ :: _, [], _, _ => by simp [enqueueSlices, Served]
  | piece :: pieces, slot :: slots, queued, hp => by
    obtain ⟨hne, hcap⟩ := hp piece List.mem_cons_self
    have hrest : ∀ piece' ∈ pieces, piece' ≠ [] ∧ piece'.length ≤ b.capacity :=
      fun piece' hp' => hp piece' (List.mem_cons_of_mem _ hp')
    have hres := reserve_ok_iff hb (m := slot.mem) hne hcap
    simp only [enqueueSlices, Served]
    cases hr : (slot.mem.reserve b piece).1 with
    | error e =>
      have hno : ¬ (piece.length ≤ slot.mem.pools.available b.semaphore ∧
          piece.length ≤ slot.mem.pools.available b.globalMemory) := by
        intro h
        obtain ⟨seg, hok⟩ := hres.2 h
        rw [hr] at hok
        cases hok
      have hserved : ¬ Served b (piece :: pieces) (slot :: slots) := fun h => hno ⟨h.1, h.2.1⟩
      cases e <;> exact iff_of_false (by simp) hserved
    | ok seg =>
      obtain ⟨hl, hg⟩ := hres.1 ⟨seg, hr⟩
      simp only
      split
      · rename_i htaken
        rw [enqueueSlices_ok hb hrest]
        exact ⟨fun h => ⟨hl, hg, htaken, h⟩, fun h => h.2.2.2⟩
      · rename_i htaken
        exact iff_of_false (by simp) fun h => htaken h.2.2.1

theorem enqueueWithTimeout_ok (hb : Separate b) {bytes : Bytes} {slots : List Slot} :
    enqueueWithTimeout b bytes slots = .ok ↔ Served b (slices b.capacity bytes) slots :=
  enqueueSlices_ok hb (BudgetQueue.flatten_slices b.capacity_pos bytes).2

/-- An output that fits in one slice. -/
theorem served_one {bytes : Bytes} {slot : Slot} (hne : bytes ≠ []) (hcap : bytes.length ≤ b.capacity) :
    Served b (slices b.capacity bytes) [slot] ↔ bytes.length ≤ slot.mem.pools.available b.semaphore ∧
      bytes.length ≤ slot.mem.pools.available b.globalMemory ∧ slot.taken = true := by
  rw [BudgetQueue.slices_cons b.capacity_pos hne, List.take_of_length_le hcap, List.drop_eq_nil_of_le hcap,
    BudgetQueue.slices_nil]
  simp only [Served, and_true]

/-! ## Waits -/

inductive Wait where
  /-- Anything but the end of an enqueue. -/
  | other (l : Label)
  | enqueue (slots : List Slot)

/-- The label of a wait, with the outcome that the slots give what is being enqueued. -/
def Wait.resolve (P : Primitives) (b : ByteBudget) (t : StreamTask) : Wait → Option Label
  | .other (.enqueued _) => none
  | .other l => some l
  | .enqueue slots => (Pc.item t.pc).map fun item => .enqueued (enqueueWithTimeout b (item.bytes P) slots)

def wait (P : Primitives) (key : Bytes) (b : ByteBudget) (t : StreamTask) (w : Wait) : Option StreamTask :=
  (w.resolve P b t).bind (t.step P key)

def waits (P : Primitives) (key : Bytes) (b : ByteBudget) : StreamTask → List Wait → Option StreamTask :=
  Machine.run (wait P key b)

def Wait.chunks : Wait → List Bytes
  | .other l => l.chunks
  | .enqueue _ => []

def Wait.isEof : Wait → Bool
  | .other l => l.isEof
  | .enqueue _ => false

def Wait.Undisturbed : Wait → Prop
  | .other l => l.Undisturbed
  | .enqueue _ => True

/-- The last item on the channel is a terminal error frame. -/
def Reported (sent : List Sent) : Prop := ∃ reason, sent.getLast? = some (.terminal reason)

/-- An SSE event, an output of the final flush and the error frame itself are served; a plain output in
the loop need not be. -/
def Reports (P : Primitives) (b : ByteBudget) (t : StreamTask) : Wait → Prop
  | .other _ => True
  | .enqueue slots => match t.pc with
    | .forward (e :: _) _ => Served b (slices b.capacity (e.bytes P)) slots
    | .send .final bytes _ => Served b (slices b.capacity bytes) slots
    | .terminal reason => Served b (slices b.capacity ((Sent.terminal reason).bytes P)) slots
    | _ => True

/-- Every wait of the run. -/
def AllReport (P : Primitives) (key : Bytes) (b : ByteBudget) : StreamTask → List Wait → Prop
  | _, [] => True
  | t, w :: ws => Reports P b t w ∧ ∀ t', t.wait P key b w = some t' → AllReport P key b t' ws

/-! ## What is sent -/

/-- No error frame yet. -/
def Clear (sent : List Sent) : Prop := ∀ reason, .terminal reason ∉ sent

theorem Clear.not_reported {sent : List Sent} (h : Clear sent) : ¬ Reported sent := by
  rintro ⟨reason, hlast⟩
  exact h reason (List.mem_of_getLast? hlast)

/-- Only an error frame that is enqueued whole is one on the channel. -/
theorem Clear.enqueue {item : Sent} {sent : List Sent} {outcome : Outcome} (h : Clear sent)
    (hitem : outcome = .ok → ∀ reason, item ≠ .terminal reason) : Clear (enqueue P item sent outcome) := by
  intro reason hmem
  rcases enqueue_cases P item sent outcome with he | ⟨hok, he⟩ | ⟨head, he⟩ <;> rw [he] at hmem
  · exact h reason hmem
  · rcases List.mem_append.1 hmem with hmem | hmem
    · exact h reason hmem
    · exact hitem hok reason (List.mem_singleton.1 hmem).symm
  · rcases List.mem_append.1 hmem with hmem | hmem
    · exact h reason hmem
    · simp at hmem

/-- A step puts on the channel what the task was enqueueing, if anything. -/
theorem step_sent {label : Label} (h : t.step P key label = some t') : t'.sent = t.sent ∨
    ∃ outcome item, label = .enqueued outcome ∧ Pc.item t.pc = some item ∧ t'.sent = enqueue P item t.sent outcome := by
  cases step_effect h with
  | goes | redacts | hashes | inspects | finishes | shuts => exact .inl rfl
  | enqueues outcome item pc place rest => exact .inr ⟨outcome, item, rfl, place, rfl⟩

/-! ## The end of a run -/

theorem item_terminal {pc : Pc} {reason : String} (h : Pc.item pc = some (.terminal reason)) : pc = .terminal reason := by
  unfold Pc.item at h
  split at h
  · cases h
  · cases h
  · cases h
    rfl
  · cases h

theorem wait_enqueue {slots : List Slot} (h : t.wait P key b (.enqueue slots) = some t') : ∃ item,
    Pc.item t.pc = some item ∧ t.step P key (.enqueued (enqueueWithTimeout b (item.bytes P) slots)) = some t' := by
  obtain ⟨label, hl, h⟩ := Option.bind_eq_some_iff.1 h
  obtain ⟨item, hitem, rfl⟩ := Option.map_eq_some_iff.1 hl
  exact ⟨item, hitem, h⟩

/-- The outcome of an enqueue is not the environment's to choose. -/
theorem resolve_enqueued {w : Wait} {outcome : Outcome} (h : w.resolve P b t = some (.enqueued outcome)) :
    ∃ slots item, w = .enqueue slots ∧ Pc.item t.pc = some item ∧ enqueueWithTimeout b (item.bytes P) slots = outcome := by
  cases w with
  | other l => cases l <;> cases h
  | enqueue slots =>
    obtain ⟨item, hitem, ho⟩ := Option.map_eq_some_iff.1 h
    exact ⟨slots, item, rfl, hitem, Label.enqueued.inj ho⟩

/-- A wait is a step, with the same chunks. -/
theorem wait_step {w : Wait} (h : t.wait P key b w = some t') : ∃ label, w.resolve P b t = some label ∧
    t.step P key label = some t' ∧ label.chunks = w.chunks ∧ label.isEof = w.isEof ∧ (w.Undisturbed → label.Undisturbed) := by
  obtain ⟨label, hl, hstep⟩ := Option.bind_eq_some_iff.1 h
  refine ⟨label, hl, hstep, ?_⟩
  cases w with
  | other l =>
    have hl : l = label := by
      cases l with
      | enqueued outcome => cases hl
      | _ => exact Option.some.inj hl
    subst hl
    exact ⟨rfl, rfl, id⟩
  | enqueue slots =>
    obtain ⟨item, -, rfl⟩ := Option.map_eq_some_iff.1 hl
    exact ⟨rfl, rfl, fun _ => ⟨by simp, by simp⟩⟩

theorem waits_ended {ws : List Wait} (hpc : t.pc = .ended) (h : t.waits P key b ws = some t') : ws = [] ∧ t' = t := by
  cases ws with
  | nil => exact ⟨rfl, (Option.some.inj h).symm⟩
  | cons w ws =>
    obtain ⟨t₁, hw, -⟩ := Option.bind_eq_some_iff.1 h
    obtain ⟨label, -, hstep, -⟩ := wait_step hw
    rcases step_cases hstep with ⟨hp, -⟩ | ⟨_, _, _, _, hp, -⟩ | ⟨_, hp, -⟩ | ⟨_, hp, -⟩ | ⟨hp, -⟩ | ⟨outcome, -, hp⟩
    all_goals
      rw [hpc] at hp
      cases hp

theorem step_enqueued {outcome : Outcome} (h : t.step P key (.enqueued outcome) = some t') :
    t.onEnqueued P outcome t.pc = some t' := by
  rcases step_cases h with ⟨-, hsel⟩ | ⟨_, _, _, _, -, hl, -⟩ | ⟨_, -, hl, -⟩ | ⟨_, -, hl, -⟩ | ⟨-, hl, -⟩ | ⟨_, hl, henq⟩
  · cases hsel
  all_goals cases hl
  exact henq

/-- A failed enqueue is reported in one place. -/
theorem reports_enqueue (hb : Separate b) {slots : List Slot} {item : Sent} (hitem : Pc.item t.pc = some item) :
    Reports P b t (.enqueue slots) ↔ enqueueWithTimeout b (item.bytes P) slots = .ok ∨ ∃ bytes outs, t.pc = .send .loop bytes outs := by
  rw [enqueueWithTimeout_ok hb]
  unfold Pc.item at hitem
  split at hitem
  · rename_i e es cont hpc
    cases hitem
    simp [Reports, hpc, Sent.bytes]
  · rename_i stage bytes outs hpc
    cases hitem
    cases stage <;> simp [Reports, hpc, Sent.bytes]
  · rename_i reason hpc
    cases hitem
    simp [Reports, hpc]
  · cases hitem

theorem failed_ended {error : EnqueueError} {queued : Nat} (h : t.step P key (.enqueued (.failed error queued)) = some t') :
    t'.pc = .ended ∨ ∃ bytes outs, t.pc = .send .loop bytes outs := by
  have henq := step_enqueued h
  unfold onEnqueued at henq
  split at henq
  · simp only [Option.some.injEq] at henq
    exact .inl (by rw [← henq])
  · rename_i stage bytes outs hpc
    cases stage with
    | loop => exact .inr ⟨bytes, outs, hpc⟩
    | final =>
      simp only [Option.some.injEq] at henq
      exact .inl (by rw [← henq])
  · simp only [Option.some.injEq] at henq
    exact .inl (by rw [← henq])
  · cases henq

/-- A wait that does not end the task met no failure that goes unreported. -/
theorem reports_of_not_ended {w : Wait} (hb : Separate b) (h : t.wait P key b w = some t') (hne : t'.pc ≠ .ended) :
    Reports P b t w := by
  cases w with
  | other l => trivial
  | enqueue slots =>
    obtain ⟨item, hitem, hstep⟩ := wait_enqueue h
    rw [reports_enqueue hb hitem]
    cases ho : enqueueWithTimeout b (item.bytes P) slots with
    | ok => exact .inl rfl
    | failed error queued =>
      rw [ho] at hstep
      exact .inr ((failed_ended hstep).resolve_left hne)

theorem wait_clear {w : Wait} (hgo : Pc.Going t.pc) (hc : Clear t.sent) (h : t.wait P key b w = some t') : Clear t'.sent := by
  obtain ⟨label, -, hstep, -⟩ := wait_step h
  rcases step_sent hstep with hs | ⟨outcome, item, -, hitem, hs⟩
  · rwa [hs]
  · rw [hs]
    apply hc.enqueue
    rintro - reason rfl
    rw [item_terminal hitem] at hgo
    exact hgo

theorem terminal_step {w : Wait} {reason : String} (hpc : t.pc = .terminal reason) (h : t.wait P key b w = some t') :
    ∃ outcome, w.resolve P b t = some (.enqueued outcome) ∧
      t' = { t with sent := enqueue P (.terminal reason) t.sent outcome, pc := .ended } := by
  obtain ⟨label, hres, hstep, -⟩ := wait_step h
  rcases step_cases hstep with ⟨hp, -⟩ | ⟨_, _, _, _, hp, -⟩ | ⟨_, hp, -⟩ | ⟨_, hp, -⟩ | ⟨hp, -⟩ | ⟨outcome, rfl, hp⟩ <;>
    rw [hpc] at hp
  case inr.inr.inr.inr.inr => exact ⟨outcome, hres, (Option.some.inj hp).symm⟩
  all_goals cases hp

/-- A task that gives up ends with its frame, if the frame is served. -/
theorem waits_terminal {ws : List Wait} {reason : String} (hb : Separate b) (hc : Clear t.sent) (hpc : t.pc = .terminal reason)
    (h : t.waits P key b ws = some t') (hend : t'.pc = .ended) : Reported t'.sent ↔ AllReport P key b t ws := by
  cases ws with
  | nil =>
    rw [← Option.some.inj h, hpc] at hend
    cases hend
  | cons w ws =>
    obtain ⟨t₁, hw, hws⟩ := Option.bind_eq_some_iff.1 h
    obtain ⟨outcome, hres, ht₁⟩ := terminal_step hpc hw
    obtain ⟨slots, item, rfl, hitem, ho⟩ := resolve_enqueued hres
    obtain ⟨rfl, rfl⟩ := waits_ended (by rw [ht₁]) hws
    have hall : AllReport P key b t [.enqueue slots] ↔ outcome = .ok := by
      have hloop : ¬ ∃ bytes outs, t.pc = .send .loop bytes outs := by simp [hpc]
      simp only [AllReport, implies_true, and_true, reports_enqueue hb hitem, ho, or_iff_left hloop]
    rw [hall]
    constructor
    · intro hr
      by_contra hfail
      rw [ht₁] at hr
      exact (hc.enqueue fun hok => absurd hok hfail).not_reported hr
    · rintro rfl
      refine ⟨reason, ?_⟩
      rw [ht₁]
      simp only [enqueue, if_neg (terminal_ne_nil reason), List.getLast?_concat]

/-- **The run lemma.** -/
theorem waits_reported_iff (hb : Separate b) : ∀ {ws : List Wait} {t : StreamTask} {got : List Bytes} {eof : Bool},
    Accounts r₀ got eof t → Clear t.sent → (∀ w ∈ ws, w.Undisturbed) → t.waits P key b ws = some t' → t'.pc = .ended →
    ¬ Complete r₀ (got ++ ws.flatMap Wait.chunks) (eof || ws.any Wait.isEof) t'.sent →
    (Reported t'.sent ↔ AllReport P key b t ws)
  | [], t, got, eof, ha, _, _, h, hend, _ => by
    have hgo := ha.tidy.going
    rw [Option.some.inj h, hend] at hgo
    exact hgo.elim
  | w :: ws, t, got, eof, ha, hc, hu, h, hend, hnot => by
    obtain ⟨t₁, hw, h⟩ := Option.bind_eq_some_iff.1 h
    obtain ⟨hu, hus⟩ := List.forall_mem_cons.1 hu
    obtain ⟨label, hres, hstep, hchunks, heof, hl⟩ := wait_step hw
    have hc₁ := wait_clear ha.tidy.going hc hw
    have hall : AllReport P key b t (w :: ws) ↔ Reports P b t w ∧ AllReport P key b t₁ ws := by
      simp [AllReport, hw]
    rw [hall]
    cases step_next ha (hl hu) hstep with
    | goes ha₁ =>
      have hne : t₁.pc ≠ .ended := by
        intro he
        have := ha₁.tidy.going
        rwa [he] at this
      rw [and_iff_right (reports_of_not_ended hb hw hne)]
      rw [hchunks, heof] at ha₁
      apply waits_reported_iff hb ha₁ hc₁ hus h hend
      simpa [List.append_assoc, Bool.or_assoc] using hnot
    | reports reason hpc =>
      rw [and_iff_right (reports_of_not_ended hb hw (by rw [hpc]; simp))]
      exact waits_terminal hb hc₁ hpc h hend
    | completes he hcomp =>
      obtain ⟨rfl, rfl⟩ := waits_ended he h
      rw [hchunks, heof] at hcomp
      simp at hnot
      exact absurd hcomp hnot
    | fails he error queued hlabel hpc =>
      obtain ⟨rfl, rfl⟩ := waits_ended he h
      refine iff_of_false hc₁.not_reported fun hr => ?_
      subst hlabel
      obtain ⟨slots, item, rfl, hitem, ho⟩ := resolve_enqueued hres
      rcases (reports_enqueue hb hitem).1 hr.1 with hok | ⟨bytes, outs, hloop⟩
      · rw [ho] at hok
        cases hok
      · rw [hloop] at hpc
        exact hpc

theorem separate_of_withTenant {g : Nat} {s s' : BudgetQueue.Sys} {tenant : TenantId} (hs : s.Sound g)
    (h : s.withTenant tenant outputByteBudget = some (b, s')) : Separate b := by
  simp only [BudgetQueue.Sys.withTenant, Option.dite_none_right_eq_some, Option.some.injEq, Prod.mk.injEq] at h
  obtain ⟨hpos, rfl, rfl⟩ := h
  obtain ⟨-, hsem⟩ := BudgetQueue.Sys.sound_tenantSemaphore hs tenant
  refine ⟨?_, show outputByteBudget ≤ u32Max by decide⟩
  have hne := hsem.ne_global.symm
  rwa [(s.tenantSemaphore_streams tenant).2] at hne

/-- **When a truncated stream says so.** For every process state in which the stream gets its budget, every
policy installed and every run that neither the client nor a shutdown cuts off, if the task ends before all
is delivered: a terminal error frame is last on the channel iff every SSE event, every output of the final
flush and the frame itself found its bytes in both pools and room in time. -/
theorem truncation_reported_iff {g : Nat} {keyring : List Bytes} {blake3 : Bytes → Bytes} {moves : List BudgetQueue.Move}
    {s s' : BudgetQueue.Sys} {tenant : TenantId} {build : Builder} {source : String} {policy : Policy} {installs : List Policy.Install}
    {q : Request} {policyDigest : String} {isSse : Bool} {t₀ : StreamTask} {ws : List Wait}
    (hsys : (BudgetQueue.Sys.init g keyring).run blake3 moves = some s)
    (hbudget : s.withTenant tenant outputByteBudget = some (b, s')) (hboot : Policy.boot build source = .ok policy)
    (hspawn : spawn q policyDigest isSse (policy.run build installs).engineState = .ok t₀)
    (hrun : t₀.waits P q.key b ws = some t) (hu : ∀ w ∈ ws, w.Undisturbed) (hend : t.pc = .ended)
    (hcut : ¬ Complete t₀.redactor (ws.flatMap Wait.chunks) (ws.any Wait.isEof) t.sent) :
    Reported t.sent ↔ AllReport P q.key b t₀ ws := by
  have hb : Separate b := separate_of_withTenant (BudgetQueue.Sys.run_sound (BudgetQueue.Sys.sound_init g keyring) hsys) hbudget
  have ha : (policy.run build installs).engineState.Aligned := by
    obtain ⟨vault, hok⟩ := Policy.boot_ok build source
    rw [hok, Except.ok.injEq] at hboot
    rw [← hboot]
    exact Policy.run_aligned installs (EngineState.aligned_new build (length_parsePiiConfig source))
  have hclear : Clear t₀.sent := by
    rw [spawn_sent hspawn]
    simp [Clear]
  apply waits_reported_iff hb (spawn_accounts ha hspawn) hclear hu hrun hend
  simpa using hcut

/-- The upstream breaks off at once. -/
def brokenWaits (m : Memory) : List Wait := [.other .readError, .enqueue [⟨m, true⟩]]

theorem truncation_reported_broken : ∃ b s t,
    (BudgetQueue.Sys.init (256 * 1024 * 1024) []).withTenant (Vector.replicate 32 1) outputByteBudget = some (b, s) ∧
    defaultTask.waits killPrimitives swapRequest.key b (brokenWaits s.mem) = some t ∧ Reported t.sent := by
  let init := BudgetQueue.Sys.init (256 * 1024 * 1024) []
  let s := (init.tenantSemaphore (Vector.replicate 32 1)).2
  let b : ByteBudget := ⟨1, 0, outputByteBudget, by decide⟩
  have hbudget : init.withTenant (Vector.replicate 32 1) outputByteBudget = some (b, s) := rfl
  have hsys : init.run (fun b => b) [] = some init := rfl
  have hspawn : spawn swapRequest "f5ffe4b2d8c324d40325b279bf014e87538b9814ca667fa506a26e0994040ae7" true
      ((Policy.initial (Search.AhoCorasick.scan asciiLower)).run (Search.AhoCorasick.scan asciiLower) []).engineState =
        .ok defaultTask := defaultTask_spawn
  have hrun : ∃ t, defaultTask.waits killPrimitives swapRequest.key b (brokenWaits s.mem) = some t ∧ t.pc = .ended :=
    ⟨_, rfl, rfl⟩
  obtain ⟨t, hrun, hend⟩ := hrun
  refine ⟨b, s, t, hbudget, hrun, ?_⟩
  apply (truncation_reported_iff hsys hbudget (Policy.boot_defaultSource _) hspawn hrun ?_ hend ?_).2
  · refine ⟨trivial, ?_⟩
    rintro t₁ ht₁
    cases ht₁
    refine ⟨?_, fun _ _ => trivial⟩
    have hlen : ((Sent.terminal "upstream_read_failed").bytes killPrimitives).length = 71 := by decide +kernel
    apply (served_one (terminal_ne_nil _) _).2
    · rw [hlen]
      exact ⟨by decide, by decide, rfl⟩
    · rw [hlen]
      show 71 ≤ outputByteBudget
      decide
  · simp [brokenWaits, Wait.Undisturbed, Label.Undisturbed]
  · rintro ⟨he, -⟩
    cases he

/-- A chunk whose first bytes the detector passes on. -/
def refusedWaits (m : Memory) : List Wait :=
  [.other (.chunk (Utf8.encode "data: hello world\n\n")), .other (.segment ⟨[], 1700000000⟩), .enqueue [⟨m, true⟩]]

/-- The 16 MiB of a tenant, on the channel of its first stream. -/
def fillMoves (tenant : TenantId) : List BudgetQueue.Move :=
  .openStream tenant outputByteBudget :: enqueueMoves 0 outputByteBudget (List.replicate tenantMemoryBudget 0)

theorem run_fillMoves (tenant : TenantId) : ∃ s b,
    (BudgetQueue.Sys.init (256 * 1024 * 1024) []).run (fun b => b) (fillMoves tenant) = some s ∧
    s.withTenant tenant outputByteBudget = some (b, s) ∧ b.capacity = outputByteBudget ∧
    s.mem.pools.available b.semaphore = 0 := by
  have hlen : (List.replicate tenantMemoryBudget (0 : UInt8)).length = tenantMemoryBudget := List.length_replicate
  have hnone : (BudgetQueue.Sys.init (256 * 1024 * 1024) []).tenantBudgets tenant = none := rfl
  obtain ⟨s, st, hrun, ho⟩ := BudgetQueue.Sys.run_first_output (fun b => b)
    (BudgetQueue.Sys.sound_init (256 * 1024 * 1024) []) hnone (show 0 < outputByteBudget by decide)
    (by decide) (by rw [hlen]; decide) (by rw [hlen]) (by rw [hlen]; decide)
  have hmap := ho.mapped
  have hleft := ho.left
  rw [ho.tenant] at hmap
  rw [hlen] at hleft
  refine ⟨s, ⟨st.budget.semaphore, s.globalMemory, outputByteBudget, by decide⟩, hrun, ?_, rfl, ?_⟩
  · have hpos : 0 < outputByteBudget := by decide
    simp only [BudgetQueue.Sys.withTenant, dif_pos hpos, BudgetQueue.Sys.tenantSemaphore, hmap]
  · show s.mem.pools.available st.budget.semaphore = 0
    omega

/-- Another stream of the tenant has taken its pool: the first SSE event is refused, and the stream ends
without a word. -/
theorem refused_event_unreported : ∃ s b t,
    (BudgetQueue.Sys.init (256 * 1024 * 1024) []).run (fun b => b) (fillMoves (Vector.replicate 32 1)) = some s ∧
    s.withTenant (Vector.replicate 32 1) outputByteBudget = some (b, s) ∧
    spawn swapRequest "f5ffe4b2d8c324d40325b279bf014e87538b9814ca667fa506a26e0994040ae7" true
      (Policy.initial (Search.AhoCorasick.scan asciiLower)).engineState = .ok defaultTask ∧
    defaultTask.waits killPrimitives swapRequest.key b (refusedWaits s.mem) = some t ∧
    (∀ w ∈ refusedWaits s.mem, w.Undisturbed) ∧ t.pc = .ended ∧
    ¬ Complete defaultTask.redactor ((refusedWaits s.mem).flatMap Wait.chunks) ((refusedWaits s.mem).any Wait.isEof) t.sent ∧
    ¬ Reported t.sent := by
  obtain ⟨s, b, hsys, hbudget, hcap, hempty⟩ := run_fillMoves (Vector.replicate 32 1)
  have hb := separate_of_withTenant (BudgetQueue.Sys.run_sound (BudgetQueue.Sys.sound_init _ _) hsys) hbudget
  have hout : ¬ Served b (slices b.capacity (Utf8.encode "data: he")) [⟨s.mem, true⟩] := by
    rw [served_one (by decide) (by rw [hcap]; decide)]
    rintro ⟨hle, -⟩
    rw [hempty] at hle
    revert hle
    decide
  rw [← enqueueWithTimeout_ok hb] at hout
  have hpre : (defaultTask.run killPrimitives swapRequest.key [.chunk (Utf8.encode "data: hello world\n\n"),
      .segment ⟨[], 1700000000⟩]).map (fun t => (t.pc, t.sent)) =
      some (.forward [.data (Utf8.encode "data: he")] (.outputs .loop []), []) := rfl
  obtain ⟨t₁, hrun, hpc⟩ := Option.map_eq_some_iff.1 hpre
  obtain ⟨hpc, hsent⟩ := Prod.mk.inj hpc
  have hwaits : defaultTask.waits killPrimitives swapRequest.key b (refusedWaits s.mem) =
      (defaultTask.run killPrimitives swapRequest.key [.chunk (Utf8.encode "data: hello world\n\n"),
        .segment ⟨[], 1700000000⟩]).bind fun t => t.waits killPrimitives swapRequest.key b [.enqueue [⟨s.mem, true⟩]] := rfl
  rw [hrun, Option.bind_some] at hwaits
  cases ho : enqueueWithTimeout b (Utf8.encode "data: he") [⟨s.mem, true⟩] with
  | ok => exact absurd ho hout
  | failed error queued =>
    have hlast : t₁.waits killPrimitives swapRequest.key b [.enqueue [⟨s.mem, true⟩]] = some { t₁ with
        sent := enqueue killPrimitives (.event (.data (Utf8.encode "data: he"))) [] (.failed error queued), pc := .ended } := by
      simp [waits, wait, Wait.resolve, hpc, Pc.item, Sent.bytes, StreamEvent.bytes, ho, step, onEnqueued, hsent]
    refine ⟨s, b, _, hsys, hbudget, defaultTask_spawn, hwaits.trans hlast, ?_, rfl, ?_, ?_⟩
    · simp [refusedWaits, Wait.Undisturbed, Label.Undisturbed]
    · rintro ⟨he, -⟩
      cases he
    · have hclear : Clear [] := by simp [Clear]
      have hpart : Clear (enqueue killPrimitives (.event (.data (Utf8.encode "data: he"))) [] (.failed error queued)) :=
        hclear.enqueue (by simp)
      exact hpart.not_reported

end PiiProxy.StreamTask
