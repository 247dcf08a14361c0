import PiiProxy.EnqueueRuns
import PiiProxy.TaskAborts
import PiiProxy.TaskProgress

/-!
# A stream task and its body, interleaved

In `StreamTask` an enqueue is one step that ends in some outcome. Here it is what it is: a
call that reserves and sends slice after slice, with the polls of the body, the end of the
five seconds, a client that goes away and the other streams of the process between any two
of its awaits. The outcome is worked out from the call, and every interleaving is again a
run of the task.

| here | there |
| --- | --- |
| `outcome`         | the `match` on the error of `enqueue_with_timeout` (lib.rs:762-780) |
| `Delivery.settle` | the return of the call to the task |
| `Delivery.step`   | the task, its call, and the `BudgetedBody` of the response |

* `BudgetQueue.Channel.call_effect`, `goes_effect`, `quiet_effect` — what an event does to the bytes on the channel
* `Delivery.delivery_refines` — every interleaving is a run of the task, and no byte is lost or doubled
* `Delivery.client_reads` — what a client has read, against `serve`
-/

namespace PiiProxy

/-- The moves of a call. -/
def BudgetQueue.Event.ofCall : BudgetQueue.Event → Bool
  | .reserve | .send | .cancel => true
  | _ => false

namespace BudgetQueue.Channel

variable {budget : ByteBudget} {s s' : Channel} {bytes : Bytes} {left : List Bytes} {e : Event}

/-- Every byte that was put on the channel. -/
def wire (s : Channel) : Bytes := s.frames.flatten ++ s.dropped.flatten ++ s.queued.flatten

/-- The bytes of the running call that are on the channel. -/
def part (s : Channel) : Bytes := match s.running with
  | none => []
  | some (bytes, left) => bytes.take (bytes.length - left.flatten.length)

theorem part_idle (h : s.running = none) : s.part = [] := by
  simp only [part, h]

theorem part_of_append {head : Bytes} (h : s.running = some (bytes, left)) (hb : head ++ left.flatten = bytes) :
    s.part = head := by
  simp only [part, h, ← hb, List.length_append, Nat.add_sub_cancel]
  exact List.take_left

/-- What a running call has sent and has not are its bytes. -/
theorem part_append (hs : Integrity budget s) (h : s.running = some (bytes, left)) : s.part ++ left.flatten = bytes := by
  obtain ⟨ps, p, -, hrun, -, -⟩ := hs.content
  have hb := hrun bytes left h
  rw [part_of_append h hb]
  exact hb

/-! ## What an event does to the bytes -/

theorem call_effect (he : s.step (.call bytes) = some s') : s.running = none ∧ s.stream.finished = false ∧
    s'.stream = s.stream ∧ s'.wire = s.wire ∧
    ((bytes = [] ∧ s'.running = none ∧ s'.returned = s.returned ++ [(bytes, .ok ())]) ∨
      ∃ left, left.flatten = bytes ∧ s'.running = some (bytes, left) ∧ s'.returned = s.returned) := by
  simp only [step] at he
  split at he
  · cases he
  · rename_i hidle
    push Not at hidle
    obtain ⟨hfin, hrun⟩ := hidle
    refine ⟨by simpa using hrun, by simpa using hfin, ?_⟩
    by_cases hb : bytes = []
    · rw [if_pos hb] at he
      cases he
      exact ⟨rfl, rfl, .inl ⟨hb, rfl, rfl⟩⟩
    · rw [if_neg hb] at he
      cases he
      exact ⟨rfl, rfl, .inr ⟨_, (flatten_slices s.stream.budget.capacity_pos bytes).1, rfl, rfl⟩⟩

/-- A call that goes on: it sends some more, or it returns, with everything sent or with an error. -/
inductive Goes (s : Channel) (bytes : Bytes) (left : List Bytes) (s' : Channel) : Prop where
  | on (piece : Bytes) (left' : List Bytes) (running : s'.running = some (bytes, left')) (returned : s'.returned = s.returned)
      (wire : s'.wire = s.wire ++ piece) (pieces : piece ++ left'.flatten = left.flatten)
  | ok (running : s'.running = none) (returned : s'.returned = s.returned ++ [(bytes, .ok ())])
      (wire : s'.wire = s.wire ++ left.flatten)
  | failed (error : EnqueueError) (running : s'.running = none)
      (returned : s'.returned = s.returned ++ [(bytes, .error error)]) (wire : s'.wire = s.wire)

theorem reserve_effect (he : s.step .reserve = some s') : ∃ bytes left, s.running = some (bytes, left) ∧
    s'.stream.finished = s.stream.finished ∧ Goes s bytes left s' := by
  simp only [step] at he
  split at he
  · rename_i bytes piece left hr
    refine ⟨bytes, piece :: left, hr, ?_⟩
    split at he
    · cases he
    · split at he
      · rcases move_reserve he with ⟨seg', mem, -, -, rfl⟩ | ⟨e, mem, -, rfl⟩
        · exact ⟨rfl, .on [] _ hr rfl (List.append_nil _).symm rfl⟩
        · exact ⟨rfl, .on [] _ hr rfl (List.append_nil _).symm rfl⟩
      · obtain ⟨s₁, hmove, rfl⟩ := Option.map_eq_some_iff.1 he
        rcases move_reserve hmove with ⟨seg', mem, -, -, rfl⟩ | ⟨e', mem, -, rfl⟩
        · exact ⟨rfl, .failed _ rfl rfl rfl⟩
        · exact ⟨rfl, .failed _ rfl rfl rfl⟩
  · cases he

theorem send_effect (hs : Integrity budget s) (he : s.step .send = some s') : ∃ bytes left,
    s.running = some (bytes, left) ∧ s'.stream.finished = s.stream.finished ∧ Goes s bytes left s' := by
  simp only [step] at he
  split at he
  · rename_i bytes piece left hr
    refine ⟨bytes, piece :: left, hr, ?_⟩
    split at he
    · obtain ⟨s₁, hmove, rfl⟩ := Option.map_eq_some_iff.1 he
      obtain ⟨mem, rfl⟩ := move_discard hmove
      exact ⟨rfl, .failed _ rfl rfl rfl⟩
    · rename_i hclosed
      rw [Bool.not_eq_true] at hclosed
      obtain ⟨s₁, hmove, rfl⟩ := Option.map_eq_some_iff.1 he
      obtain ⟨seg, rest, hres, -, rfl⟩ := move_send hclosed hmove
      have hseg : seg.bytes = piece := by
        rcases hs.reserved with hnil | ⟨seg', b, l, hone, hrun⟩
        · rw [hnil] at hres
          cases hres
        · rw [hone, List.cons.injEq] at hres
          rw [hr, Option.some.injEq, Prod.mk.injEq, List.cons.injEq] at hrun
          rw [← hres.1]
          exact hrun.2.1.symm
      have hwire : ({ s with stream := { s.stream with reserved := rest, queue := s.stream.queue ++ [seg] } } : Channel).wire =
          s.wire ++ piece := by
        simp [wire, queued, hseg]
      unfold sent
      by_cases hl : left = []
      · rw [if_pos hl]
        refine ⟨rfl, .ok rfl rfl ?_⟩
        rw [hl, List.flatten_singleton]
        exact hwire
      · rw [if_neg hl]
        exact ⟨rfl, .on piece left rfl rfl hwire rfl⟩
  · cases he

theorem cancel_effect (he : s.step .cancel = some s') : ∃ bytes left, s.running = some (bytes, left) ∧
    s'.stream.finished = s.stream.finished ∧ Goes s bytes left s' := by
  simp only [step] at he
  split at he
  · cases he
  · rename_i bytes left hr
    cases he
    refine ⟨bytes, left, hr, ?_⟩
    cases hmove : s.move (.discard 0) with
    | none => exact ⟨rfl, .failed _ rfl rfl rfl⟩
    | some s₁ =>
      obtain ⟨mem, rfl⟩ := move_discard hmove
      exact ⟨rfl, .failed _ rfl rfl rfl⟩

/-- **A move of the call.** -/
theorem goes_effect (hs : Integrity budget s) (hcall : e.ofCall = true) (he : s.step e = some s') : ∃ bytes left,
    s.running = some (bytes, left) ∧ s'.stream.finished = s.stream.finished ∧ Goes s bytes left s' := by
  cases e with
  | reserve => exact reserve_effect he
  | send => exact send_effect hs he
  | cancel => exact cancel_effect he
  | call bytes | poll | dropBody | finish | others mem => cases hcall

/-- **The rest of the process** moves bytes from the queue to the client, or drops them. -/
theorem quiet_effect (hs : Integrity budget s) (he : s.step e = some s') (hcall : e.ofCall = false)
    (hne : ∀ bytes, e ≠ .call bytes) : s'.running = s.running ∧ s'.returned = s.returned ∧ s'.wire = s.wire ∧
      (e ≠ .finish → s'.stream.finished = s.stream.finished) := by
  cases e with
  | call bytes => exact absurd rfl (hne bytes)
  | reserve | send | cancel => cases hcall
  | others mem =>
    cases he
    exact ⟨rfl, rfl, rfl, fun _ => rfl⟩
  | finish =>
    simp only [step] at he
    split at he
    · cases he
    · obtain ⟨mem, rfl⟩ := move_finish he
      exact ⟨rfl, rfl, rfl, fun h => absurd rfl h⟩
  | dropBody =>
    obtain ⟨s₁, hmove, rfl⟩ := Option.map_eq_some_iff.1 he
    obtain ⟨hclosed, mem, rfl⟩ := move_dropBody hmove
    refine ⟨rfl, rfl, ?_, fun _ => rfl⟩
    simp [wire, queued, hs.opened hclosed]
  | poll =>
    simp only [step] at he
    split at he
    · cases he
    · rename_i hclosed
      rw [Bool.not_eq_true] at hclosed
      cases he
      have hdropped := hs.opened hclosed
      rcases s.stream.pollFrame_eq s.mem with ⟨-, hp⟩ | ⟨-, mem, ⟨seg, queue, hq, hp⟩ | ⟨hq, -, hp⟩ | ⟨hq, -, hp⟩⟩ <;>
        rw [hp]
      · exact ⟨rfl, rfl, by simp [wire, queued, Poll.frame], fun _ => rfl⟩
      · exact ⟨rfl, rfl, by simp [wire, queued, Poll.frame, hq, hdropped], fun _ => rfl⟩
      · exact ⟨rfl, rfl, by simp [wire, queued, Poll.frame], fun _ => rfl⟩
      · exact ⟨rfl, rfl, by simp [wire, queued, Poll.frame], fun _ => rfl⟩

end BudgetQueue.Channel

open BudgetQueue (Channel ByteBudget Memory TenantId)

/-- How the task takes the return of its call, with `queued` bytes of it on the channel. -/
def outcome (queued : Nat) : Except BudgetQueue.EnqueueError Unit → Outcome
  | .ok () => .ok
  | .error (.budget .tenantLimitExceeded) => .failed .tenantLimit queued
  | .error (.budget .globalLimitExceeded) => .failed .globalLimit queued
  | .error _ => .failed .other queued

/-- What a call that has returned has put on the channel. -/
def carried (bytes part : Bytes) : Except BudgetQueue.EnqueueError Unit → Bytes
  | .ok () => bytes
  | .error _ => part

theorem outcome_error (queued : Nat) (e : BudgetQueue.EnqueueError) : ∃ error, outcome queued (.error e) = .failed error queued := by
  unfold outcome
  split
  · rename_i h
    cases h
  · exact ⟨_, rfl⟩
  · exact ⟨_, rfl⟩
  · exact ⟨_, rfl⟩

namespace StreamTask

variable {P : Primitives} {key : Bytes} {t t' : StreamTask} {label : Label} {item : Sent}

/-- Everything but the end of an enqueue. -/
def Label.shown : Label → List Label
  | .enqueued _ => []
  | label => [label]

/-- An enqueue shows nothing of the session. -/
theorem foldr_shown (labels : List Label) (s : Session) :
    labels.foldr Session.cons s = (labels.flatMap Label.shown).foldr Session.cons s := by
  induction labels with
  | nil => rfl
  | cons label labels ih =>
    rw [List.flatMap_cons, List.foldr_append, ← ih]
    cases label <;> rfl

/-- A task with something to enqueue waits for that. -/
theorem step_item (hitem : Pc.item t.pc = some item) (h : t.step P key label = some t') :
    ∃ outcome, label = .enqueued outcome := by
  rcases step_cases h with ⟨hpc, -⟩ | ⟨stage, out, outs, amb, hpc, -, -⟩ | ⟨stage, hpc, -, -⟩ | ⟨cont, hpc, -, -⟩ |
    ⟨hpc, -, -⟩ | ⟨o, rfl, -⟩
  · rw [hpc] at hitem
    cases hitem
  · rw [hpc] at hitem
    cases hitem
  · rw [hpc] at hitem
    cases hitem
  · rw [hpc] at hitem
    cases hitem
  · rw [hpc] at hitem
    cases hitem
  · exact ⟨o, rfl⟩

theorem enqueued_sent {o : Outcome} (hitem : Pc.item t.pc = some item) (h : t.step P key (.enqueued o) = some t') :
    t'.sent = enqueue P item t.sent o := by
  have hend := step_enqueued h
  unfold Pc.item at hitem
  split at hitem
  · rename_i e es cont hpc
    cases hitem
    rw [hpc] at hend
    cases o <;> cases hend <;> rfl
  · rename_i stage bytes outs hpc
    cases hitem
    rw [hpc] at hend
    cases o <;> cases stage <;> cases hend <;> rfl
  · rename_i reason hpc
    cases hitem
    rw [hpc] at hend
    cases hend
    rfl
  · cases hitem

theorem enqueue_bytes (sent : List Sent) (o : Outcome) :
    (enqueue P item sent o).flatMap (Sent.bytes P) = sent.flatMap (Sent.bytes P) ++
      match o with
      | .ok => item.bytes P
      | .failed _ queued => (item.bytes P).take queued := by
  cases o with
  | ok =>
    simp only [enqueue]
    split
    · rename_i hb
      rw [hb, List.append_nil]
    · simp
  | failed error queued =>
    simp only [enqueue]
    split
    · rename_i hb
      rw [hb, List.append_nil]
    · simp [Sent.bytes]

/-- The next item of a task is the first that is to come. -/
theorem item_coming (s : Session) (hitem : Pc.item t.pc = some item) :
    item.bytes P <+: (t.coming P key s).flatMap (Sent.bytes P) := by
  unfold Pc.item at hitem
  split at hitem
  · rename_i e es cont hpc
    cases hitem
    have hcons : eventItems P (e :: es) = queued P (.event e) ++ eventItems P es := rfl
    simp only [coming, hpc, hcons, List.flatMap_append, flatMap_queued, List.append_assoc]
    exact List.prefix_append _ _
  · rename_i stage bytes outs hpc
    cases hitem
    simp only [coming, hpc, List.flatMap_append, flatMap_queued]
    exact List.prefix_append _ _
  · rename_i reason hpc
    cases hitem
    simp only [coming, hpc, flatMap_queued]
    exact List.prefix_rfl
  · cases hitem

end StreamTask

/-! ## The two together -/

structure Delivery where
  task : StreamTask
  channel : Channel

namespace Delivery

open StreamTask (Label Session Succeeds serve Pc.item)

inductive Act where
  /-- A wait of the task that is no enqueue. -/
  | wait (label : Label)
  /-- The task calls `enqueue_with_timeout` with its next item. -/
  | call
  /-- The call goes on, or the body, or the other streams; or the task drops the sender. -/
  | channel (e : BudgetQueue.Event)

def Act.label : Act → List Label
  | .wait label => [label]
  | _ => []

/-- A call that has returned gives its outcome to the task. -/
def settle (P : Primitives) (key : Bytes) (s : Delivery) (c : Channel) : Option Delivery :=
  match c.running, c.returned.getLast? with
  | some _, _ => some { s with channel := c }
  | none, none => none
  | none, some (_, result) =>
    (s.task.step P key (.enqueued (outcome s.channel.part.length result))).map fun t => ⟨t, c⟩

def step (P : Primitives) (key : Bytes) (s : Delivery) : Act → Option Delivery
  | .wait (.enqueued _) => none
  | .wait .clientClosed =>
    -- `tx_task.closed()`.
    if s.channel.stream.closed then (s.task.step P key .clientClosed).map fun t => { s with task := t } else none
  | .wait label => (s.task.step P key label).map fun t => { s with task := t }
  | .call => (Pc.item s.task.pc).bind fun item => (s.channel.step (.call (item.bytes P))).bind (s.settle P key)
  | .channel (.call _) => none
  | .channel .finish =>
    if s.task.pc = .ended then (s.channel.step .finish).map fun c => { s with channel := c } else none
  | .channel e =>
    if e.ofCall then (s.channel.step e).bind (s.settle P key)
    else (s.channel.step e).map fun c => { s with channel := c }

/-! ## One act -/

variable {P : Primitives} {key : Bytes} {s s' : Delivery} {budget : ByteBudget} {a : Act}

/-- What the task has sent and the part of its call are the bytes on the channel. -/
structure Follows (P : Primitives) (budget : ByteBudget) (s : Delivery) : Prop where
  integrity : s.channel.Integrity budget
  wire : s.channel.wire = s.task.sent.flatMap (Sent.bytes P) ++ s.channel.part
  calling : ∀ bytes left, s.channel.running = some (bytes, left) → ∃ item, Pc.item s.task.pc = some item ∧ item.bytes P = bytes
  finished : s.channel.stream.finished = true → s.task.pc = .ended

/-- No call has failed. -/
def Clean (s : Delivery) : Prop := ∀ c ∈ s.channel.returned, c.2 = .ok ()

/-- An act is matched by a run of the task that reads the same. -/
def Matched (P : Primitives) (key : Bytes) (budget : ByteBudget) (s : Delivery) (a : Act) (s' : Delivery) : Prop :=
  Follows P budget s' ∧ ∃ labels, s.task.run P key labels = some s'.task ∧ labels.flatMap Label.shown = a.label ∧
    (s'.Clean → s.Clean ∧ Succeeds labels)

theorem Follows.wait {label : Label} {t : StreamTask} (h : Follows P budget s) (hne : ∀ o, label ≠ .enqueued o)
    (ht : s.task.step P key label = some t) : Matched P key budget s (.wait label) { s with task := t } := by
  have hrun : s.channel.running = none := by
    cases hr : s.channel.running with
    | none => rfl
    | some c =>
      obtain ⟨item, hitem, -⟩ := h.calling c.1 c.2 hr
      obtain ⟨o, rfl⟩ := StreamTask.step_item hitem ht
      exact absurd rfl (hne o)
  have hsent : t.sent = s.task.sent := by
    cases StreamTask.step_effect ht with
    | goes | redacts | hashes | inspects | finishes | shuts => rfl
    | enqueues o => exact absurd rfl (hne o)
  refine ⟨⟨h.integrity, ?_, ?_, ?_⟩, [label], ?_, ?_, fun hc => ⟨hc, ?_⟩⟩
  · rw [hsent]
    exact h.wire
  · intro bytes left hr
    rw [hrun] at hr
    cases hr
  · intro hf
    rw [StreamTask.step_ended (h.finished hf)] at ht
    cases ht
  · simp [StreamTask.run, ht]
  · cases label with
    | enqueued o => exact absurd rfl (hne o)
    | _ => rfl
  · intro o hm
    exact absurd (List.mem_singleton.1 hm).symm (hne o)

/-- The call is still running, and has sent `piece` more. -/
theorem Follows.goes {c : Channel} {bytes piece : Bytes} {left : List Bytes} (h : Follows P budget s) (hc : c.Integrity budget)
    (hrun : c.running = some (bytes, left)) (hret : c.returned = s.channel.returned) (hwire : c.wire = s.channel.wire ++ piece)
    (hpart : c.part = s.channel.part ++ piece) (hitem : ∃ item, Pc.item s.task.pc = some item ∧ item.bytes P = bytes)
    (hfin : c.stream.finished = s.channel.stream.finished) (ha : a.label = []) :
    Matched P key budget s a { s with channel := c } := by
  refine ⟨⟨hc, ?_, ?_, ?_⟩, [], rfl, ha.symm, fun hclean => ⟨?_, by simp [Succeeds]⟩⟩
  · rw [hwire, h.wire, hpart, List.append_assoc]
  · intro b l hbl
    rw [hrun, Option.some.injEq, Prod.mk.injEq] at hbl
    rw [← hbl.1]
    exact hitem
  · intro hf
    rw [hfin] at hf
    exact h.finished hf
  · unfold Clean
    rw [← hret]
    exact hclean

/-- The call has returned. -/
theorem Follows.returns {c : Channel} {bytes : Bytes} {t : StreamTask} {item : Sent} {result : Except BudgetQueue.EnqueueError Unit}
    (h : Follows P budget s) (hc : c.Integrity budget) (hrun : c.running = none)
    (hret : c.returned = s.channel.returned ++ [(bytes, result)]) (hitem : Pc.item s.task.pc = some item)
    (hwire : c.wire = s.task.sent.flatMap (Sent.bytes P) ++ carried (item.bytes P) s.channel.part result)
    (hpart : s.channel.part <+: item.bytes P) (hfin : c.stream.finished = s.channel.stream.finished)
    (ht : s.task.step P key (.enqueued (outcome s.channel.part.length result)) = some t) (ha : a.label = []) :
    Matched P key budget s a ⟨t, c⟩ := by
  have hsent := StreamTask.enqueued_sent hitem ht
  refine ⟨⟨hc, ?_, ?_, ?_⟩, [.enqueued (outcome s.channel.part.length result)], ?_, ha.symm, ?_⟩
  · rw [hwire, hsent, StreamTask.enqueue_bytes, Channel.part_idle hrun, List.append_nil]
    cases result with
    | ok u => rfl
    | error e =>
      obtain ⟨error, ho⟩ := outcome_error s.channel.part.length e
      rw [ho]
      exact congrArg (s.task.sent.flatMap (Sent.bytes P) ++ ·) (List.prefix_iff_eq_take.1 hpart)
  · intro b l hbl
    rw [hrun] at hbl
    cases hbl
  · intro hf
    rw [hfin] at hf
    rw [StreamTask.step_ended (h.finished hf)] at ht
    cases ht
  · simp [StreamTask.run, ht]
  · intro hclean
    unfold Clean at hclean
    rw [hret] at hclean
    refine ⟨fun c hm => hclean c (List.mem_append_left _ hm), ?_⟩
    intro o hm
    have hok : result = .ok () := hclean (bytes, result) (List.mem_append_right _ List.mem_cons_self)
    rw [hok] at hm
    cases List.mem_singleton.1 hm
    rfl

/-- `settle` on a channel whose call runs. -/
theorem settle_running {c : Channel} {r : Bytes × List Bytes} (hrun : c.running = some r)
    (he : s.settle P key c = some s') : s' = { s with channel := c } := by
  simp only [settle, hrun, Option.some.injEq] at he
  exact he.symm

/-- `settle` on a channel whose call has returned. -/
theorem settle_returned {c : Channel} {bytes : Bytes} {result : Except BudgetQueue.EnqueueError Unit}
    (hrun : c.running = none) (hret : c.returned = s.channel.returned ++ [(bytes, result)])
    (he : s.settle P key c = some s') :
    ∃ t, s.task.step P key (.enqueued (outcome s.channel.part.length result)) = some t ∧ s' = ⟨t, c⟩ := by
  simp only [settle, hrun, hret, List.getLast?_concat] at he
  obtain ⟨t, ht, rfl⟩ := Option.map_eq_some_iff.1 he
  exact ⟨t, ht, rfl⟩

theorem Follows.call {item : Sent} {c : Channel} (h : Follows P budget s) (hitem : Pc.item s.task.pc = some item)
    (hc : s.channel.step (.call (item.bytes P)) = some c) (he : s.settle P key c = some s') :
    Matched P key budget s .call s' := by
  have hint := Channel.step_integrity h.integrity hc
  obtain ⟨hidle, -, hstream, hwire, ⟨hb, hrun, hret⟩ | ⟨left, hleft, hrun, hret⟩⟩ := Channel.call_effect hc
  · obtain ⟨t, ht, rfl⟩ := settle_returned hrun hret he
    have hpart : s.channel.part = [] := Channel.part_idle hidle
    refine h.returns hint hrun hret hitem ?_ ?_ (congrArg _ hstream) ht rfl
    · rw [hwire, h.wire, hpart, carried, hb]
    · rw [hpart]
      exact List.nil_prefix
  · cases settle_running hrun he
    have hsame : c.wire = s.channel.wire ++ [] := by rw [hwire, List.append_nil]
    refine h.goes hint hrun hret hsame ?_ ⟨item, hitem, rfl⟩ (congrArg _ hstream) rfl
    rw [Channel.part_idle hidle]
    exact Channel.part_of_append hrun hleft

theorem Follows.continues {e : BudgetQueue.Event} {c : Channel} (h : Follows P budget s) (hcall : e.ofCall = true)
    (hc : s.channel.step e = some c) (he : s.settle P key c = some s') : Matched P key budget s (.channel e) s' := by
  have hint := Channel.step_integrity h.integrity hc
  obtain ⟨bytes, left, hwas, hfin, hgoes⟩ := Channel.goes_effect h.integrity hcall hc
  have hsplit := Channel.part_append h.integrity hwas
  obtain ⟨item, hitem, hb⟩ := h.calling bytes left hwas
  have hfront : s.channel.part <+: item.bytes P := ⟨left.flatten, hsplit.trans hb.symm⟩
  cases hgoes with
  | on piece left' hrun hret hwire hpieces =>
    cases settle_running hrun he
    refine h.goes hint hrun hret hwire ?_ ⟨item, hitem, hb⟩ hfin rfl
    refine Channel.part_of_append hrun ?_
    rw [List.append_assoc, hpieces]
    exact hsplit
  | ok hrun hret hwire =>
    obtain ⟨t, ht, rfl⟩ := settle_returned hrun hret he
    refine h.returns hint hrun hret hitem ?_ hfront hfin ht rfl
    rw [hwire, h.wire, List.append_assoc, hsplit, carried, hb]
  | failed error hrun hret hwire =>
    obtain ⟨t, ht, rfl⟩ := settle_returned hrun hret he
    refine h.returns hint hrun hret hitem ?_ hfront hfin ht rfl
    rw [hwire, h.wire, carried]

/-- The process around the call. -/
theorem Follows.quiet {e : BudgetQueue.Event} {c : Channel} (h : Follows P budget s) (hcall : e.ofCall = false)
    (hne : ∀ bytes, e ≠ .call bytes) (hended : e = .finish → s.task.pc = .ended) (hc : s.channel.step e = some c) :
    Matched P key budget s (.channel e) { s with channel := c } := by
  have hint := Channel.step_integrity h.integrity hc
  obtain ⟨hrun, hret, hwire, hfin⟩ := Channel.quiet_effect h.integrity hc hcall hne
  have hpart : c.part = s.channel.part := by simp only [Channel.part, hrun]
  refine ⟨⟨hint, ?_, ?_, ?_⟩, [], rfl, rfl, fun hclean => ⟨?_, by simp [Succeeds]⟩⟩
  · rw [hwire, h.wire, hpart]
  · intro bytes left hr
    rw [hrun] at hr
    exact h.calling bytes left hr
  · intro hf
    by_cases hfe : e = .finish
    · exact hended hfe
    · rw [hfin hfe] at hf
      exact h.finished hf
  · unfold Clean
    rw [← hret]
    exact hclean

/-- An act leaves the task where it is, or is one step of it, and only a wait is a shutdown. -/
theorem step_task (h : s.step P key a = some s') : s'.task = s.task ∨
    ∃ label, s.task.step P key label = some s'.task ∧ ∀ amb, label = .shutdown amb → a = .wait (.shutdown amb) := by
  have hsettle : ∀ c, s.settle P key c = some s' → s'.task = s.task ∨
      ∃ label, s.task.step P key label = some s'.task ∧ ∀ amb, label = .shutdown amb → a = .wait (.shutdown amb) := by
    intro c hc
    unfold settle at hc
    split at hc
    · cases hc
      exact .inl rfl
    · cases hc
    · obtain ⟨t, ht, rfl⟩ := Option.map_eq_some_iff.1 hc
      exact .inr ⟨_, ht, by simp⟩
  cases a with
  | wait label =>
    cases label with
    | enqueued o => cases h
    | clientClosed =>
      simp only [step] at h
      split at h
      · obtain ⟨t, ht, rfl⟩ := Option.map_eq_some_iff.1 h
        exact .inr ⟨_, ht, by simp⟩
      · cases h
    | shutdown amb =>
      obtain ⟨t, ht, rfl⟩ := Option.map_eq_some_iff.1 h
      refine .inr ⟨_, ht, ?_⟩
      rintro amb' ⟨⟩
      rfl
    | shutdownUnset | idleTimeout | chunk | readError | eof | segment | flush | next =>
      obtain ⟨t, ht, rfl⟩ := Option.map_eq_some_iff.1 h
      exact .inr ⟨_, ht, by simp⟩
  | call =>
    obtain ⟨item, -, h⟩ := Option.bind_eq_some_iff.1 h
    obtain ⟨c, -, h⟩ := Option.bind_eq_some_iff.1 h
    exact hsettle c h
  | channel e =>
    cases e with
    | call bytes => cases h
    | finish =>
      simp only [step] at h
      split at h
      · obtain ⟨c, -, rfl⟩ := Option.map_eq_some_iff.1 h
        exact .inl rfl
      · cases h
    | reserve | send | cancel =>
      obtain ⟨c, -, h⟩ := Option.bind_eq_some_iff.1 h
      exact hsettle c h
    | poll | dropBody | others =>
      simp only [step, BudgetQueue.Event.ofCall, Bool.false_eq_true, if_false] at h
      obtain ⟨c, -, rfl⟩ := Option.map_eq_some_iff.1 h
      exact .inl rfl

/-- **One act.** -/
theorem step_matched (h : Follows P budget s) (he : s.step P key a = some s') : Matched P key budget s a s' := by
  cases a with
  | wait label =>
    cases label with
    | enqueued o => cases he
    | clientClosed =>
      simp only [step] at he
      split at he
      · obtain ⟨t, ht, rfl⟩ := Option.map_eq_some_iff.1 he
        exact h.wait (by simp) ht
      · cases he
    | shutdown | shutdownUnset | idleTimeout | chunk | readError | eof | segment | flush | next =>
      obtain ⟨t, ht, rfl⟩ := Option.map_eq_some_iff.1 he
      exact h.wait (by simp) ht
  | call =>
    obtain ⟨item, hitem, he⟩ := Option.bind_eq_some_iff.1 he
    obtain ⟨c, hc, he⟩ := Option.bind_eq_some_iff.1 he
    exact h.call hitem hc he
  | channel e =>
    cases e with
    | call bytes => cases he
    | finish =>
      simp only [step] at he
      split at he
      · rename_i hended
        obtain ⟨c, hc, rfl⟩ := Option.map_eq_some_iff.1 he
        exact h.quiet rfl (by simp) (fun _ => hended) hc
      · cases he
    | reserve | send | cancel =>
      obtain ⟨c, hc, he⟩ := Option.bind_eq_some_iff.1 he
      exact h.continues rfl hc he
    | poll | dropBody | others =>
      simp only [step, BudgetQueue.Event.ofCall, Bool.false_eq_true, if_false] at he
      obtain ⟨c, hc, rfl⟩ := Option.map_eq_some_iff.1 he
      exact h.quiet rfl (by simp) (by simp) hc

/-! ## Whole runs -/

variable {acts : List Act} {t : StreamTask} {q : Request} {policyDigest : String} {isSse : Bool} {engine : EngineState}

theorem follows_open (mem : Memory) (tenant : TenantId) (budget : ByteBudget) (hsent : t.sent = []) :
    Follows P budget ⟨t, .open mem tenant budget⟩ where
  integrity := Channel.integrity_open mem tenant budget
  wire := by simp [hsent, Channel.wire, Channel.part, Channel.open, Channel.queued, BudgetQueue.Stream.open]
  calling := by simp [Channel.open]
  finished := by simp [Channel.open, BudgetQueue.Stream.open]

/-- **The run lemma.** -/
theorem run_matched (hs : Follows P budget s) (h : Machine.run (step P key) s acts = some s') :
    Follows P budget s' ∧ ∃ labels, s.task.run P key labels = some s'.task ∧
      labels.flatMap Label.shown = acts.flatMap Act.label ∧ (s'.Clean → Succeeds labels) := by
  have hstep : ∀ (s : Delivery) (a : Act) (s' : Delivery) (t : StreamTask), s.task = t ∧ Follows P budget s →
      s.step P key a = some s' → ∃ labels t', Machine.run (StreamTask.step P key) t labels = some t' ∧
        (s'.task = t' ∧ Follows P budget s') ∧ labels.flatMap Label.shown = a.label ∧
        (s'.Clean → s.Clean ∧ ∀ label ∈ labels, ∀ o, label = .enqueued o → o = .ok) := by
    rintro s a s' t ⟨rfl, hs⟩ he
    obtain ⟨hs', labels, hrun, hshown, hclean⟩ := step_matched hs he
    refine ⟨labels, s'.task, hrun, ⟨rfl, hs'⟩, hshown, fun hc => ?_⟩
    obtain ⟨hc₀, hok⟩ := hclean hc
    refine ⟨hc₀, ?_⟩
    rintro label hm o rfl
    exact hok o hm
  obtain ⟨labels, t', hrun, ⟨rfl, hs'⟩, hshown, hclean⟩ := Machine.run_simulates hstep ⟨rfl, hs⟩ h
  exact ⟨hs', labels, hrun, hshown, fun hc o hm => (hclean hc).2 _ hm o rfl⟩

/-- What the client has and what is still to come to it, or was dropped with its body. -/
theorem Follows.delivered (hs : Follows P budget s) :
    s.channel.frames.flatten ++ (if s.channel.stream.closed then s.channel.dropped else s.channel.queued).flatten =
      s.task.sent.flatMap (Sent.bytes P) ++ s.channel.part := by
  rw [← hs.wire, Channel.wire]
  cases hc : s.channel.stream.closed with
  | true =>
    have hq : s.channel.queued = [] := by simp [Channel.queued, hs.integrity.closed hc]
    simp [hq]
  | false => simp [hs.integrity.opened hc]

/-- What a client has read is the front of what was sent and is being sent. -/
theorem Follows.read_front (hf : Follows P budget s) :
    s.channel.frames.flatten <+: s.task.sent.flatMap (Sent.bytes P) ++ s.channel.part := by
  rw [← hf.delivered]
  exact List.prefix_append _ _

theorem Follows.part_front (hs : Follows P budget s) (hne : s.channel.part ≠ []) :
    ∃ item, Pc.item s.task.pc = some item ∧ s.channel.part <+: item.bytes P := by
  cases hr : s.channel.running with
  | none => exact absurd (Channel.part_idle hr) hne
  | some c =>
    obtain ⟨item, hitem, hb⟩ := hs.calling c.1 c.2 hr
    exact ⟨item, hitem, c.2.flatten, (Channel.part_append hs.integrity hr).trans hb.symm⟩

/-- **Every interleaving is a run of the task.** However the slices of its calls, their time-outs, the polls, the end
of the body and the other streams come between each other, the task goes through a run of `StreamTask` that reads the
same; and what the client was given, with what is queued or went with the body, are the bytes that run has sent and
the beginning of the item that is being enqueued, each once and in order. -/
theorem delivery_refines (hspawn : spawn q policyDigest isSse engine = .ok t) (mem : Memory) (tenant : TenantId)
    (budget : ByteBudget) (h : Machine.run (step P q.key) ⟨t, .open mem tenant budget⟩ acts = some s) :
    (∃ labels, t.run P q.key labels = some s.task ∧ labels.flatMap Label.shown = acts.flatMap Act.label) ∧
    s.channel.frames.flatten ++ (if s.channel.stream.closed then s.channel.dropped else s.channel.queued).flatten =
      s.task.sent.flatMap (Sent.bytes P) ++ s.channel.part ∧
    (s.channel.part ≠ [] → ∃ item, Pc.item s.task.pc = some item ∧ s.channel.part <+: item.bytes P) := by
  have hopen := @follows_open P t mem tenant budget (StreamTask.spawn_sent hspawn)
  obtain ⟨hs, labels, hrun, hshown, -⟩ := run_matched hopen h
  exact ⟨⟨labels, hrun, hshown⟩, hs.delivered, hs.part_front⟩

/-- `data: hi` in slices of four bytes, of which the client has the first and the third is late. -/
def lateActs : List Act :=
  [.wait (.chunk (Utf8.encode "data: hi\n\n")), .wait (.segment ⟨[], 1700000000⟩), .wait .next, .wait .next, .wait .eof,
    .wait .flush, .wait .next, .call, .channel .reserve, .channel .send, .channel .poll, .channel .reserve,
    .channel .send, .channel .reserve, .channel .cancel]

theorem delivery_refines_late : ∃ s labels,
    Machine.run (step StreamTask.killPrimitives swapRequest.key) ⟨StreamTask.defaultTask, BudgetQueue.fourBytes⟩ lateActs = some s ∧
    StreamTask.defaultTask.run StreamTask.killPrimitives swapRequest.key labels = some s.task ∧
    labels.flatMap Label.shown = lateActs.flatMap Act.label ∧ s.channel.frames = [Utf8.encode "data"] ∧
    s.task.sent.flatMap (Sent.bytes StreamTask.killPrimitives) = Utf8.encode "data: hi" := by
  have hrun : (Machine.run (step StreamTask.killPrimitives swapRequest.key) ⟨StreamTask.defaultTask, BudgetQueue.fourBytes⟩ lateActs).map
      (fun s => (s.channel.frames, s.channel.queued, s.channel.stream.closed, s.channel.part)) =
      some ([Utf8.encode "data"], [Utf8.encode ": hi"], false, []) := rfl
  obtain ⟨s, hs, he⟩ := Option.map_eq_some_iff.1 hrun
  simp only [Prod.mk.injEq] at he
  obtain ⟨hframes, hqueued, hclosed, hpart⟩ := he
  obtain ⟨⟨labels, hl, hshown⟩, hwire, -⟩ := delivery_refines StreamTask.defaultTask_spawn _ _ _ hs
  rw [hclosed, hframes, hqueued, hpart, List.append_nil] at hwire
  exact ⟨s, labels, hs, hl, hshown, hframes, hwire.symm⟩

/-- The bytes of a straight line. -/
def served (P : Primitives) (key : Bytes) (isSse : Bool) (r : StreamRedactor) (d : DoneDetector) (session : Session) : Bytes :=
  (serve P key isSse r d [] session).flatMap (Sent.bytes P)

/-- The bytes on the channel are the front of what the task is known to come to, and all of it once it has ended. -/
theorem Follows.wire_front (hs : Follows P budget s) (later : Session) :
    s.channel.wire <+: (s.task.forecast P key later).flatMap (Sent.bytes P) ∧
    (s.task.pc = .ended → s.channel.wire = (s.task.forecast P key later).flatMap (Sent.bytes P)) := by
  rw [hs.wire, StreamTask.forecast, List.flatMap_append]
  constructor
  · rw [List.prefix_append_right_inj]
    by_cases hne : s.channel.part = []
    · rw [hne]
      exact List.nil_prefix
    · obtain ⟨item, hitem, hpart⟩ := hs.part_front hne
      exact hpart.trans (StreamTask.item_coming later hitem)
  · intro hended
    have hpart : s.channel.part = [] := by
      by_contra hne
      obtain ⟨item, hitem, -⟩ := hs.part_front hne
      rw [hended] at hitem
      cases hitem
    rw [hpart]
    simp only [StreamTask.coming, hended, List.flatMap_nil]

/-- Enough polls after the last sender give all that is queued. -/
theorem flatMap_polls {ms : List Memory} {st : BudgetQueue.Stream} (hf : st.finished = true)
    (he : st.ended = true → st.queue = []) (hlen : st.queue.length ≤ ms.length) :
    (st.polls ms).flatMap BudgetQueue.Poll.frame = st.queue.map (·.bytes) := by
  have hready : ∀ queue : List BudgetQueue.BudgetedSegment,
      (queue.map fun seg => BudgetQueue.Poll.ready (some seg.bytes)).flatMap BudgetQueue.Poll.frame = queue.map (·.bytes) := by
    intro queue
    induction queue with
    | nil => rfl
    | cons seg queue ih =>
      rw [List.map_cons, List.flatMap_cons, ih]
      rfl
  rw [BudgetQueue.polls_finished hf he, List.take_of_length_le (by simpa using hlen), List.flatMap_append, hready]
  simp [BudgetQueue.Poll.frame]

/-- **What a client has read.** As long as no call has failed, the client has read the front of what `serve` gives for
the session so far, whatever comes later; and once the task has ended and dropped its sender, the polls of a body that
is still there give exactly the rest. -/
theorem client_reads (hspawn : spawn q policyDigest isSse engine = .ok t) (mem : Memory) (tenant : TenantId)
    (budget : ByteBudget) (h : Machine.run (step P q.key) ⟨t, .open mem tenant budget⟩ acts = some s) (hok : s.Clean)
    (later : Session) :
    s.channel.frames.flatten <+:
      served P q.key isSse t.redactor (q.detector policyDigest) ((acts.flatMap Act.label).foldr .cons later) ∧
    (s.channel.stream.finished = true → s.channel.stream.closed = false → ∀ ms : List Memory,
      s.channel.queued.length ≤ ms.length →
      s.channel.frames.flatten ++ ((s.channel.stream.polls ms).flatMap BudgetQueue.Poll.frame).flatten =
        served P q.key isSse t.redactor (q.detector policyDigest) ((acts.flatMap Act.label).foldr .cons later)) := by
  have hopen := @follows_open P t mem tenant budget (StreamTask.spawn_sent hspawn)
  obtain ⟨hs, labels, hrun, hshown, hclean⟩ := run_matched hopen h
  have hline : served P q.key isSse t.redactor (q.detector policyDigest) ((acts.flatMap Act.label).foldr .cons later) =
      (s.task.forecast P q.key later).flatMap (Sent.bytes P) := by
    rw [served, ← hshown, ← StreamTask.foldr_shown, ← StreamTask.spawn_forecast hspawn,
      StreamTask.run_forecast (hclean hok) hrun later]
  obtain ⟨hfront, hended⟩ := @Follows.wire_front P q.key s budget hs later
  rw [hline]
  constructor
  · refine List.IsPrefix.trans ?_ hfront
    rw [Channel.wire, List.append_assoc]
    exact List.prefix_append _ _
  · intro hf hc ms hlen
    have hpolls : (s.channel.stream.polls ms).flatMap BudgetQueue.Poll.frame = s.channel.queued :=
      flatMap_polls hf (fun he => (hs.integrity.ended he).1) (by simpa [Channel.queued] using hlen)
    rw [hpolls, ← hended (hs.finished hf), Channel.wire, hs.integrity.opened hc]
    simp

/-- The same with the third slice in time; two slices are queued when the task ends. -/
def hiActs : List Act := lateActs.dropLast ++ [.channel .send, .wait .next, .channel .finish]

theorem client_reads_hi : ∃ s,
    Machine.run (step StreamTask.killPrimitives swapRequest.key) ⟨StreamTask.defaultTask, BudgetQueue.fourBytes⟩ hiActs = some s ∧
    s.channel.frames = [Utf8.encode "data"] ∧
    Utf8.encode "data" ++ ((s.channel.stream.polls [s.channel.mem, s.channel.mem, s.channel.mem]).flatMap BudgetQueue.Poll.frame).flatten =
      served StreamTask.killPrimitives swapRequest.key true StreamTask.defaultTask.redactor StreamTask.defaultTask.detector
        ⟨[Utf8.encode "data: hi\n\n"], .eof, [⟨[], 1700000000⟩]⟩ := by
  have hrun : (Machine.run (step StreamTask.killPrimitives swapRequest.key) ⟨StreamTask.defaultTask, BudgetQueue.fourBytes⟩ hiActs).map
      (fun s => (s.channel.frames, s.channel.queued.length, s.channel.stream.finished, s.channel.stream.closed,
        s.channel.returned)) =
      some ([Utf8.encode "data"], 2, true, false, [(Utf8.encode "data: hi\n\n", .ok ())]) := rfl
  obtain ⟨s, hs, he⟩ := Option.map_eq_some_iff.1 hrun
  simp only [Prod.mk.injEq] at he
  obtain ⟨hframes, hqueued, hf, hc, hret⟩ := he
  have hclean : s.Clean := by simp [Clean, hret]
  have hread := (client_reads StreamTask.defaultTask_spawn _ _ _ hs hclean ⟨[], .unread, []⟩).2 hf hc
    [s.channel.mem, s.channel.mem, s.channel.mem] (by rw [hqueued]; exact Nat.le_succ 2)
  rw [hframes] at hread
  exact ⟨s, hs, hframes, hread⟩

end Delivery

end PiiProxy
