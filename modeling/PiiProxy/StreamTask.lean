import PiiProxy.Detector
import PiiProxy.Redactor

/-!
# The stream task of `proxy_with_upstream` (lib.rs:685-861)

A step machine: `Pc` is where the task waits, a `Label` what ends the wait. The waits
are the `select!` of the loop, each `enqueue_with_timeout`, and the points between two
outputs where the receipt's clock and request hash are read. `Sent` is the response
channel, in order.

| here | there |
| --- | --- |
| `Pc.select`, its labels  | the `select!` and what is done with its result (lib.rs:713-741, 784-788) |
| `Pc.outputs`             | the two `for output in outputs` loops (lib.rs:743, 797) |
| `Pc.forward`             | `forward_stream_events` (lib.rs:956) |
| `Pc.send`                | `enqueue_with_timeout` of a segment that is no SSE (lib.rs:760, 818) |
| `Pc.flush`               | `redactor.finish()` (lib.rs:795) |
| `Pc.terminal`            | `send_terminal_error` (lib.rs:944) |

A panic in the task drops the sender like a return does.

* `step_cases` — which function a step runs
* `step_effect` — what a step leaves changed
* `step_keeps` — a task keeps its engine and the policy its receipts name
-/

namespace PiiProxy

open Utf8 (encode)

inductive EnqueueError where
  | tenantLimit
  | globalLimit
  | other
deriving DecidableEq, Repr

/-- How an `enqueue_with_timeout` ends; a failure may come after a part is queued. -/
inductive Outcome where
  | ok
  | failed (error : EnqueueError) (queued : Nat)
deriving DecidableEq, Repr

inductive Sent where
  | event (e : StreamEvent)
  | raw (bytes : Bytes)
  | terminal (reason : String)
  /-- The queued head of an enqueue that failed. -/
  | part (bytes : Bytes)
deriving DecidableEq, Repr

def Sent.bytes (P : Primitives) : Sent → Bytes
  | .event e => e.bytes P
  | .raw b => b
  | .terminal reason =>
    encode ("data: \x7b\"error\": \"proxy_terminated\", \"reason\": \"" ++ reason ++ "\"\x7d\n\n")
  | .part b => b

/-- Which of the two loops over outputs: in the `select!` loop, or after it. -/
inductive Stage where
  | loop
  | final
deriving DecidableEq, Repr

/-- What follows once some events are forwarded. -/
inductive Cont where
  | outputs (stage : Stage) (outs : List OutputSegment)
  | flush
  | done
deriving DecidableEq, Repr

inductive Pc where
  | select
  | outputs (stage : Stage) (outs : List OutputSegment)
  | forward (events : List StreamEvent) (cont : Cont)
  | send (stage : Stage) (bytes : Bytes) (outs : List OutputSegment)
  | flush
  | terminal (reason : String)
  | ended
deriving DecidableEq, Repr

structure StreamTask where
  isSse : Bool
  redactor : StreamRedactor
  detector : DoneDetector
  hasher : Bytes
  pc : Pc
  sent : List Sent

namespace StreamTask

inductive Label where
  | clientClosed
  /-- The shutdown watch changed, to `true` or not. -/
  | shutdown (amb : Ambient)
  | shutdownUnset
  | idleTimeout
  | chunk (bytes : Bytes)
  | readError
  | eof
  | segment (amb : Ambient)
  | enqueued (outcome : Outcome)
  | flush
  /-- A loop has run out of events or outputs. -/
  | next

/-- What `enqueue` puts on the channel: nothing for no bytes. -/
def enqueue (P : Primitives) (item : Sent) (sent : List Sent) : Outcome → List Sent
  | .ok => if item.bytes P = [] then sent else sent ++ [item]
  | .failed _ queued => if (item.bytes P).take queued = [] then sent else sent ++ [.part ((item.bytes P).take queued)]

def forward (t : StreamTask) (events : List StreamEvent) (cont : Cont) : StreamTask :=
  { t with pc := .forward events cont }

/-- After the last output: back to the `select!`, or `done_detector.finish` and out. -/
def afterOutputs (t : StreamTask) : Stage → StreamTask
  | .loop => { t with pc := .select }
  | .final =>
    if t.isSse then
      let (events, detector, hasher) := t.detector.finish t.hasher
      { t with detector := detector, hasher := hasher, pc := .forward events .done }
    else { t with pc := .ended }

def resume (t : StreamTask) : Cont → StreamTask
  | .outputs stage outs => { t with pc := .outputs stage outs }
  | .flush => { t with pc := .flush }
  | .done => { t with pc := .ended }

/-- The reason sent for a failed enqueue in the loop (lib.rs:762-776). -/
def EnqueueError.reason : EnqueueError → String
  | .tenantLimit => "tenant_limit_exceeded"
  | .globalLimit => "global_limit_exceeded"
  | .other => "downstream_enqueue_failed"

def onSelect (P : Primitives) (key : Bytes) (t : StreamTask) : Label → Option StreamTask
  | .clientClosed => some { t with pc := .ended }
  | .shutdown amb =>
    let (events, detector, hasher) := t.detector.shutdownEvents P key amb t.hasher
    some ({ t with detector := detector, hasher := hasher }.forward events .flush)
  | .shutdownUnset => some t
  | .idleTimeout => some { t with pc := .terminal "upstream_idle_timeout" }
  | .chunk bytes => match t.redactor.push bytes with
    | .ok (outs, redactor) => some { t with redactor := redactor, pc := .outputs .loop outs }
    | .error (.err _) => some { t with pc := .terminal "redaction_failed" }
    | .error (.panic _) => some { t with pc := .ended }
  | .readError => some { t with pc := .terminal "upstream_read_failed" }
  | .eof => some { t with pc := .flush }
  | _ => none

/-- The next output, with the clock and the request hash of that moment. -/
def onOutput (P : Primitives) (key : Bytes) (t : StreamTask) (amb : Ambient) (stage : Stage) (out : OutputSegment)
    (outs : List OutputSegment) : StreamTask :=
  if t.isSse then
    match t.detector.inspect P key amb out.bytes t.hasher with
    | .ok (events, detector, hasher) =>
      { t with detector := detector, hasher := hasher }.forward events (.outputs stage outs)
    | .error _ => { t with pc := .ended }
  else { t with hasher := t.hasher ++ out.bytes, pc := .send stage out.bytes outs }

def onFlush (t : StreamTask) : StreamTask :=
  match t.redactor.finish with
  | .ok (outs, redactor) => { t with redactor := redactor, pc := .outputs .final outs }
  | .error (.err _) => { t with pc := .terminal "redaction_finish_failed" }
  | .error (.panic _) => { t with pc := .ended }

def onEnqueued (P : Primitives) (t : StreamTask) (outcome : Outcome) : Pc → Option StreamTask
  | .forward (e :: es) cont =>
    let sent := enqueue P (.event e) t.sent outcome
    match outcome with
    | .ok => some ({ t with sent := sent }.forward es cont)
    | .failed _ _ => some { t with sent := sent, pc := .ended }
  | .send stage bytes outs =>
    let sent := enqueue P (.raw bytes) t.sent outcome
    match outcome, stage with
    | .ok, _ => some ({ t with sent := sent }.resume (.outputs stage outs))
    | .failed error _, .loop => some { t with sent := sent, pc := .terminal (EnqueueError.reason error) }
    | .failed _ _, .final => some { t with sent := sent, pc := .ended }
  | .terminal reason => some { t with sent := enqueue P (.terminal reason) t.sent outcome, pc := .ended }
  | _ => none

def step (P : Primitives) (key : Bytes) (t : StreamTask) (label : Label) : Option StreamTask :=
  match t.pc, label with
  | .select, label => t.onSelect P key label
  | .outputs stage (out :: outs), .segment amb => some (t.onOutput P key amb stage out outs)
  | .outputs stage [], .next => some (t.afterOutputs stage)
  | .forward [] cont, .next => some (t.resume cont)
  | .flush, .flush => some t.onFlush
  | pc, .enqueued outcome => t.onEnqueued P outcome pc
  | _, _ => none

section

variable {P : Primitives} {key : Bytes} {t t' : StreamTask} {label : Label}

/-! ## What a step changes -/

/-- Everything a step can be. -/
theorem step_cases (h : t.step P key label = some t') :
    (t.pc = .select ∧ t.onSelect P key label = some t') ∨
    (∃ stage out outs amb, t.pc = .outputs stage (out :: outs) ∧ label = .segment amb ∧
      t' = t.onOutput P key amb stage out outs) ∨
    (∃ stage, t.pc = .outputs stage [] ∧ label = .next ∧ t' = t.afterOutputs stage) ∨
    (∃ cont, t.pc = .forward [] cont ∧ label = .next ∧ t' = t.resume cont) ∨
    (t.pc = .flush ∧ label = .flush ∧ t' = t.onFlush) ∨
    ∃ outcome, label = .enqueued outcome ∧ t.onEnqueued P outcome t.pc = some t' := by
  unfold step at h
  split at h
  · rename_i hpc
    exact .inl ⟨hpc, h⟩
  · rename_i stage out outs amb hpc
    exact .inr (.inl ⟨stage, out, outs, amb, hpc, rfl, (Option.some.inj h).symm⟩)
  · rename_i stage hpc
    exact .inr (.inr (.inl ⟨stage, hpc, rfl, (Option.some.inj h).symm⟩))
  · rename_i cont hpc
    exact .inr (.inr (.inr (.inl ⟨cont, hpc, rfl, (Option.some.inj h).symm⟩)))
  · rename_i hpc
    exact .inr (.inr (.inr (.inr (.inl ⟨hpc, rfl, (Option.some.inj h).symm⟩))))
  · exact .inr (.inr (.inr (.inr (.inr ⟨_, rfl, h⟩))))
  · cases h

/-- What the task is enqueueing. -/
def Pc.item : Pc → Option Sent
  | .forward (e :: _) _ => some (.event e)
  | .send _ bytes _ => some (.raw bytes)
  | .terminal reason => some (.terminal reason)
  | _ => none

/-- The events a task is about to forward. -/
def Pc.events : Pc → List StreamEvent
  | .forward events _ => events
  | _ => []

theorem item_event {pc : Pc} {e : StreamEvent} (h : Pc.item pc = some (.event e)) : e ∈ Pc.events pc := by
  unfold Pc.item at h
  split at h
  · cases h
    exact List.mem_cons_self
  · cases h
  · cases h
  · cases h

/-- What a step leaves of the task: apart from its place, it changes the redactor, the detector or the channel. -/
inductive Effect (P : Primitives) (key : Bytes) (t : StreamTask) : Label → StreamTask → Prop where
  | goes {label : Label} (pc : Pc) (quiet : Pc.events pc = []) : Effect P key t label { t with pc := pc }
  | redacts {label : Label} (redactor : StreamRedactor) (stage : Stage) (outs : List OutputSegment)
      (state : redactor.state = t.redactor.state) :
      Effect P key t label { t with redactor := redactor, pc := .outputs stage outs }
  | hashes {label : Label} (stage : Stage) (bytes : Bytes) (outs : List OutputSegment) :
      Effect P key t label { t with hasher := t.hasher ++ bytes, pc := .send stage bytes outs }
  | inspects (amb : Ambient) (stage : Stage) (out : OutputSegment) (outs : List OutputSegment)
      (events : List StreamEvent) (detector : DoneDetector) (hasher : Bytes) (place : t.pc = .outputs stage (out :: outs))
      (sse : t.isSse = true) (found : t.detector.inspect P key amb out.bytes t.hasher = .ok (events, detector, hasher)) :
      Effect P key t (.segment amb)
        { t with detector := detector, hasher := hasher, pc := .forward events (.outputs stage outs) }
  | finishes : Effect P key t .next
      { t with detector := (t.detector.finish t.hasher).2.1, hasher := (t.detector.finish t.hasher).2.2,
               pc := .forward (t.detector.finish t.hasher).1 .done }
  | shuts (amb : Ambient) (place : t.pc = .select) : Effect P key t (.shutdown amb)
      { t with detector := (t.detector.shutdownEvents P key amb t.hasher).2.1,
               hasher := (t.detector.shutdownEvents P key amb t.hasher).2.2,
               pc := .forward (t.detector.shutdownEvents P key amb t.hasher).1 .flush }
  | enqueues (outcome : Outcome) (item : Sent) (pc : Pc) (place : Pc.item t.pc = some item)
      (rest : Pc.events pc ⊆ Pc.events t.pc) :
      Effect P key t (.enqueued outcome) { t with sent := enqueue P item t.sent outcome, pc := pc }

theorem onSelect_effect (hpc : t.pc = .select) (h : t.onSelect P key label = some t') : Effect P key t label t' := by
  cases label with
  | clientClosed | idleTimeout | readError | eof =>
    simp only [onSelect, Option.some.injEq] at h
    subst h
    exact .goes _ rfl
  | shutdownUnset =>
    simp only [onSelect, Option.some.injEq] at h
    have hsame : t' = { t with pc := .select } := by rw [← hpc, ← h]
    exact hsame ▸ .goes _ rfl
  | shutdown amb =>
    simp only [onSelect, Option.some.injEq] at h
    subst h
    exact .shuts amb hpc
  | chunk bytes =>
    simp only [onSelect] at h
    split at h
    · rename_i outs redactor hp
      simp only [Option.some.injEq] at h
      subst h
      exact .redacts redactor .loop outs (push_state hp)
    · simp only [Option.some.injEq] at h
      subst h
      exact .goes _ rfl
    · simp only [Option.some.injEq] at h
      subst h
      exact .goes _ rfl
  | segment amb | enqueued outcome | flush | next => simp [onSelect] at h

theorem onOutput_effect {stage : Stage} {out : OutputSegment} {outs : List OutputSegment} (amb : Ambient)
    (hpc : t.pc = .outputs stage (out :: outs)) : Effect P key t (.segment amb) (t.onOutput P key amb stage out outs) := by
  unfold onOutput
  split
  · rename_i hsse
    split
    · rename_i events detector hasher hi
      exact .inspects amb stage out outs events detector hasher hpc hsse hi
    · exact .goes _ rfl
  · exact .hashes stage out.bytes outs

theorem afterOutputs_effect (stage : Stage) : Effect P key t .next (t.afterOutputs stage) := by
  cases stage with
  | loop => exact .goes _ rfl
  | final =>
    simp only [afterOutputs]
    split
    · exact .finishes
    · exact .goes _ rfl

theorem resume_effect (cont : Cont) : Effect P key t .next (t.resume cont) := by
  cases cont <;> exact .goes _ rfl

theorem onFlush_effect : Effect P key t .flush t.onFlush := by
  unfold onFlush
  split
  · rename_i outs redactor hf
    exact .redacts redactor .final outs (finish_state hf)
  · exact .goes _ rfl
  · exact .goes _ rfl

theorem onEnqueued_effect {outcome : Outcome} (h : t.onEnqueued P outcome t.pc = some t') :
    Effect P key t (.enqueued outcome) t' := by
  unfold onEnqueued at h
  split at h
  · rename_i e es cont hpc
    have hitem : Pc.item t.pc = some (.event e) := by rw [hpc]; rfl
    split at h <;> simp only [Option.some.injEq] at h <;> subst h
    · refine .enqueues .ok _ _ hitem ?_
      rw [hpc]
      exact List.subset_cons_self e es
    · exact .enqueues _ _ _ hitem (List.nil_subset _)
  · rename_i stage bytes outs hpc
    have hitem : Pc.item t.pc = some (.raw bytes) := by rw [hpc]; rfl
    split at h <;> simp only [Option.some.injEq] at h <;> subst h
    · exact .enqueues _ _ _ hitem (List.nil_subset _)
    · exact .enqueues _ _ _ hitem (List.nil_subset _)
    · exact .enqueues _ _ _ hitem (List.nil_subset _)
  · rename_i reason hpc
    simp only [Option.some.injEq] at h
    subst h
    exact .enqueues _ _ _ (by rw [hpc]; rfl) (List.nil_subset _)
  · cases h

/-- Every step has one of these effects. -/
theorem step_effect (h : t.step P key label = some t') : Effect P key t label t' := by
  rcases step_cases h with ⟨hpc, hsel⟩ | ⟨stage, out, outs, amb, hpc, rfl, rfl⟩ | ⟨stage, -, rfl, rfl⟩ | ⟨cont, -, rfl, rfl⟩ |
    ⟨-, rfl, rfl⟩ | ⟨outcome, rfl, henq⟩
  · exact onSelect_effect hpc hsel
  · exact onOutput_effect amb hpc
  · exact afterOutputs_effect stage
  · exact resume_effect cont
  · exact onFlush_effect
  · exact onEnqueued_effect henq

/-- What an enqueue leaves on the channel: nothing new, the item, or a part of it. -/
theorem enqueue_cases (P : Primitives) (item : Sent) (sent : List Sent) (outcome : Outcome) :
    enqueue P item sent outcome = sent ∨ (outcome = .ok ∧ enqueue P item sent outcome = sent ++ [item]) ∨
      ∃ head, enqueue P item sent outcome = sent ++ [.part head] := by
  cases outcome with
  | ok =>
    simp only [enqueue]
    split
    · exact .inl rfl
    · exact .inr (.inl ⟨trivial, rfl⟩)
  | failed error queued =>
    simp only [enqueue]
    split
    · exact .inl rfl
    · exact .inr (.inr ⟨_, rfl⟩)

/-- An enqueue puts no receipt on the channel but its own. -/
theorem mem_enqueue {item : Sent} {sent : List Sent} {outcome : Outcome} {frame : AuditFrame}
    (h : .event (.auditReceipt frame) ∈ enqueue P item sent outcome) :
    .event (.auditReceipt frame) ∈ sent ∨ item = .event (.auditReceipt frame) := by
  rcases enqueue_cases P item sent outcome with he | ⟨-, he⟩ | ⟨head, he⟩ <;> rw [he] at h
  · exact .inl h
  · rcases List.mem_append.1 h with h | h
    · exact .inl h
    · exact .inr (List.mem_singleton.1 h).symm
  · rcases List.mem_append.1 h with h | h
    · exact .inl h
    · simp at h

/-! ## What stays with a task -/

/-- Receipts that name the policy `digest`. -/
def Named (digest : String) (events : List StreamEvent) : Prop :=
  ∀ frame, .auditReceipt frame ∈ events → frame.receipt.policyDigest = digest

theorem named_dataEvents (digest : String) (b : Bytes) : Named digest (dataEvents b) := by
  intro frame h
  unfold dataEvents at h
  split at h <;> simp at h

theorem Named.append {digest : String} {a b : List StreamEvent} (ha : Named digest a) (hb : Named digest b) :
    Named digest (a ++ b) := by
  intro frame h
  rcases List.mem_append.1 h with h | h
  · exact ha frame h
  · exact hb frame h

theorem named_receiptEvents (amb : Ambient) (d : DoneDetector) (done hasher : Bytes) :
    Named d.policyDigest (d.receiptEvents P key amb done hasher).1 ∧
      (d.receiptEvents P key amb done hasher).2.policyDigest = d.policyDigest := by
  refine ⟨?_, rfl⟩
  intro frame h
  simp only [DoneDetector.receiptEvents, List.mem_cons, StreamEvent.auditReceipt.injEq, reduceCtorEq,
    List.not_mem_nil, or_false] at h
  rw [h]
  rfl

theorem named_retainTail {d d' : DoneDetector} {bytes hasher hasher' : Bytes} {events : List StreamEvent}
    (digest : String) (h : d.retainTail bytes hasher = .ok (events, d', hasher')) :
    Named digest events ∧ d'.policyDigest = d.policyDigest := by
  simp only [DoneDetector.retainTail] at h
  split at h
  · simp only [bind_eq_ok, pure_eq_ok, Except.ok.injEq, Prod.mk.injEq] at h
    obtain ⟨_, -, _, -, _, -, rfl, rfl, -⟩ := h
    exact ⟨(named_dataEvents _ _).append (named_dataEvents _ _), rfl⟩
  · split at h
    · simp only [pure_eq_ok, Except.ok.injEq, Prod.mk.injEq] at h
      obtain ⟨rfl, rfl, -⟩ := h
      exact ⟨by simp [Named], rfl⟩
    · simp only [bind_eq_ok, pure_eq_ok, Except.ok.injEq, Prod.mk.injEq] at h
      obtain ⟨_, -, _, -, rfl, rfl, -⟩ := h
      exact ⟨by simp [Named], rfl⟩

/-- `inspect` names the detector's policy in the receipt, and keeps it. -/
theorem named_inspect {amb : Ambient} {d d' : DoneDetector} {bytes hasher hasher' : Bytes}
    {events : List StreamEvent} (h : d.inspect P key amb bytes hasher = .ok (events, d', hasher')) :
    Named d.policyDigest events ∧ d'.policyDigest = d.policyDigest := by
  unfold DoneDetector.inspect at h
  split at h
  · simp only [pure_eq_ok, Except.ok.injEq, Prod.mk.injEq] at h
    obtain ⟨rfl, rfl, -⟩ := h
    exact ⟨by simp [Named], rfl⟩
  split at h
  · simp only [bind_eq_ok, pure_eq_ok, Except.ok.injEq, Prod.mk.injEq] at h
    obtain ⟨_, -, _, -, rfl, rfl, -⟩ := h
    exact ⟨((named_dataEvents _ _).append (named_dataEvents _ _)).append (named_receiptEvents _ _ _ _).1, rfl⟩
  · simp only [bind_eq_ok] at h
    obtain ⟨_, -, h⟩ := h
    split at h
    · simp only [bind_eq_ok, pure_eq_ok, Except.ok.injEq, Prod.mk.injEq] at h
      obtain ⟨_, -, _, -, _, -, _, -, _, hafter, rfl, rfl, -⟩ := h
      rw [DoneDetector.afterMarker_eq, Except.ok.injEq] at hafter
      subst hafter
      exact ⟨((named_dataEvents _ _).append (named_receiptEvents _ _ _ _).1).append (named_dataEvents _ _), rfl⟩
    · exact named_retainTail _ h

theorem named_shutdownEvents (P : Primitives) (key : Bytes) (amb : Ambient) (d : DoneDetector) (hasher : Bytes) :
    Named d.policyDigest (d.shutdownEvents P key amb hasher).1 ∧
      (d.shutdownEvents P key amb hasher).2.1.policyDigest = d.policyDigest := by
  unfold DoneDetector.shutdownEvents
  split
  · exact ⟨by simp [Named], rfl⟩
  · exact ⟨(named_dataEvents _ _).append (named_receiptEvents _ _ _ _).1, rfl⟩

theorem named_finish (d : DoneDetector) (hasher : Bytes) (digest : String) :
    Named digest (d.finish hasher).1 ∧ (d.finish hasher).2.1.policyDigest = d.policyDigest := by
  unfold DoneDetector.finish
  split <;> exact ⟨by simp [Named], rfl⟩

/-- Every receipt sent, or about to be, names the policy `digest`, and so will the next. -/
structure Stamped (digest : String) (t : StreamTask) : Prop where
  detector : t.detector.policyDigest = digest
  sent : ∀ frame, .event (.auditReceipt frame) ∈ t.sent → frame.receipt.policyDigest = digest
  coming : Named digest (Pc.events t.pc)

theorem named_nil (digest : String) : Named digest [] := by simp [Named]

/-- The same engine, and receipts that name `digest`. -/
def Keeps (digest : String) (t t' : StreamTask) : Prop :=
  Stamped digest t' ∧ t'.redactor.state = t.redactor.state

/-- **The step lemma**: a task keeps its engine and the policy it names. -/
theorem step_keeps {digest : String} (h : t.step P key label = some t') (hs : Stamped digest t) :
    Keeps digest t t' := by
  cases step_effect h with
  | goes pc quiet => exact ⟨⟨hs.detector, hs.sent, quiet ▸ named_nil digest⟩, rfl⟩
  | redacts redactor stage outs state => exact ⟨⟨hs.detector, hs.sent, named_nil digest⟩, state⟩
  | hashes stage bytes outs => exact ⟨⟨hs.detector, hs.sent, named_nil digest⟩, rfl⟩
  | inspects amb stage out outs events detector hasher place sse found =>
    obtain ⟨hcoming, hdigest⟩ := named_inspect found
    rw [hs.detector] at hcoming hdigest
    exact ⟨⟨hdigest, hs.sent, hcoming⟩, rfl⟩
  | finishes =>
    obtain ⟨hcoming, hdigest⟩ := named_finish t.detector t.hasher digest
    exact ⟨⟨hdigest.trans hs.detector, hs.sent, hcoming⟩, rfl⟩
  | shuts amb place =>
    obtain ⟨hcoming, hdigest⟩ := named_shutdownEvents P key amb t.detector t.hasher
    rw [hs.detector] at hcoming hdigest
    exact ⟨⟨hdigest, hs.sent, hcoming⟩, rfl⟩
  | enqueues outcome item pc place rest =>
    refine ⟨⟨hs.detector, fun frame hf => ?_, fun frame hf => hs.coming frame (rest hf)⟩, rfl⟩
    rcases mem_enqueue hf with hf | rfl
    · exact hs.sent frame hf
    · exact hs.coming frame (item_event place)

end

end StreamTask

end PiiProxy
