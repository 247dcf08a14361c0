import PiiProxy.ChoiceText
import PiiProxy.TaskChannel

/-!
# What of a pattern reaches a client

The redactor's result about whole runs (`run_verbatim`) taken to the client: the task may be
stopped at any moment, its calls may fail half way, and the body may be polled at any pace.
A frame of the proxy's own, an error or a receipt, is not the redactor's, and may spell
anything; it is kept apart.

* `pushAll_verbatim` — no pattern in what any number of pushes has put out
* `StreamTask.run_stream` — what an event stream has sent of the upstream
* `Delivery.run_plain` — a plain stream, up to the error frame it comes to
* `Delivery.patterns_stay` — no pattern in what a client has read
-/

namespace PiiProxy

open Utf8 (encode)
open Find (At Has Crosses)

/-! ## Any number of pushes -/

section Pushes

variable {state : EngineState} {p : String}

/-- The outputs tile what was taken in, up to what is pending. -/
theorem pushAll_tiles : ∀ {chunks : List Bytes} {r r' : StreamRedactor} {outs : List (List OutputSegment)},
    r.state.Aligned → r.pushAll chunks = .ok (outs, r') →
    ∃ x, r.pending ++ chunks.flatten = x ++ r'.pending ∧ Tiles r.state x (tokens outs.flatten) := by
  intro chunks
  induction chunks with
  | nil =>
    intro r r' outs _ h
    cases h
    exact ⟨[], by simp, .nil⟩
  | cons c cs ih =>
    intro r r' outs ha h
    obtain ⟨out, r1, rest, hp, hr1, rfl⟩ := StreamRedactor.pushAll_cons_ok h
    have pushed := push_ok ha hp
    have hst := pushed.state_eq
    obtain ⟨x, hx, htiles⟩ := ih (by rw [hst]; exact ha) hr1
    rw [hst] at htiles
    rw [List.flatten_cons, List.flatten_cons, tokens_append]
    by_cases hc : c = []
    · obtain ⟨rfl, rfl⟩ := pushed.idle hc
      exact ⟨x, by simpa [hc] using hx, by simpa [tokens] using htiles⟩
    · rw [pushed.pending_eq hc] at hx
      rw [pushed.out_eq hc, tokens_segments]
      refine ⟨_, ?_, (tiles_redact _ _).append htiles⟩
      rw [List.append_assoc, ← hx, ← List.append_assoc, ← List.append_assoc, List.take_append_drop]

/-- **No pattern in what pushes put out.** -/
theorem pushAll_verbatim (hp : p ∈ state.patterns) (hs : Separated state.patterns) :
    ∀ {chunks : List Bytes} {r r' : StreamRedactor} {outs : List (List OutputSegment)},
      r.state = state → r.state.Aligned → r.pushAll chunks = .ok (outs, r') →
      ¬ Has ((encode p).map .byte) (tokens outs.flatten) := by
  have hword : ((encode p).map Token.byte) ≠ [] := by simpa using encode_ne_nil (hs.ne p hp)
  intro chunks
  induction chunks with
  | nil =>
    intro r r' outs _ _ h
    cases h
    exact Find.not_has_nil hword
  | cons c cs ih =>
    rintro r r' outs rfl ha h
    obtain ⟨out, r1, rest, hpush, hr1, rfl⟩ := StreamRedactor.pushAll_cons_ok h
    have pushed := push_ok ha hpush
    have hst := pushed.state_eq
    have hrest := ih hst (by rw [hst]; exact ha) hr1
    rw [List.flatten_cons, tokens_append]
    by_cases hc : c = []
    · obtain ⟨rfl, rfl⟩ := pushed.idle hc
      simpa [tokens] using hrest
    · obtain ⟨x, hx, htiles⟩ := pushAll_tiles (by rw [hst]; exact ha) hr1
      rw [hst] at htiles
      rw [pushed.out_eq hc, tokens_segments, Find.has_append_iff hword]
      rintro (h | h | h)
      · exact not_has_redact hs.ne hp _ h
      · exact hrest h
      · -- it would lie across the cut, and stand in the text
        obtain ⟨i, hi, h1, h2⟩ := (crosses_of_tokens (tiles_redact r.state _) htiles h).at
        rw [List.length_take, Nat.min_eq_left cut_le] at h1 h2
        obtain ⟨tail, htail⟩ := complete_split (r.pending ++ c)
        have htext : complete (r.pending ++ c) ++ (tail ++ cs.flatten) =
            (r.pending ++ c).take (r.state.cut (r.pending ++ c)) ++ x ++ r'.pending := by
          rw [List.append_assoc, ← hx, pushed.pending_eq hc, ← List.append_assoc, ← htail, ← List.append_assoc,
            List.take_append_drop]
        have hat : At (encode p) (complete (r.pending ++ c) ++ (tail ++ cs.flatten)) i := by
          rw [htext, Find.at_append_left (hi.le (encode_ne_nil (hs.ne p hp)))]
          exact hi
        exact whole_of_separated hs _ _ p hp i hat ⟨h1, h2⟩

/-- Replacements that are not empty and share no byte with a pattern. -/
structure EngineState.Distinct (state : EngineState) : Prop where
  aligned : state.Aligned
  replaced : ∀ r ∈ state.replacements, r ≠ [] ∧ ∀ p ∈ state.patterns, ∀ b ∈ r, b ∉ encode p

/-- What no tokens of the text spell, no bytes of the output do. -/
theorem not_has_render {x : Bytes} {ts : List Token} (hm : state.Distinct) (hp : p ∈ state.patterns) (hne : p ≠ "")
    (h : Tiles state x ts) (hno : ¬ Has ((encode p).map .byte) ts) : ¬ Has (encode p) (ts.flatMap Token.bytes) := by
  have hmarks : ∀ r, .mark r ∈ ts → r ≠ [] ∧ ∀ b ∈ r, b ∉ encode p := by
    intro r hr
    obtain ⟨hr', hb⟩ := hm.replaced r (h.mark_mem hm.aligned hr)
    exact ⟨hr', hb p hp⟩
  rwa [has_render_iff (encode_ne_nil hne) hmarks]

/-- The front of what the redactor puts out for some chunks, flushed or not. -/
def Redacted (r : StreamRedactor) (x : Bytes) : Prop :=
  ∃ chunks segs, (r.redactChunks chunks = .ok segs ∨ ∃ outs r', r.pushAll chunks = .ok (outs, r') ∧ segs = outs.flatten) ∧
    x <+: outputBytes segs

theorem Redacted.front {r : StreamRedactor} {x y : Bytes} (h : Redacted r y) (hx : x <+: y) : Redacted r x := by
  obtain ⟨chunks, segs, hrun, hy⟩ := h
  exact ⟨chunks, segs, hrun, hx.trans hy⟩

theorem Redacted.not_has {r : StreamRedactor} {x : Bytes} (hm : r.state.Distinct) (hs : Separated r.state.patterns)
    (hp : p ∈ r.state.patterns) (h : Redacted r x) : ¬ Has (encode p) x := by
  have hne := hs.ne p hp
  obtain ⟨chunks, segs, hrun, tail, htail⟩ := h
  have hclean : ¬ Has (encode p) (outputBytes segs) := by
    rw [outputBytes_eq]
    rcases hrun with hrun | ⟨outs, r', hrun, rfl⟩
    · have hwhole : r.AtEveryPush chunks r.state.Whole :=
        atEveryPush_of_suffix hm.aligned fun text rest _ => whole_of_separated hs text rest
      exact not_has_render hm hp hne (run_tiles hm.aligned hrun) (run_verbatim hm.aligned hs.ne hrun hwhole hp)
    · obtain ⟨y, -, htiles⟩ := pushAll_tiles hm.aligned hrun
      exact not_has_render hm hp hne htiles (pushAll_verbatim hp hs rfl hm.aligned hrun)
  intro hx
  rw [← htail] at hclean
  exact hclean (hx.append_left (encode_ne_nil hne))

end Pushes

/-! ## What the task has sent -/

namespace StreamTask

variable {P : Primitives} {key : Bytes} {t t' : StreamTask} {label : Label} {labels : List Label} {r₀ : StreamRedactor}
  {got : List Bytes} {eof : Bool} {item : Sent}

theorem Accounts.redacted (ha : Accounts r₀ got eof t) : Redacted r₀ (payload t.sent ++ t.pending) := by
  cases hf : Pc.isFinal t.pc with
  | false =>
    obtain ⟨outs, hpush, hbytes⟩ := ha.looping hf
    exact ⟨got, outs.flatten, .inr ⟨outs, _, hpush, rfl⟩, by rw [hbytes]⟩
  | true =>
    obtain ⟨-, segs, hsegs, hbytes⟩ := ha.finishing hf
    exact ⟨got, segs, .inl hsegs, by rw [hbytes]⟩

/-- The item in hand is the first that is pending. -/
theorem item_pending (hitem : Pc.item t.pc = some item) : Sent.payload item <+: t.pending := by
  unfold Pc.item at hitem
  split at hitem
  · rename_i e es cont hpc
    cases hitem
    have hcons : streamBytes (e :: es) = streamBytes [e] ++ streamBytes es := by simp [streamBytes]
    simp only [pending, hpc, Sent.payload, hcons, List.append_assoc]
    exact List.prefix_append _ _
  · rename_i stage bytes outs hpc
    cases hitem
    simp only [pending, hpc, Sent.payload]
    exact List.prefix_append _ _
  · cases hitem
    exact List.nil_prefix
  · cases hitem

/-- A client that goes away ends the task. -/
theorem step_clientClosed (h : t.step P key .clientClosed = some t') : t' = { t with pc := .ended } := by
  rcases step_cases h with ⟨-, h⟩ | ⟨_, _, _, _, -, hl, -⟩ | ⟨_, -, hl, -⟩ | ⟨_, -, hl, -⟩ | ⟨-, hl, -⟩ | ⟨_, hl, -⟩
  · cases h
    rfl
  all_goals cases hl

theorem not_going {pc : Pc} (h : ¬ Pc.Going pc) : (∃ reason, pc = .terminal reason) ∨ pc = .ended := by
  cases pc with
  | terminal reason => exact .inl ⟨reason, rfl⟩
  | ended => exact .inr rfl
  | select | outputs | forward | send | flush => exact absurd trivial h

/-- A step without a shutdown keeps the accounts, or stops the task. -/
theorem step_accounts (ha : Accounts r₀ got eof t) (hl : ∀ amb, label ≠ .shutdown amb) (h : t.step P key label = some t') :
    (∃ got eof, Accounts r₀ got eof t') ∨ ¬ Pc.Going t'.pc := by
  have hstopped : t'.pc = .ended → ¬ Pc.Going t'.pc := by
    intro hpc
    rw [hpc]
    exact id
  by_cases hc : label = .clientClosed
  · rw [hc] at h
    rw [step_clientClosed h]
    exact .inr id
  · cases step_next ha ⟨hc, hl⟩ h with
    | goes ha' => exact .inl ⟨_, _, ha'⟩
    | reports reason hpc =>
      rw [hpc]
      exact .inr id
    | completes hpc _ => exact .inr (hstopped hpc)
    | fails hpc => exact .inr (hstopped hpc)

theorem step_terminal {reason : String} (hpc : t.pc = .terminal reason) (h : t.step P key label = some t') :
    t'.pc = .ended ∧ ∃ o, label = .enqueued o ∧ t'.sent = enqueue P (.terminal reason) t.sent o := by
  have hitem : Pc.item t.pc = some (.terminal reason) := by rw [hpc]; rfl
  obtain ⟨o, rfl⟩ := step_item hitem h
  refine ⟨?_, o, rfl, enqueued_sent hitem h⟩
  have hend := step_enqueued h
  rw [hpc] at hend
  cases hend
  rfl

/-! ### A plain stream -/

/-- Nothing but bytes of the upstream. -/
def Bare (P : Primitives) (sent : List Sent) : Prop := ∀ item ∈ sent, Sent.payload item = item.bytes P

theorem Bare.flatMap_bytes {sent : List Sent} (h : Bare P sent) : sent.flatMap (Sent.bytes P) = payload sent :=
  List.flatMap_congr fun item hm => (h item hm).symm

theorem Bare.enqueue {sent : List Sent} (h : Bare P sent) (bytes : Bytes) (o : Outcome) :
    Bare P (enqueue P (.raw bytes) sent o) := by
  intro item hm
  rcases enqueue_cases P (.raw bytes) sent o with he | ⟨-, he⟩ | ⟨head, he⟩
  · rw [he] at hm
    exact h item hm
  · rw [he] at hm
    rcases List.mem_append.1 hm with hm | hm
    · exact h item hm
    · rw [List.mem_singleton.1 hm]
      rfl
  · rw [he] at hm
    rcases List.mem_append.1 hm with hm | hm
    · exact h item hm
    · rw [List.mem_singleton.1 hm]
      rfl

/-- Where a plain stream is that has sent nothing of an error frame: it goes on, or it has stopped. -/
inductive Plain (P : Primitives) (r₀ : StreamRedactor) (t : StreamTask) : Prop where
  | going (got : List Bytes) (eof : Bool) (accounts : Accounts r₀ got eof t) (bare : Bare P t.sent)
  | stopped (place : ¬ Pc.Going t.pc) (redacted : Redacted r₀ (t.sent.flatMap (Sent.bytes P)))

/-- A plain stream only ever has an output in hand, until it fails. -/
theorem item_plain (hsse : t.isSse = false) (ht : Tidy t) (hitem : Pc.item t.pc = some item) : ∃ bytes, item = .raw bytes := by
  unfold Pc.item at hitem
  split at hitem
  · rename_i e es cont hpc
    have := (ht.forwards _ _ hpc).1
    rw [hsse] at this
    cases this
  · cases hitem
    exact ⟨_, rfl⟩
  · rename_i reason hpc
    have hgo := ht.going
    rw [hpc] at hgo
    exact hgo.elim
  · cases hitem

/-- What a step of a plain stream that goes on has sent is redacted. -/
theorem sent_redacted (hsse : t.isSse = false) (ha : Accounts r₀ got eof t) (hb : Bare P t.sent)
    (h : t.step P key label = some t') : Bare P t'.sent ∧ Redacted r₀ (t'.sent.flatMap (Sent.bytes P)) := by
  rcases step_sent h with hs | ⟨o, item, rfl, hitem, hs⟩
  · rw [hs, hb.flatMap_bytes]
    exact ⟨hb, ha.redacted.front (List.prefix_append _ _)⟩
  · obtain ⟨bytes, rfl⟩ := item_plain hsse ha.tidy hitem
    rw [hs]
    refine ⟨hb.enqueue bytes o, ha.redacted.front ?_⟩
    rw [enqueue_bytes, hb.flatMap_bytes, List.prefix_append_right_inj]
    refine List.IsPrefix.trans ?_ (item_pending hitem)
    cases o with
    | ok => exact List.prefix_rfl
    | failed error queued => exact List.take_prefix _ _

theorem Plain.redacted (hp : Plain P r₀ t) : Redacted r₀ (t.sent.flatMap (Sent.bytes P)) := by
  cases hp with
  | going got eof ha hb =>
    rw [hb.flatMap_bytes]
    exact ha.redacted.front (List.prefix_append _ _)
  | stopped hpc hred => exact hred

/-- A step, as long as the task is not at an error frame. -/
theorem Plain.step (hsse : t.isSse = false) (hp : Plain P r₀ t) (hno : ∀ reason, t.pc ≠ .terminal reason)
    (hl : ∀ amb, label ≠ .shutdown amb) (h : t.step P key label = some t') : Plain P r₀ t' := by
  cases hp with
  | going got eof ha hb =>
    obtain ⟨hb', hred⟩ := sent_redacted hsse ha hb h
    rcases step_accounts ha hl h with ⟨got', eof', ha'⟩ | hpc
    · exact .going got' eof' ha' hb'
    · exact .stopped hpc hred
  | stopped hpc hred =>
    rcases not_going hpc with ⟨reason, hp⟩ | hp
    · exact absurd hp (hno reason)
    · rw [step_ended hp] at h
      cases h

/-- What is being enqueued is redacted with what was sent. -/
theorem Plain.forwarded (hsse : t.isSse = false) (hp : Plain P r₀ t) (hno : ∀ reason, t.pc ≠ .terminal reason) {part : Bytes}
    (hpart : part ≠ [] → ∃ item, Pc.item t.pc = some item ∧ part <+: item.bytes P) :
    Redacted r₀ (t.sent.flatMap (Sent.bytes P) ++ part) := by
  by_cases hnil : part = []
  · rw [hnil, List.append_nil]
    exact hp.redacted
  · obtain ⟨item, hitem, hfront⟩ := hpart hnil
    cases hp with
    | going got eof ha hb =>
      obtain ⟨bytes, rfl⟩ := item_plain hsse ha.tidy hitem
      rw [hb.flatMap_bytes]
      refine ha.redacted.front ?_
      rw [List.prefix_append_right_inj]
      exact hfront.trans (item_pending hitem)
    | stopped hpc hred =>
      rcases not_going hpc with ⟨reason, hp⟩ | hp
      · exact absurd hp (hno reason)
      · rw [hp] at hitem
        cases hitem

/-- Where a task is that came to its error frame with `sent` on the channel: there, or at its end, with that frame or a
part of it. -/
inductive Reporting (P : Primitives) (reason : String) (sent : List Sent) (t : StreamTask) : Prop where
  | waits (place : t.pc = .terminal reason) (same : t.sent = sent)
  | ended (place : t.pc = .ended) (outcome : Outcome) (last : t.sent = enqueue P (.terminal reason) sent outcome)

theorem Reporting.step {reason : String} {sent : List Sent} (hr : Reporting P reason sent t) (h : t.step P key label = some t') :
    Reporting P reason sent t' := by
  cases hr with
  | waits hpc hs =>
    obtain ⟨hended, o, -, hlast⟩ := step_terminal hpc h
    rw [hs] at hlast
    exact .ended hended o hlast
  | ended hpc =>
    rw [step_ended hpc] at h
    cases h

theorem Reporting.forwarded {reason : String} {sent : List Sent} (hr : Reporting P reason sent t) {part : Bytes}
    (hpart : part ≠ [] → ∃ item, Pc.item t.pc = some item ∧ part <+: item.bytes P) :
    t.sent.flatMap (Sent.bytes P) ++ part <+: sent.flatMap (Sent.bytes P) ++ (Sent.terminal reason).bytes P := by
  by_cases hnil : part = []
  · rw [hnil, List.append_nil]
    cases hr with
    | waits hpc hs =>
      rw [hs]
      exact List.prefix_append _ _
    | ended hpc o hlast =>
      rw [hlast, enqueue_bytes, List.prefix_append_right_inj]
      cases o with
      | ok => exact List.prefix_rfl
      | failed error queued => exact List.take_prefix _ _
  · obtain ⟨item, hitem, hfront⟩ := hpart hnil
    cases hr with
    | waits hpc hs =>
      rw [hpc] at hitem
      cases hitem
      rwa [hs, List.prefix_append_right_inj]
    | ended hpc =>
      rw [hpc] at hitem
      cases hitem

/-! ### An event stream -/

/-- Where an event stream is whose enqueues succeed: it goes on, or it has stopped. -/
inductive Flows (r₀ : StreamRedactor) (t : StreamTask) : Prop where
  | going (got : List Bytes) (eof : Bool) (accounts : Accounts r₀ got eof t)
  | stopped (place : ¬ Pc.Going t.pc) (redacted : Redacted r₀ (payload t.sent))

/-- What a step of a stream that goes on has sent of the upstream is redacted. -/
theorem payload_redacted (ha : Accounts r₀ got eof t) (ho : ∀ o, label = .enqueued o → o = .ok)
    (h : t.step P key label = some t') : Redacted r₀ (payload t'.sent) := by
  apply ha.redacted.front
  rcases step_sent h with hs | ⟨o, item, hl, hitem, hs⟩
  · rw [hs]
    exact List.prefix_append _ _
  · rw [hs, ho o hl, payload_enqueue, List.prefix_append_right_inj]
    exact item_pending hitem

theorem Flows.step (hf : Flows r₀ t) (hl : ∀ amb, label ≠ .shutdown amb) (ho : ∀ o, label = .enqueued o → o = .ok)
    (h : t.step P key label = some t') : Flows r₀ t' := by
  cases hf with
  | going got eof ha =>
    have hred := payload_redacted ha ho h
    rcases step_accounts ha hl h with ⟨got', eof', ha'⟩ | hpc
    · exact .going got' eof' ha'
    · exact .stopped hpc hred
  | stopped hpc hred =>
    rcases not_going hpc with ⟨reason, hp⟩ | hp
    · obtain ⟨hended, o, hlo, hs⟩ := step_terminal hp h
      refine .stopped ?_ ?_
      · rw [hended]
        exact id
      · rw [hs, ho o hlo, payload_enqueue, Sent.payload, List.append_nil]
        exact hred
    · rw [step_ended hp] at h
      cases h

/-- **The run lemma of an event stream.** -/
theorem run_stream (hf : Flows r₀ t) (hl : ∀ label ∈ labels, ∀ amb, label ≠ .shutdown amb) (hok : Succeeds labels)
    (h : t.run P key labels = some t') : Flows r₀ t' := by
  refine Machine.run_invariant (I := fun t => Flows r₀ t)
    (fun label => (∀ amb, label ≠ .shutdown amb) ∧ ∀ o, label = .enqueued o → o = .ok) ?_ hf ?_ h
  · intro t label t' hf hl h
    exact hf.step hl.1 hl.2 h
  · rintro label hm
    refine ⟨hl label hm, ?_⟩
    rintro o rfl
    exact hok o hm

theorem Flows.redacted (hf : Flows r₀ t) : Redacted r₀ (payload t.sent) := by
  cases hf with
  | going got eof ha => exact ha.redacted.front (List.prefix_append _ _)
  | stopped hpc hred => exact hred

end StreamTask

/-! ## The client -/

namespace Delivery

open BudgetQueue (ByteBudget Memory TenantId)
open StreamTask (Label)

variable {P : Primitives} {key : Bytes} {s s' : Delivery} {a : Act} {acts : List Act} {t : StreamTask} {q : Request}
  {policyDigest : String} {isSse : Bool} {engine : EngineState} {budget : ByteBudget} {r₀ : StreamRedactor} {p : String}

/-- Only a wait shows the shutdown. -/
theorem not_shutdown {labels : List Label} (hshown : labels.flatMap Label.shown = acts.flatMap Act.label)
    (hno : ∀ amb, .wait (.shutdown amb) ∉ acts) : ∀ label ∈ labels, ∀ amb, label ≠ .shutdown amb := by
  rintro label hm amb rfl
  have hmem : .shutdown amb ∈ acts.flatMap Act.label := by
    rw [← hshown]
    exact List.mem_flatMap.2 ⟨_, hm, List.mem_cons_self⟩
  obtain ⟨a, ha, hl⟩ := List.mem_flatMap.1 hmem
  cases a with
  | wait label =>
    rw [Act.label, List.mem_singleton] at hl
    rw [← hl] at ha
    exact hno amb ha
  | call => cases hl
  | channel e => cases hl

/-- A plain stream that has sent nothing of an error frame. -/
structure PlainSoFar (P : Primitives) (budget : ByteBudget) (r₀ : StreamRedactor) (s : Delivery) : Prop where
  follows : Follows P budget s
  isSse : s.task.isSse = false
  plain : StreamTask.Plain P r₀ s.task

theorem PlainSoFar.step (h : PlainSoFar P budget r₀ s) (hno : ¬ ∃ reason, s.task.pc = .terminal reason)
    (hl : ∀ amb, a ≠ .wait (.shutdown amb)) (he : s.step P key a = some s') : PlainSoFar P budget r₀ s' := by
  have hf := (step_matched h.follows he).1
  rcases step_task he with hsame | ⟨label, ht, hshut⟩
  · exact ⟨hf, hsame ▸ h.isSse, hsame ▸ h.plain⟩
  · refine ⟨hf, (StreamTask.step_isSse ht).trans h.isSse, h.plain.step h.isSse (not_exists.1 hno) ?_ ht⟩
    intro amb hamb
    exact hl amb (hshut amb hamb)

theorem PlainSoFar.read (h : PlainSoFar P budget r₀ s) (hno : ¬ ∃ reason, s.task.pc = .terminal reason) :
    Redacted r₀ s.channel.frames.flatten :=
  (h.plain.forwarded h.isSse (not_exists.1 hno) h.follows.part_front).front h.follows.read_front

/-- From the error frame on, the client reads what was sent before it and a front of that frame. -/
theorem run_reports {reason : String} {s₁ : Delivery} (hf : Follows P budget s₁) (hpc : s₁.task.pc = .terminal reason)
    (h : Machine.run (step P key) s₁ acts = some s) :
    s.channel.frames.flatten <+: s₁.task.sent.flatMap (Sent.bytes P) ++ (Sent.terminal reason).bytes P := by
  have hstep : ∀ (s : Delivery) (a : Act) (s' : Delivery),
      Follows P budget s ∧ StreamTask.Reporting P reason s₁.task.sent s.task → s.step P key a = some s' →
      Follows P budget s' ∧ StreamTask.Reporting P reason s₁.task.sent s'.task := by
    rintro s a s' ⟨hf, hr⟩ he
    refine ⟨(step_matched hf he).1, ?_⟩
    rcases step_task he with hsame | ⟨label, ht, -⟩
    · rw [hsame]
      exact hr
    · exact hr.step ht
  obtain ⟨hf', hr⟩ := Machine.run_keeps hstep ⟨hf, .waits hpc rfl⟩ h
  exact hf'.read_front.trans (hr.forwarded hf'.part_front)

/-- The task came to its error frame in the run, with `x` sent, and `y` is a front of that frame. -/
def ErrorFrame (P : Primitives) (key : Bytes) (s₀ : Delivery) (acts : List Act) (x y : Bytes) : Prop :=
  ∃ pre post s₁ reason, acts = pre ++ post ∧ Machine.run (step P key) s₀ pre = some s₁ ∧ s₁.task.pc = .terminal reason ∧
    x = s₁.task.sent.flatMap (Sent.bytes P) ∧ y <+: (Sent.terminal reason).bytes P

/-- **The run lemma of a plain stream**, whatever its enqueues come to. -/
theorem run_plain (hs : PlainSoFar P budget r₀ s) (hl : ∀ a ∈ acts, ∀ amb, a ≠ .wait (.shutdown amb))
    (h : Machine.run (step P key) s acts = some s') :
    ∃ x y, s'.channel.frames.flatten = x ++ y ∧ Redacted r₀ x ∧ (y = [] ∨ ErrorFrame P key s acts x y) := by
  have hstep : ∀ (s : Delivery) (a : Act) (s' : Delivery), PlainSoFar P budget r₀ s →
      (¬ ∃ reason, s.task.pc = .terminal reason) → (∀ amb, a ≠ .wait (.shutdown amb)) → s.step P key a = some s' →
      PlainSoFar P budget r₀ s' := fun s a s' hs hno hl he => hs.step hno hl he
  rcases Machine.run_until (fun a => ∀ amb, a ≠ Act.wait (.shutdown amb)) hstep hs hl h with
    ⟨hs', hno⟩ | ⟨pre, post, s₁, rfl, hpre, hs₁, ⟨reason, hpc⟩, hpost⟩
  · exact ⟨_, [], (List.append_nil _).symm, hs'.read hno, .inl rfl⟩
  · have hred := hs₁.plain.redacted
    have hfront := run_reports hs₁.follows hpc hpost
    rcases List.prefix_or_prefix_of_prefix hfront (List.prefix_append _ _) with hbefore | ⟨y, hy⟩
    · exact ⟨_, [], (List.append_nil _).symm, hred.front hbefore, .inl rfl⟩
    · rw [← hy, List.prefix_append_right_inj] at hfront
      exact ⟨_, y, hy.symm, hred, .inr ⟨pre, post, s₁, reason, rfl, hpre, hpc, rfl, hfront⟩⟩

/-- **No pattern reaches a client.** Take a policy of patterns that cannot overlap, with replacements that share no byte
with them, and any interleaving without a shutdown. What the client of a plain response has read spells no pattern,
whatever the enqueues came to, but for a front of the proxy's own error frame at its end, if the task came to one; and
of an event stream whose enqueues succeeded, no pattern is in what was sent of the upstream, receipts and error frames
apart. -/
theorem patterns_stay (hm : engine.Distinct) (hs : Separated engine.patterns)
    (hspawn : spawn q policyDigest isSse engine = .ok t) (mem : Memory) (tenant : TenantId) (budget : ByteBudget)
    (h : Machine.run (step P q.key) ⟨t, .open mem tenant budget⟩ acts = some s) (hno : ∀ amb, .wait (.shutdown amb) ∉ acts)
    (hp : p ∈ engine.patterns) :
    (isSse = false → ∃ x y, s.channel.frames.flatten = x ++ y ∧ ¬ Has (encode p) x ∧
      (y = [] ∨ ErrorFrame P q.key ⟨t, .open mem tenant budget⟩ acts x y)) ∧
    (isSse = true → s.Clean → ¬ Has (encode p) (StreamTask.payload s.task.sent)) := by
  obtain ⟨-, hstate, hsse⟩ := spawn_eq hspawn
  have haccounts := StreamTask.spawn_accounts hm.aligned hspawn
  have hsent := StreamTask.spawn_sent hspawn
  have hopen := @follows_open P t mem tenant budget hsent
  subst hstate
  constructor
  · rintro rfl
    have hbare : StreamTask.Bare P t.sent := by
      rw [hsent]
      intro item hm
      cases hm
    have hl : ∀ a ∈ acts, ∀ amb, a ≠ .wait (.shutdown amb) := by
      rintro a ha amb rfl
      exact hno amb ha
    obtain ⟨x, y, hread, hred, hy⟩ := run_plain ⟨hopen, hsse, .going _ _ haccounts hbare⟩ hl h
    exact ⟨x, y, hread, hred.not_has hm hs hp, hy⟩
  · rintro - hok
    obtain ⟨-, labels, hrun, hshown, hclean⟩ := run_matched hopen h
    have hl := not_shutdown hshown hno
    have hflows := StreamTask.run_stream (.going _ _ haccounts) hl (hclean hok) hrun
    exact hflows.redacted.not_has hm hs hp

/-! ### The default policy -/

theorem distinct_default (build : Builder) : (defaultEngine build).Distinct where
  aligned := rfl
  replaced := by
    have h : ∀ r ∈ defaultPatterns.map (fun _ => encode "[REDACTED]"),
        r ≠ [] ∧ ∀ p ∈ defaultPatterns, ∀ b ∈ r, b ∉ encode p := by decide +kernel
    exact h

/-- A plain response under the default policy. -/
def plainTask : StreamTask := { StreamTask.defaultTask with isSse := false }

/-- `a password` is redacted and sent in slices; then the upstream fails, and the client reads the first slice of the
error frame. -/
def passwordActs : List Act :=
  [.wait (.chunk (encode "a password")), .wait (.segment ⟨[], 1700000000⟩), .call, .channel .reserve, .channel .send,
    .wait (.segment ⟨[], 1700000000⟩), .call, .channel .reserve, .channel .send, .channel .poll, .channel .poll,
    .channel .reserve, .channel .send, .channel .poll, .channel .reserve, .channel .send, .wait .next, .wait .readError,
    .call, .channel .poll, .channel .reserve, .channel .send, .channel .poll]

theorem patterns_stay_password : ∃ s x y,
    Machine.run (step StreamTask.killPrimitives swapRequest.key) ⟨plainTask, BudgetQueue.fourBytes⟩ passwordActs = some s ∧
    s.channel.frames.flatten = encode "a [REDACTED]data" ∧ encode "a [REDACTED]data" = x ++ y ∧ ¬ Has (encode "password") x ∧
    (y = [] ∨ ErrorFrame StreamTask.killPrimitives swapRequest.key ⟨plainTask, BudgetQueue.fourBytes⟩ passwordActs x y) := by
  have hrun : (Machine.run (step StreamTask.killPrimitives swapRequest.key) ⟨plainTask, BudgetQueue.fourBytes⟩
      passwordActs).map (fun s => s.channel.frames) =
        some [encode "a ", encode "[RED", encode "ACTE", encode "D]", encode "data"] := rfl
  obtain ⟨s, hs, hframes⟩ := Option.map_eq_some_iff.1 hrun
  have hspawn : spawn swapRequest "f5ffe4b2d8c324d40325b279bf014e87538b9814ca667fa506a26e0994040ae7" false
      (defaultEngine (Search.AhoCorasick.scan asciiLower)) = .ok plainTask := rfl
  have hno : ∀ amb, Act.wait (.shutdown amb) ∉ passwordActs := by simp [passwordActs]
  obtain ⟨x, y, hxy, hx, hy⟩ := (patterns_stay (distinct_default _) separated_default hspawn _ _ _ hs hno
    (show "password" ∈ defaultPatterns by decide)).1 rfl
  rw [hframes] at hxy
  exact ⟨s, x, y, hs, by rw [hframes]; rfl, hxy, hx, hy⟩

end Delivery

end PiiProxy
