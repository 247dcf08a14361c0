import PiiProxy.TaskPipeline

/-!
# The stream task gets done

Between two reads of the upstream the task has only so much to do: `work` counts it, and
every step that is no read lowers it, whatever the enqueues come to. So the task is never
stuck and never busy for ever: after a chunk it is back at its `select!`, or has ended, and
once the stream is over it ends.

* `step_work` — the step lemma
* `run_bounded` — how far the next rest is
* `serve_has_run` — every straight line has a run
-/

namespace PiiProxy.StreamTask

variable {P : Primitives} {key : Bytes} {t t' : StreamTask} {label : Label} {labels : List Label}

/-- Where the task waits for its upstream, or is over. -/
def Pc.Rests (pc : Pc) : Prop := pc = .select ∨ pc = .ended

instance (pc : Pc) : Decidable (Pc.Rests pc) := inferInstanceAs (Decidable (_ ∨ _))

/-- The steps from the end of a loop over outputs to the next rest. -/
def Stage.work : Stage → Nat
  | .loop => 1
  -- the end of the loop, the event of `finish`, and the end of its forwarding
  | .final => 3

/-- An output makes at most four events, which are forwarded one by one. -/
def outputsWork (stage : Stage) (outs : List OutputSegment) : Nat := Stage.work stage + 7 * outs.length

def flushWork (r : StreamRedactor) : Nat :=
  match r.finish with
  | .ok (outs, _) => 1 + outputsWork .final outs
  | .error _ => 2

def Cont.work (r : StreamRedactor) : Cont → Nat
  | .outputs stage outs => outputsWork stage outs
  | .flush => flushWork r
  | .done => 0

/-- The steps to the next rest, at most. -/
def work (t : StreamTask) : Nat :=
  match t.pc with
  | .select | .ended => 0
  | .outputs stage outs => outputsWork stage outs
  | .forward events cont => events.length + 1 + Cont.work t.redactor cont
  | .send stage _ outs => 2 + outputsWork stage outs
  | .flush => flushWork t.redactor
  | .terminal _ => 1

/-! ## Events are few -/

theorem dataEvents_length_le (b : Bytes) : (dataEvents b).length ≤ 1 := by
  unfold dataEvents
  split <;> simp

theorem retainTail_length_le {d d' : DoneDetector} {bytes hasher hasher' : Bytes} {events : List StreamEvent}
    (h : d.retainTail bytes hasher = .ok (events, d', hasher')) : events.length ≤ 2 := by
  simp only [DoneDetector.retainTail] at h
  split at h
  · simp only [bind_eq_ok, pure_eq_ok, Except.ok.injEq, Prod.mk.injEq] at h
    obtain ⟨_, -, data, -, _, -, rfl, -, -⟩ := h
    have h₁ := dataEvents_length_le d.trailing
    have h₂ := dataEvents_length_le data
    rw [List.length_append]
    omega
  · split at h
    · simp only [pure_eq_ok, Except.ok.injEq, Prod.mk.injEq] at h
      obtain ⟨rfl, -, -⟩ := h
      exact Nat.zero_le _
    · simp only [bind_eq_ok, pure_eq_ok, Except.ok.injEq, Prod.mk.injEq] at h
      obtain ⟨_, -, _, -, rfl, -, -⟩ := h
      exact Nat.le_succ 1

theorem inspect_length_le {amb : Ambient} {d d' : DoneDetector} {bytes hasher hasher' : Bytes}
    {events : List StreamEvent} (h : d.inspect P key amb bytes hasher = .ok (events, d', hasher')) : events.length ≤ 4 := by
  unfold DoneDetector.inspect at h
  split at h
  · simp only [pure_eq_ok, Except.ok.injEq, Prod.mk.injEq] at h
    obtain ⟨rfl, -, -⟩ := h
    simp
  split at h
  · simp only [bind_eq_ok, pure_eq_ok, Except.ok.injEq, Prod.mk.injEq] at h
    obtain ⟨before, -, _, -, rfl, -, -⟩ := h
    have h₁ := dataEvents_length_le d.trailing
    have h₂ := dataEvents_length_le before
    simp only [DoneDetector.receiptEvents, List.length_append, List.length_cons, List.length_nil]
    omega
  · simp only [bind_eq_ok] at h
    obtain ⟨_, -, h⟩ := h
    split at h
    · simp only [bind_eq_ok, pure_eq_ok, Except.ok.injEq, Prod.mk.injEq] at h
      obtain ⟨_, -, currentStart, -, before, -, _, -, after, hafter, rfl, -, -⟩ := h
      rw [DoneDetector.afterMarker_eq, Except.ok.injEq] at hafter
      subst hafter
      have h₁ := dataEvents_length_le before
      have h₂ := dataEvents_length_le (bytes.drop currentStart)
      simp only [DoneDetector.receiptEvents, List.length_append, List.length_cons, List.length_nil]
      omega
    · have := retainTail_length_le h
      omega

theorem finish_length_le (d : DoneDetector) (hasher : Bytes) : (d.finish hasher).1.length ≤ 1 := by
  unfold DoneDetector.finish
  split <;> simp

/-! ## Every step is work done -/

theorem onOutput_work (P : Primitives) (key : Bytes) (t : StreamTask) (amb : Ambient) (stage : Stage) (out : OutputSegment)
    (outs : List OutputSegment) : (t.onOutput P key amb stage out outs).work < outputsWork stage (out :: outs) := by
  unfold onOutput
  split
  · split
    · rename_i events detector hasher hi
      have := inspect_length_le hi
      simp only [forward, work, Cont.work, outputsWork, List.length_cons]
      omega
    · simp only [work, outputsWork, List.length_cons]
      omega
  · simp only [work, outputsWork, List.length_cons]
    omega

theorem afterOutputs_work (t : StreamTask) (stage : Stage) : (t.afterOutputs stage).work < outputsWork stage [] := by
  cases stage with
  | loop => simp [afterOutputs, work, outputsWork, Stage.work]
  | final =>
    have := finish_length_le t.detector t.hasher
    simp only [afterOutputs]
    split
    · simp only [work, Cont.work, outputsWork, Stage.work, List.length_nil]
      omega
    · simp [work, outputsWork, Stage.work]

theorem onFlush_work (t : StreamTask) : t.onFlush.work < flushWork t.redactor := by
  unfold onFlush flushWork
  split <;> rename_i hf <;> simp only [hf, work]
  · omega
  · omega
  · omega

theorem onEnqueued_work {outcome : Outcome} (h : t.onEnqueued P outcome t.pc = some t') : t'.work < t.work := by
  unfold onEnqueued at h
  split at h
  · rename_i e es cont hpc
    split at h <;> simp only [Option.some.injEq] at h <;> subst h
    · simp only [work, forward, hpc, List.length_cons]
      omega
    · simp only [work, hpc]
      omega
  · rename_i stage bytes outs hpc
    split at h <;> simp only [Option.some.injEq] at h <;> subst h
    · simp only [work, resume, hpc]
      omega
    · simp only [work, hpc]
      omega
    · simp only [work, hpc]
      omega
  · rename_i reason hpc
    simp only [Option.some.injEq] at h
    subst h
    simp only [work, hpc]
    omega
  · cases h

/-- **The step lemma**: a step that is no read lowers the work. -/
theorem step_work (hpc : t.pc ≠ .select) (h : t.step P key label = some t') : t'.work < t.work := by
  rcases step_cases h with ⟨hsel, -⟩ | ⟨stage, out, outs, amb, hout, rfl, rfl⟩ | ⟨stage, hout, rfl, rfl⟩ |
    ⟨cont, hfwd, rfl, rfl⟩ | ⟨hflush, rfl, rfl⟩ | ⟨outcome, rfl, henq⟩
  · exact absurd hsel hpc
  · simpa only [work, hout] using onOutput_work P key t amb stage out outs
  · simpa only [work, hout] using afterOutputs_work t stage
  · cases cont <;> simp only [resume, work, hfwd, Cont.work] <;> omega
  · simpa only [work, hflush] using onFlush_work t
  · exact onEnqueued_work henq

/-- No step leaves the end. -/
theorem step_ended (hpc : t.pc = .ended) : t.step P key label = none := by
  cases label <;> simp [step, hpc, onEnqueued]

/-! ## Past the loop -/

/-- Past the `select!` loop for good. -/
def Pc.Closing : Pc → Prop
  | .select | .outputs .loop _ | .forward _ (.outputs .loop _) | .send .loop _ _ => False
  | .outputs .final _ | .forward _ _ | .send .final _ _ | .flush | .terminal _ | .ended => True

theorem step_closing (hc : Pc.Closing t.pc) (h : t.step P key label = some t') : Pc.Closing t'.pc := by
  rcases step_cases h with ⟨hpc, -⟩ | ⟨stage, out, outs, amb, hpc, rfl, rfl⟩ | ⟨stage, hpc, rfl, rfl⟩ |
    ⟨cont, hpc, rfl, rfl⟩ | ⟨hpc, rfl, rfl⟩ | ⟨outcome, rfl, henq⟩
  · rw [hpc] at hc
    exact hc.elim
  · rw [hpc] at hc
    cases stage with
    | loop => exact hc.elim
    | final =>
      unfold onOutput
      split
      · split <;> trivial
      · trivial
  · rw [hpc] at hc
    cases stage with
    | loop => exact hc.elim
    | final =>
      simp only [afterOutputs]
      split <;> trivial
  · rw [hpc] at hc
    cases cont with
    | outputs stage outs =>
      cases stage with
      | loop => exact hc.elim
      | final => trivial
    | flush | done => trivial
  · unfold onFlush
    split <;> trivial
  · unfold onEnqueued at henq
    split at henq
    · rename_i e es cont hpc
      rw [hpc] at hc
      split at henq <;> simp only [Option.some.injEq] at henq <;> subst henq
      · cases cont with
        | outputs stage outs =>
          cases stage with
          | loop => exact hc.elim
          | final => trivial
        | flush | done => trivial
      · trivial
    · rename_i stage bytes outs hpc
      rw [hpc] at hc
      cases stage with
      | loop => exact hc.elim
      | final => split at henq <;> simp only [Option.some.injEq] at henq <;> subst henq <;> trivial
    · simp only [Option.some.injEq] at henq
      subst henq
      trivial
    · cases henq

theorem run_closing (hc : Pc.Closing t.pc) (h : t.run P key labels = some t') : Pc.Closing t'.pc :=
  Machine.run_keeps (I := fun t => Pc.Closing t.pc) (fun _ _ _ hc h => step_closing hc h) hc h

theorem Pc.Closing.ended {pc : Pc} (hc : Pc.Closing pc) (hr : Pc.Rests pc) : pc = .ended := by
  rcases hr with rfl | rfl
  · exact hc.elim
  · rfl

/-- **The next rest is near**, whatever the enqueues come to. A run longer than the work to do comes to a rest
within it; past the loop there is no longer run at all; and a chunk of `n` outputs is `7 * n + 1` steps of work. -/
theorem run_bounded (h : t.run P key labels = some t') :
    (t.work < labels.length → ∃ pre post t₁, labels = pre ++ post ∧ pre.length ≤ t.work ∧ t.run P key pre = some t₁ ∧
      Pc.Rests t₁.pc) ∧
    (Pc.Closing t.pc → labels.length ≤ t.work) ∧
    (∀ chunk outs r, t.pc = .select → t.redactor.push chunk = .ok (outs, r) →
      ∃ t₁, t.step P key (.chunk chunk) = some t₁ ∧ t₁.work = 7 * outs.length + 1) := by
  have hreach : t.work < labels.length → ∃ pre post t₁, labels = pre ++ post ∧ pre.length ≤ t.work ∧
      t.run P key pre = some t₁ ∧ Pc.Rests t₁.pc :=
    Machine.run_reaches (fun t label t' hr hs => step_work (fun hpc => hr (.inl hpc)) hs) h
  refine ⟨hreach, fun hc => ?_, fun chunk outs r hpc hp => ?_⟩
  · by_contra hlt
    obtain ⟨pre, post, t₁, rfl, hlen, h₁, hr⟩ := hreach (by omega)
    have hended := (run_closing hc h₁).ended hr
    rw [run, Machine.run_append_some h₁] at h
    cases post with
    | nil => rw [List.append_nil] at hlt; omega
    | cons label post => rw [Machine.run_cons, step_ended hended] at h; cases h
  · refine ⟨{ t with redactor := r, pc := .outputs .loop outs }, by simp only [step, hpc, onSelect, hp], ?_⟩
    simp only [work, outputsWork, Stage.work]
    omega

/-- After `data: hi` has ended, the flush of `hiLabels` takes the four steps it may take. -/
theorem run_bounded_hi : ∃ t t', defaultTask.run killPrimitives swapRequest.key (hiLabels.take 5) = some t ∧
    t.run killPrimitives swapRequest.key (hiLabels.drop 5) = some t' ∧ (hiLabels.drop 5).length ≤ t.work ∧ t.work = 4 := by
  have hrun : (defaultTask.run killPrimitives swapRequest.key (hiLabels.take 5)).bind (fun t =>
      (t.run killPrimitives swapRequest.key (hiLabels.drop 5)).map fun _ => (t.pc, t.work)) = some (.flush, 4) := rfl
  obtain ⟨t, h, hrun⟩ := Option.bind_eq_some_iff.1 hrun
  obtain ⟨t', h', hrun⟩ := Option.map_eq_some_iff.1 hrun
  simp only [Prod.mk.injEq] at hrun
  have hc : Pc.Closing t.pc := by rw [hrun.1]; trivial
  exact ⟨t, t', h, h', (run_bounded h').2.1 hc, hrun.2⟩

/-! ## Every session has a run -/

/-- The clock readings `n, n + 1, …` of a run that takes `k` of them. -/
def ticks (clock : Nat → Ambient) (k : Nat) : List Ambient := (List.range k).map clock

theorem ticks_succ (clock : Nat → Ambient) (k : Nat) :
    ticks clock (k + 1) = clock 0 :: ticks (fun i => clock (i + 1)) k := by
  simp only [ticks, List.range_succ_eq_map, List.map_cons, List.map_map]
  rfl

theorem ticks_add (clock : Nat → Ambient) (j k : Nat) :
    ticks clock (j + k) = ticks clock j ++ ticks (fun i => clock (j + i)) k := by
  simp only [ticks, List.range_add, List.map_append, List.map_map]
  rfl

/-- A label that reads nothing of the upstream, and the clock reading `amb` if any. -/
def Label.Inner (amb : Ambient) : Label → Prop
  | .segment amb' => amb' = amb
  | .enqueued outcome => outcome = .ok
  | .flush | .next => True
  | _ => False

/-- A task that is not at rest can go on, with any clock reading. -/
theorem exists_step (P : Primitives) (key : Bytes) (amb : Ambient) (hr : ¬ Pc.Rests t.pc) :
    ∃ label t', Label.Inner amb label ∧ t.step P key label = some t' := by
  cases hpc : t.pc with
  | select => exact absurd (.inl hpc) hr
  | ended => exact absurd (.inr hpc) hr
  | outputs stage outs =>
    cases outs with
    | nil => exact ⟨.next, _, trivial, by simp only [step, hpc]; rfl⟩
    | cons out outs => exact ⟨.segment amb, _, rfl, by simp only [step, hpc]; rfl⟩
  | forward events cont =>
    cases events with
    | nil => exact ⟨.next, _, trivial, by simp only [step, hpc]; rfl⟩
    | cons e es => exact ⟨.enqueued .ok, _, rfl, by simp only [step, hpc, onEnqueued]; rfl⟩
  | send stage bytes outs => exact ⟨.enqueued .ok, _, rfl, by simp only [step, hpc, onEnqueued]; rfl⟩
  | flush => exact ⟨.flush, _, trivial, by simp only [step, hpc]; rfl⟩
  | terminal reason => exact ⟨.enqueued .ok, _, rfl, by simp only [step, hpc, onEnqueued]; rfl⟩

/-- A run to the next rest that takes its clock readings in order. -/
structure Settles (P : Primitives) (key : Bytes) (clock : Nat → Ambient) (t : StreamTask) (labels : List Label) (k : Nat)
    (t' : StreamTask) : Prop where
  succeeds : Succeeds labels
  run : t.run P key labels = some t'
  rests : Pc.Rests t'.pc
  session : ∀ s, labels.foldr Session.cons s = { s with clock := ticks clock k ++ s.clock }

theorem succeeds_of_inner {amb : Ambient} (hl : Label.Inner amb label) (hok : Succeeds labels) :
    Succeeds (label :: labels) := by
  intro outcome hm
  rcases List.mem_cons.1 hm with rfl | hm
  · exact hl
  · exact hok outcome hm

theorem exists_settles (P : Primitives) (key : Bytes) (clock : Nat → Ambient) (t : StreamTask) :
    ∃ labels k t', Settles P key clock t labels k t' := by
  induction hn : t.work using Nat.strongRecOn generalizing t clock with
  | ind n ih =>
    by_cases hr : Pc.Rests t.pc
    · exact ⟨[], 0, t, by simp [Succeeds], rfl, hr, fun _ => rfl⟩
    · obtain ⟨label, t₁, hl, h₁⟩ := exists_step P key (clock 0) hr
      have hw : t₁.work < n := hn ▸ step_work (fun hpc => hr (.inl hpc)) h₁
      cases label with
      | segment amb =>
        have hamb : amb = clock 0 := hl
        obtain ⟨labels, k, t', hs⟩ := ih t₁.work hw (fun i => clock (i + 1)) t₁ rfl
        refine ⟨.segment amb :: labels, k + 1, t', succeeds_of_inner hl hs.succeeds, ?_, hs.rests, fun s => ?_⟩
        · exact Machine.run_cons_some.2 ⟨t₁, h₁, hs.run⟩
        · simp only [List.foldr_cons, hs.session, Session.cons, ticks_succ, List.cons_append, hamb]
      | enqueued _ | flush | next =>
        obtain ⟨labels, k, t', hs⟩ := ih t₁.work hw clock t₁ rfl
        refine ⟨_ :: labels, k, t', succeeds_of_inner hl hs.succeeds, ?_, hs.rests, fun s => ?_⟩
        · exact Machine.run_cons_some.2 ⟨t₁, h₁, hs.run⟩
        · simp only [List.foldr_cons, hs.session, Session.cons]
      | clientClosed | shutdown _ | shutdownUnset | idleTimeout | chunk _ | readError | eof => exact hl.elim

theorem exists_ending_step (P : Primitives) (key : Bytes) {ending : Ending} (hpc : t.pc = .select) (he : ending ≠ .unread) :
    ∃ label t', t.step P key label = some t' ∧ Pc.Closing t'.pc ∧ (∀ outcome, label ≠ .enqueued outcome) ∧
      ∀ s, Session.cons label s = ⟨[], ending, s.clock⟩ := by
  have hstep : ∀ label, t.step P key label = t.onSelect P key label := fun label => by
    cases label <;> simp only [step, hpc]
  cases ending with
  | unread => exact absurd rfl he
  | clientClosed => exact ⟨.clientClosed, { t with pc := .ended }, hstep _, trivial, by simp, fun _ => rfl⟩
  | shutdown amb =>
    exact ⟨.shutdown amb, StreamTask.forward { t with
        detector := (t.detector.shutdownEvents P key amb t.hasher).2.1
        hasher := (t.detector.shutdownEvents P key amb t.hasher).2.2 }
      (t.detector.shutdownEvents P key amb t.hasher).1 .flush, hstep _, trivial, by simp, fun _ => rfl⟩
  | idleTimeout =>
    exact ⟨.idleTimeout, { t with pc := .terminal "upstream_idle_timeout" }, hstep _, trivial, by simp, fun _ => rfl⟩
  | readError =>
    exact ⟨.readError, { t with pc := .terminal "upstream_read_failed" }, hstep _, trivial, by simp, fun _ => rfl⟩
  | eof => exact ⟨.eof, { t with pc := .flush }, hstep _, trivial, by simp, fun _ => rfl⟩

theorem exists_chunk_step (P : Primitives) (key : Bytes) (hpc : t.pc = .select) (chunk : Bytes) :
    ∃ t', t.step P key (.chunk chunk) = some t' := by
  simp only [step, hpc, onSelect]
  split <;> exact ⟨_, rfl⟩

/-- From its `select!`, a task can be taken through any session. -/
theorem exists_serving_run (P : Primitives) (key : Bytes) {ending : Ending} (he : ending ≠ .unread) :
    ∀ (chunks : List Bytes) (clock : Nat → Ambient) (t : StreamTask), t.pc = .select →
      ∃ labels k t', Succeeds labels ∧ t.run P key labels = some t' ∧ t'.pc = .ended ∧
        ∀ rest, t'.sent = t.forecast P key ⟨chunks, ending, ticks clock k ++ rest⟩ := by
  intro chunks
  induction chunks with
  | nil =>
    intro clock t hpc
    obtain ⟨label, t₁, h₁, hc, hne, hcons⟩ := exists_ending_step P key hpc he
    obtain ⟨labels, k, t', hs⟩ := exists_settles P key clock t₁
    have hended := (run_closing hc hs.run).ended hs.rests
    have hok : Succeeds (label :: labels) := by
      intro outcome hm
      rcases List.mem_cons.1 hm with h | hm
      · exact absurd h.symm (hne outcome)
      · exact hs.succeeds outcome hm
    have hrun : t.run P key (label :: labels) = some t' := Machine.run_cons_some.2 ⟨t₁, h₁, hs.run⟩
    refine ⟨label :: labels, k, t', hok, hrun, hended, fun rest => ?_⟩
    have hf := run_forecast hok hrun ⟨[], .unread, rest⟩
    rw [List.foldr_cons, hs.session, hcons] at hf
    rw [hf]
    simp only [forecast, coming, hended, List.append_nil]
  | cons chunk chunks ih =>
    intro clock t hpc
    obtain ⟨t₁, h₁⟩ := exists_chunk_step P key hpc chunk
    obtain ⟨labels, k, t₂, hs⟩ := exists_settles P key clock t₁
    have hok : Succeeds (.chunk chunk :: labels) := by
      intro outcome hm
      exact hs.succeeds outcome (by simpa using hm)
    have hrun : t.run P key (.chunk chunk :: labels) = some t₂ := Machine.run_cons_some.2 ⟨t₁, h₁, hs.run⟩
    have hsession : ∀ rest, (Label.chunk chunk :: labels).foldr Session.cons ⟨chunks, ending, rest⟩ =
        ⟨chunk :: chunks, ending, ticks clock k ++ rest⟩ := by
      intro rest
      rw [List.foldr_cons, hs.session]
      rfl
    rcases hs.rests with hsel | hended
    · obtain ⟨labels', k', t', hok', hrun', hended, hsent⟩ := ih (fun i => clock (k + i)) t₂ hsel
      refine ⟨.chunk chunk :: labels ++ labels', k + k', t', ?_, ?_, hended, fun rest => ?_⟩
      · intro outcome hm
        rcases List.mem_append.1 hm with hm | hm
        · exact hok outcome hm
        · exact hok' outcome hm
      · exact (Machine.run_append_some hrun).trans hrun'
      · rw [hsent rest, ticks_add, List.append_assoc, ← hsession, run_forecast hok hrun]
    · -- the redactor has refused the chunk
      refine ⟨.chunk chunk :: labels, k, t₂, hok, hrun, hended, fun rest => ?_⟩
      have hf := run_forecast hok hrun ⟨chunks, ending, rest⟩
      rw [hsession] at hf
      rw [hf]
      simp only [forecast, coming, hended, List.append_nil]

/-- **Every straight line has a run.** Whatever the upstream sends and however the stream ends, and whatever the
clock shows at each output, a spawned task can run to its end, and then has sent what `serve` gives; `serve` makes
no use of the clock beyond. -/
theorem serve_has_run (P : Primitives) {q : Request} {policyDigest : String} {isSse : Bool} {engine : EngineState}
    (hspawn : spawn q policyDigest isSse engine = .ok t) (chunks : List Bytes) (clock : Nat → Ambient) {ending : Ending}
    (he : ending ≠ .unread) : ∃ labels k t', Succeeds labels ∧ t.run P q.key labels = some t' ∧ t'.pc = .ended ∧
      ∀ rest, t'.sent =
        serve P q.key isSse t.redactor (q.detector policyDigest) [] ⟨chunks, ending, ticks clock k ++ rest⟩ := by
  have hpc : t.pc = .select := by
    simp only [spawn, bind_eq_ok, pure_eq_ok, Except.ok.injEq] at hspawn
    obtain ⟨r, -, rfl⟩ := hspawn
    rfl
  obtain ⟨labels, k, t', hok, hrun, hended, hsent⟩ := exists_serving_run P q.key he chunks clock t hpc
  exact ⟨labels, k, t', hok, hrun, hended, fun rest => by rw [hsent rest, spawn_forecast hspawn]⟩

theorem serve_has_run_shutdown : ∃ labels k t', Succeeds labels ∧
    defaultTask.run killPrimitives swapRequest.key labels = some t' ∧ t'.pc = .ended ∧
    ∀ rest, t'.sent = serve killPrimitives swapRequest.key true defaultTask.redactor defaultTask.detector []
      ⟨[Utf8.encode "data: my pass", Utf8.encode "word"], .shutdown ⟨[], 1700000000⟩,
        ticks (fun i => ⟨[], 1700000000 + i⟩) k ++ rest⟩ :=
  serve_has_run killPrimitives defaultTask_spawn _ _ (by simp)

end PiiProxy.StreamTask
