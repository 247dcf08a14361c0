import PiiProxy.Lib.Machine
import PiiProxy.RedactorRuns
import PiiProxy.TaskShutdown

/-!
# The stream task as a straight line

`serve` is the stream task without its waits: the chunks go through the redactor, what
comes out goes through the detector, and at the end both are flushed. It reads a
`Session`, the chunks of the upstream, how the stream ended and the clock at each output,
and gives what is put on the channel. The step machine of `StreamTask` is refined to it: of
a run whose enqueues succeed, only the session matters.

| here | there |
| --- | --- |
| `showOutputs` | a `for output in outputs` loop (lib.rs:744-782, 802-836) |
| `flushAll`    | the code after the loop (lib.rs:800-854) |
| `serve`       | the `select!` loop (lib.rs:712-796) |

* `step_forecast` — no step changes what is sent and what is to come
* `run_serves` — a task that has ended has sent what `serve` says
* `serve_eq` — a session of a stream that ends well, by the runs of redactor and detector
-/

namespace PiiProxy.StreamTask

inductive Ending where
  | clientClosed
  | shutdown (amb : Ambient)
  | idleTimeout
  | readError
  | eof
  /-- The run stops before the stream does. -/
  | unread

structure Session where
  chunks : List Bytes
  ending : Ending
  /-- The clock and the request hash at each output, in order. -/
  clock : List Ambient

/-- The session of a run that begins with a label. -/
def Session.cons : Label → Session → Session
  | .chunk bytes, s => { s with chunks := bytes :: s.chunks }
  | .segment amb, s => { s with clock := amb :: s.clock }
  | .clientClosed, s => ⟨[], .clientClosed, s.clock⟩
  | .shutdown amb, s => ⟨[], .shutdown amb, s.clock⟩
  | .idleTimeout, s => ⟨[], .idleTimeout, s.clock⟩
  | .readError, s => ⟨[], .readError, s.clock⟩
  | .eof, s => ⟨[], .eof, s.clock⟩
  | .shutdownUnset, s | .enqueued _, s | .flush, s | .next, s => s

section Straight

variable (P : Primitives) (key : Bytes) (isSse : Bool)

/-- Shows each output with the clock of its moment, then goes on with `next`. A panic ends the task. -/
def showOutputs (next : DoneDetector → Bytes → List Ambient → List Sent) :
    List OutputSegment → DoneDetector → Bytes → List Ambient → List Sent
  | [], d, hasher, clock => next d hasher clock
  | _ :: _, _, _, [] => []
  | out :: outs, d, hasher, amb :: clock =>
    if isSse then
      match d.inspect P key amb out.bytes hasher with
      | .ok (events, d, hasher) => eventItems P events ++ showOutputs next outs d hasher clock
      | .error _ => []
    else queued P (.raw out.bytes) ++ showOutputs next outs d (hasher ++ out.bytes) clock

def finishItems (d : DoneDetector) (hasher : Bytes) : List Sent :=
  if isSse then eventItems P (d.finish hasher).1 else []

def flushAll (r : StreamRedactor) (d : DoneDetector) (hasher : Bytes) (clock : List Ambient) : List Sent :=
  match r.finish with
  | .ok (outs, _) => showOutputs P key isSse (fun d hasher _ => finishItems P isSse d hasher) outs d hasher clock
  | .error (.err _) => queued P (.terminal "redaction_finish_failed")
  | .error (.panic _) => []

def serveEnding (r : StreamRedactor) (d : DoneDetector) (hasher : Bytes) (clock : List Ambient) : Ending → List Sent
  | .clientClosed | .unread => []
  | .shutdown amb =>
    let (events, d, hasher) := d.shutdownEvents P key amb hasher
    eventItems P events ++ flushAll P key isSse r d hasher clock
  | .idleTimeout => queued P (.terminal "upstream_idle_timeout")
  | .readError => queued P (.terminal "upstream_read_failed")
  | .eof => flushAll P key isSse r d hasher clock

def serveChunks (ending : Ending) : List Bytes → StreamRedactor → DoneDetector → Bytes → List Ambient → List Sent
  | [], r, d, hasher, clock => serveEnding P key isSse r d hasher clock ending
  | chunk :: chunks, r, d, hasher, clock => match r.push chunk with
    | .ok (outs, r) => showOutputs P key isSse (serveChunks ending chunks r) outs d hasher clock
    | .error (.err _) => queued P (.terminal "redaction_failed")
    | .error (.panic _) => []

/-- What a stream puts on the channel. -/
def serve (r : StreamRedactor) (d : DoneDetector) (hasher : Bytes) (s : Session) : List Sent :=
  serveChunks P key isSse s.ending s.chunks r d hasher s.clock

end Straight

/-! ## The task follows the line -/

section Forecast

variable {P : Primitives} {key : Bytes} {t t' : StreamTask} {label : Label}

/-- What follows a loop over outputs. -/
def afterItems (P : Primitives) (key : Bytes) (t : StreamTask) (s : Session) :
    Stage → DoneDetector → Bytes → List Ambient → List Sent
  | .loop, d, hasher, clock => serve P key t.isSse t.redactor d hasher { s with clock := clock }
  | .final, d, hasher, _ => finishItems P t.isSse d hasher

def contItems (P : Primitives) (key : Bytes) (t : StreamTask) (s : Session) : Cont → List Sent
  | .outputs stage outs => showOutputs P key t.isSse (afterItems P key t s stage) outs t.detector t.hasher s.clock
  | .flush => flushAll P key t.isSse t.redactor t.detector t.hasher s.clock
  | .done => []

/-- What the task will still put on the channel, if every enqueue succeeds and it reads `s`. -/
def coming (P : Primitives) (key : Bytes) (t : StreamTask) (s : Session) : List Sent :=
  match t.pc with
  | .select => serve P key t.isSse t.redactor t.detector t.hasher s
  | .outputs stage outs => contItems P key t s (.outputs stage outs)
  | .forward events cont => eventItems P events ++ contItems P key t s cont
  | .send stage bytes outs => queued P (.raw bytes) ++ contItems P key t s (.outputs stage outs)
  | .flush => contItems P key t s .flush
  | .terminal reason => queued P (.terminal reason)
  | .ended => []

/-- The channel in the end, as far as the state and the session to come tell. -/
def forecast (P : Primitives) (key : Bytes) (t : StreamTask) (s : Session) : List Sent := t.sent ++ t.coming P key s

theorem flatMap_queued (item : Sent) : (queued P item).flatMap (Sent.bytes P) = item.bytes P := by
  unfold queued
  split
  · rename_i hb
    rw [hb]
    rfl
  · simp

theorem onSelect_forecast (s : Session) (hpc : t.pc = .select) (h : t.onSelect P key label = some t') :
    t.forecast P key (.cons label s) = t'.forecast P key s := by
  cases label with
  | clientClosed | idleTimeout | readError | eof | shutdown amb =>
    simp only [onSelect, Option.some.injEq] at h
    subst h
    simp only [forecast, coming, hpc, Session.cons, serve, serveChunks, serveEnding, contItems, forward]
  | shutdownUnset =>
    simp only [onSelect, Option.some.injEq] at h
    subst h
    rfl
  | chunk bytes =>
    simp only [onSelect] at h
    simp only [forecast, coming, hpc, Session.cons, serve, serveChunks]
    cases hp : t.redactor.push bytes with
    | ok r =>
      rw [hp] at h
      cases h
      rfl
    | error f =>
      rw [hp] at h
      cases f with
      | err e =>
        cases h
        rfl
      | panic p =>
        cases h
        rfl
  | segment amb | enqueued outcome | flush | next => simp [onSelect] at h

theorem onOutput_forecast (s : Session) (amb : Ambient) {stage : Stage} {out : OutputSegment}
    {outs : List OutputSegment} (hpc : t.pc = .outputs stage (out :: outs)) :
    t.forecast P key (.cons (.segment amb) s) = (t.onOutput P key amb stage out outs).forecast P key s := by
  simp only [forecast, coming, hpc, contItems, Session.cons, showOutputs, onOutput]
  by_cases hsse : t.isSse = true
  · rw [if_pos hsse, if_pos hsse]
    cases t.detector.inspect P key amb out.bytes t.hasher with
    | ok r => cases stage <;> rfl
    | error p => rfl
  · rw [if_neg hsse, if_neg hsse]
    cases stage <;> rfl

theorem afterOutputs_forecast (s : Session) {stage : Stage} (hpc : t.pc = .outputs stage []) :
    t.forecast P key (.cons .next s) = (t.afterOutputs stage).forecast P key s := by
  simp only [forecast, coming, hpc, contItems, Session.cons, showOutputs]
  cases stage with
  | loop => rfl
  | final =>
    simp only [afterOutputs, afterItems, finishItems]
    by_cases hsse : t.isSse = true
    · simp only [hsse, if_true, List.append_nil]
    · simp only [hsse, Bool.false_eq_true, if_false]

theorem resume_forecast (s : Session) {cont : Cont} (hpc : t.pc = .forward [] cont) :
    t.forecast P key (.cons .next s) = (t.resume cont).forecast P key s := by
  simp only [forecast, coming, hpc, eventItems, List.flatMap_nil, List.nil_append, Session.cons]
  cases cont <;> rfl

theorem onFlush_forecast (s : Session) (hpc : t.pc = .flush) :
    t.forecast P key (.cons .flush s) = t.onFlush.forecast P key s := by
  simp only [forecast, coming, hpc, contItems, flushAll, onFlush, Session.cons]
  cases t.redactor.finish with
  | ok r => rfl
  | error f => cases f <;> rfl

theorem onEnqueued_forecast (s : Session) (h : t.onEnqueued P .ok t.pc = some t') :
    t.forecast P key (.cons (.enqueued .ok) s) = t'.forecast P key s := by
  unfold onEnqueued at h
  split at h
  · rename_i e es cont hpc
    simp only [Option.some.injEq] at h
    subst h
    simp only [forecast, coming, hpc, forward, enqueue_ok, eventItems, List.flatMap_cons, Session.cons,
      List.append_assoc]
    cases cont <;> rfl
  · rename_i stage bytes outs hpc
    simp only [Option.some.injEq] at h
    subst h
    simp only [forecast, coming, hpc, resume, enqueue_ok, Session.cons, List.append_assoc]
    rfl
  · rename_i reason hpc
    simp only [Option.some.injEq] at h
    subst h
    simp only [forecast, coming, hpc, enqueue_ok, List.append_nil]
  · cases h

/-- **The step lemma**: as long as enqueues succeed, no step changes what will be on the channel. -/
theorem step_forecast (s : Session) (hok : ∀ outcome, label = .enqueued outcome → outcome = .ok)
    (h : t.step P key label = some t') : t.forecast P key (.cons label s) = t'.forecast P key s := by
  rcases step_cases h with ⟨hpc, h⟩ | ⟨stage, out, outs, amb, hpc, rfl, rfl⟩ | ⟨stage, hpc, rfl, rfl⟩ |
    ⟨cont, hpc, rfl, rfl⟩ | ⟨hpc, rfl, rfl⟩ | ⟨outcome, rfl, henq⟩
  · exact onSelect_forecast s hpc h
  · exact onOutput_forecast s amb hpc
  · exact afterOutputs_forecast s hpc
  · exact resume_forecast s hpc
  · exact onFlush_forecast s hpc
  · rw [hok outcome rfl] at henq ⊢
    exact onEnqueued_forecast s henq

/-- **The run lemma**: what is on the channel in the end, whatever `s` is still to come. -/
theorem run_forecast {labels : List Label} (hok : Succeeds labels) (h : t.run P key labels = some t') (s : Session) :
    t.forecast P key (labels.foldr .cons s) = t'.forecast P key s := by
  refine Machine.run_forecast (F := fun t labels => t.forecast P key (labels.foldr .cons s))
    (fun label => ∀ outcome, label = .enqueued outcome → outcome = .ok) ?_ ?_ h
  · intro t label t' labels hl hs
    exact step_forecast (labels.foldr .cons s) hl hs
  · rintro label hm outcome rfl
    exact hok outcome hm

theorem spawn_forecast {q : Request} {policyDigest : String} {isSse : Bool} {engine : EngineState}
    (h : spawn q policyDigest isSse engine = .ok t) (s : Session) :
    t.forecast P q.key s = serve P q.key isSse t.redactor (q.detector policyDigest) [] s := by
  simp only [spawn, bind_eq_ok, pure_eq_ok, Except.ok.injEq] at h
  obtain ⟨r, -, rfl⟩ := h
  rfl

/-- **The task is the straight line.** At every moment of a run whose enqueues succeed, the channel holds a
part from the front of what `serve` gives, and all of it once the task has ended, whatever it might have read
afterwards. -/
theorem run_serves {q : Request} {policyDigest : String} {isSse : Bool} {engine : EngineState} {labels : List Label}
    (hspawn : spawn q policyDigest isSse engine = .ok t) (hok : Succeeds labels)
    (h : t.run P q.key labels = some t') (s : Session) :
    t'.sent <+: serve P q.key isSse t.redactor (q.detector policyDigest) [] (labels.foldr .cons s) ∧
    (t'.pc = .ended →
      t'.sent = serve P q.key isSse t.redactor (q.detector policyDigest) [] (labels.foldr .cons s)) := by
  rw [← spawn_forecast hspawn, run_forecast hok h s]
  refine ⟨List.prefix_append _ _, fun hpc => ?_⟩
  simp only [forecast, coming, hpc, List.append_nil]

/-- The stream `data: hi`, held and then flushed. -/
def hiLabels : List Label :=
  [.chunk (Utf8.encode "data: hi\n\n"), .segment ⟨[], 1700000000⟩, .next, .next, .eof, .flush, .next, .enqueued .ok, .next]

theorem run_serves_hi : ∃ t', defaultTask.run killPrimitives swapRequest.key hiLabels = some t' ∧ t'.pc = .ended ∧
    t'.sent = serve killPrimitives swapRequest.key true defaultTask.redactor defaultTask.detector []
      ⟨[Utf8.encode "data: hi\n\n"], .eof, [⟨[], 1700000000⟩]⟩ := by
  have hrun : (defaultTask.run killPrimitives swapRequest.key hiLabels).map (fun t => t.pc) = some .ended := rfl
  obtain ⟨t', h, hpc⟩ := Option.map_eq_some_iff.1 hrun
  have hok : Succeeds hiLabels := by simp [Succeeds, hiLabels]
  exact ⟨t', h, hpc, (run_serves defaultTask_spawn hok h ⟨[], .unread, []⟩).2 hpc⟩

end Forecast

/-! ## A stream that ends well -/

section Complete

variable {P : Primitives} {key : Bytes} {d d' : DoneDetector} {hasher hasher' : Bytes} {evs : List (List StreamEvent)}

theorem eventItems_append (a b : List StreamEvent) : eventItems P (a ++ b) = eventItems P a ++ eventItems P b := by
  simp [eventItems]

/-- A loop over outputs is a run of the detector. -/
theorem showOutputs_sse (next : DoneDetector → Bytes → List Ambient → List Sent) (clock : List Ambient)
    {segs : List (Bytes × Ambient)} : ∀ {outs : List OutputSegment} {d : DoneDetector} {hasher : Bytes}
    {evs : List (List StreamEvent)}, segs.map Prod.fst = outs.map OutputSegment.bytes →
    d.run P key hasher (inspects segs) = .ok (evs, d', hasher') →
    showOutputs P key true next outs d hasher (segs.map Prod.snd ++ clock) =
      eventItems P evs.flatten ++ next d' hasher' clock := by
  induction segs with
  | nil =>
    intro outs d hasher evs hsegs h
    obtain rfl : outs = [] := by simpa using hsegs.symm
    cases h
    rfl
  | cons seg segs ih =>
    intro outs d hasher evs hsegs h
    cases outs with
    | nil => simp at hsegs
    | cons out outs =>
      simp only [List.map_cons, List.cons.injEq] at hsegs
      obtain ⟨events, d₁, hasher₁, rest, hcall, hrest, rfl⟩ := run_cons_inv h
      simp only [DoneDetector.call, hsegs.1] at hcall
      simp only [List.map_cons, List.cons_append, showOutputs, if_true, hcall, List.flatten_cons, eventItems_append,
        ih hsegs.2 hrest, List.append_assoc]

theorem showOutputs_append (isSse : Bool) (next : DoneDetector → Bytes → List Ambient → List Sent)
    (outs₂ : List OutputSegment) : ∀ (outs₁ : List OutputSegment) (d : DoneDetector) (hasher : Bytes) (clock : List Ambient),
    showOutputs P key isSse next (outs₁ ++ outs₂) d hasher clock =
      showOutputs P key isSse (showOutputs P key isSse next outs₂) outs₁ d hasher clock := by
  intro outs₁
  induction outs₁ with
  | nil => intros; rfl
  | cons out outs₁ ih =>
    intro d hasher clock
    cases clock with
    | nil => rfl
    | cons amb clock => simp only [List.cons_append, showOutputs, ih]

/-- Where redaction succeeds, the chunks up to the end of the stream make one loop over all outputs. -/
theorem serve_eof (isSse : Bool) : ∀ {chunks : List Bytes} {r : StreamRedactor} {outs : List OutputSegment},
    r.redactChunks chunks = .ok outs → ∀ (d : DoneDetector) (hasher : Bytes) (clock : List Ambient),
    serve P key isSse r d hasher ⟨chunks, .eof, clock⟩ =
      showOutputs P key isSse (fun d hasher _ => finishItems P isSse d hasher) outs d hasher clock := by
  intro chunks
  induction chunks with
  | nil =>
    intro r outs h d hasher clock
    obtain ⟨r', hf⟩ := StreamRedactor.redactChunks_nil_ok h
    simp only [serve, serveChunks, serveEnding, flushAll, hf]
  | cons chunk chunks ih =>
    intro r outs h d hasher clock
    obtain ⟨out, r₁, rest, hp, hr, rfl⟩ := StreamRedactor.redactChunks_cons_ok h
    have hnext : serveChunks P key isSse .eof chunks r₁ =
        showOutputs P key isSse (fun d hasher _ => finishItems P isSse d hasher) rest := by
      funext d hasher clock
      exact ih hr d hasher clock
    simp only [serve, serveChunks, hp, showOutputs_append, hnext]

/-- What an SSE stream that ends well puts on the channel. -/
theorem serve_eq {chunks : List Bytes} {r : StreamRedactor} {outs : List OutputSegment} {segs : List (Bytes × Ambient)}
    (hr : r.redactChunks chunks = .ok outs) (hsegs : segs.map Prod.fst = outs.map OutputSegment.bytes)
    (h : d.run P key hasher (inspects segs) = .ok (evs, d', hasher')) (clock : List Ambient) :
    serve P key true r d hasher ⟨chunks, .eof, segs.map Prod.snd ++ clock⟩ =
      eventItems P (evs.flatten ++ (d'.finish hasher').1) := by
  rw [serve_eof true hr, showOutputs_sse _ clock hsegs h, eventItems_append]
  rfl

end Complete

end PiiProxy.StreamTask
