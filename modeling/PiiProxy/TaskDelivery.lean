import PiiProxy.RedactorUtf8
import PiiProxy.TaskRuns

/-!
# What a stream task has delivered

The bytes on the channel and those the task still holds are, receipts apart, what the
redactor has put out: `Accounts`. A run without a disconnect and without a shutdown keeps
that until the task gives up, so a task that comes to its end has delivered everything.

* `step_next` — the step lemma
* `spawn_accounts` — where a run starts
-/

namespace PiiProxy.StreamTask

variable {P : Primitives} {key : Bytes} {t t' : StreamTask} {label : Label} {r₀ : StreamRedactor}
  {got : List Bytes} {eof : Bool}

/-- The bytes of the upstream in an item: all but receipts and error frames. -/
def Sent.payload : Sent → Bytes
  | .event e => streamBytes [e]
  | .raw b => b
  | .part b => b
  | .terminal _ => []

def payload (sent : List Sent) : Bytes := sent.flatMap Sent.payload

def Cont.bytes : Cont → Bytes
  | .outputs _ outs => outputBytes outs
  | _ => []

/-- The bytes of the upstream that the task has redacted and not sent. -/
def pending (t : StreamTask) : Bytes :=
  match t.pc with
  | .outputs _ outs => t.detector.trailing ++ outputBytes outs
  | .forward events cont => streamBytes events ++ t.detector.trailing ++ Cont.bytes cont
  | .send _ bytes outs => bytes ++ outputBytes outs
  | _ => t.detector.trailing

/-- Past the flush of the redactor. -/
def Pc.isFinal : Pc → Bool
  | .outputs .final _ => true
  | .forward _ (.outputs .final _) => true
  | .forward _ .done => true
  | .send .final _ _ => true
  | _ => false

def Label.chunks : Label → List Bytes
  | .chunk bytes => [bytes]
  | _ => []

def Label.isEof : Label → Bool
  | .eof => true
  | _ => false

/-- Neither the client nor the server ends the stream. -/
def Label.Undisturbed (label : Label) : Prop := label ≠ .clientClosed ∧ ∀ amb, label ≠ .shutdown amb

/-- Neither ended nor about to send its error frame. -/
def Pc.Going : Pc → Prop
  | .terminal _ => False
  | .ended => False
  | _ => True

/-- Where a failed enqueue ends the task at once: an SSE event, or an output of the final flush. -/
def Pc.Unreported : Pc → Prop
  | .forward _ _ => True
  | .send .final _ _ => True
  | _ => False

/-- What a task looks like between two waits, as long as nothing disturbs it. -/
structure Tidy (t : StreamTask) : Prop where
  going : Pc.Going t.pc
  aligned : t.redactor.state.Aligned
  held : t.detector.trailing.length ≤ 11
  drained : t.detector.completed = true ∨ t.isSse = false → t.detector.trailing = []
  forwards : ∀ events cont, t.pc = .forward events cont →
    t.isSse = true ∧ cont ≠ .flush ∧ (cont = .done → t.detector.trailing = [])
  sends : ∀ stage bytes outs, t.pc = .send stage bytes outs → t.isSse = false

/-- What is sent and what is pending are all that the redactor has put out for the chunks got so far. -/
structure Accounts (r₀ : StreamRedactor) (got : List Bytes) (eof : Bool) (t : StreamTask) : Prop where
  tidy : Tidy t
  looping : Pc.isFinal t.pc = false → ∃ outs, r₀.pushAll got = .ok (outs, t.redactor) ∧
    payload t.sent ++ t.pending = outputBytes outs.flatten
  flushing : t.pc = .flush → eof = true
  finishing : Pc.isFinal t.pc = true → eof = true ∧ ∃ segs, r₀.redactChunks got = .ok segs ∧
    payload t.sent ++ t.pending = outputBytes segs

/-- A step inside a phase: bytes move from what is held to what is sent. -/
structure Moves (t t' : StreamTask) : Prop where
  redactor : t'.redactor = t.redactor
  isFinal : Pc.isFinal t'.pc = Pc.isFinal t.pc
  not_flush : t'.pc ≠ .flush
  bytes : payload t'.sent ++ t'.pending = payload t.sent ++ t.pending

theorem Accounts.moves (ha : Accounts r₀ got eof t) (ht : Tidy t') (hm : Moves t t') : Accounts r₀ got eof t' where
  tidy := ht
  looping := by
    rw [hm.isFinal, hm.redactor, hm.bytes]
    exact ha.looping
  flushing := fun h => absurd h hm.not_flush
  finishing := by
    rw [hm.isFinal, hm.bytes]
    exact ha.finishing

@[simp] theorem payload_append (a b : List Sent) : payload (a ++ b) = payload a ++ payload b := by
  simp [payload]

/-- An item without bytes is not queued, and has none of the upstream's. -/
theorem payload_enqueue (item : Sent) (sent : List Sent) :
    payload (enqueue P item sent .ok) = payload sent ++ Sent.payload item := by
  simp only [enqueue]
  split
  · rename_i h
    have hnil : Sent.payload item = [] := by
      cases item with
      | event e => cases e <;> simp_all [Sent.payload, Sent.bytes, StreamEvent.bytes, streamBytes]
      | raw b | part b => exact h
      | terminal reason => rfl
    rw [hnil, List.append_nil]
  · rw [payload_append]
    simp [payload]

/-! ## The steps -/

theorem onOutput_moves (P : Primitives) (key : Bytes) (amb : Ambient) {stage : Stage} {out : OutputSegment}
    {outs : List OutputSegment} (ht : Tidy t) (hpc : t.pc = .outputs stage (out :: outs)) :
    Tidy (t.onOutput P key amb stage out outs) ∧ Moves t (t.onOutput P key amb stage out outs) := by
  by_cases hsse : t.isSse = true
  · obtain ⟨events, detector, hasher, hi, heq⟩ := onOutput_sse P key hsse ht.held amb stage out outs
    obtain ⟨hbytes, hdrained⟩ := inspect_conserves P key amb t.hasher ht.held (fun hc => ht.drained (.inl hc)) hi
    obtain ⟨hheld, -⟩ := inspect_ok P key amb t.hasher ht.held hi
    rw [heq]
    constructor
    · refine ⟨trivial, ht.aligned, hheld, ?_, ?_, by simp⟩
      · rintro (hc | hn)
        · exact hdrained hc
        · rw [hsse] at hn
          cases hn
      · rintro _ _ hf
        cases hf
        exact ⟨hsse, by simp, by simp⟩
    · refine ⟨rfl, ?_, by simp, ?_⟩
      · rw [hpc]
        cases stage <;> rfl
      · simp only [pending, hpc, hbytes, Cont.bytes, outputBytes, List.flatMap_cons, List.append_assoc]
  · have hsse : t.isSse = false := by simpa using hsse
    have hnil := ht.drained (.inr hsse)
    rw [onOutput_plain P key hsse]
    constructor
    · exact ⟨trivial, ht.aligned, ht.held, ht.drained, by simp, fun _ _ _ _ => hsse⟩
    · refine ⟨rfl, ?_, by simp, ?_⟩
      · rw [hpc]
        cases stage <;> rfl
      · simp [pending, hpc, hnil, outputBytes]

/-- The bytes of the upstream are all on the channel. -/
def Complete (r₀ : StreamRedactor) (got : List Bytes) (eof : Bool) (sent : List Sent) : Prop :=
  eof = true ∧ ∃ segs, r₀.redactChunks got = .ok segs ∧ payload sent = outputBytes segs

/-- What a step of a task that is going leads to. -/
inductive Next (r₀ : StreamRedactor) (got : List Bytes) (eof : Bool) (t : StreamTask) (label : Label) (t' : StreamTask) :
    Prop where
  | goes (h : Accounts r₀ (got ++ label.chunks) (eof || label.isEof) t')
  | reports (reason : String) (h : t'.pc = .terminal reason)
  | completes (ended : t'.pc = .ended) (h : Complete r₀ (got ++ label.chunks) (eof || label.isEof) t'.sent)
  | fails (ended : t'.pc = .ended) (error : EnqueueError) (queued : Nat) (h : label = .enqueued (.failed error queued))
      (pc : Pc.Unreported t.pc)

theorem next_of_moves (ha : Accounts r₀ got eof t) (hc : label.chunks = []) (he : label.isEof = false) (ht : Tidy t')
    (hm : Moves t t') : Next r₀ got eof t label t' := by
  apply Next.goes
  rw [hc, he, List.append_nil, Bool.or_false]
  exact ha.moves ht hm

theorem onSelect_next (ha : Accounts r₀ got eof t) (hpc : t.pc = .select) (hl : label.Undisturbed)
    (h : t.onSelect P key label = some t') : Next r₀ got eof t label t' := by
  obtain ⟨outs, hpush, hbytes⟩ := ha.looping (by rw [hpc]; rfl)
  cases label with
  | clientClosed => exact absurd rfl hl.1
  | shutdown amb => exact absurd rfl (hl.2 amb)
  | shutdownUnset =>
    simp only [onSelect, Option.some.injEq] at h
    subst h
    exact next_of_moves ha rfl rfl ha.tidy ⟨rfl, rfl, by simp [hpc], rfl⟩
  | idleTimeout | readError =>
    simp only [onSelect, Option.some.injEq] at h
    subst h
    exact .reports _ rfl
  | chunk bytes =>
    simp only [onSelect] at h
    split at h
    · rename_i new redactor hp
      simp only [Option.some.injEq] at h
      subst h
      have hst := push_state hp
      refine .goes ⟨⟨trivial, hst ▸ ha.tidy.aligned, ha.tidy.held, ha.tidy.drained, by simp, by simp⟩, fun _ => ?_, by simp,
        by simp [Pc.isFinal]⟩
      refine ⟨outs ++ [new], StreamRedactor.pushAll_concat hp hpush, ?_⟩
      simp only [pending, hpc] at hbytes
      simp only [pending, ← List.append_assoc, hbytes]
      simp [outputBytes]
    · simp only [Option.some.injEq] at h
      subst h
      exact .reports _ rfl
    · rename_i p hp
      exact absurd hp (push_no_panic ha.tidy.aligned bytes p)
  | eof =>
    simp only [onSelect, Option.some.injEq] at h
    subst h
    refine .goes ⟨⟨trivial, ha.tidy.aligned, ha.tidy.held, ha.tidy.drained, by simp, by simp⟩, fun _ => ⟨outs, ?_, ?_⟩,
      fun _ => by simp [Label.isEof], by simp [Pc.isFinal]⟩
    · simpa [Label.chunks] using hpush
    · simpa [pending, hpc] using hbytes
  | segment amb | enqueued outcome | flush | next => simp [onSelect] at h

theorem afterOutputs_next {stage : Stage} (ha : Accounts r₀ got eof t) (hpc : t.pc = .outputs stage []) :
    Next r₀ got eof t .next (t.afterOutputs stage) := by
  have ht := ha.tidy
  cases stage with
  | loop =>
    refine next_of_moves ha rfl rfl ⟨trivial, ht.aligned, ht.held, ht.drained, by simp [afterOutputs],
      by simp [afterOutputs]⟩ ⟨rfl, ?_, by simp [afterOutputs], ?_⟩
    · rw [hpc]
      rfl
    · simp [afterOutputs, pending, hpc, outputBytes]
  | final =>
    simp only [afterOutputs]
    split
    · rename_i hsse
      have hbytes := streamBytes_finish t.detector t.hasher
      have hnil := finish_trailing t.detector t.hasher
      refine next_of_moves ha rfl rfl ⟨trivial, ht.aligned, ?_, fun _ => hnil, ?_, by simp⟩ ⟨rfl, ?_, by simp, ?_⟩
      · exact finish_trailing_le t.detector t.hasher
      · rintro _ _ hf
        cases hf
        exact ⟨hsse, by simp, fun _ => hnil⟩
      · rw [hpc]
        rfl
      · simp [pending, hpc, hbytes, hnil, Cont.bytes, outputBytes]
    · rename_i hsse
      refine .completes rfl ?_
      obtain ⟨he, segs, hsegs, hbytes⟩ := ha.finishing (by rw [hpc]; rfl)
      refine ⟨by simp [he], segs, by simpa [Label.chunks] using hsegs, ?_⟩
      simpa [pending, hpc, outputBytes, ht.drained (.inr (by simpa using hsse))] using hbytes

theorem resume_next {cont : Cont} (ha : Accounts r₀ got eof t) (hpc : t.pc = .forward [] cont) :
    Next r₀ got eof t .next (t.resume cont) := by
  have ht := ha.tidy
  obtain ⟨hsse, hflush, hdone⟩ := ht.forwards _ _ hpc
  cases cont with
  | outputs stage outs =>
    refine next_of_moves ha rfl rfl ⟨trivial, ht.aligned, ht.held, ht.drained, by simp [resume], by simp [resume]⟩
      ⟨rfl, ?_, by simp [resume], ?_⟩
    · rw [hpc]
      cases stage <;> rfl
    · simp [resume, pending, hpc, Cont.bytes, streamBytes]
  | flush => exact absurd rfl hflush
  | done =>
    refine .completes rfl ?_
    obtain ⟨he, segs, hsegs, hbytes⟩ := ha.finishing (by rw [hpc]; rfl)
    refine ⟨by simp [he], segs, by simpa [Label.chunks] using hsegs, ?_⟩
    simpa [resume, pending, hpc, Cont.bytes, streamBytes, hdone rfl] using hbytes

theorem onFlush_next (ha : Accounts r₀ got eof t) (hpc : t.pc = .flush) : Next r₀ got eof t .flush t.onFlush := by
  have ht := ha.tidy
  obtain ⟨outs, hpush, hbytes⟩ := ha.looping (by rw [hpc]; rfl)
  unfold onFlush
  split
  · rename_i last redactor hf
    refine .goes ⟨⟨trivial, finish_state hf ▸ ht.aligned, ht.held, ht.drained, by simp, by simp⟩, by simp [Pc.isFinal],
      by simp, fun _ => ⟨by simp [ha.flushing hpc], outs.flatten ++ last, ?_, ?_⟩⟩
    · rw [show Label.chunks .flush = [] from rfl, List.append_nil, StreamRedactor.redactChunks_of_pushAll hpush, hf, bind_ok]
    · simp only [pending, hpc] at hbytes
      simp only [pending, ← List.append_assoc, hbytes]
      simp [outputBytes]
  · exact .reports _ rfl
  · rename_i p hf
    exact absurd hf (finish_no_panic ht.aligned p)

theorem onEnqueued_next {outcome : Outcome} (ha : Accounts r₀ got eof t) (h : t.onEnqueued P outcome t.pc = some t') :
    Next r₀ got eof t (.enqueued outcome) t' := by
  have ht := ha.tidy
  unfold onEnqueued at h
  split at h
  · rename_i e es cont hpc
    obtain ⟨hsse, hflush, hdone⟩ := ht.forwards _ _ hpc
    split at h <;> simp only [Option.some.injEq] at h <;> subst h
    · refine next_of_moves ha rfl rfl ⟨trivial, ht.aligned, ht.held, ht.drained, ?_, by simp [forward]⟩
        ⟨rfl, ?_, by simp [forward], ?_⟩
      · rintro _ _ hf
        cases hf
        exact ⟨hsse, hflush, hdone⟩
      · rw [hpc]
        cases cont with
        | outputs stage outs => cases stage <;> rfl
        | flush | done => rfl
      · simp [forward, payload_enqueue, pending, hpc, Sent.payload, streamBytes]
    · refine .fails rfl _ _ rfl ?_
      rw [hpc]
      trivial
  · rename_i stage bytes outs hpc
    have hnil := ht.drained (.inr (ht.sends _ _ _ hpc))
    split at h <;> simp only [Option.some.injEq] at h <;> subst h
    · refine next_of_moves ha rfl rfl ⟨trivial, ht.aligned, ht.held, ht.drained, by simp [resume], by simp [resume]⟩
        ⟨rfl, ?_, by simp [resume], ?_⟩
      · rw [hpc]
        cases stage <;> rfl
      · simp [resume, payload_enqueue, pending, hpc, hnil, Sent.payload]
    · exact .reports _ rfl
    · refine .fails rfl _ _ rfl ?_
      rw [hpc]
      trivial
  · rename_i reason hpc
    have hgo := ht.going
    rw [hpc] at hgo
    exact hgo.elim
  · cases h

/-- **The step lemma**: a task that is going keeps its accounts, gives up with a reason, completes, or ends on
a failed enqueue. -/
theorem step_next (ha : Accounts r₀ got eof t) (hl : label.Undisturbed) (h : t.step P key label = some t') :
    Next r₀ got eof t label t' := by
  rcases step_cases h with ⟨hpc, h⟩ | ⟨stage, out, outs, amb, hpc, rfl, rfl⟩ | ⟨stage, hpc, rfl, rfl⟩ |
    ⟨cont, hpc, rfl, rfl⟩ | ⟨hpc, rfl, rfl⟩ | ⟨outcome, rfl, henq⟩
  · exact onSelect_next ha hpc hl h
  · obtain ⟨htidy, hm⟩ := onOutput_moves P key amb ha.tidy hpc
    exact next_of_moves ha rfl rfl htidy hm
  · exact afterOutputs_next ha hpc
  · exact resume_next ha hpc
  · exact onFlush_next ha hpc
  · exact onEnqueued_next ha henq

theorem spawn_sent {q : Request} {policyDigest : String} {isSse : Bool} {engine : EngineState}
    (h : spawn q policyDigest isSse engine = .ok t) : t.sent = [] := by
  simp only [spawn, bind_eq_ok, pure_eq_ok, Except.ok.injEq] at h
  obtain ⟨r, -, rfl⟩ := h
  rfl

/-- A task as it is spawned has everything to come. -/
theorem spawn_accounts {q : Request} {policyDigest : String} {isSse : Bool} {engine : EngineState} {t : StreamTask}
    (ha : engine.Aligned) (h : spawn q policyDigest isSse engine = .ok t) : Accounts t.redactor [] false t := by
  obtain ⟨-, hstate, -⟩ := spawn_eq h
  simp only [spawn, bind_eq_ok, pure_eq_ok, Except.ok.injEq] at h
  obtain ⟨r, -, rfl⟩ := h
  exact ⟨⟨trivial, hstate ▸ ha, Nat.zero_le _, fun _ => rfl, by simp, by simp⟩, fun _ => ⟨[], rfl, rfl⟩, by simp,
    by simp [Pc.isFinal]⟩

end PiiProxy.StreamTask
