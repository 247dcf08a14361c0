import PiiProxy.TaskRuns

/-!
# What a stream sends after a shutdown

The shutdown branch (lib.rs:719-728) forwards the receipt and its marker and leaves the
loop; the code after the loop (lib.rs:800-854) flushes the redactor, whatever the loop was
left for. With every enqueue successful, what the task has sent and what it still owes
make one list from there on.

* `run_owed` — that list does not change
* `flushItems_eq_nil` — the flush sends nothing exactly when the redactor is `Silent`
* `shutdown_marker_last` — the receipt and its marker come last exactly then
-/

namespace PiiProxy.StreamTask

variable {P : Primitives} {key : Bytes} {t t' : StreamTask} {label : Label}

/-- What a successful `enqueue` puts on the channel. -/
def queued (P : Primitives) (item : Sent) : List Sent := if item.bytes P = [] then [] else [item]

theorem enqueue_ok (item : Sent) (sent : List Sent) : enqueue P item sent .ok = sent ++ queued P item := by
  simp only [enqueue, queued]
  split <;> simp

/-- Outputs of the redactor once the detector is done with its receipt. -/
def outputItems (P : Primitives) (outs : List OutputSegment) : List Sent :=
  outs.flatMap fun out => queued P (.event (.data out.bytes))

def flushItems (P : Primitives) (r : StreamRedactor) : List Sent :=
  match r.finish with
  | .ok (outs, _) => outputItems P outs
  | .error (.err _) => queued P (.terminal "redaction_finish_failed")
  | .error (.panic _) => []

def eventItems (P : Primitives) (events : List StreamEvent) : List Sent := events.flatMap fun e => queued P (.event e)

def Cont.owed (P : Primitives) (r : StreamRedactor) : Cont → List Sent
  | .outputs _ outs => outputItems P outs
  | .flush => flushItems P r
  | .done => []

/-- What a task past its loop will still send, if every enqueue succeeds. -/
def owed (P : Primitives) (t : StreamTask) : List Sent :=
  match t.pc with
  | .forward events cont => eventItems P events ++ Cont.owed P t.redactor cont
  | .outputs _ outs => outputItems P outs
  | .flush => flushItems P t.redactor
  | .terminal reason => queued P (.terminal reason)
  | .select | .send _ _ _ | .ended => []

/-- A place after the loop, in an SSE stream. -/
def Pc.Past : Pc → Prop
  | .select | .send _ _ _ | .outputs .loop _ | .forward _ (.outputs .loop _) => False
  | .outputs .final _ | .forward _ _ | .flush | .terminal _ | .ended => True

/-- An SSE task past its loop whose receipt is built. -/
structure Winding (t : StreamTask) : Prop where
  isSse : t.isSse = true
  completed : t.detector.completed = true
  trailing : t.detector.trailing = []
  past : Pc.Past t.pc

theorem onOutput_owed (hw : Winding t) {amb : Ambient} {out : OutputSegment} {outs : List OutputSegment}
    (hpc : t.pc = .outputs .final (out :: outs)) :
    Winding (t.onOutput P key amb .final out outs) ∧
      (t.onOutput P key amb .final out outs).sent ++ (t.onOutput P key amb .final out outs).owed P =
        t.sent ++ t.owed P := by
  have he : t.onOutput P key amb .final out outs =
      { t with pc := .forward [.data out.bytes] (.outputs .final outs) } := by
    simp only [onOutput, hw.isSse, if_true, DoneDetector.inspect_completed P key amb t.hasher hw.completed]
    rfl
  rw [he]
  refine ⟨⟨hw.isSse, hw.completed, hw.trailing, trivial⟩, ?_⟩
  simp [owed, hpc, eventItems, Cont.owed, outputItems]

theorem afterOutputs_owed (hw : Winding t) (hpc : t.pc = .outputs .final []) :
    Winding (t.afterOutputs .final) ∧
      (t.afterOutputs .final).sent ++ (t.afterOutputs .final).owed P = t.sent ++ t.owed P := by
  have he : t.afterOutputs .final = { t with pc := .forward [] .done } := by
    simp only [afterOutputs, hw.isSse, if_true, DoneDetector.finish, hw.trailing]
  rw [he]
  refine ⟨⟨hw.isSse, hw.completed, hw.trailing, trivial⟩, ?_⟩
  simp [owed, hpc, eventItems, Cont.owed, outputItems]

theorem resume_owed (hw : Winding t) {cont : Cont} (hpc : t.pc = .forward [] cont) :
    Winding (t.resume cont) ∧ (t.resume cont).sent ++ (t.resume cont).owed P = t.sent ++ t.owed P := by
  have hpast := hw.past
  rw [hpc] at hpast
  cases cont with
  | outputs stage outs =>
    cases stage with
    | loop => exact hpast.elim
    | final => exact ⟨⟨hw.isSse, hw.completed, hw.trailing, trivial⟩, by simp [owed, hpc, resume, eventItems, Cont.owed]⟩
  | flush => exact ⟨⟨hw.isSse, hw.completed, hw.trailing, trivial⟩, by simp [owed, hpc, resume, eventItems, Cont.owed]⟩
  | done => exact ⟨⟨hw.isSse, hw.completed, hw.trailing, trivial⟩, by simp [owed, hpc, resume, eventItems, Cont.owed]⟩

theorem onFlush_owed (hw : Winding t) (hpc : t.pc = .flush) :
    Winding t.onFlush ∧ t.onFlush.sent ++ t.onFlush.owed P = t.sent ++ t.owed P := by
  unfold onFlush
  split
  · rename_i h
    exact ⟨⟨hw.isSse, hw.completed, hw.trailing, trivial⟩, by simp [owed, hpc, flushItems, h]⟩
  · rename_i h
    exact ⟨⟨hw.isSse, hw.completed, hw.trailing, trivial⟩, by simp [owed, hpc, flushItems, h]⟩
  · rename_i h
    exact ⟨⟨hw.isSse, hw.completed, hw.trailing, trivial⟩, by simp [owed, hpc, flushItems, h]⟩

theorem onEnqueued_owed (hw : Winding t) (h : t.onEnqueued P .ok t.pc = some t') :
    Winding t' ∧ t'.sent ++ t'.owed P = t.sent ++ t.owed P := by
  have hpast := hw.past
  unfold onEnqueued at h
  split at h
  · rename_i e es cont hpc
    simp only [Option.some.injEq] at h
    subst h
    rw [hpc] at hpast
    refine ⟨⟨hw.isSse, hw.completed, hw.trailing, ?_⟩, by simp [owed, hpc, forward, enqueue_ok, eventItems]⟩
    cases cont with
    | outputs stage outs => cases stage <;> exact hpast
    | flush | done => trivial
  · rename_i hpc
    rw [hpc] at hpast
    exact hpast.elim
  · rename_i reason hpc
    simp only [Option.some.injEq] at h
    subst h
    exact ⟨⟨hw.isSse, hw.completed, hw.trailing, trivial⟩, by simp [owed, hpc, enqueue_ok]⟩
  · cases h

/-- **The step lemma**: sent and owed make one list. -/
theorem step_owed (hw : Winding t) (hok : ∀ outcome, label = .enqueued outcome → outcome = .ok)
    (h : t.step P key label = some t') : Winding t' ∧ t'.sent ++ t'.owed P = t.sent ++ t.owed P := by
  have hpast := hw.past
  rcases step_cases h with ⟨hpc, -⟩ | ⟨stage, out, outs, amb, hpc, rfl, rfl⟩ | ⟨stage, hpc, rfl, rfl⟩ | ⟨cont, hpc, rfl, rfl⟩ |
    ⟨hpc, rfl, rfl⟩ | ⟨outcome, rfl, henq⟩
  · rw [hpc] at hpast
    exact hpast.elim
  · cases stage with
    | loop =>
      rw [hpc] at hpast
      exact hpast.elim
    | final => exact onOutput_owed hw hpc
  · cases stage with
    | loop =>
      rw [hpc] at hpast
      exact hpast.elim
    | final => exact afterOutputs_owed hw hpc
  · exact resume_owed hw hpc
  · exact onFlush_owed hw hpc
  · rw [hok _ rfl] at henq
    exact onEnqueued_owed hw henq

/-- **The run lemma.** -/
theorem run_owed : ∀ {labels : List Label} {t t' : StreamTask}, Winding t → Succeeds labels →
    t.run P key labels = some t' → t'.sent ++ t'.owed P = t.sent ++ t.owed P
  | [], t, t', _, _, h => by
    cases h
    rfl
  | label :: labels, t, t', hw, hok, h => by
    obtain ⟨t1, h1, h⟩ := Machine.run_cons_some.1 h
    obtain ⟨hl, hrest⟩ := succeeds_cons hok
    obtain ⟨hw1, he1⟩ := step_owed hw hl h1
    exact (run_owed hw1 hrest h).trans he1

/-! ## The flush after a shutdown -/

/-- The redactor holds nothing, or only whole matches whose replacements are empty. -/
def Silent (r : StreamRedactor) : Prop :=
  r.pending = [] ∨ Utf8.Valid r.pending ∧ outputBytes (r.state.segments r.pending) = []

theorem outputItems_eq_nil {outs : List OutputSegment} : outputItems P outs = [] ↔ outputBytes outs = [] := by
  simp only [outputItems, outputBytes, List.flatMap_eq_nil_iff, queued, ite_eq_left_iff, reduceCtorEq, imp_false,
    not_not]
  rfl

theorem flushItems_eq_nil {r : StreamRedactor} (ha : r.state.Aligned) : flushItems P r = [] ↔ Silent r := by
  unfold flushItems Silent
  rw [finish_eq ha]
  by_cases hp : r.pending = []
  · simp [hp, outputItems]
  by_cases hv : Utf8.Valid r.pending
  · simp [hp, hv, outputItems_eq_nil]
  · simp [hp, hv, queued, terminal_ne_nil]

/-- What the flush sends is no marker. -/
theorem flushItems_no_marker {r : StreamRedactor} {b : Bytes} : .event (.doneMarker b) ∉ flushItems P r := by
  have hq : ∀ item : Sent, item ≠ .event (.doneMarker b) → .event (.doneMarker b) ∉ queued P item := by
    intro item hne hm
    unfold queued at hm
    split at hm
    · cases hm
    · exact hne (List.mem_singleton.1 hm).symm
  unfold flushItems
  split
  · intro hm
    obtain ⟨out, _, hm⟩ := List.mem_flatMap.1 hm
    exact hq _ (by simp) hm
  · exact hq _ (by simp)
  · simp

/-- The receipt and the marker are the last items on the channel. -/
def Closes (sent : List Sent) : Prop :=
  ∃ before frame, sent = before ++ [.event (.auditReceipt frame), .event (.doneMarker DoneDetector.shutdownMarker)]

theorem eventItems_shutdownEvents {d : DoneDetector} (amb : Ambient) (hasher : Bytes) (hopen : d.completed = false) :
    eventItems P (d.shutdownEvents P key amb hasher).1 = (d.shutdownEvents P key amb hasher).1.map .event := by
  have hall : ∀ e ∈ (d.shutdownEvents P key amb hasher).1, queued P (.event e) = [.event e] := by
    intro e he
    apply if_neg
    simp only [DoneDetector.shutdownEvents, hopen, Bool.false_eq_true, if_false, DoneDetector.receiptEvents,
      List.mem_append, List.mem_cons, List.not_mem_nil, or_false] at he
    rcases he with he | rfl | rfl
    · unfold dataEvents at he
      split at he
      · cases he
      · rename_i hne
        rw [List.mem_singleton.1 he]
        exact hne
    · have h : Utf8.encode "\nevent: proxy_audit\ndata: \x7b\"receipt\": " =
          10 :: Utf8.encode "event: proxy_audit\ndata: \x7b\"receipt\": " := rfl
      simp [Sent.bytes, StreamEvent.bytes, AuditFrame.bytes, buildProxyAuditFrame, h]
    · simp only [Sent.bytes, StreamEvent.bytes]
      decide
  unfold eventItems
  rw [List.flatMap_congr hall, List.map_eq_flatMap]

/-- The shutdown branch. -/
theorem step_shutdown {amb : Ambient} (hsse : t.isSse = true) (hopen : t.detector.completed = false)
    (h : t.step P key (.shutdown amb) = some t') :
    Winding t' ∧ t'.sent ++ t'.owed P =
      t.sent ++ (t.detector.shutdownEvents P key amb t.hasher).1.map .event ++ flushItems P t.redactor := by
  have hsel : t.onSelect P key (.shutdown amb) = some t' := by
    rcases step_cases h with ⟨-, hsel⟩ | ⟨_, _, _, _, -, hl, -⟩ | ⟨_, -, hl, -⟩ | ⟨_, -, hl, -⟩ | ⟨-, hl, -⟩ | ⟨_, hl, -⟩
    · exact hsel
    all_goals cases hl
  simp only [onSelect, Option.some.injEq] at hsel
  subst hsel
  refine ⟨⟨hsse, ?_, ?_, trivial⟩, ?_⟩
  · simp [forward, DoneDetector.shutdownEvents, hopen, DoneDetector.receiptEvents]
  · simp [forward, DoneDetector.shutdownEvents, hopen, DoneDetector.receiptEvents]
  · simp only [owed, forward, eventItems_shutdownEvents amb t.hasher hopen, Cont.owed, List.append_assoc]

/-- **What ends a stream that is shut down.** In every run in which the shutdown comes before the
marker and every enqueue after it succeeds: with a `Silent` redactor nothing but the events of
`shutdown_events` is sent from then on, and the finished stream ends with the receipt and its
marker exactly if the redactor was `Silent` when the shutdown came. -/
theorem shutdown_marker_last {q : Request} {policyDigest : String} {engine : EngineState} {t₀ t₁ : StreamTask}
    {pre post : List Label} {amb : Ambient} (ha : engine.Aligned) (hspawn : spawn q policyDigest true engine = .ok t₀)
    (hpre : t₀.run P q.key pre = some t₁) (hopen : t₁.detector.completed = false)
    (hrun : t₁.run P q.key (.shutdown amb :: post) = some t) (hok : Succeeds post) :
    (Silent t₁.redactor →
      t.sent <+: t₁.sent ++ (t₁.detector.shutdownEvents P q.key amb t₁.hasher).1.map .event) ∧
    (t.pc = .ended → (Closes t.sent ↔ Silent t₁.redactor)) := by
  obtain ⟨hstamp, heng, hsse⟩ := spawn_eq hspawn
  obtain ⟨⟨_, heng₁⟩, hsse₁⟩ := run_keeps hstamp hpre
  have ha₁ : t₁.redactor.state.Aligned := by rw [heng₁, heng]; exact ha
  obtain ⟨t₂, hstep, hrun⟩ := Machine.run_cons_some.1 hrun
  obtain ⟨hw, howed⟩ := step_shutdown (hsse₁.trans hsse) hopen hstep
  have hall := (run_owed hw hok hrun).trans howed
  refine ⟨?_, ?_⟩
  · intro hs
    rw [(flushItems_eq_nil ha₁).2 hs, List.append_nil] at hall
    exact ⟨t.owed P, hall⟩
  · intro hend
    have hnil : t.owed P = [] := by simp [owed, hend]
    rw [hnil, List.append_nil] at hall
    obtain ⟨before, frame, hev⟩ : ∃ before frame, (t₁.detector.shutdownEvents P q.key amb t₁.hasher).1 =
        before ++ [.auditReceipt frame, .doneMarker DoneDetector.shutdownMarker] := by
      simp only [DoneDetector.shutdownEvents, hopen, Bool.false_eq_true, if_false]
      exact ⟨_, _, rfl⟩
    rw [← flushItems_eq_nil ha₁]
    constructor
    · rintro ⟨b, f, hb⟩
      -- the last item is a marker, and the flush sends none
      by_contra hne
      have hlast := congrArg List.getLast? (hb.symm.trans hall)
      rw [List.getLast?_append_of_ne_nil _ hne, List.getLast?_append_of_ne_nil _ (by simp)] at hlast
      exact flushItems_no_marker (List.mem_of_getLast? hlast.symm)
    · intro hs
      rw [hs, List.append_nil, hev] at hall
      exact ⟨t₁.sent ++ before.map .event, frame, by rw [hall]; simp⟩

/-! ### A shutdown with and without a held tail

The chunks `"data: hi\n\n"` and `"data: my pass"` under the default policy: the redactor
holds nothing after the first, and `pass` after the second. -/

open Utf8 (encode)

def killPrimitives : Primitives := Primitives.ofTables
  [([], ofHex "af1349b9f5f9a1a6a0404dea36dcc9499bcb25c9adc112b7cc9a93cae41f3262"),
    (encode "data: hi\n\n", ofHex "d94f5d8d9d1e150ec900b687e285ec8c061e45ed5bcec2b85010abf237e8460e"),
    (encode "data: my ", ofHex "e0c385b85c681b3a2fe45081a5754e628c4238f060aa7f6ac478076b1c501d9a"),
    (canonicalTuple ["request-1", "tenant-1", "https://upstream.example/v1/chat/completions",
        "af1349b9f5f9a1a6a0404dea36dcc9499bcb25c9adc112b7cc9a93cae41f3262",
        "f5ffe4b2d8c324d40325b279bf014e87538b9814ca667fa506a26e0994040ae7", "pcr0-1",
        "d94f5d8d9d1e150ec900b687e285ec8c061e45ed5bcec2b85010abf237e8460e"],
      ofHex "6d034c057ea519939b37a15e9bc9ec243f4811582e68813966724ff7eb03db57"),
    (canonicalTuple ["request-1", "tenant-1", "https://upstream.example/v1/chat/completions",
        "af1349b9f5f9a1a6a0404dea36dcc9499bcb25c9adc112b7cc9a93cae41f3262",
        "f5ffe4b2d8c324d40325b279bf014e87538b9814ca667fa506a26e0994040ae7", "pcr0-1",
        "e0c385b85c681b3a2fe45081a5754e628c4238f060aa7f6ac478076b1c501d9a"],
      ofHex "559abc3cf8c51e55a989d1d59ea00c982196f9e47814e052720bf7b36fee4209")]
  [(ofHex "6d034c057ea519939b37a15e9bc9ec243f4811582e68813966724ff7eb03db57",
      ofHex ("5129a0e8363451a013f2d0dd559734848c79b6ab7a9992da7924dbc006c90742" ++
        "0c9d8787226cd998c793696ecd3cf6837d1d9b21f8ada4cf0ba988421523db0b")),
    (ofHex "559abc3cf8c51e55a989d1d59ea00c982196f9e47814e052720bf7b36fee4209",
      ofHex ("4ada319873825fe2f6a0f224c8b4f8b163a84cf7f493766d8b3ea58182307700" ++
        "d7242f1eb3839532169cc39d13e51c07e7f45cfe0ae7f140200444fb710fc008"))]
  [(ofHex ("5129a0e8363451a013f2d0dd559734848c79b6ab7a9992da7924dbc006c90742" ++
        "0c9d8787226cd998c793696ecd3cf6837d1d9b21f8ada4cf0ba988421523db0b"),
      "USmg6DY0UaAT8tDdVZc0hIx5tqt6mZLaeSTbwAbJB0IMnYeHImzZmMeTaW7NPPaDfR2bIfitpM8LqYhCFSPbCw=="),
    (ofHex ("4ada319873825fe2f6a0f224c8b4f8b163a84cf7f493766d8b3ea58182307700" ++
        "d7242f1eb3839532169cc39d13e51c07e7f45cfe0ae7f140200444fb710fc008"),
      "StoxmHOCX+L2oPIkyLT4sWOoTPf0k3Ztiz6lgYIwdwDXJC8es4OVMhacw50T5RwH5/Rc/grn8UAgBET7cQ/ACA==")]

/-- The task of `swapRequest` under the default policy. -/
def defaultTask : StreamTask where
  isSse := true
  redactor := ⟨defaultEngine (Search.AhoCorasick.scan asciiLower), [], 64 * 1024, by decide⟩
  detector := swapRequest.detector "f5ffe4b2d8c324d40325b279bf014e87538b9814ca667fa506a26e0994040ae7"
  hasher := []
  pc := .select
  sent := []

theorem defaultTask_spawn : spawn swapRequest "f5ffe4b2d8c324d40325b279bf014e87538b9814ca667fa506a26e0994040ae7" true
    (defaultEngine (Search.AhoCorasick.scan asciiLower)) = .ok defaultTask := rfl

theorem defaultEngine_aligned (build : Builder) : (defaultEngine build).Aligned := rfl

/-- One chunk of one output, which the detector holds. -/
def chunkLabels (chunk : Bytes) : List Label := [.chunk chunk, .segment ⟨[], 1700000000⟩, .next, .next]

/-- The three events of the shutdown, then a flush of nothing. -/
def closeLabels : List Label :=
  [.enqueued .ok, .enqueued .ok, .enqueued .ok, .next, .flush, .next, .next]

/-- The same with one output in the flush. -/
def passLabels : List Label :=
  [.enqueued .ok, .enqueued .ok, .enqueued .ok, .next, .flush, .segment ⟨[], 1700000000⟩, .enqueued .ok, .next, .next,
    .next]

theorem shutdown_marker_last_hi : ∃ t₁ t,
    defaultTask.run killPrimitives swapRequest.key (chunkLabels (encode "data: hi\n\n")) = some t₁ ∧
    t₁.run killPrimitives swapRequest.key (.shutdown ⟨[], 1700000000⟩ :: closeLabels) = some t ∧
    Silent t₁.redactor ∧ Closes t.sent := by
  have hrun : (defaultTask.run killPrimitives swapRequest.key (chunkLabels (encode "data: hi\n\n"))).bind (fun t₁ =>
      (t₁.run killPrimitives swapRequest.key (.shutdown ⟨[], 1700000000⟩ :: closeLabels)).map fun t =>
        (t₁.detector.completed, t₁.redactor.pending, t.pc)) = some (false, [], .ended) := rfl
  obtain ⟨t₁, h₁, hrun⟩ := Option.bind_eq_some_iff.1 hrun
  obtain ⟨t, h, hrun⟩ := Option.map_eq_some_iff.1 hrun
  simp only [Prod.mk.injEq] at hrun
  have hok : Succeeds closeLabels := by simp [Succeeds, closeLabels]
  have hs : Silent t₁.redactor := Or.inl hrun.2.1
  exact ⟨t₁, t, h₁, h, hs, ((shutdown_marker_last (defaultEngine_aligned _) defaultTask_spawn h₁ hrun.1 h hok).2 hrun.2.2).2 hs⟩

/-- The flush sends `pass` after the receipt. -/
theorem held_tail_after_receipt :
    ¬ ∀ (P : Primitives) (q : Request) (policyDigest : String) (engine : EngineState) (t₀ t₁ t : StreamTask)
      (pre post : List Label) (amb : Ambient), engine.Aligned → spawn q policyDigest true engine = .ok t₀ →
      t₀.run P q.key pre = some t₁ → t₁.detector.completed = false →
      t₁.run P q.key (.shutdown amb :: post) = some t → Succeeds (pre ++ post) → t.pc = .ended → Closes t.sent := by
  intro h
  have hrun : (defaultTask.run killPrimitives swapRequest.key (chunkLabels (encode "data: my pass"))).bind (fun t₁ =>
      (t₁.run killPrimitives swapRequest.key (.shutdown ⟨[], 1700000000⟩ :: passLabels)).map fun t =>
        (t₁.detector.completed, t.pc, t.sent.getLast?)) =
      some (false, .ended, some (.event (.data (encode "pass")))) := rfl
  obtain ⟨t₁, h₁, hrun⟩ := Option.bind_eq_some_iff.1 hrun
  obtain ⟨t, ht, hrun⟩ := Option.map_eq_some_iff.1 hrun
  simp only [Prod.mk.injEq] at hrun
  have hok : Succeeds (chunkLabels (encode "data: my pass") ++ passLabels) := by
    simp [Succeeds, chunkLabels, passLabels]
  obtain ⟨before, frame, he⟩ := h _ _ _ _ _ _ _ _ _ _ (defaultEngine_aligned _) defaultTask_spawn h₁ hrun.1 ht hok hrun.2.1
  have hlast := hrun.2.2
  rw [he, List.getLast?_append_of_ne_nil _ (by simp)] at hlast
  simp at hlast

end PiiProxy.StreamTask
