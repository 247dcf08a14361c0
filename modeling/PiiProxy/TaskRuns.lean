import PiiProxy.DetectorRuns
import PiiProxy.HotSwap

/-!
# Runs of the stream task

A run is a list of labels, the order in which the waits of the task end.

* `run_keeps` — the engine of the redactor, the digest named and the content kind stay
* `step_trailing_le` — the detector holds at most 11 bytes, so `inspect` does not panic
-/

namespace PiiProxy.StreamTask

variable {P : Primitives} {key : Bytes} {t t' : StreamTask} {label : Label} {labels : List Label}

def run (P : Primitives) (key : Bytes) : StreamTask → List Label → Option StreamTask := Machine.run (step P key)

/-- Every enqueue of the run succeeds. -/
def Succeeds (labels : List Label) : Prop := ∀ outcome, .enqueued outcome ∈ labels → outcome = .ok

theorem succeeds_cons (h : Succeeds (label :: labels)) :
    (∀ outcome, label = .enqueued outcome → outcome = .ok) ∧ Succeeds labels :=
  ⟨fun outcome he => h outcome (by simp [he]), fun outcome hm => h outcome (List.mem_cons_of_mem _ hm)⟩

/-- A terminal error frame has bytes. -/
theorem terminal_ne_nil (reason : String) : (Sent.terminal reason).bytes P ≠ [] := by
  have h : Utf8.encode "data: \x7b\"error\": \"proxy_terminated\", \"reason\": \"" =
      100 :: Utf8.encode "ata: \x7b\"error\": \"proxy_terminated\", \"reason\": \"" := rfl
  simp [Sent.bytes, Utf8.encode_append, h]

/-! ## What stays -/

theorem step_isSse (h : t.step P key label = some t') : t'.isSse = t.isSse := by
  cases step_effect h <;> rfl

/-- **The run lemma**: content kind, engine and digest stay with a task. -/
theorem run_keeps {digest : String} (hs : Stamped digest t) (h : t.run P key labels = some t') :
    Keeps digest t t' ∧ t'.isSse = t.isSse := by
  refine Machine.run_keeps (I := fun t' => Keeps digest t t' ∧ t'.isSse = t.isSse) ?_ ⟨⟨hs, rfl⟩, rfl⟩ h
  rintro t1 label t2 ⟨⟨hs1, he1⟩, hk⟩ h1
  obtain ⟨hs2, he2⟩ := step_keeps h1 hs1
  exact ⟨⟨hs2, he2.trans he1⟩, (step_isSse h1).trans hk⟩

/-! ## The bytes held -/

/-- An output of an SSE stream, which `inspect` takes without a panic. -/
theorem onOutput_sse (P : Primitives) (key : Bytes) (hsse : t.isSse = true) (ht : t.detector.trailing.length ≤ 11)
    (amb : Ambient) (stage : Stage) (out : OutputSegment) (outs : List OutputSegment) : ∃ events detector hasher,
      t.detector.inspect P key amb out.bytes t.hasher = .ok (events, detector, hasher) ∧
      t.onOutput P key amb stage out outs =
        { t with detector := detector, hasher := hasher, pc := .forward events (.outputs stage outs) } := by
  obtain ⟨events, detector, hasher, hi, -⟩ := inspect_held P key amb t.hasher ht
  refine ⟨events, detector, hasher, hi, ?_⟩
  simp only [onOutput, hsse, if_true, hi]
  rfl

theorem onOutput_plain (P : Primitives) (key : Bytes) (hsse : t.isSse = false) (amb : Ambient) (stage : Stage)
    (out : OutputSegment) (outs : List OutputSegment) : t.onOutput P key amb stage out outs =
      { t with hasher := t.hasher ++ out.bytes, pc := .send stage out.bytes outs } := by
  unfold onOutput
  rw [if_neg (by simp [hsse])]

theorem step_trailing_le (ht : t.detector.trailing.length ≤ 11) (h : t.step P key label = some t') :
    t'.detector.trailing.length ≤ 11 := by
  cases step_effect h with
  | goes | redacts | hashes | enqueues => exact ht
  | inspects amb stage out outs events detector hasher place sse found => exact (inspect_ok P key amb t.hasher ht found).1
  | finishes => exact finish_trailing_le t.detector t.hasher
  | shuts amb place => exact shutdownEvents_trailing_le P key amb t.hasher ht

end PiiProxy.StreamTask
