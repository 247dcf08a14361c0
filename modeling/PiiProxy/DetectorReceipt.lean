import PiiProxy.DetectorRuns

/-!
# One receipt a run

Any sequence of `inspect` and `shutdown_events` calls, with or without a `finish` at
the end. `receiptCall` says which call is to emit the receipt, from the bytes alone;
`run_receipt` is that the detector does what it says, and the rest is read off it.
-/

namespace PiiProxy

open DoneDetector

/-- The call that emits the receipt: the first to complete the marker, or the first
shutdown, whichever comes sooner. -/
def receiptCall : Bytes → List Call → Option Nat
  | _, [] => none
  | _, .shutdown _ :: _ => some 0
  | seen, .inspect b _ :: cs =>
    if Find.Has sseDoneMarker (seen ++ b) then some 0 else (receiptCall (seen ++ b) cs).map (· + 1)

theorem receiptCall_quiet {seen b : Bytes} {amb : Ambient} {cs : List Call}
    (h : ¬ Find.Has sseDoneMarker (seen ++ b)) :
    receiptCall seen (.inspect b amb :: cs) = (receiptCall (seen ++ b) cs).map (· + 1) := by
  simp only [receiptCall, if_neg h]

theorem receiptCall_done {seen b : Bytes} {amb : Ambient} {cs : List Call}
    (h : Find.Has sseDoneMarker (seen ++ b)) : receiptCall seen (.inspect b amb :: cs) = some 0 := by
  simp only [receiptCall, if_pos h]

/-- Call `j` put out a receipt. -/
def Emits (outs : List (List StreamEvent)) (j : Nat) : Prop :=
  ∃ evs, outs[j]? = some evs ∧ evs.any StreamEvent.isReceipt = true

theorem emits_zero {evs : List StreamEvent} {outs : List (List StreamEvent)} :
    Emits (evs :: outs) 0 ↔ evs.any StreamEvent.isReceipt = true := by simp [Emits]

theorem emits_succ {evs : List StreamEvent} {outs : List (List StreamEvent)} {j : Nat} :
    Emits (evs :: outs) (j + 1) ↔ Emits outs j := by simp [Emits]

theorem OnlyData.not_emits {outs : List (List StreamEvent)} (h : OnlyData outs.flatten) (j : Nat) :
    ¬ Emits outs j := by
  rintro ⟨evs, hj, he⟩
  have hsub : OnlyData evs := fun e he => h e (List.mem_flatten.2 ⟨evs, List.mem_of_getElem? hj, he⟩)
  rw [hsub.not_receipt] at he
  cases he

/-- `Data` events, a receipt, its marker, `Data` events. -/
def OneReceipt (evs : List StreamEvent) : Prop :=
  ∃ pre frame done post, evs = pre ++ .auditReceipt frame :: .doneMarker done :: post ∧
    OnlyData pre ∧ OnlyData post

theorem OneReceipt.any {evs : List StreamEvent} (h : OneReceipt evs) :
    evs.any StreamEvent.isReceipt = true := by
  obtain ⟨pre, frame, done, post, rfl, _, _⟩ := h
  simp [StreamEvent.isReceipt]

theorem OneReceipt.append {evs more : List StreamEvent} (h : OneReceipt evs) (hm : OnlyData more) :
    OneReceipt (evs ++ more) := by
  obtain ⟨pre, frame, done, post, rfl, h1, h2⟩ := h
  exact ⟨pre, frame, done, post ++ more, by simp, h1, h2.append hm⟩

theorem OneReceipt.after {evs more : List StreamEvent} (hm : OnlyData more) (h : OneReceipt evs) :
    OneReceipt (more ++ evs) := by
  obtain ⟨pre, frame, done, post, rfl, h1, h2⟩ := h
  exact ⟨more ++ pre, frame, done, post, by simp, hm.append h1, h2⟩

/-! ## The detector does what `receiptCall` says -/

section

variable {P : Primitives} {key : Bytes} {amb : Ambient} {d d1 : DoneDetector} {seen hasher h1 : Bytes}
  {evs : List StreamEvent} {c : Call} {calls : List Call}

theorem shutdown_fires (hc : d.completed = false) :
    ∃ evs d' hasher', d.call P key hasher (.shutdown amb) = .ok (evs, d', hasher') ∧ OneReceipt evs ∧
      d'.completed = true ∧ d'.trailing = [] := by
  have hcall : d.call P key hasher (.shutdown amb) = .ok
      (dataEvents d.trailing ++ [.auditReceipt (d.auditFrame P key amb (hasher ++ d.trailing)),
        .doneMarker shutdownMarker], { d with trailing := [], completed := true }, hasher ++ d.trailing) := by
    simp only [DoneDetector.call, shutdownEvents, hc, Bool.false_eq_true, if_false]
    rfl
  exact ⟨_, _, _, hcall, ⟨_, _, _, [], rfl, onlyData_dataEvents _, onlyData_nil⟩, rfl, rfl⟩

/-- The outcome of a run. -/
structure RunSpec (seen : Bytes) (calls : List Call) (outs : List (List StreamEvent)) (d' : DoneDetector) :
    Prop where
  emits : ∀ j, Emits outs j ↔ receiptCall seen calls = some j
  quiet : receiptCall seen calls = none → OnlyData outs.flatten
  fired : receiptCall seen calls ≠ none → OneReceipt outs.flatten ∧ d'.trailing = []

/-- A first call that fires, and everything after it. -/
theorem runSpec_fired (hcall : d.call P key hasher c = .ok (evs, d1, h1)) (hone : OneReceipt evs)
    (hc : d1.completed = true) (ht : d1.trailing = []) (hr : receiptCall seen (c :: calls) = some 0) :
    ∃ outs d' hasher', d.run P key hasher (c :: calls) = .ok (outs, d', hasher') ∧
      RunSpec seen (c :: calls) outs d' := by
  obtain ⟨outs, hrun, hd, _⟩ := run_completed P key h1 hc calls
  refine ⟨evs :: outs, d1, h1, run_cons hcall hrun, ?_, ?_, ?_⟩
  · intro j
    rw [hr]
    cases j with
    | zero => simp [emits_zero, hone.any]
    | succ j => simpa [emits_succ] using hd.not_emits j
  · simp [hr]
  · intro _
    exact ⟨by rw [List.flatten_cons]; exact hone.append hd, ht⟩

/-- **The run lemma.** From a live detector every run succeeds and its receipt comes from
the call `receiptCall` names. -/
theorem run_receipt (P : Primitives) (key : Bytes) : ∀ (calls : List Call) {d : DoneDetector} {seen : Bytes}
    (hasher : Bytes), Tracks d seen → ∃ outs d' hasher',
      d.run P key hasher calls = .ok (outs, d', hasher') ∧ RunSpec seen calls outs d'
  | [], d, seen, hasher, h => by
    refine ⟨[], d, hasher, rfl, ?_, fun _ => onlyData_nil, by simp [receiptCall]⟩
    intro j
    simp [Emits, receiptCall]
  | .shutdown amb :: cs, d, seen, hasher, h => by
    obtain ⟨evs, d1, h1, hcall, hone, hc, ht⟩ := shutdown_fires (P := P) h.live
    exact runSpec_fired hcall hone hc ht rfl
  | .inspect b amb :: cs, d, seen, hasher, h => by
    rcases inspect_cases P key amb hasher h with
      ⟨hno, ⟨evs, d1, h1⟩, hcall, q⟩ | ⟨hhas, ⟨evs, d1, h1⟩, pre, post, frame, done, hcall, f⟩
    · obtain ⟨outs, d2, h2, hrun, s⟩ := run_receipt P key cs h1 q.tracks
      have hnext := @receiptCall_quiet seen b amb cs hno
      refine ⟨evs :: outs, d2, h2, run_cons hcall hrun, ?_, ?_, ?_⟩
      · intro j
        rw [hnext]
        cases j with
        | zero => simp [emits_zero, q.onlyData.not_receipt]
        | succ j => simp [emits_succ, s.emits j]
      · intro hn
        rw [hnext, Option.map_eq_none_iff] at hn
        rw [List.flatten_cons]
        exact q.onlyData.append (s.quiet hn)
      · intro hn
        rw [hnext, ne_eq, Option.map_eq_none_iff] at hn
        rw [List.flatten_cons]
        exact ⟨OneReceipt.after q.onlyData (s.fired hn).1, (s.fired hn).2⟩
    · exact runSpec_fired hcall ⟨pre, frame, done, post, f.events, f.pre_data, f.post_data⟩ f.completed
        f.drained (receiptCall_done hhas)

end

/-! ## Which call that is -/

section

variable {seen : Bytes} {pre post calls : List Call} {c : Call}

theorem receiptCall_lt : ∀ {calls : List Call} {seen : Bytes} {j : Nat},
    receiptCall seen calls = some j → j < calls.length
  | .shutdown _ :: cs, seen, j, h => by
    simp only [receiptCall, Option.some.injEq] at h
    simp [← h]
  | .inspect b _ :: cs, seen, j, h => by
    simp only [receiptCall] at h
    split at h
    · simp only [Option.some.injEq] at h
      simp [← h]
    · obtain ⟨k, hk, rfl⟩ := Option.map_eq_some_iff.1 h
      have := receiptCall_lt hk
      simpa using this

/-- A call fires: a shutdown always, `inspect` when the marker is complete. -/
def Call.Fires (seen : Bytes) : Call → Prop
  | .inspect b _ => Find.Has sseDoneMarker (seen ++ b)
  | .shutdown _ => True

theorem receiptCall_cons : receiptCall seen (c :: calls) = some 0 ↔ c.Fires seen := by
  cases c with
  | inspect b amb =>
    simp only [receiptCall, Call.Fires]
    split <;> simp_all
  | shutdown amb => simp [receiptCall, Call.Fires]

theorem receiptCall_append : ∀ {pre : List Call} {seen : Bytes},
    receiptCall seen (pre ++ calls) =
      ((receiptCall seen pre).or ((receiptCall (seen ++ seenBytes pre) calls).map (pre.length + ·)))
  | [], seen => by simp [receiptCall, seenBytes]
  | .shutdown _ :: pre, seen => by simp [receiptCall]
  | .inspect b _ :: pre, seen => by
    have ih := @receiptCall_append pre (seen ++ b)
    simp only [List.cons_append, receiptCall]
    split
    · simp
    · rw [ih, List.append_assoc]
      cases receiptCall (seen ++ b) pre with
      | some k => simp
      | none =>
        simp only [Option.none_or, Option.map_map, Option.map_none, List.length_cons]
        congr 1
        funext k
        simp only [Function.comp]; omega

/-- Call `pre.length` emits the receipt if none was due before and it fires. -/
theorem receiptCall_at : receiptCall seen (pre ++ c :: post) = some pre.length ↔
    receiptCall seen pre = none ∧ c.Fires (seen ++ seenBytes pre) := by
  have hc : receiptCall (seen ++ seenBytes pre) (c :: post) = some 0 ↔ _ := receiptCall_cons
  rw [receiptCall_append, ← hc]
  cases h : receiptCall seen pre with
  | some k =>
    have := receiptCall_lt h
    simp; omega
  | none => simp

/-- Who fired: a shutdown, or an `inspect` that completed the marker. -/
theorem receiptCall_some {j : Nat} (h : receiptCall seen pre = some j) :
    (∃ amb, pre[j]? = some (.shutdown amb)) ∨ Find.Has sseDoneMarker (seen ++ seenBytes pre) := by
  have hlt := receiptCall_lt h
  have hsplit : pre = pre.take j ++ pre[j] :: pre.drop (j + 1) := by simp
  have hj : (pre.take j).length = j := by simp; omega
  have hf : (pre[j]).Fires (seen ++ seenBytes (pre.take j)) := by
    refine (receiptCall_at.1 (?_ : receiptCall seen (_ ++ _ :: pre.drop (j + 1)) = _)).2
    rw [← hsplit, h, hj]
  cases hc : pre[j] with
  | shutdown amb => exact Or.inl ⟨amb, by rw [List.getElem?_eq_getElem hlt, hc]⟩
  | inspect b amb =>
    rw [hc, Call.Fires] at hf
    rw [hc] at hsplit
    refine Or.inr ?_
    rw [hsplit, seenBytes, List.flatMap_append, List.flatMap_cons, ← List.append_assoc, ← List.append_assoc]
    exact hf.append_left marker_ne_nil

/-- No receipt is due after calls that were no shutdown and never completed the marker. -/
theorem receiptCall_none (h : receiptCall seen pre = none) (hseen : ¬ Find.Has sseDoneMarker seen) :
    (∀ amb, .shutdown amb ∉ pre) ∧ ¬ Find.Has sseDoneMarker (seen ++ seenBytes pre) := by
  induction pre generalizing seen with
  | nil => simpa [seenBytes] using hseen
  | cons c pre ih =>
    cases c with
    | shutdown amb => simp [receiptCall] at h
    | inspect b amb =>
      simp only [receiptCall] at h
      split at h
      · simp at h
      · rename_i hno
        obtain ⟨h1, h2⟩ := ih (Option.map_eq_none_iff.1 h) hno
        refine ⟨by simpa using h1, ?_⟩
        simpa [seenBytes, Call.bytes] using h2

end
/-! ## Receipts and their markers -/

def receiptAt (evs : List StreamEvent) (i : Nat) : Bool := evs[i]?.any StreamEvent.isReceipt

def doneAt (evs : List StreamEvent) (i : Nat) : Bool := evs[i]?.any StreamEvent.isDone

/-- Every receipt is followed by a marker and every marker follows a receipt. -/
def Paired (evs : List StreamEvent) : Prop :=
  doneAt evs 0 = false ∧ ∀ i, receiptAt evs i = doneAt evs (i + 1)

theorem Paired.cons_data {e : StreamEvent} {evs : List StreamEvent} (he : e.isData = true) (h : Paired evs) :
    Paired (e :: evs) := by
  obtain ⟨b, rfl⟩ : ∃ b, e = .data b := by cases e <;> simp_all [StreamEvent.isData]
  refine ⟨rfl, ?_⟩
  intro i
  cases i with
  | zero => exact h.1.symm
  | succ i => exact h.2 i

theorem Paired.append_data : ∀ {pre evs : List StreamEvent}, OnlyData pre → Paired evs → Paired (pre ++ evs)
  | [], _, _, h => h
  | e :: pre, evs, hp, h =>
    (Paired.append_data (fun x hx => hp x (by simp [hx])) h).cons_data (hp e (by simp))

theorem OnlyData.paired {evs : List StreamEvent} (h : OnlyData evs) : Paired evs := by
  have hnil : Paired [] := ⟨rfl, fun _ => rfl⟩
  simpa using Paired.append_data h hnil

theorem OnlyData.countP_receipt {evs : List StreamEvent} (h : OnlyData evs) :
    evs.countP StreamEvent.isReceipt = 0 := by
  simpa using h.not_receipt

theorem OneReceipt.paired {evs : List StreamEvent} (h : OneReceipt evs) : Paired evs := by
  obtain ⟨pre, frame, done, post, rfl, h1, h2⟩ := h
  refine Paired.append_data h1 ⟨rfl, ?_⟩
  intro i
  match i with
  | 0 => rfl
  | 1 => exact h2.paired.1.symm
  | i + 2 => exact h2.paired.2 i

theorem OneReceipt.countP_receipt {evs : List StreamEvent} (h : OneReceipt evs) :
    evs.countP StreamEvent.isReceipt = 1 := by
  obtain ⟨pre, frame, done, post, rfl, h1, h2⟩ := h
  simp [List.countP_cons, h1.countP_receipt, h2.countP_receipt, StreamEvent.isReceipt]

theorem finish_onlyData (d : DoneDetector) (hasher : Bytes) : OnlyData (d.finish hasher).1 := by
  unfold DoneDetector.finish
  split
  · exact onlyData_nil
  · simp [OnlyData, StreamEvent.isData]

/-- An `inspect` call is the receipt's exactly when it completes the first marker and no
shutdown before it was. -/
theorem receiptCall_inspect_iff {pre post : List Call} {b : Bytes} {amb : Ambient} :
    receiptCall [] (pre ++ .inspect b amb :: post) = some pre.length ↔
      Find.Has sseDoneMarker (seenBytes pre ++ b) ∧ ¬ Find.Has sseDoneMarker (seenBytes pre) ∧
      ∀ (j : Nat) (a : Ambient), pre[j]? = some (.shutdown a) →
        receiptCall [] (pre ++ .inspect b amb :: post) ≠ some j := by
  rw [receiptCall_at, List.nil_append, Call.Fires]
  constructor
  · rintro ⟨hn, hb⟩
    obtain ⟨h1, h2⟩ := receiptCall_none hn (Find.not_has_nil marker_ne_nil)
    refine ⟨hb, h2, ?_⟩
    intro j a hj
    exact absurd (List.mem_of_getElem? hj) (h1 a)
  · rintro ⟨hb, hno, hshut⟩
    refine ⟨?_, hb⟩
    cases h : receiptCall [] pre with
    | none => rfl
    | some j =>
      rcases receiptCall_some h with ⟨a, ha⟩ | hhas
      · exact absurd (by rw [receiptCall_append, h, Option.some_or]) (hshut j a ha)
      · exact absurd hhas hno

/-- A shutdown call is the receipt's exactly when no call before it was. -/
theorem receiptCall_shutdown_iff {pre post : List Call} {amb : Ambient} :
    receiptCall [] (pre ++ .shutdown amb :: post) = some pre.length ↔
      ∀ j, j < pre.length → receiptCall [] (pre ++ .shutdown amb :: post) ≠ some j := by
  rw [receiptCall_at]
  simp only [Call.Fires, and_true, receiptCall_append]
  constructor
  · intro hn j hj
    rw [hn, Option.none_or]
    simp only [receiptCall, Option.map_some, ne_eq, Option.some.injEq]
    omega
  · intro h
    cases hp : receiptCall [] pre with
    | none => rfl
    | some j =>
      rw [hp] at h
      exact absurd rfl (h j (receiptCall_lt hp))

/-- **One receipt a run.** Over any calls and an optional `finish`: at most one receipt, each
followed by its own marker; `inspect` emits it in the call that completes the marker
unless a shutdown already has, and a shutdown emits it unless it is out. -/
theorem receipt_once (P : Primitives) (key hasher : Bytes)
    (requestId tenantId upstreamUrl policyDigest pcr0 : String) (calls : List Call) (finished : Bool) :
    ∃ outs d hasher' evs,
      (DoneDetector.new requestId tenantId upstreamUrl policyDigest pcr0).run P key hasher calls =
        .ok (outs, d, hasher') ∧
      evs = outs.flatten ++ (if finished then (d.finish hasher').1 else []) ∧
      evs.countP StreamEvent.isReceipt ≤ 1 ∧ Paired evs ∧
      (∀ pre b amb post, calls = pre ++ .inspect b amb :: post →
        (Emits outs pre.length ↔ Find.Has sseDoneMarker (seenBytes pre ++ b) ∧
          ¬ Find.Has sseDoneMarker (seenBytes pre) ∧
          ∀ (j : Nat) (amb : Ambient), pre[j]? = some (.shutdown amb) → ¬ Emits outs j)) ∧
      (∀ pre amb post, calls = pre ++ .shutdown amb :: post →
        (Emits outs pre.length ↔ ∀ j, j < pre.length → ¬ Emits outs j)) := by
  obtain ⟨outs, d, hasher', hr, s⟩ :=
    run_receipt P key calls hasher (tracks_new requestId tenantId upstreamUrl policyDigest pcr0)
  have hfin : OnlyData (if finished then (d.finish hasher').1 else []) := by
    split
    · exact finish_onlyData d hasher'
    · exact onlyData_nil
  refine ⟨outs, d, hasher', _, hr, rfl, ?_, ?_, ?_, ?_⟩
  · rw [List.countP_append, hfin.countP_receipt]
    by_cases h : receiptCall [] calls = none
    · simp [(s.quiet h).countP_receipt]
    · simp [(s.fired h).1.countP_receipt]
  · by_cases h : receiptCall [] calls = none
    · exact ((s.quiet h).append hfin).paired
    · exact ((s.fired h).1.append hfin).paired
  · rintro pre b amb post rfl
    simp only [s.emits]
    exact receiptCall_inspect_iff
  · rintro pre amb post rfl
    simp only [s.emits]
    exact receiptCall_shutdown_iff

end PiiProxy
