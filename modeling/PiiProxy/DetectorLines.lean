import PiiProxy.DetectorPayload
import PiiProxy.DetectorReceipt
import PiiProxy.TranscriptShutdown

/-!
# Which line the audit frame starts

The marker is searched for as bytes (lib.rs:1019, 1045), wherever in a line they stand.
The frame goes in front of it, and `hash_transcript` takes the frame's first newline for a
line of its own (verify_receipt.py:191-195): it is one only where a line starts.

* `run_between_lines_iff` — taking the frame's four lines out of a firing run's output leaves the
  stream's lines exactly when the bytes before the marker are whole lines
* `frame_between_lines_iff` — the same for every segmented stream, with the condition on the segments
-/

namespace PiiProxy

open Utf8 (encode)
open Lines (lines Complete)
open VerifyReceipt (dataLine IsBase64)

/-- The lines of a frame: blank, the event's name, its data, blank. -/
def AuditFrame.lines (P : Primitives) (f : AuditFrame) : List Bytes :=
  [[10], auditEvent ++ [10], dataLine P f.receipt f.signature, [10]]

/-- The frames among the events. -/
def auditFrames (evs : List StreamEvent) : List AuditFrame :=
  evs.filterMap fun
    | .auditReceipt f => some f
    | _ => none

/-- The lines on the wire are the input's lines, with the frames' lines between two of them. -/
def FrameBetweenLines (P : Primitives) (evs : List StreamEvent) (input : Bytes) : Prop :=
  ∃ above below, lines 10 input = above ++ below ∧
    lines 10 (evs.flatMap (StreamEvent.bytes P)) =
      above ++ (auditFrames evs).flatMap (AuditFrame.lines P) ++ below

/-- Where `inspect` finds the marker that `seg` completes after `seen`: in the segment if one
stands there, else across the seam. -/
def markerPlace (seen seg : Bytes) : Option Nat :=
  ((Find.first sseDoneMarker seg).map (seen.length + ·)).or (Find.first sseDoneMarker (seen ++ seg))

/-- The marker found first stands at the start of a line. -/
def MarkerStartsLine (segs : List (Bytes × Ambient)) : Prop :=
  ∀ pre seg post i, segs = pre ++ seg :: post → ¬ Find.Has sseDoneMarker (stream pre) →
    markerPlace (stream pre) seg.1 = some i →
    (stream segs).take i = [] ∨ ((stream segs).take i).getLast? = some 10

/-- What `serde_json` and base64 promise: a control character in a string is written escaped, and a
signature has no newline. -/
structure OneLine (P : Primitives) : Prop where
  toJson : ∀ r, 10 ∉ encode (P.toJson r)
  b64 : ∀ b, IsBase64 (P.b64 b)

/-! ## The lines of one run -/

theorem flatten_auditFrame_lines (P : Primitives) (f : AuditFrame) : (f.lines P).flatten = f.bytes P := by
  simp [AuditFrame.lines, VerifyReceipt.frame_bytes P f.receipt f.signature]

theorem OnlyData.wire (P : Primitives) : ∀ {evs : List StreamEvent}, OnlyData evs →
    evs.flatMap (StreamEvent.bytes P) = dataBytes evs
  | [], _ => rfl
  | e :: evs, h => by
    have ih := OnlyData.wire P fun x hx => h x (List.mem_cons_of_mem _ hx)
    have he := h e (by simp)
    cases e with
    | data b => simp [dataBytes, StreamEvent.bytes, ih]
    | _ => simp [StreamEvent.isData] at he

theorem OnlyData.auditFrames_eq {evs : List StreamEvent} (h : OnlyData evs) : auditFrames evs = [] := by
  rw [auditFrames, List.filterMap_eq_nil_iff]
  intro e he
  have := h e he
  cases e <;> simp_all [StreamEvent.isData]

section

variable {P : Primitives} {hasher seg done fed : Bytes} {pre segs : List (Bytes × Ambient)}
  {evs before after : List StreamEvent} {d : DoneDetector} {frame : AuditFrame}

/-- What the events put on the wire. -/
theorem FiringRun.wire (f : FiringRun P hasher pre seg segs evs d before after frame done fed) :
    evs.flatMap (StreamEvent.bytes P) =
      dataBytes before ++ ((frame.lines P).flatten ++ (done ++ dataBytes after)) := by
  rw [f.events, List.flatMap_append, List.flatMap_cons, List.flatMap_cons, f.before_data.wire, f.after_data.wire,
    flatten_auditFrame_lines]
  rfl

theorem FiringRun.auditFrames_eq (f : FiringRun P hasher pre seg segs evs d before after frame done fed) :
    auditFrames evs = [frame] := by
  have hb := f.before_data.auditFrames_eq
  have ha := f.after_data.auditFrames_eq
  simp only [auditFrames] at hb ha ⊢
  simp [f.events, hb, ha]

/-- The bytes before the receipt are those before the marker's place. -/
theorem FiringRun.before_eq (f : FiringRun P hasher pre seg segs evs d before after frame done fed) {i : Nat}
    (hi : markerPlace (stream pre) seg = some i) : dataBytes before = (stream pre ++ seg).take i := by
  cases hin : Find.first sseDoneMarker seg with
  | some k =>
    simp only [markerPlace, hin, Option.map_some, Option.some_or, Option.some.injEq] at hi
    rw [f.inside k hin, ← hi, List.take_length_add_append]
  | none =>
    simp only [markerPlace, hin, Option.map_none, Option.none_or] at hi
    exact f.across (Find.first_eq_none.1 hin) i hi

end

theorem markerPlace_at {seen seg : Bytes} {i : Nat} (h : markerPlace seen seg = some i) :
    Find.At sseDoneMarker (seen ++ seg) i := by
  cases hin : Find.first sseDoneMarker seg with
  | some k =>
    simp only [markerPlace, hin, Option.map_some, Option.some_or, Option.some.injEq] at h
    rw [← h, Find.at_append_right]
    exact (Find.first_eq_some.1 hin).1
  | none =>
    simp only [markerPlace, hin, Option.map_none, Option.none_or] at h
    exact (Find.first_eq_some.1 h).1

theorem markerPlace_eq_none {seen seg : Bytes} (h : markerPlace seen seg = none) :
    ¬ Find.Has sseDoneMarker (seen ++ seg) := by
  rw [markerPlace, Option.or_eq_none_iff] at h
  exact Find.first_eq_none.1 h.2

section

variable {P : Primitives} {hasher done fed : Bytes} {pre post segs : List (Bytes × Ambient)}
  {seg : Bytes × Ambient} {evs before after : List StreamEvent} {d : DoneDetector} {frame : AuditFrame} {i : Nat}

/-- The condition, at the segment that completes the first marker. -/
theorem markerStartsLine_iff (hsegs : segs = pre ++ seg :: post) (hpre : ¬ Find.Has sseDoneMarker (stream pre))
    (hi : markerPlace (stream pre) seg.1 = some i) :
    MarkerStartsLine segs ↔ (stream pre ++ seg.1).take i = [] ∨ ((stream pre ++ seg.1).take i).getLast? = some 10 := by
  have hle := (markerPlace_at hi).le DoneDetector.marker_ne_nil
  have htake : (stream segs).take i = (stream pre ++ seg.1).take i := by
    rw [hsegs, stream_append, stream_cons, ← List.append_assoc, List.take_append_of_le_length (by omega)]
  constructor
  · intro h
    rw [← htake]
    exact h pre seg post i hsegs hpre hi
  · intro h p s q k hk hnp hfk
    have hp : Find.Has sseDoneMarker (stream p ++ s.1) := ⟨k, markerPlace_at hfk⟩
    -- only the firing segment can complete the first marker
    rcases cut_cases (hsegs.symm.trans hk) with ⟨mid, hmid⟩ | ⟨rfl, rfl⟩ | ⟨mid, hmid⟩
    · exact absurd (has_of_cut hmid hp) hpre
    · rw [hi, Option.some.injEq] at hfk
      rwa [← hfk, htake]
    · exact absurd (has_of_cut hmid ⟨i, markerPlace_at hi⟩) hnp

/-- **The frame of one run.** Its lines stand between two of the stream's lines exactly when the
marker does. -/
theorem run_between_lines_iff (f : FiringRun P hasher pre seg.1 segs evs d before after frame done fed)
    (hP : 10 ∉ encode (P.toJson frame.receipt) ∧ IsBase64 frame.signature) (hsegs : segs = pre ++ seg :: post)
    (hpre : ¬ Find.Has sseDoneMarker (stream pre)) (hi : markerPlace (stream pre) seg.1 = some i) :
    FrameBetweenLines P evs (stream segs) ↔ MarkerStartsLine segs := by
  have hbefore := f.before_eq hi
  have hblock : ∀ m ∈ frame.lines P, Complete 10 m := by
    intro m hm
    simp only [AuditFrame.lines, List.mem_cons, List.not_mem_nil, or_false] at hm
    rcases hm with rfl | rfl | rfl | rfl
    · exact VerifyReceipt.complete_blank
    · exact VerifyReceipt.complete_auditEvent
    · exact VerifyReceipt.complete_dataLine hP.1 hP.2
    · exact VerifyReceipt.complete_blank
  -- what follows the frame starts with the marker's first byte
  have hrest : (done ++ dataBytes after).head? ≠ some 10 := by
    have hdrop : done ++ dataBytes after = (stream pre ++ seg.1).drop i ++ stream post := by
      apply @List.append_cancel_left _ (dataBytes before)
      rw [← List.append_assoc, f.conserved, hbefore, ← List.append_assoc, List.take_append_drop, hsegs, stream_append,
        stream_cons, List.append_assoc]
    obtain ⟨t, ht⟩ := markerPlace_at hi
    rw [hdrop, ← ht]
    simp only [List.append_assoc]
    rw [List.head?_append_of_ne_nil _ DoneDetector.marker_ne_nil]
    decide
  rw [markerStartsLine_iff hsegs hpre hi, ← hbefore, FrameBetweenLines, f.auditFrames_eq, f.wire, ← f.conserved,
    List.append_assoc, List.flatMap_singleton]
  exact Lines.block_between_lines_iff hblock rfl hrest

end

/-- Every frame of a run is one the detector built and signed. -/
theorem run_frames_signed {P : Primitives} {key : Bytes} : ∀ {segs : List (Bytes × Ambient)} {d d' : DoneDetector}
    {hasher hasher' : Bytes} {outs : List (List StreamEvent)}, d.trailing.length ≤ 11 →
    d.run P key hasher (inspects segs) = .ok (outs, d', hasher') →
    ∀ frame, .auditReceipt frame ∈ outs.flatten → ∃ message, frame.signature = P.b64 (P.sign key message)
  | [], _, _, _, _, _, _, h => by
    cases h
    simp
  | seg :: segs, d, _, hasher, _, _, ht, h => by
    obtain ⟨evs, d1, h1, outs, hcall, hrun, rfl⟩ := run_cons_inv h
    obtain ⟨ht1, hframes⟩ := inspect_ok P key seg.2 hasher ht hcall
    intro frame hf
    rw [List.flatten_cons, List.mem_append] at hf
    rcases hf with hf | hf
    · obtain ⟨-, -, fed, rfl⟩ := hframes frame hf
      exact ⟨_, rfl⟩
    · exact run_frames_signed ht1 hrun frame hf

/-! ## Every stream -/

/-- **Where the frame goes.** Whatever the stream and its segments, the lines of the output are the
lines of the input with the frame's lines between two of them exactly when there is no
marker or the one that is found stands at the start of a line. -/
theorem frame_between_lines_iff (P : Primitives) (key hasher : Bytes)
    (requestId tenantId upstreamUrl policyDigest pcr0 : String) (segs : List (Bytes × Ambient)) (hP : OneLine P) :
    ∃ outs d hasher', (DoneDetector.new requestId tenantId upstreamUrl policyDigest pcr0).run P key hasher
        (inspects segs) = .ok (outs, d, hasher') ∧
      (FrameBetweenLines P (outs.flatten ++ (d.finish hasher').1) (stream segs) ↔ MarkerStartsLine segs) := by
  have hnew := tracks_new requestId tenantId upstreamUrl policyDigest pcr0
  rcases run_segments P key hasher hnew segs with
    ⟨hno, outs, d, h', hr, q⟩ | ⟨pre, seg, post, hsegs, hpre, hseg, outs, d, h', before, after, frame, done, hr, f⟩
  · refine ⟨outs, d, h', hr, iff_of_true ?_ ?_⟩
    · have hdata := q.onlyData.append (finish_onlyData d h')
      obtain ⟨_, _, _, hr', hbytes⟩ := segments_conserved P key hasher requestId tenantId upstreamUrl policyDigest
        pcr0 segs
      rw [hr] at hr'
      cases hr'
      refine ⟨lines 10 (stream segs), [], by simp, ?_⟩
      rw [hdata.wire, ← hdata.streamBytes_eq, hbytes, hdata.auditFrames_eq]
      simp
    · intro p s t i he hp hi
      exact absurd (has_of_cut he ⟨i, markerPlace_at hi⟩) hno
  · refine ⟨outs, d, h', hr, ?_⟩
    have hfinish : (d.finish h').1 = [] := by simp [DoneDetector.finish, f.drained]
    obtain ⟨message, hsig⟩ := run_frames_signed hnew.trailing_le hr frame (by simp [f.events])
    obtain ⟨i, hi⟩ : ∃ i, markerPlace (stream pre) seg.1 = some i := by
      rw [← Option.isSome_iff_exists, Option.isSome_iff_ne_none]
      intro h
      exact markerPlace_eq_none h hseg
    rw [hfinish, List.append_nil]
    exact run_between_lines_iff f ⟨hP.toJson _, hsig ▸ hP.b64 _⟩ hsegs hpre hi

/-! ### A marker that ends a stream, and one in the text of an event -/

/-- A newline of a JSON text, which only a string can hold, is written escaped. -/
def escapeNewlines (t : String) : String :=
  String.ofList (t.toList.flatMap fun c => if c = '\n' then ['\\', 'n'] else [c])

theorem no_newline_escaped (t : String) : 10 ∉ encode (escapeNewlines t) := by
  intro h
  rw [Utf8.encode_eq, escapeNewlines, String.toList_ofList, List.mem_flatMap] at h
  obtain ⟨c, hc, hb⟩ := h
  have hnl : c = '\n' := Char.ext (UInt32.toNat_inj.1 (Utf8.encodeChar_of_ascii_mem hb (by decide)).2)
  obtain ⟨c', -, hc'⟩ := List.mem_flatMap.1 hc
  by_cases hx : c' = '\n'
  · rw [if_pos hx, hnl] at hc'
    revert hc'
    decide
  · rw [if_neg hx, List.mem_singleton] at hc'
    exact hx (hc' ▸ hnl)

def escapingPrimitives : Primitives :=
  { VerifyReceipt.killedPrimitives with toJson := fun r => escapeNewlines (plainJson r) }

theorem oneLine_escaping : OneLine escapingPrimitives :=
  ⟨fun r => no_newline_escaped (plainJson r), VerifyReceipt.base64_killed⟩

def hiSegments : List (Bytes × Ambient) := [(encode "data: hi\r\n\r\ndata: [DONE]\n\n", VerifyReceipt.killedAmbient)]

theorem frame_between_lines_iff_hi : OneLine escapingPrimitives ∧
    ∃ outs d hasher', (DoneDetector.new "request-1" "tenant-1" "https://upstream.example/v1/chat/completions"
        (toHex (ofHex "3fe110ec77107eae60b292991c12105fbaff1a06ea2ead3afd809dd818ea678c"))
        (toHex (List.replicate 48 0))).run escapingPrimitives (List.replicate 32 7) [] (inspects hiSegments) =
        .ok (outs, d, hasher') ∧
      FrameBetweenLines escapingPrimitives (outs.flatten ++ (d.finish hasher').1) (stream hiSegments) := by
  obtain ⟨outs, d, h', hr, hiff⟩ := frame_between_lines_iff escapingPrimitives (List.replicate 32 7) [] "request-1"
    "tenant-1" "https://upstream.example/v1/chat/completions"
    (toHex (ofHex "3fe110ec77107eae60b292991c12105fbaff1a06ea2ead3afd809dd818ea678c")) (toHex (List.replicate 48 0))
    hiSegments oneLine_escaping
  have hsegs : hiSegments = [] ++ _ :: [] := rfl
  have hi : markerPlace (stream []) (encode "data: hi\r\n\r\ndata: [DONE]\n\n") = some 12 := rfl
  have hline : MarkerStartsLine hiSegments :=
    (markerStartsLine_iff hsegs (Find.not_has_nil DoneDetector.marker_ne_nil) hi).2 (Or.inr rfl)
  exact ⟨oneLine_escaping, outs, d, h', hr, hiff.2 hline⟩

/-- An event whose text is the marker. -/
def quotedSegments : List (Bytes × Ambient) :=
  [(encode "data: \x7b\"content\":\"data: [DONE]\"\x7d\n\n", VerifyReceipt.killedAmbient)]

theorem quoted_marker_splits_event :
    ¬ ∀ (P : Primitives) (key hasher : Bytes) (requestId tenantId upstreamUrl policyDigest pcr0 : String)
      (segs : List (Bytes × Ambient)) (outs : List (List StreamEvent)) (d : DoneDetector) (hasher' : Bytes),
      OneLine P →
      (DoneDetector.new requestId tenantId upstreamUrl policyDigest pcr0).run P key hasher (inspects segs) =
        .ok (outs, d, hasher') →
      FrameBetweenLines P (outs.flatten ++ (d.finish hasher').1) (stream segs) := by
  intro h
  have hpre : ¬ Find.Has sseDoneMarker (stream []) := Find.not_has_nil DoneDetector.marker_ne_nil
  have hi : markerPlace (stream []) (encode "data: \x7b\"content\":\"data: [DONE]\"\x7d\n\n") = some 18 := rfl
  have hnew := tracks_new "request-1" "tenant-1" "https://upstream.example/v1/chat/completions" "policy-1" "pcr0-1"
  have hsegs : quotedSegments = [] ++ _ :: [] := rfl
  obtain ⟨outs, d, h', before, after, frame, done, hr, f⟩ :=
    run_firing escapingPrimitives (List.replicate 32 7) [] hnew hsegs hpre ⟨18, markerPlace_at hi⟩
  obtain ⟨message, hsig⟩ := run_frames_signed hnew.trailing_le hr frame (by simp [f.events])
  have hlines := h _ _ _ _ _ _ _ _ _ _ _ _ oneLine_escaping hr
  have hfinish : (d.finish h').1 = [] := by simp [DoneDetector.finish, f.drained]
  rw [hfinish, List.append_nil,
    run_between_lines_iff f ⟨oneLine_escaping.toJson _, hsig ▸ oneLine_escaping.b64 _⟩ hsegs hpre hi,
    markerStartsLine_iff hsegs hpre hi] at hlines
  revert hlines
  decide

end PiiProxy
