import PiiProxy.DetectorRuns

/-!
# What a segmented stream puts before its receipt

Segments are inspected one by one on a fresh detector. `run_segments` describes the
whole run: the segments before the one that completes the first marker are quiet,
that one fires, the rest pass through. From it:

* nothing is lost, duplicated or reordered (`segments_conserved`);
* the signed payload hash covers the `Data` bytes before the receipt exactly when
  no long segment came after a held tail (`payload_hash_iff`): `retainTail` emits
  that tail and does not hash it (lib.rs:1074);
* the receipt stands at the first marker exactly when no segment completes one
  marker and holds another (`receipt_place_iff`): the segment is searched before
  the seam (lib.rs:1019, 1045).
-/

namespace PiiProxy

open DoneDetector

/-- The segment that completes the first marker. -/
theorem exists_firing : ∀ {segs : List (Bytes × Ambient)} {seen : Bytes},
    ¬ Find.Has sseDoneMarker seen → Find.Has sseDoneMarker (seen ++ stream segs) →
    ∃ pre seg post, segs = pre ++ seg :: post ∧ ¬ Find.Has sseDoneMarker (seen ++ stream pre) ∧
      Find.Has sseDoneMarker (seen ++ stream pre ++ seg.1)
  | [], seen, hno, h => absurd (by simpa [stream] using h) hno
  | s :: segs, seen, hno, h => by
    by_cases hs : Find.Has sseDoneMarker (seen ++ s.1)
    · exact ⟨[], s, segs, rfl, by simpa [stream] using hno, by simpa [stream] using hs⟩
    · rw [stream_cons, ← List.append_assoc] at h
      obtain ⟨pre, seg, post, he, h1, h2⟩ := exists_firing hs h
      refine ⟨s :: pre, seg, post, by simp [he], ?_, ?_⟩
      · simpa [stream_cons] using h1
      · simpa [stream_cons] using h2

/-- A run whose segment `seg`, after `pre`, emits the receipt: `before`, the receipt, its
marker, `after`. `fed` is what the hasher held when the receipt was built; nothing is fed to it
after that. -/
structure FiringRun (P : Primitives) (hasher : Bytes) (pre : List (Bytes × Ambient)) (seg : Bytes)
    (segs : List (Bytes × Ambient)) (evs : List StreamEvent) (d : DoneDetector)
    (before after : List StreamEvent) (frame : AuditFrame) (done fed : Bytes) : Prop where
  events : evs = before ++ .auditReceipt frame :: .doneMarker done :: after
  before_data : OnlyData before
  after_data : OnlyData after
  conserved : dataBytes before ++ done ++ dataBytes after = stream segs
  drained : d.trailing = []
  payload : frame.receipt.payloadHash = toHex (P.blake3 fed)
  all_fed : NoLongAfter [] pre → fed = hasher ++ dataBytes before
  not_fed : ¬ NoLongAfter [] pre → fed.length < hasher.length + (dataBytes before).length
  inside : ∀ i, Find.first sseDoneMarker seg = some i → dataBytes before = stream pre ++ seg.take i
  across : ¬ Find.Has sseDoneMarker seg → ∀ i, Find.first sseDoneMarker (stream pre ++ seg) = some i →
    dataBytes before = (stream pre ++ seg).take i

section

variable (P : Primitives) (key hasher : Bytes) {d : DoneDetector}
  {segs pre post : List (Bytes × Ambient)} {seg : Bytes × Ambient}

theorem run_firing (hd : Tracks d []) (hsegs : segs = pre ++ seg :: post)
    (hpre : ¬ Find.Has sseDoneMarker (stream pre))
    (hseg : Find.Has sseDoneMarker (stream pre ++ seg.1)) :
    ∃ outs d' hasher' before after frame done,
      d.run P key hasher (inspects segs) = .ok (outs, d', hasher') ∧
      FiringRun P hasher pre seg.1 segs outs.flatten d' before after frame done hasher' := by
  have ht : d.trailing = [] := by simpa using hd.tail
  obtain ⟨o1, d1, h1, hr1, q⟩ := run_quiet P key hd (by simpa using hpre) hasher
  have hcons : stream pre = dataBytes o1.flatten ++ d1.trailing := by
    have := q.conserved; rwa [ht, List.nil_append] at this
  have htr : Tracks d1 (stream pre) := q.tracks
  obtain ⟨r, p, s, frame, done, hr2, f⟩ :=
    ((inspect_cases P key seg.2 h1 htr).resolve_left (fun h => h.1 hseg)).2
  obtain ⟨o3, hr3, hd3, hb3⟩ := run_completed P key r.2.2 f.completed (inspects post)
  rw [seenBytes_inspects] at hb3
  refine ⟨o1 ++ r.1 :: o3, r.2.1, r.2.2, o1.flatten ++ p, s ++ o3.flatten, frame, done, ?_, ?_⟩
  · rw [hsegs, inspects, List.map_append, List.map_cons]
    exact run_append hr1 (run_cons hr2 hr3)
  · rw [f.fed]
    refine ⟨?_, q.onlyData.append f.pre_data, f.post_data.append hd3, ?_, f.drained, f.payload, ?_, ?_, ?_, ?_⟩
    · simp [f.events]
    · rw [hsegs, stream_append, stream_cons, hcons, dataBytes_append, dataBytes_append, hb3]
      have := f.conserved
      simp only [List.append_assoc] at this ⊢
      rw [← List.append_assoc d1.trailing, this]
      simp
    · intro hn
      rw [q.fed hn, dataBytes_append, List.append_assoc]
    · intro hn
      have := q.lost hn
      simp only [dataBytes_append, List.length_append]; omega
    · intro i hi
      rw [dataBytes_append, f.inside i hi, hcons, List.append_assoc]
    · intro hno i hi
      rw [htr.first_eq, Option.map_eq_some_iff] at hi
      obtain ⟨j, hj, rfl⟩ := hi
      have hlen : (dataBytes o1.flatten).length = (stream pre).length - 11 := by
        have := congrArg List.length hcons
        have := congrArg List.length htr.tail
        simp only [List.length_append, List.length_drop] at *
        omega
      rw [dataBytes_append, f.across hno j hj, ← hlen, hcons, List.append_assoc,
        List.take_length_add_append]

/-- **A whole run over segments**: quiet throughout, or firing once. In particular it
never panics. -/
theorem run_segments (hd : Tracks d []) (segs : List (Bytes × Ambient)) :
    (¬ Find.Has sseDoneMarker (stream segs) ∧ ∃ outs d' hasher',
      d.run P key hasher (inspects segs) = .ok (outs, d', hasher') ∧
      QuietRun d [] hasher segs outs.flatten d' hasher') ∨
    (∃ pre seg post, segs = pre ++ seg :: post ∧ ¬ Find.Has sseDoneMarker (stream pre) ∧
      Find.Has sseDoneMarker (stream pre ++ seg.1) ∧ ∃ outs d' hasher' before after frame done,
      d.run P key hasher (inspects segs) = .ok (outs, d', hasher') ∧
      FiringRun P hasher pre seg.1 segs outs.flatten d' before after frame done hasher') := by
  by_cases h : Find.Has sseDoneMarker (stream segs)
  · obtain ⟨pre, seg, post, hsegs, h1, h2⟩ := exists_firing (Find.not_has_nil marker_ne_nil)
      (show Find.Has sseDoneMarker ([] ++ stream segs) by simpa using h)
    simp only [List.nil_append] at h1 h2
    exact Or.inr ⟨pre, seg, post, hsegs, h1, h2, run_firing P key hasher hd hsegs h1 h2⟩
  · exact Or.inl ⟨h, run_quiet P key hd (by simpa using h) hasher⟩

end

/-! ## No byte is lost -/

/-- **Conservation.** Whatever the segments, the `Data` and `DoneMarker` bytes of the run
and its `finish` are the stream. -/
theorem segments_conserved (P : Primitives) (key hasher : Bytes)
    (requestId tenantId upstreamUrl policyDigest pcr0 : String) (segs : List (Bytes × Ambient)) :
    ∃ outs d hasher', (DoneDetector.new requestId tenantId upstreamUrl policyDigest pcr0).run P key hasher
        (inspects segs) = .ok (outs, d, hasher') ∧
      streamBytes (outs.flatten ++ (d.finish hasher').1) = stream segs := by
  rcases run_segments P key hasher
      (tracks_new requestId tenantId upstreamUrl policyDigest pcr0) segs with
    ⟨_, outs, d, h', hr, q⟩ | ⟨pre, seg, post, _, _, _, outs, d, h', before, after, frame, done, hr, f⟩
  · refine ⟨outs, d, h', hr, ?_⟩
    rw [streamBytes_append, q.onlyData.streamBytes_eq, streamBytes_finish, ← q.conserved]
    rfl
  · refine ⟨outs, d, h', hr, ?_⟩
    rw [streamBytes_append, streamBytes_finish, f.drained, List.append_nil, f.events, ← f.conserved,
      streamBytes_append, f.before_data.streamBytes_eq]
    have : streamBytes (.auditReceipt frame :: .doneMarker done :: after) = done ++ streamBytes after := by
      simp [streamBytes]
    rw [this, f.after_data.streamBytes_eq, List.append_assoc]

/-! ## The payload hash -/

/-- A run with one receipt splits at a receipt in one way. -/
theorem receipt_split_unique {a b c e : List StreamEvent} {f g : AuditFrame} {m : Bytes} (ha : OnlyData a)
    (hc : OnlyData c) (h : a ++ .auditReceipt f :: .doneMarker m :: c = b ++ .auditReceipt g :: e) :
    b = a ∧ g = f := by
  induction a generalizing b with
  | nil => cases b with
    | nil =>
      simp only [List.nil_append, List.cons.injEq, StreamEvent.auditReceipt.injEq] at h
      exact ⟨rfl, h.1.symm⟩
    | cons y b =>
      simp only [List.nil_append, List.cons_append, List.cons.injEq] at h
      have hmem : StreamEvent.auditReceipt g ∈ StreamEvent.doneMarker m :: c := by simp [h.2]
      simp only [List.mem_cons, reduceCtorEq, false_or] at hmem
      have := hc _ hmem
      simp [StreamEvent.isData] at this
  | cons x a ih =>
    have hx := ha x (by simp)
    cases b with
    | nil =>
      simp only [List.nil_append, List.cons_append, List.cons.injEq] at h
      simp [h.1, StreamEvent.isData] at hx
    | cons y b =>
      simp only [List.cons_append, List.cons.injEq] at h
      obtain ⟨rfl, rfl⟩ := ih (fun z hz => ha z (by simp [hz])) h.2
      exact ⟨by rw [h.1], rfl⟩

theorem onlyData_no_receipt {evs before after : List StreamEvent} {frame : AuditFrame} (h : OnlyData evs) :
    evs ≠ before ++ .auditReceipt frame :: after := by
  rintro rfl
  have := h (.auditReceipt frame) (by simp)
  simp [StreamEvent.isData] at this

/-- Two cuts of one list of segments: the second stands before the first, at it, or after it. -/
theorem cut_cases {α : Type} {pre post pre' post' : List α} {seg seg' : α}
    (h : pre ++ seg :: post = pre' ++ seg' :: post') :
    (∃ mid, pre = pre' ++ seg' :: mid) ∨ (pre = pre' ∧ seg = seg') ∨ ∃ mid, pre' = pre ++ seg :: mid := by
  rcases List.append_eq_append_iff.1 h with ⟨as, hp, hs⟩ | ⟨bs, hp, hs⟩
  · cases as with
    | nil =>
      simp only [List.nil_append, List.cons.injEq] at hs
      exact Or.inr (Or.inl ⟨by simp [hp], hs.1⟩)
    | cons x as =>
      simp only [List.cons_append, List.cons.injEq] at hs
      exact Or.inr (Or.inr ⟨as, by rw [hp, hs.1]⟩)
  · cases bs with
    | nil =>
      simp only [List.nil_append, List.cons.injEq] at hs
      exact Or.inr (Or.inl ⟨by simp [hp], hs.1.symm⟩)
    | cons x bs =>
      simp only [List.cons_append, List.cons.injEq] at hs
      exact Or.inl ⟨bs, by rw [hp, hs.1]⟩

/-- A marker complete at a segment is in every longer stretch. -/
theorem has_of_cut {segs pre mid : List (Bytes × Ambient)} {seg : Bytes × Ambient}
    (h : segs = pre ++ seg :: mid) (hs : Find.Has sseDoneMarker (stream pre ++ seg.1)) :
    Find.Has sseDoneMarker (stream segs) := by
  rw [h, stream_append, stream_cons, ← List.append_assoc]
  exact hs.append_left marker_ne_nil

/-- Every segment of 11 bytes or more that comes before the one completing the first
marker has nothing but empty segments before it. -/
def TailHashed (segs : List (Bytes × Ambient)) : Prop :=
  Find.Has sseDoneMarker (stream segs) → ∀ pre seg post, segs = pre ++ seg :: post →
    ¬ Find.Has sseDoneMarker (stream pre ++ seg.1) → 11 ≤ seg.1.length → stream pre = []

theorem tailHashed_iff {segs pre post : List (Bytes × Ambient)} {seg : Bytes × Ambient}
    (hsegs : segs = pre ++ seg :: post) (hpre : ¬ Find.Has sseDoneMarker (stream pre))
    (hseg : Find.Has sseDoneMarker (stream pre ++ seg.1)) :
    TailHashed segs ↔ NoLongAfter [] pre := by
  constructor
  · rintro h p s q rfl hl
    have hno : ¬ Find.Has sseDoneMarker (stream p ++ s.1) := by
      intro hh
      exact hpre (has_of_cut rfl hh)
    simpa using h (has_of_cut hsegs hseg) p s (q ++ seg :: post) (by simp [hsegs]) hno hl
  · intro h _ p s q he hno hl
    rcases cut_cases (hsegs.symm.trans he) with ⟨mid, hmid⟩ | ⟨rfl, rfl⟩ | ⟨mid, hmid⟩
    · simpa using h p s mid hmid hl
    -- at or after the firing segment the marker has been seen
    · exact absurd hseg hno
    · exact absurd ((has_of_cut hmid hseg).append_left marker_ne_nil) hno

section Payload

variable {P : Primitives} {pre segs : List (Bytes × Ambient)} {seg done fed : Bytes} {evs before after : List StreamEvent}
  {d : DoneDetector} {frame : AuditFrame}

theorem FiringRun.payload_of_fed (f : FiringRun P [] pre seg segs evs d before after frame done fed)
    (h : NoLongAfter [] pre) : frame.receipt.payloadHash = toHex (P.blake3 (dataBytes before)) := by
  rw [f.payload, f.all_fed h, List.nil_append]

/-- The hash of the bytes before the receipt is no proof that they were fed, if the two texts collide. -/
theorem FiringRun.fed_of_payload (f : FiringRun P [] pre seg segs evs d before after frame done fed)
    (hcf : CollisionFree P.blake3 fed (dataBytes before))
    (h : frame.receipt.payloadHash = toHex (P.blake3 (dataBytes before))) : NoLongAfter [] pre := by
  by_contra hn
  rw [f.payload] at h
  have hlt := f.not_fed hn
  rw [hcf (toHex_injective h)] at hlt
  simp at hlt

/-- Every receipt's payload hash is the digest of the `Data` bytes emitted before it. -/
def SignsDataBefore (P : Primitives) (evs : List StreamEvent) : Prop :=
  ∀ before frame after, evs = before ++ .auditReceipt frame :: after →
    frame.receipt.payloadHash = toHex (P.blake3 (dataBytes before))

/-- What was fed to the hasher and the `Data` bytes before a receipt are no collision. -/
def FedApart (P : Primitives) (evs : List StreamEvent) (fed : Bytes) : Prop :=
  ∀ before frame after, evs = before ++ .auditReceipt frame :: after → CollisionFree P.blake3 fed (dataBytes before)

theorem FiringRun.fedApart (f : FiringRun P [] pre seg segs evs d before after frame done fed)
    (h : CollisionFree P.blake3 fed (dataBytes before)) : FedApart P evs fed := by
  intro b fr a he
  rw [f.events] at he
  obtain ⟨rfl, rfl⟩ := receipt_split_unique f.before_data f.after_data he
  exact h

end Payload

/-- **When the receipt signs what was sent.** On a fresh detector and hasher, every receipt's
payload hash is the digest of the `Data` bytes emitted before it exactly when no long
segment met a held tail on the way to the marker. -/
theorem payload_hash_iff (P : Primitives) (key : Bytes)
    (requestId tenantId upstreamUrl policyDigest pcr0 : String) (segs : List (Bytes × Ambient)) :
    ∃ outs d fed, (DoneDetector.new requestId tenantId upstreamUrl policyDigest pcr0).run P key []
        (inspects segs) = .ok (outs, d, fed) ∧
      (TailHashed segs → SignsDataBefore P outs.flatten) ∧
      (FedApart P outs.flatten fed → SignsDataBefore P outs.flatten → TailHashed segs) := by
  rcases run_segments P key []
      (tracks_new requestId tenantId upstreamUrl policyDigest pcr0) segs with
    ⟨hno, outs, d, fed, hr, q⟩ |
    ⟨pre, seg, post, hsegs, hpre, hseg, outs, d, fed, before, after, frame, done, hr, f⟩
  · refine ⟨outs, d, fed, hr, ?_, ?_⟩
    · intro _ b fr a he
      exact absurd he (onlyData_no_receipt q.onlyData)
    · intro _ _ hhas
      exact absurd hhas hno
  · refine ⟨outs, d, fed, hr, ?_⟩
    rw [tailHashed_iff hsegs hpre hseg]
    constructor
    · intro hn b fr a he
      rw [f.events] at he
      obtain ⟨rfl, rfl⟩ := receipt_split_unique f.before_data f.after_data he
      exact f.payload_of_fed hn
    · intro hcf h
      exact f.fed_of_payload (hcf before frame _ f.events) (h before frame _ f.events)

/-! ### The held tail in front of a long segment

`data: a`, then a longer event, then the marker: the 9 bytes held after the first
segment go out with the second and are not hashed. The digests are those of BLAKE3. -/

def quietAmbient : Ambient := ⟨[], 1700000000⟩

def lossySegments : List (Bytes × Ambient) :=
  [(Utf8.encode "data: a\n\n", quietAmbient), (Utf8.encode "data: hello\n\n", quietAmbient),
    (Utf8.encode "data: [DONE]\n\n", quietAmbient)]

def lossyPrimitives : Primitives := Primitives.ofTables
  [(Utf8.encode "data: hello\n\n", ofHex "b873469f67439c7858bebffb207e8e0a3567328473bade751ef6df84228a02b6"),
    (Utf8.encode "data: a\n\ndata: hello\n\n",
      ofHex "3b135e38c2295aae87d54ea1d543ae310b1693082dd6f86de862912a345b0647"),
    ([], ofHex "af1349b9f5f9a1a6a0404dea36dcc9499bcb25c9adc112b7cc9a93cae41f3262"),
    (canonicalTuple ["request-1", "tenant-1", "https://upstream.example/v1/chat/completions",
        "af1349b9f5f9a1a6a0404dea36dcc9499bcb25c9adc112b7cc9a93cae41f3262", "policy-1", "pcr0-1",
        "b873469f67439c7858bebffb207e8e0a3567328473bade751ef6df84228a02b6"],
      ofHex "e30e7400eddd1e80850fac871be42f827964118b1c659f903d3b8c5c1402ee23")]
  [(ofHex "e30e7400eddd1e80850fac871be42f827964118b1c659f903d3b8c5c1402ee23",
    ofHex ("82a7ca956b3d460377f63f4c9248ca88ad84022ce8df2b165bb16d297854ebfc" ++
      "a78359e8c33b7189248e4b9b9d0d89955da575bccaf0a244168b00016871110a"))]
  [(ofHex ("82a7ca956b3d460377f63f4c9248ca88ad84022ce8df2b165bb16d297854ebfc" ++
      "a78359e8c33b7189248e4b9b9d0d89955da575bccaf0a244168b00016871110a"),
    "gqfKlWs9RgN39j9MkkjKiK2EAizo3ysWW7FtKXhU6/yng1nowztxiSSOS5udDYmVXaV1vMrwokQWiwABaHERCg==")]

theorem not_tailHashed_lossy : ¬ TailHashed lossySegments := by
  intro h
  have hempty := h ⟨22, by decide +kernel⟩ (lossySegments.take 1) _ (lossySegments.drop 2) rfl (by decide) (by decide)
  revert hempty
  decide

theorem lossyPrimitives_injective : Function.Injective lossyPrimitives.blake3 :=
  tabled_injective (by decide) (by decide)

theorem payload_hash_iff_lossy :
    ∃ outs d fed, (DoneDetector.new "request-1" "tenant-1" "https://upstream.example/v1/chat/completions"
        "policy-1" "pcr0-1").run lossyPrimitives (List.replicate 32 7) [] (inspects lossySegments) =
        .ok (outs, d, fed) ∧
      (TailHashed lossySegments ↔ SignsDataBefore lossyPrimitives outs.flatten) := by
  obtain ⟨outs, d, fed, hr, hsigns, hhashed⟩ := payload_hash_iff lossyPrimitives (List.replicate 32 7) "request-1"
    "tenant-1" "https://upstream.example/v1/chat/completions" "policy-1" "pcr0-1" lossySegments
  exact ⟨outs, d, fed, hr, hsigns, hhashed fun _ _ _ _ he => lossyPrimitives_injective he⟩

theorem held_tail_not_hashed :
    ¬ ∀ (P : Primitives) (key : Bytes)
      (requestId tenantId upstreamUrl policyDigest pcr0 : String) (segs : List (Bytes × Ambient))
      (outs : List (List StreamEvent)) (d : DoneDetector) (hasher : Bytes),
      (DoneDetector.new requestId tenantId upstreamUrl policyDigest pcr0).run P key [] (inspects segs) =
        .ok (outs, d, hasher) →
      ∀ before frame after, outs.flatten = before ++ .auditReceipt frame :: after →
        frame.receipt.payloadHash = toHex (P.blake3 (dataBytes before)) := by
  intro h
  obtain ⟨outs, d, h', before, after, frame, done, hr, f⟩ :=
    run_firing lossyPrimitives (List.replicate 32 7) []
      (tracks_new "request-1" "tenant-1" "https://upstream.example/v1/chat/completions" "policy-1" "pcr0-1")
      (show lossySegments = lossySegments.take 2 ++ _ :: [] from rfl) (by decide) (by decide)
  have heq := h lossyPrimitives _ _ _ _ _ _ _ _ _ _ hr _ _ _ f.events
  have hfed := f.fed_of_payload (fun he => lossyPrimitives_injective he) heq
  exact not_tailHashed_lossy ((tailHashed_iff rfl (by decide) (by decide)).2 hfed)

/-! ## Where the receipt stands -/

/-- A segment that completes a marker begun before it holds no whole marker itself. -/
def SeamAlone (segs : List (Bytes × Ambient)) : Prop :=
  ∀ pre seg post i, segs = pre ++ seg :: post → ¬ Find.Has sseDoneMarker (stream pre) →
    Find.first sseDoneMarker (stream pre ++ seg.1) = some i → i < (stream pre).length →
    ¬ Find.Has sseDoneMarker seg.1

/-- The condition, at the segment that completes the first marker. -/
theorem seamAlone_iff {segs pre post : List (Bytes × Ambient)} {seg : Bytes × Ambient} {i : Nat}
    (hsegs : segs = pre ++ seg :: post) (hpre : ¬ Find.Has sseDoneMarker (stream pre))
    (hi : Find.first sseDoneMarker (stream pre ++ seg.1) = some i) :
    SeamAlone segs ↔ (i < (stream pre).length → ¬ Find.Has sseDoneMarker seg.1) := by
  constructor
  · intro h hlt
    exact h pre seg post i hsegs hpre hi hlt
  · intro h p s q k hk hnp hfk hlt
    have hp : Find.Has sseDoneMarker (stream p ++ s.1) := ⟨k, (Find.first_eq_some.1 hfk).1⟩
    -- only the firing segment can complete the first marker
    rcases cut_cases (hsegs.symm.trans hk) with ⟨mid, hmid⟩ | ⟨rfl, rfl⟩ | ⟨mid, hmid⟩
    · exact absurd (has_of_cut hmid hp) hpre
    · rw [hi, Option.some.injEq] at hfk
      exact h (hfk ▸ hlt)
    · exact absurd (has_of_cut hmid ⟨i, (Find.first_eq_some.1 hi).1⟩) hnp

/-- **Where the receipt stands.** A stream with a marker emits a receipt, and the `Data`
bytes before it are the stream up to the first marker exactly when `SeamAlone`. -/
theorem receipt_place_iff (P : Primitives) (key hasher : Bytes)
    (requestId tenantId upstreamUrl policyDigest pcr0 : String) (segs : List (Bytes × Ambient)) (i : Nat)
    (hi : Find.first sseDoneMarker (stream segs) = some i) :
    ∃ outs d hasher' before frame after,
      (DoneDetector.new requestId tenantId upstreamUrl policyDigest pcr0).run P key hasher
        (inspects segs) = .ok (outs, d, hasher') ∧
      outs.flatten = before ++ .auditReceipt frame :: after ∧ OnlyData before ∧
      (dataBytes before = (stream segs).take i ↔ SeamAlone segs) := by
  rcases run_segments P key hasher
      (tracks_new requestId tenantId upstreamUrl policyDigest pcr0) segs with
    ⟨hno, _⟩ | ⟨pre, seg, post, hsegs, hpre, hseg, outs, d, h', before, after, frame, done, hr, f⟩
  · exact absurd ⟨i, (Find.first_eq_some.1 hi).1⟩ hno
  refine ⟨outs, d, h', before, frame, _, hr, f.events, f.before_data, ?_⟩
  obtain ⟨j, hj⟩ := Find.has_iff_first.1 hseg
  have hstream : stream segs = stream pre ++ seg.1 ++ stream post := by
    rw [hsegs, stream_append, stream_cons, List.append_assoc]
  have hij : i = j := by
    rw [hstream, Find.first_append_of_some marker_ne_nil hj] at hi
    exact (Option.some.inj hi).symm
  subst hij
  have hjlen := Find.first_lt marker_ne_nil hj
  have htake : (stream segs).take i = (stream pre ++ seg.1).take i := by
    rw [hstream, List.take_append_of_le_length (by omega)]
  rw [htake, seamAlone_iff hsegs hpre hj]
  constructor
  · intro heq hlt hs
    obtain ⟨l, hl⟩ := Find.has_iff_first.1 hs
    have hlen := congrArg List.length (heq.symm.trans (f.inside l hl))
    simp only [List.length_take, List.length_append] at hlen
    omega
  · intro hseam
    by_cases hs : Find.Has sseDoneMarker seg.1
    · obtain ⟨l, hl⟩ := Find.has_iff_first.1 hs
      have hge : (stream pre).length ≤ i := by
        by_contra hlt
        exact hseam (by omega) hs
      have hfirst : Find.first sseDoneMarker (stream pre ++ seg.1) = some ((stream pre).length + l) := by
        rw [Find.first_append_of_none, hl, Option.map_some]
        intro k hk
        exact (Find.first_eq_some.1 hj).2 k (by omega)
      have hil : i = (stream pre).length + l := by
        rw [hj] at hfirst
        exact Option.some.inj hfirst
      rw [f.inside l hl, hil, List.take_length_add_append]
    · exact f.across hs i hj

/-! ### One segment that completes a marker and holds another -/

def doubleMarkerSegments : List (Bytes × Ambient) :=
  [(Utf8.encode "hi data: [DO", quietAmbient), (Utf8.encode "NE] data: [DONE]", quietAmbient)]

theorem receipt_place_iff_double :
    Find.first sseDoneMarker (stream doubleMarkerSegments) = some 3 ∧
    ∃ outs d hasher' before frame after,
      (DoneDetector.new "request-1" "tenant-1" "https://upstream.example/v1/chat/completions"
        "policy-1" "pcr0-1").run lossyPrimitives (List.replicate 32 7) [] (inspects doubleMarkerSegments) =
        .ok (outs, d, hasher') ∧
      outs.flatten = before ++ .auditReceipt frame :: after ∧ OnlyData before ∧
      (dataBytes before = (stream doubleMarkerSegments).take 3 ↔ SeamAlone doubleMarkerSegments) :=
  ⟨by decide, receipt_place_iff lossyPrimitives _ _ _ _ _ _ _ _ _ (by decide)⟩

theorem later_marker_taken_first :
    ¬ ∀ (P : Primitives) (key hasher : Bytes) (requestId tenantId upstreamUrl policyDigest pcr0 : String)
      (segs : List (Bytes × Ambient)) (i : Nat) (outs : List (List StreamEvent)) (d : DoneDetector)
      (hasher' : Bytes) (before : List StreamEvent) (frame : AuditFrame) (after : List StreamEvent),
      Find.first sseDoneMarker (stream segs) = some i →
      (DoneDetector.new requestId tenantId upstreamUrl policyDigest pcr0).run P key hasher
        (inspects segs) = .ok (outs, d, hasher') →
      outs.flatten = before ++ .auditReceipt frame :: after →
      dataBytes before = (stream segs).take i := by
  intro h
  obtain ⟨outs, d, h', before, after, frame, done, hr, f⟩ :=
    run_firing lossyPrimitives (List.replicate 32 7) []
      (tracks_new "request-1" "tenant-1" "https://upstream.example/v1/chat/completions" "policy-1" "pcr0-1")
      (show doubleMarkerSegments = doubleMarkerSegments.take 1 ++ _ :: [] from rfl) (by decide) (by decide)
  have heq := h lossyPrimitives _ _ _ _ _ _ _ _ 3 _ _ _ _ _ _ (by decide) hr f.events
  rw [f.inside 4 (by decide)] at heq
  revert heq
  decide

end PiiProxy
