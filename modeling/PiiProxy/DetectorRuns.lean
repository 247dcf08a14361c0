import PiiProxy.Detector

/-!
# Whole runs of `DoneDetector`

A run is any sequence of `inspect` and `shutdown_events` calls on one detector and
one hasher. Until a receipt is emitted the held tail is the last 11 bytes of what
was inspected and the marker is not among those bytes (`Tracks`); afterwards the
tail is empty and every segment passes through. `inspect_cases` is the step:
`Quiet` if the bytes seen so far still hold no marker, `Fires` otherwise.
-/

namespace PiiProxy

open DoneDetector

def StreamEvent.isReceipt : StreamEvent → Bool
  | .auditReceipt _ => true
  | _ => false

def StreamEvent.isDone : StreamEvent → Bool
  | .doneMarker _ => true
  | _ => false

def StreamEvent.isData : StreamEvent → Bool
  | .data _ => true
  | _ => false

/-- The concatenated `Data` bytes. -/
def dataBytes (evs : List StreamEvent) : Bytes :=
  evs.flatMap fun
    | .data b => b
    | _ => []

/-- The concatenated bytes of everything but the receipts. -/
def streamBytes (evs : List StreamEvent) : Bytes :=
  evs.flatMap fun
    | .data b => b
    | .doneMarker b => b
    | .auditReceipt _ => []

@[simp] theorem dataBytes_nil : dataBytes [] = [] := rfl

@[simp] theorem dataBytes_append (a b : List StreamEvent) :
    dataBytes (a ++ b) = dataBytes a ++ dataBytes b := by simp [dataBytes]

@[simp] theorem streamBytes_append (a b : List StreamEvent) :
    streamBytes (a ++ b) = streamBytes a ++ streamBytes b := by simp [streamBytes]

@[simp] theorem dataBytes_dataEvents (b : Bytes) : dataBytes (dataEvents b) = b := by
  by_cases h : b = [] <;> simp [dataEvents, dataBytes, h]

/-- Nothing but `Data` events. -/
def OnlyData (evs : List StreamEvent) : Prop := ∀ e ∈ evs, e.isData = true

theorem OnlyData.append {a b : List StreamEvent} (ha : OnlyData a) (hb : OnlyData b) :
    OnlyData (a ++ b) := by
  intro e he
  rcases List.mem_append.1 he with h | h
  · exact ha e h
  · exact hb e h

theorem onlyData_nil : OnlyData [] := by simp [OnlyData]

theorem onlyData_dataEvents (b : Bytes) : OnlyData (dataEvents b) := by
  by_cases h : b = [] <;> simp [OnlyData, dataEvents, h, StreamEvent.isData]

theorem OnlyData.streamBytes_eq : ∀ {evs : List StreamEvent}, OnlyData evs → streamBytes evs = dataBytes evs
  | [], _ => rfl
  | e :: evs, h => by
    have ih : streamBytes evs = dataBytes evs := OnlyData.streamBytes_eq fun x hx => h x (by simp [hx])
    have he := h e (by simp)
    cases e with
    | data b => simpa [streamBytes, dataBytes] using ih
    | auditReceipt f => simp [StreamEvent.isData] at he
    | doneMarker b => simp [StreamEvent.isData] at he

theorem OnlyData.not_receipt {evs : List StreamEvent} (h : OnlyData evs) : evs.any StreamEvent.isReceipt = false := by
  rw [List.any_eq_false]
  intro e he
  have := h e he
  cases e <;> simp_all [StreamEvent.isData, StreamEvent.isReceipt]

/-! ## One call -/

/-- No receipt yet: the tail is the last 11 bytes seen, and they hold no marker. -/
structure Tracks (d : DoneDetector) (seen : Bytes) : Prop where
  live : d.completed = false
  clear : ¬ Find.Has sseDoneMarker seen
  tail : d.trailing = seen.drop (seen.length - 11)

theorem tracks_new (requestId tenantId upstreamUrl policyDigest pcr0 : String) :
    Tracks (DoneDetector.new requestId tenantId upstreamUrl policyDigest pcr0) [] :=
  ⟨rfl, Find.not_has_nil marker_ne_nil, rfl⟩

theorem Tracks.trailing_le {d : DoneDetector} {seen : Bytes} (h : Tracks d seen) : d.trailing.length ≤ 11 := by
  rw [h.tail, List.length_drop]; omega

theorem Tracks.seen_eq {d : DoneDetector} {seen : Bytes} (h : Tracks d seen) :
    seen = seen.take (seen.length - 11) ++ d.trailing := by
  rw [h.tail, List.take_append_drop]

/-- A marker in `seen ++ bytes` is in the segment or in the probe's window. -/
theorem Tracks.has_iff {d : DoneDetector} {seen bytes : Bytes} (h : Tracks d seen) :
    Find.Has sseDoneMarker (seen ++ bytes) ↔
      Find.Has sseDoneMarker bytes ∨ Find.Has sseDoneMarker (d.trailing ++ bytes.take 11) := by
  constructor
  · rintro ⟨i, hi⟩
    rcases Find.at_append_cases hi with ⟨_, h1⟩ | ⟨_, h1⟩ | ⟨h1, h2⟩
    · exact absurd ⟨i, h1⟩ h.clear
    · exact Or.inl ⟨_, h1⟩
    · have := (Find.at_seam (n := 11) (by rw [marker_length]) h1 h2).1 hi
      rw [← h.tail] at this
      exact Or.inr ⟨_, this⟩
  · rintro (hb | ⟨i, hi⟩)
    · exact hb.append_right
    · have hsplit : seen ++ bytes =
          seen.take (seen.length - 11) ++ (d.trailing ++ bytes.take 11 ++ bytes.drop 11) := by
        rw [List.append_assoc, List.take_append_drop, ← List.append_assoc, ← h.seen_eq]
      rw [hsplit]
      exact (Find.Has.append_left marker_ne_nil ⟨i, hi⟩).append_right

/-- Where the first marker of `seen ++ bytes` is, from where it is after the tail. -/
theorem Tracks.first_eq {d : DoneDetector} {seen bytes : Bytes} (h : Tracks d seen) :
    Find.first sseDoneMarker (seen ++ bytes) =
      (Find.first sseDoneMarker (d.trailing ++ bytes)).map (seen.length - 11 + ·) := by
  have hlen : (seen.take (seen.length - 11)).length = seen.length - 11 := by simp
  conv => lhs; rw [h.seen_eq, List.append_assoc]
  rw [Find.first_append_of_none, hlen]
  intro j hj hat
  rw [hlen] at hj
  rw [← List.append_assoc, ← h.seen_eq] at hat
  have hle := marker_length
  exact h.clear ⟨j, (Find.at_append_left (by omega)).1 hat⟩

/-- A call that emits no receipt. -/
structure Quiet (d : DoneDetector) (seen bytes hasher : Bytes)
    (r : List StreamEvent × DoneDetector × Bytes) : Prop where
  onlyData : OnlyData r.1
  tracks : Tracks r.2.1 (seen ++ bytes)
  conserved : d.trailing ++ bytes = dataBytes r.1 ++ r.2.1.trailing
  absorbed : ∃ q, r.2.2 = hasher ++ q ∧ q.Sublist (dataBytes r.1)
  /-- All that is emitted is hashed, but for the held tail before a long segment. -/
  hashed : (bytes.length < 11 ∨ seen = [] → r.2.2 = hasher ++ dataBytes r.1) ∧
    (11 ≤ bytes.length → seen ≠ [] → r.2.2.length < hasher.length + (dataBytes r.1).length)

/-- A call that emits one: `pre`, the receipt, its marker, `post`. -/
structure Fires (P : Primitives) (d : DoneDetector) (bytes hasher : Bytes)
    (r : List StreamEvent × DoneDetector × Bytes) (pre post : List StreamEvent) (frame : AuditFrame)
    (done : Bytes) : Prop where
  events : r.1 = pre ++ .auditReceipt frame :: .doneMarker done :: post
  pre_data : OnlyData pre
  post_data : OnlyData post
  conserved : d.trailing ++ bytes = dataBytes pre ++ done ++ dataBytes post
  payload : frame.receipt.payloadHash = toHex (P.blake3 (hasher ++ dataBytes pre))
  fed : r.2.2 = hasher ++ dataBytes pre
  completed : r.2.1.completed = true
  drained : r.2.1.trailing = []
  /-- A marker inside the segment is taken before one across the seam is looked for. -/
  inside : ∀ i, Find.first sseDoneMarker bytes = some i → dataBytes pre = d.trailing ++ bytes.take i
  across : ¬ Find.Has sseDoneMarker bytes → ∀ i, Find.first sseDoneMarker (d.trailing ++ bytes) = some i →
    dataBytes pre = (d.trailing ++ bytes).take i

section Step

variable (P : Primitives) (key : Bytes) (amb : Ambient) (hasher : Bytes) {d : DoneDetector} {seen bytes : Bytes}

theorem inspect_fires_inside (h : Tracks d seen) {i : Nat} (hi : Find.first sseDoneMarker bytes = some i) :
    ∃ r pre frame, d.inspect P key amb bytes hasher = .ok r ∧
      Fires P d bytes hasher r pre [] frame (bytes.drop i) := by
  refine ⟨_, dataEvents d.trailing ++ dataEvents (bytes.take i),
    d.auditFrame P key amb (hasher ++ d.trailing ++ bytes.take i), inspect_inside P key amb hasher h.live hi, ?_⟩
  refine ⟨rfl, (onlyData_dataEvents _).append (onlyData_dataEvents _), onlyData_nil, ?_, ?_, ?_, rfl, rfl, ?_, ?_⟩
  · simp
  · simp [auditFrame, receipt]
  · simp
  · intro j hj
    rw [hi] at hj
    cases hj
    simp
  · intro hno
    exact absurd ⟨i, (Find.first_eq_some.1 hi).1⟩ hno

theorem inspect_fires_across (h : Tracks d seen) (hno : ¬ Find.Has sseDoneMarker bytes) {i : Nat}
    (hi : Find.first sseDoneMarker (d.trailing ++ bytes.take 11) = some i) :
    ∃ r pre post frame, d.inspect P key amb bytes hasher = .ok r ∧
      Fires P d bytes hasher r pre post frame sseDoneMarker := by
  obtain ⟨h1, h2, h3, heq⟩ := inspect_seam P key amb hasher h.live h.trailing_le hno hi
  have hfirst : Find.first sseDoneMarker (d.trailing ++ bytes) = some i := by
    have := Find.first_append_of_some (b := bytes.drop 11) marker_ne_nil hi
    rwa [List.append_assoc, List.take_append_drop] at this
  have htake : (d.trailing ++ bytes).take i = d.trailing.take i :=
    List.take_append_of_le_length (Nat.le_of_lt h1)
  have hdrop : (d.trailing ++ bytes).drop (i + 12) = bytes.drop (12 - (d.trailing.length - i)) := by
    rw [drop_append_right (by omega)]
    congr 1; omega
  refine ⟨_, dataEvents (d.trailing.take i), dataEvents (bytes.drop (12 - (d.trailing.length - i))),
    d.auditFrame P key amb (hasher ++ d.trailing.take i), heq, ?_⟩
  refine ⟨by simp, onlyData_dataEvents _, onlyData_dataEvents _, ?_, ?_, by simp, rfl, rfl, ?_, ?_⟩
  · have := (Find.first_eq_some.1 hfirst).1.split
    rw [marker_length, htake, hdrop] at this
    simpa using this
  · simp [auditFrame, receipt]
  · intro j hj
    exact absurd ⟨j, (Find.first_eq_some.1 hj).1⟩ hno
  · intro _ j hj
    rw [hfirst] at hj
    cases hj
    rw [htake, dataBytes_dataEvents]

theorem inspect_quiet (h : Tracks d seen) (hno : ¬ Find.Has sseDoneMarker (seen ++ bytes)) :
    ∃ r, d.inspect P key amb bytes hasher = .ok r ∧ Quiet d seen bytes hasher r := by
  have hb : ¬ Find.Has sseDoneMarker bytes := fun hb => hno (h.has_iff.2 (Or.inl hb))
  have hs : ¬ Find.Has sseDoneMarker (d.trailing ++ bytes.take 11) := fun hs => hno (h.has_iff.2 (Or.inr hs))
  by_cases hlen : 11 ≤ bytes.length
  · refine ⟨_, inspect_long P key amb hasher h.live h.trailing_le hb hs hlen, ?_⟩
    refine ⟨(onlyData_dataEvents _).append (onlyData_dataEvents _), ⟨h.live, hno, ?_⟩, ?_, ?_, ?_, ?_⟩
    · show bytes.drop (bytes.length - 11) = _
      rw [List.length_append, drop_append_right (by omega)]
      congr 1; omega
    · simp
    · exact ⟨_, rfl, by simp⟩
    · rintro (h' | rfl)
      · omega
      · simp [show d.trailing = [] by simpa using h.tail]
    · intro _ hne
      have hpos : d.trailing ≠ [] := by
        rw [h.tail]
        have := List.length_pos_iff.2 hne
        simp; omega
      have := List.length_pos_iff.2 hpos
      simp; omega
  · refine ⟨_, inspect_short P key amb hasher h.live h.trailing_le hb hs (by omega), ?_⟩
    refine ⟨onlyData_dataEvents _, ⟨h.live, hno, ?_⟩, ?_, ?_, ?_, ?_⟩
    · show (d.trailing ++ bytes).drop _ = _
      have htb : d.trailing ++ bytes = (seen ++ bytes).drop (seen.length - 11) := by
        rw [h.tail, List.drop_append_of_le_length (by omega)]
      rw [htb, List.drop_drop]
      congr 1
      simp only [List.length_drop, List.length_append]; omega
    · simp
    · exact ⟨_, rfl, by simp⟩
    · intro _; simp
    · intro h'; omega

/-- **One `inspect` call on a live detector.** It emits a receipt exactly when the
bytes seen so far come to hold the marker. -/
theorem inspect_cases (h : Tracks d seen) :
    (¬ Find.Has sseDoneMarker (seen ++ bytes) ∧
      ∃ r, d.inspect P key amb bytes hasher = .ok r ∧ Quiet d seen bytes hasher r) ∨
    (Find.Has sseDoneMarker (seen ++ bytes) ∧
      ∃ r pre post frame done, d.inspect P key amb bytes hasher = .ok r ∧
        Fires P d bytes hasher r pre post frame done) := by
  by_cases hno : Find.Has sseDoneMarker (seen ++ bytes)
  · refine Or.inr ⟨hno, ?_⟩
    by_cases hb : Find.Has sseDoneMarker bytes
    · obtain ⟨i, hi⟩ := Find.has_iff_first.1 hb
      obtain ⟨r, pre, frame, hr, hf⟩ := inspect_fires_inside P key amb hasher h hi
      exact ⟨r, pre, [], frame, _, hr, hf⟩
    · obtain ⟨i, hi⟩ := Find.has_iff_first.1 ((h.has_iff.1 hno).resolve_left hb)
      obtain ⟨r, pre, post, frame, hr, hf⟩ := inspect_fires_across P key amb hasher h hb hi
      exact ⟨r, pre, post, frame, _, hr, hf⟩
  · exact Or.inl ⟨hno, inspect_quiet P key amb hasher h hno⟩

/-- A call with at most 11 bytes held does not panic, holds as many at most, and builds a receipt only
where the marker ends its wait. -/
theorem inspect_held (ht : d.trailing.length ≤ 11) : ∃ events d' hasher',
    d.inspect P key amb bytes hasher = .ok (events, d', hasher') ∧ d'.trailing.length ≤ 11 ∧
    ∀ frame, .auditReceipt frame ∈ events → d.completed = false ∧ Find.Has sseDoneMarker (d.trailing ++ bytes) ∧
      ∃ fed, frame = d.auditFrame P key amb fed := by
  have hdata (b : Bytes) (frame : AuditFrame) : .auditReceipt frame ∉ dataEvents b := by
    intro h
    have := onlyData_dataEvents b _ h
    simp [StreamEvent.isData] at this
  by_cases hc : d.completed = true
  · exact ⟨_, _, _, inspect_completed P key amb hasher hc, ht, by simp⟩
  have hlive : d.completed = false := by simpa using hc
  by_cases hb : Find.Has sseDoneMarker bytes
  · obtain ⟨i, hi⟩ := Find.has_iff_first.1 hb
    refine ⟨_, _, _, inspect_inside P key amb hasher hlive hi, Nat.zero_le _, fun frame h => ⟨hlive, hb.append_right, ?_⟩⟩
    simp only [List.mem_append, hdata, List.mem_cons, StreamEvent.auditReceipt.injEq, reduceCtorEq, false_or,
      List.not_mem_nil, or_false] at h
    exact ⟨_, h⟩
  by_cases hs : Find.Has sseDoneMarker (d.trailing ++ bytes.take 11)
  · obtain ⟨i, hi⟩ := Find.has_iff_first.1 hs
    have hmarker : Find.Has sseDoneMarker (d.trailing ++ bytes) := by
      have := Find.Has.append_left (b := bytes.drop 11) marker_ne_nil hs
      rwa [List.append_assoc, List.take_append_drop] at this
    refine ⟨_, _, _, (inspect_seam P key amb hasher hlive ht hb hi).2.2.2, Nat.zero_le _, fun frame h =>
      ⟨hlive, hmarker, ?_⟩⟩
    simp only [List.mem_append, hdata, List.mem_cons, StreamEvent.auditReceipt.injEq, reduceCtorEq, false_or,
      List.not_mem_nil, or_false] at h
    exact ⟨_, h⟩
  by_cases hlen : 11 ≤ bytes.length
  · refine ⟨_, _, _, inspect_long P key amb hasher hlive ht hb hs hlen, ?_, fun frame h => ?_⟩
    · rw [List.length_drop]
      omega
    · simp only [List.mem_append, hdata, or_self] at h
  · refine ⟨_, _, _, inspect_short P key amb hasher hlive ht hb hs (by omega), ?_, fun frame h => absurd h (hdata _ _)⟩
    rw [List.length_drop]
    omega

/-- The same of a call that is known to return. -/
theorem inspect_ok {events : List StreamEvent} {d' : DoneDetector} {hasher' : Bytes} (ht : d.trailing.length ≤ 11)
    (h : d.inspect P key amb bytes hasher = .ok (events, d', hasher')) : d'.trailing.length ≤ 11 ∧
    ∀ frame, .auditReceipt frame ∈ events → d.completed = false ∧ Find.Has sseDoneMarker (d.trailing ++ bytes) ∧
      ∃ fed, frame = d.auditFrame P key amb fed := by
  obtain ⟨_, _, _, hi, hheld⟩ := inspect_held P key amb hasher ht
  rw [h] at hi
  cases hi
  exact hheld

theorem tracks_trailing (hc : d.completed = false) (ht : d.trailing.length ≤ 11) : Tracks d d.trailing := by
  refine ⟨hc, ?_, by rw [Nat.sub_eq_zero_of_le ht, List.drop_zero]⟩
  rintro ⟨i, hi⟩
  have hle := hi.le marker_ne_nil
  rw [marker_length] at hle
  omega

/-- A call passes on what it held and what it got, receipts apart, but for what it holds then. -/
theorem inspect_conserves {events : List StreamEvent} {d' : DoneDetector} {hasher' : Bytes}
    (ht : d.trailing.length ≤ 11) (hd : d.completed = true → d.trailing = [])
    (h : d.inspect P key amb bytes hasher = .ok (events, d', hasher')) :
    streamBytes events ++ d'.trailing = d.trailing ++ bytes ∧ (d'.completed = true → d'.trailing = []) := by
  by_cases hc : d.completed = true
  · rw [inspect_completed P key amb hasher hc] at h
    cases h
    exact ⟨by simp [hd hc, streamBytes], hd⟩
  have htr := tracks_trailing (by simpa using hc) ht
  rcases inspect_cases P key amb hasher htr with ⟨-, r, hr, hq⟩ | ⟨-, r, pre, post, frame, done, hr, hf⟩
  · rw [h] at hr
    cases hr
    refine ⟨?_, fun hc' => ?_⟩
    · rw [hq.onlyData.streamBytes_eq]
      exact hq.conserved.symm
    · rw [hq.tracks.live] at hc'
      cases hc'
  · rw [h] at hr
    cases hr
    refine ⟨?_, fun _ => hf.drained⟩
    have hev := hf.events
    have hdr := hf.drained
    simp only at hev hdr
    rw [hf.conserved, hdr, hev, streamBytes_append, hf.pre_data.streamBytes_eq, ← hf.post_data.streamBytes_eq]
    simp [streamBytes]

theorem streamBytes_finish (d : DoneDetector) (hasher : Bytes) : streamBytes (d.finish hasher).1 = d.trailing := by
  unfold DoneDetector.finish
  split
  · rename_i h
    exact h.symm
  · simp [streamBytes]

theorem finish_trailing (d : DoneDetector) (hasher : Bytes) : (d.finish hasher).2.1.trailing = [] := by
  unfold DoneDetector.finish
  split
  · rename_i h
    exact h
  · rfl

theorem finish_trailing_le (d : DoneDetector) (hasher : Bytes) : (d.finish hasher).2.1.trailing.length ≤ 11 := by
  rw [finish_trailing]
  exact Nat.zero_le _

theorem shutdownEvents_trailing_le (ht : d.trailing.length ≤ 11) :
    (d.shutdownEvents P key amb hasher).2.1.trailing.length ≤ 11 := by
  unfold DoneDetector.shutdownEvents
  split
  · exact ht
  · exact Nat.zero_le _

end Step

/-! ## Runs -/

inductive Call where
  | inspect (bytes : Bytes) (amb : Ambient)
  | shutdown (amb : Ambient)

def Call.bytes : Call → Bytes
  | .inspect b _ => b
  | .shutdown _ => []

/-- Everything inspected by a sequence of calls. -/
def seenBytes (calls : List Call) : Bytes := calls.flatMap Call.bytes

def DoneDetector.call (P : Primitives) (key : Bytes) (d : DoneDetector) (hasher : Bytes) :
    Call → Except Panic (List StreamEvent × DoneDetector × Bytes)
  | .inspect bytes amb => d.inspect P key amb bytes hasher
  | .shutdown amb => .ok (d.shutdownEvents P key amb hasher)

/-- The events of each call, in order. -/
def DoneDetector.run (P : Primitives) (key : Bytes) :
    DoneDetector → Bytes → List Call → Except Panic (List (List StreamEvent) × DoneDetector × Bytes)
  | d, hasher, [] => .ok ([], d, hasher)
  | d, hasher, c :: cs => do
    let (evs, d, hasher) ← d.call P key hasher c
    let (outs, d, hasher) ← DoneDetector.run P key d hasher cs
    return (evs :: outs, d, hasher)

/-- One `inspect` call for each segment. -/
def inspects (segs : List (Bytes × Ambient)) : List Call := segs.map fun s => .inspect s.1 s.2

/-- The stream the segments were cut from. -/
def stream (segs : List (Bytes × Ambient)) : Bytes := (segs.map Prod.fst).flatten

theorem stream_append (a b : List (Bytes × Ambient)) : stream (a ++ b) = stream a ++ stream b := by
  simp [stream]

theorem stream_cons (s : Bytes × Ambient) (segs : List (Bytes × Ambient)) :
    stream (s :: segs) = s.1 ++ stream segs := by simp [stream]

section Runs

variable {P : Primitives} {key : Bytes} {d d1 d2 : DoneDetector} {seen hasher h1 h2 : Bytes}
  {segs : List (Bytes × Ambient)} {calls cs : List Call} {evs : List StreamEvent}
  {o1 o2 : List (List StreamEvent)}

theorem run_cons {c : Call} (h : d.call P key hasher c = .ok (evs, d1, h1))
    (hr : d1.run P key h1 cs = .ok (o1, d2, h2)) :
    d.run P key hasher (c :: cs) = .ok (evs :: o1, d2, h2) := by
  simp [DoneDetector.run, h, hr]

/-- What a run that begins with `c` did in its first call. -/
theorem run_cons_inv {c : Call} (h : d.run P key hasher (c :: cs) = .ok (o1, d2, h2)) :
    ∃ evs d1 h1 o, d.call P key hasher c = .ok (evs, d1, h1) ∧ d1.run P key h1 cs = .ok (o, d2, h2) ∧
      o1 = evs :: o := by
  rw [DoneDetector.run, bind_eq_ok] at h
  obtain ⟨⟨evs, d', h'⟩, hc, h⟩ := h
  obtain ⟨⟨o, d'', h''⟩, hr, h⟩ := bind_eq_ok.1 h
  cases h
  exact ⟨evs, d', h', o, hc, hr, rfl⟩

theorem run_append (h : d.run P key hasher calls = .ok (o1, d1, h1))
    (hr : d1.run P key h1 cs = .ok (o2, d2, h2)) :
    d.run P key hasher (calls ++ cs) = .ok (o1 ++ o2, d2, h2) := by
  induction calls generalizing d hasher o1 with
  | nil =>
    simp only [DoneDetector.run, Except.ok.injEq, Prod.mk.injEq] at h
    obtain ⟨rfl, rfl, rfl⟩ := h
    exact hr
  | cons c calls ih =>
    obtain ⟨evs, d', h', o, hc, hr', rfl⟩ := run_cons_inv h
    exact run_cons hc (ih hr')

/-- After the receipt every segment passes through unchanged and a shutdown adds nothing. -/
theorem run_completed (P : Primitives) (key hasher : Bytes) (hc : d.completed = true) : ∀ calls : List Call,
    ∃ outs, d.run P key hasher calls = .ok (outs, d, hasher) ∧ OnlyData outs.flatten ∧
      dataBytes outs.flatten = seenBytes calls
  | [] => ⟨[], rfl, onlyData_nil, rfl⟩
  | .inspect b amb :: cs => by
    obtain ⟨outs, hr, hd, hb⟩ := run_completed P key hasher hc cs
    refine ⟨[.data b] :: outs, run_cons (inspect_completed P key amb hasher hc) hr, ?_, ?_⟩
    · rw [List.flatten_cons]
      exact OnlyData.append (by simp [OnlyData, StreamEvent.isData]) hd
    · rw [List.flatten_cons, dataBytes_append, hb]
      simp [seenBytes, Call.bytes, dataBytes]
  | .shutdown amb :: cs => by
    obtain ⟨outs, hr, hd, hb⟩ := run_completed P key hasher hc cs
    refine ⟨[] :: outs, run_cons (by simp [DoneDetector.call, shutdownEvents, hc]) hr, ?_, ?_⟩
    · simpa using hd
    · simpa [seenBytes, Call.bytes] using hb

theorem seenBytes_inspects (segs : List (Bytes × Ambient)) : seenBytes (inspects segs) = stream segs := by
  simp only [seenBytes, inspects, stream, List.flatMap_map, Call.bytes]
  rw [List.flatMap_def]

/-- No segment of 11 bytes or more comes after a byte already seen. -/
def NoLongAfter (seen : Bytes) (segs : List (Bytes × Ambient)) : Prop :=
  ∀ pre seg post, segs = pre ++ seg :: post → 11 ≤ seg.1.length → seen ++ stream pre = []

theorem noLongAfter_cons {s : Bytes × Ambient} :
    NoLongAfter seen (s :: segs) ↔ (11 ≤ s.1.length → seen = []) ∧ NoLongAfter (seen ++ s.1) segs := by
  constructor
  · intro h
    refine ⟨fun hs => by simpa [stream] using h [] s segs rfl hs, ?_⟩
    intro pre seg post he hl
    have := h (s :: pre) seg post (by simp [he]) hl
    simpa [stream_cons] using this
  · rintro ⟨h1, h2⟩ pre seg post he hl
    cases pre with
    | nil =>
      simp only [List.nil_append, List.cons.injEq] at he
      simpa [stream] using h1 (he.1 ▸ hl)
    | cons p pre =>
      simp only [List.cons_append, List.cons.injEq] at he
      have := h2 pre seg post he.2 hl
      rw [he.1] at this
      simpa [stream_cons] using this

/-- A run over segments that never complete the marker. -/
structure QuietRun (d : DoneDetector) (seen hasher : Bytes) (segs : List (Bytes × Ambient))
    (evs : List StreamEvent) (d' : DoneDetector) (hasher' : Bytes) : Prop where
  onlyData : OnlyData evs
  tracks : Tracks d' (seen ++ stream segs)
  conserved : d.trailing ++ stream segs = dataBytes evs ++ d'.trailing
  absorbed : ∃ q, hasher' = hasher ++ q ∧ q.Sublist (dataBytes evs)
  fed : NoLongAfter seen segs → hasher' = hasher ++ dataBytes evs
  lost : ¬ NoLongAfter seen segs → hasher'.length < hasher.length + (dataBytes evs).length

theorem run_quiet (P : Primitives) (key : Bytes) : ∀ {segs : List (Bytes × Ambient)} {d : DoneDetector}
    {seen : Bytes}, Tracks d seen → ¬ Find.Has sseDoneMarker (seen ++ stream segs) → ∀ hasher : Bytes, ∃ outs d' hasher', d.run P key hasher (inspects segs) = .ok (outs, d', hasher') ∧
      QuietRun d seen hasher segs outs.flatten d' hasher'
  | [], d, seen, h, _, hasher => by
    refine ⟨[], d, hasher, rfl, onlyData_nil, by simpa [stream] using h, by simp [stream],
      ⟨[], by simp, by simp⟩, by simp, ?_⟩
    intro hl
    exact absurd (by intro pre seg post he; simp at he) hl
  | s :: segs, d, seen, h, hno, hasher => by
    rw [stream_cons, ← List.append_assoc] at hno
    have hs : ¬ Find.Has sseDoneMarker (seen ++ s.1) := fun hs => hno (hs.append_left marker_ne_nil)
    obtain ⟨⟨evs, d1, h1⟩, hr1, q1⟩ := inspect_quiet P key s.2 hasher h hs
    obtain ⟨outs, d2, h2, hr2, q2⟩ := run_quiet P key q1.tracks hno h1
    refine ⟨evs :: outs, d2, h2, run_cons hr1 hr2, ?_⟩
    have hall : s.1.length < 11 ∨ seen = [] → h1 = hasher ++ dataBytes evs := q1.hashed.1
    have hpart : 11 ≤ s.1.length → seen ≠ [] → h1.length < hasher.length + (dataBytes evs).length :=
      q1.hashed.2
    obtain ⟨p, (rfl : h1 = _), hp⟩ := q1.absorbed
    obtain ⟨q, rfl, hq⟩ := q2.absorbed
    have hple : p.length ≤ (dataBytes evs).length := hp.length_le
    have hqle := hq.length_le
    refine ⟨?_, ?_, ?_, ?_, ?_, ?_⟩
    · rw [List.flatten_cons]; exact q1.onlyData.append q2.onlyData
    · rw [stream_cons, ← List.append_assoc]; exact q2.tracks
    · have := q1.conserved
      rw [stream_cons, ← List.append_assoc, this, List.append_assoc, q2.conserved]
      simp
    · refine ⟨p ++ q, by simp, ?_⟩
      rw [List.flatten_cons, dataBytes_append]
      exact hp.append hq
    · intro hn
      rw [noLongAfter_cons] at hn
      have hshort : s.1.length < 11 ∨ seen = [] := by
        by_cases hl : 11 ≤ s.1.length
        · exact Or.inr (hn.1 hl)
        · exact Or.inl (by omega)
      rw [q2.fed hn.2, hall hshort]
      simp
    · intro hn
      rw [noLongAfter_cons, not_and_or] at hn
      simp only [List.flatten_cons, dataBytes_append, List.length_append] at hple hqle ⊢
      rcases hn with hn | hn
      · simp only [Classical.not_imp] at hn
        have := hpart hn.1 hn.2
        simp only [List.length_append] at this
        omega
      · have := q2.lost hn
        simp only [List.length_append] at this
        omega

end Runs

end PiiProxy
