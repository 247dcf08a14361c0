import PiiProxy.DetectorRuns

/-!
# No call of `DoneDetector` slices out of range (lib.rs:1009-1186)

`inspect` indexes with numbers that other paths and earlier calls must have kept small:
the array it probes the seam with has 24 bytes because the tail has at most 11, and
`marker_len - (trailing_len - start)` is no underflow because the probe takes at most 11
bytes of the segment. `TailInv` is what every call keeps; `seamInRange_of_tail` is what
the next `inspect` needs of it. A `finish` in the middle of a stream is one of the calls.
-/

namespace PiiProxy

open DoneDetector

/-- A call with the arguments the caller passes in. -/
inductive DetectorCall where
  | inspect (key : Bytes) (amb : Ambient) (bytes hasher : Bytes)
  | shutdownEvents (key : Bytes) (amb : Ambient) (hasher : Bytes)
  | finish (hasher : Bytes)

/-- The detector after the call. -/
def DoneDetector.after (P : Primitives) (d : DoneDetector) : DetectorCall → Except Panic DoneDetector
  | .inspect key amb bytes hasher => do
    let (_, d, _) ← d.inspect P key amb bytes hasher
    return d
  | .shutdownEvents key amb hasher => .ok (d.shutdownEvents P key amb hasher).2.1
  | .finish hasher => .ok (d.finish hasher).2.1

/-- What is held between calls. -/
structure TailInv (d : DoneDetector) : Prop where
  held : d.trailing.length ≤ 11
  drained : d.completed = true → d.trailing = []

/-- The numbers of the seam search (lib.rs:1037-1062); `start` is where the probe has the marker. -/
structure SeamInRange (trailing bytes : Bytes) : Prop where
  fits : trailing.length + min bytes.length (sseDoneMarker.length - 1) ≤ sseDoneMarker.length * 2
  probes : ∃ found, seamProbe trailing bytes = .ok found
  start_lt : ∀ start probe, seamProbe trailing bytes = .ok (some (start, probe)) → start < trailing.length
  currentStart : ∀ start probe, seamProbe trailing bytes = .ok (some (start, probe)) →
    ∃ currentStart, checkedSub sseDoneMarker.length (trailing.length - start) = .ok currentStart ∧
      1 ≤ currentStart ∧ currentStart ≤ bytes.length

section

variable {P : Primitives} {d : DoneDetector} {trailing bytes : Bytes}

/-- A marker in the probe's window lies across the seam: the segment has given 11 bytes at most. -/
theorem seamProbe_found (ht : trailing.length ≤ 11) {start : Nat} {probe : Bytes}
    (h : seamProbe trailing bytes = .ok (some (start, probe))) :
    start + sseDoneMarker.length ≤ trailing.length + min bytes.length (sseDoneMarker.length - 1) := by
  obtain ⟨zeros, hp⟩ := @seamProbe_eq bytes trailing ht
  rw [hp] at h
  split at h
  · cases h
  · obtain ⟨i, hi, hpair⟩ := Option.map_eq_some_iff.1 (Except.ok.inj h)
    obtain rfl : i = start := congrArg Prod.fst hpair
    have hle := (Find.first_eq_some.1 hi).1.le marker_ne_nil
    rw [List.length_append, List.length_take] at hle
    rw [marker_length] at hle ⊢
    omega

theorem seamInRange_of_tail (ht : trailing.length ≤ 11) : SeamInRange trailing bytes where
  fits := by
    rw [marker_length]
    omega
  probes := by
    obtain ⟨zeros, hp⟩ := @seamProbe_eq bytes trailing ht
    exact ⟨_, hp⟩
  start_lt := by
    intro start probe h
    have hle := seamProbe_found ht h
    rw [marker_length] at hle
    omega
  currentStart := by
    intro start probe h
    have hle := seamProbe_found ht h
    rw [marker_length] at hle ⊢
    refine ⟨12 - (trailing.length - start), checkedSub_of_le (by omega), by omega, by omega⟩

/-! ## One call -/

theorem TailInv.inspect (h : TailInv d) (key : Bytes) (amb : Ambient) (bytes hasher : Bytes) :
    ∃ events d' hasher', d.inspect P key amb bytes hasher = .ok (events, d', hasher') ∧ TailInv d' := by
  obtain ⟨events, d', hasher', hok, hheld, -⟩ := inspect_held P key amb hasher h.held
  exact ⟨events, d', hasher', hok, hheld, (inspect_conserves P key amb hasher h.held h.drained hok).2⟩

theorem TailInv.shutdownEvents (h : TailInv d) (key : Bytes) (amb : Ambient) (hasher : Bytes) :
    TailInv (d.shutdownEvents P key amb hasher).2.1 := by
  refine ⟨shutdownEvents_trailing_le P key amb hasher h.held, ?_⟩
  unfold DoneDetector.shutdownEvents
  split
  · exact h.drained
  · exact fun _ => rfl

theorem TailInv.finish (d : DoneDetector) (hasher : Bytes) : TailInv (d.finish hasher).2.1 :=
  ⟨finish_trailing_le d hasher, fun _ => finish_trailing d hasher⟩

theorem TailInv.after (h : TailInv d) (call : DetectorCall) : ∃ d', d.after P call = .ok d' ∧ TailInv d' := by
  cases call with
  | inspect key amb bytes hasher =>
    obtain ⟨events, d', hasher', hok, hinv⟩ := h.inspect (P := P) key amb bytes hasher
    exact ⟨d', by simp [DoneDetector.after, hok], hinv⟩
  | shutdownEvents key amb hasher => exact ⟨_, rfl, h.shutdownEvents key amb hasher⟩
  | finish hasher => exact ⟨_, rfl, .finish d hasher⟩

/-! ## Any calls -/

theorem TailInv.calls (P : Primitives) (h : TailInv d) (calls : List DetectorCall) :
    ∃ d', calls.foldlM (DoneDetector.after P) d = .ok d' ∧ TailInv d' := by
  induction calls generalizing d with
  | nil => exact ⟨d, rfl, h⟩
  | cons call calls ih =>
    obtain ⟨d1, hcall, h1⟩ := h.after (P := P) call
    obtain ⟨d2, hcalls, h2⟩ := ih h1
    exact ⟨d2, by rw [List.foldlM_cons, hcall, bind_ok, hcalls], h2⟩

end

/-- **No panic.** Whatever was called on a fresh detector, every call returned, at most 11 bytes are held
and none after a receipt, and the next `inspect` stays in range whatever its segment is. -/
theorem detector_in_range (P : Primitives) (requestId tenantId upstreamUrl policyDigest pcr0 : String)
    (calls : List DetectorCall) : ∃ d,
      calls.foldlM (DoneDetector.after P) (.new requestId tenantId upstreamUrl policyDigest pcr0) = .ok d ∧
      d.trailing.length ≤ 11 ∧ (d.completed = true → d.trailing = []) ∧
      ∀ (key : Bytes) (amb : Ambient) (bytes hasher : Bytes),
        (∃ events d' hasher', d.inspect P key amb bytes hasher = .ok (events, d', hasher')) ∧
        SeamInRange d.trailing bytes := by
  have hnew : TailInv (.new requestId tenantId upstreamUrl policyDigest pcr0) := ⟨Nat.zero_le _, fun _ => rfl⟩
  obtain ⟨d, hcalls, hinv⟩ := hnew.calls P calls
  refine ⟨d, hcalls, hinv.held, hinv.drained, ?_⟩
  intro key amb bytes hasher
  obtain ⟨events, d', hasher', hok, -⟩ := hinv.inspect (P := P) key amb bytes hasher
  exact ⟨⟨events, d', hasher', hok⟩, seamInRange_of_tail hinv.held⟩

end PiiProxy
