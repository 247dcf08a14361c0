import PiiProxy.Receipt

/-!
# `DoneDetector`: finding `data: [DONE]` in a stream cut anywhere (lib.rs:976-1187)

| here | there |
| --- | --- |
| `StreamEvent`          | `StreamEvent` (lib.rs:110); an audit event is kept as the receipt and signature its bytes are built from (`StreamEvent.bytes`) |
| `DoneDetector.inspect` | `DoneDetector::inspect` (lib.rs:1009); `seamProbe` is its probe array (lib.rs:1038-1049), `retainTail` its last part (lib.rs:1067-1107) |
| `receiptEvents`, `finish`, `shutdownEvents` | lib.rs:1110, 1157, 1166 |
| `Ambient`              | what a receipt reads at the moment it is built: the shared request hasher and the clock |

The hasher passed in by the caller is the list of bytes it was fed. Everything
that can panic in the source is checked here; `inspect_completed`, `inspect_inside`,
`inspect_seam`, `inspect_long` and `inspect_short` give the five paths with the
checks discharged, and `inspect_cases` what one call does to the stream.
-/

namespace PiiProxy

open Utf8 (encode)

/-- `SSE_DONE_MARKER` (lib.rs:58). -/
def sseDoneMarker : Bytes := encode "data: [DONE]"

inductive StreamEvent where
  | data (bytes : Bytes)
  | auditReceipt (frame : AuditFrame)
  | doneMarker (bytes : Bytes)
deriving DecidableEq, Repr

/-- What `forward_stream_events` puts on the wire (lib.rs:962-967). -/
def StreamEvent.bytes (P : Primitives) : StreamEvent → Bytes
  | .data b => b
  | .auditReceipt f => f.bytes P
  | .doneMarker b => b

structure DoneDetector where
  trailing : Bytes
  completed : Bool
  requestId : String
  tenantId : String
  upstreamUrl : String
  policyDigest : String
  pcr0 : String
deriving DecidableEq, Repr

structure Ambient where
  /-- What the request hasher has been fed. -/
  requestHashed : Bytes
  /-- Seconds since the epoch. -/
  now : Nat

/-- `if !b.is_empty() { events.push(Data(b)) }`. -/
def dataEvents (b : Bytes) : List StreamEvent := if b = [] then [] else [.data b]

namespace DoneDetector

def new (requestId tenantId upstreamUrl policyDigest pcr0 : String) : DoneDetector :=
  { trailing := [], completed := false, requestId, tenantId, upstreamUrl, policyDigest, pcr0 }

/-- The receipt `receipt_events` signs once the hasher holds `hasher`. -/
def receipt (P : Primitives) (amb : Ambient) (d : DoneDetector) (hasher : Bytes) : AttestedReceipt :=
  let payloadHash := toHex (P.blake3 hasher)
  let requestHash := toHex (P.blake3 amb.requestHashed)
  let tupleDigest := canonicalReceiptDigest P d.requestId d.tenantId d.upstreamUrl requestHash
    d.policyDigest d.pcr0 payloadHash
  { requestId := d.requestId, tenantId := d.tenantId, upstreamUrl := d.upstreamUrl
    requestHash := requestHash, payloadHash := payloadHash, policyDigest := d.policyDigest
    pcr0 := d.pcr0, tupleDigest := toHex tupleDigest, timestamp := amb.now }

/-- The signature is over the tuple digest's bytes. -/
def auditFrame (P : Primitives) (key : Bytes) (amb : Ambient) (d : DoneDetector) (hasher : Bytes) :
    AuditFrame :=
  let r := d.receipt P amb hasher
  { receipt := r
    signature := P.b64 (P.sign key (canonicalReceiptDigest P r.requestId r.tenantId r.upstreamUrl
      r.requestHash r.policyDigest r.pcr0 r.payloadHash)) }

def receiptEvents (P : Primitives) (key : Bytes) (amb : Ambient) (d : DoneDetector)
    (done hasher : Bytes) : List StreamEvent × DoneDetector :=
  ([.auditReceipt (d.auditFrame P key amb hasher), .doneMarker done], { d with completed := true })

/-- The search across the seam: the held tail and the first bytes of the segment are
copied into a 24-byte array. Gives the marker's offset in the array, and the array. -/
def seamProbe (trailing bytes : Bytes) : Except Panic (Option (Nat × Bytes)) := do
  if trailing = [] then return none
  let probeLen := min bytes.length (sseDoneMarker.length - 1)
  let probe := List.replicate (sseDoneMarker.length * 2) 0
  let probe ← copyFromSlice probe 0 trailing.length trailing
  let head ← slice bytes 0 probeLen
  let probe ← copyFromSlice probe trailing.length (trailing.length + probeLen) head
  let window ← slice probe 0 (trailing.length + probeLen)
  return (Find.first sseDoneMarker window).map fun start => (start, probe)

/-- What is left of the segment once the marker has taken its head (lib.rs:1060). -/
def afterMarker (bytes : Bytes) (currentStart : Nat) : Except Panic (List StreamEvent) := do
  if currentStart < bytes.length then
    let rest ← slice bytes currentStart bytes.length
    return [.data rest]
  else return []

/-- No marker yet: keep the last `marker_len - 1` bytes, emit what is before them. -/
def retainTail (d : DoneDetector) (bytes hasher : Bytes) :
    Except Panic (List StreamEvent × DoneDetector × Bytes) := do
  let retainLen := sseDoneMarker.length - 1
  if retainLen ≤ bytes.length then
    -- `split` empties the buffer, and the test before `update` (lib.rs:1074) reads it after that
    let held := d.trailing
    let trailing : Bytes := []
    let hasher := if trailing = [] then hasher else hasher ++ held
    let emitLen ← checkedSub bytes.length retainLen
    let data ← slice bytes 0 emitLen
    let tail ← slice bytes emitLen bytes.length
    return (dataEvents held ++ dataEvents data, { d with trailing := trailing ++ tail }, hasher ++ data)
  else
    let held := d.trailing ++ bytes
    let emitLen := held.length - retainLen
    if emitLen = 0 then
      return ([], { d with trailing := held }, hasher)
    let data ← slice held 0 emitLen
    let tail ← slice held emitLen held.length
    return ([.data data], { d with trailing := tail }, hasher ++ data)

def inspect (P : Primitives) (key : Bytes) (amb : Ambient) (d : DoneDetector) (bytes hasher : Bytes) :
    Except Panic (List StreamEvent × DoneDetector × Bytes) := do
  if d.completed then return ([.data bytes], d, hasher)
  match Find.first sseDoneMarker bytes with
  | some start =>
    let hasher := hasher ++ d.trailing
    let beforeDone ← slice bytes 0 start
    let hasher := hasher ++ beforeDone
    let done ← slice bytes start bytes.length
    let (receipt, d') := { d with trailing := [] }.receiptEvents P key amb done hasher
    return (dataEvents d.trailing ++ dataEvents beforeDone ++ receipt, d', hasher)
  | none =>
    match ← seamProbe d.trailing bytes with
    | some (start, probe) =>
      let inTail ← checkedSub d.trailing.length start
      let currentStart ← checkedSub sseDoneMarker.length inTail
      let before ← slice d.trailing 0 start
      let marker ← slice probe start (start + sseDoneMarker.length)
      let hasher := hasher ++ before
      let (receipt, d') := { d with trailing := [] }.receiptEvents P key amb marker hasher
      let after ← afterMarker bytes currentStart
      return (dataEvents before ++ receipt ++ after, d', hasher)
    | none => d.retainTail bytes hasher

def finish (d : DoneDetector) (hasher : Bytes) : List StreamEvent × DoneDetector × Bytes :=
  if d.trailing = [] then ([], d, hasher)
  else ([.data d.trailing], { d with trailing := [] }, hasher ++ d.trailing)

/-- The marker of a stream cut off by a shutdown (lib.rs:1180). -/
def shutdownMarker : Bytes := encode "data: [ERROR: KILLED BY SHUTDOWN]\n\n"

def shutdownEvents (P : Primitives) (key : Bytes) (amb : Ambient) (d : DoneDetector) (hasher : Bytes) :
    List StreamEvent × DoneDetector × Bytes :=
  if d.completed then ([], d, hasher)
  else
    let hasher := hasher ++ d.trailing
    let (receipt, d') := { d with trailing := [] }.receiptEvents P key amb shutdownMarker hasher
    (dataEvents d.trailing ++ receipt, d', hasher)

/-! ## The five paths of `inspect` -/

theorem marker_length : sseDoneMarker.length = 12 := by decide

theorem marker_ne_nil : sseDoneMarker ≠ [] := by decide

section Paths

variable (P : Primitives) (key : Bytes) (amb : Ambient) (hasher : Bytes) {d : DoneDetector} {bytes : Bytes}
  {i : Nat}

theorem inspect_completed (hc : d.completed = true) :
    d.inspect P key amb bytes hasher = .ok ([.data bytes], d, hasher) := by
  simp [inspect, hc]

/-- The marker lies inside the segment. -/
theorem inspect_inside (hc : d.completed = false) (h : Find.first sseDoneMarker bytes = some i) :
    d.inspect P key amb bytes hasher = .ok
      (dataEvents d.trailing ++ dataEvents (bytes.take i) ++
        [.auditReceipt (d.auditFrame P key amb (hasher ++ d.trailing ++ bytes.take i)),
          .doneMarker (bytes.drop i)],
        { d with trailing := [], completed := true }, hasher ++ d.trailing ++ bytes.take i) := by
  have hi : i ≤ bytes.length := by have := Find.first_lt marker_ne_nil h; omega
  simp only [inspect, hc, h, slice_to hi, slice_from hi]
  rfl

/-- With at most 11 bytes held, the probe array has room for the tail and the head of
the segment, and its window is their concatenation. -/
theorem seamProbe_eq {trailing : Bytes} (ht : trailing.length ≤ 11) :
    ∃ zeros, seamProbe trailing bytes = .ok (if trailing = [] then none else
      (Find.first sseDoneMarker (trailing ++ bytes.take 11)).map
        fun start => (start, trailing ++ bytes.take 11 ++ zeros)) := by
  by_cases hnil : trailing = []
  · exact ⟨[], by simp [seamProbe, hnil]⟩
  · have hlen : (bytes.take 11).length = min bytes.length 11 := by simp [Nat.min_comm]
    have h1 : copyFromSlice (List.replicate 24 0) 0 trailing.length trailing =
        .ok (trailing ++ List.replicate (24 - trailing.length) 0) := by
      simp only [copyFromSlice, List.length_replicate]
      rw [if_pos (by omega), List.drop_replicate]
      rfl
    have h2 : slice bytes 0 (min bytes.length 11) = .ok (bytes.take 11) := by
      rw [slice_to (by omega)]
      by_cases hb : bytes.length ≤ 11
      · rw [Nat.min_eq_left hb, List.take_length, List.take_of_length_le hb]
      · rw [Nat.min_eq_right (by omega)]
    refine ⟨List.replicate (24 - trailing.length - min bytes.length 11) 0, ?_⟩
    have h3 : copyFromSlice (trailing ++ List.replicate (24 - trailing.length) 0) trailing.length
        (trailing.length + min bytes.length 11) (bytes.take 11) =
        .ok (trailing ++ bytes.take 11 ++
          List.replicate (24 - trailing.length - min bytes.length 11) 0) := by
      simp only [copyFromSlice, List.length_append, List.length_replicate, hlen]
      rw [if_pos (by omega), List.take_left, ← List.drop_drop, List.drop_left, List.drop_replicate]
    have h4 : slice (trailing ++ bytes.take 11 ++
          List.replicate (24 - trailing.length - min bytes.length 11) (0 : UInt8)) 0
        (trailing.length + min bytes.length 11) = .ok (trailing ++ bytes.take 11) := by
      rw [slice_to (by simp only [List.length_append, hlen]; omega), ← hlen,
        ← List.length_append, List.take_left]
    simp only [seamProbe, hnil, if_false, marker_length, Nat.reduceMul, Nat.reduceSub, h1, h2, h3, h4,
      bind_ok, pure_eq_ok]

theorem seamProbe_none {trailing : Bytes} (ht : trailing.length ≤ 11)
    (hno : ¬ Find.Has sseDoneMarker (trailing ++ bytes.take 11)) :
    seamProbe trailing bytes = .ok none := by
  obtain ⟨zeros, h⟩ := @seamProbe_eq bytes trailing ht
  rw [h, Find.first_eq_none.2 hno]
  split <;> rfl

theorem afterMarker_eq {n : Nat} : afterMarker bytes n = .ok (dataEvents (bytes.drop n)) := by
  by_cases h : n < bytes.length
  · have hne : bytes.drop n ≠ [] := by simp; omega
    simp [afterMarker, h, slice_from (Nat.le_of_lt h), dataEvents, hne]
  · have hnil : bytes.drop n = [] := by simp; omega
    simp [afterMarker, h, dataEvents, hnil]

/-- The marker lies across the held tail and the segment. -/
theorem inspect_seam (hc : d.completed = false) (ht : d.trailing.length ≤ 11)
    (hno : ¬ Find.Has sseDoneMarker bytes)
    (h : Find.first sseDoneMarker (d.trailing ++ bytes.take 11) = some i) :
    i < d.trailing.length ∧ d.trailing.length < i + 12 ∧ i + 12 ≤ d.trailing.length + bytes.length ∧
    d.inspect P key amb bytes hasher = .ok
      (dataEvents (d.trailing.take i) ++
        [.auditReceipt (d.auditFrame P key amb (hasher ++ d.trailing.take i)),
          .doneMarker sseDoneMarker] ++
        dataEvents (bytes.drop (12 - (d.trailing.length - i))),
        { d with trailing := [], completed := true }, hasher ++ d.trailing.take i) := by
  have hat := (Find.first_eq_some.1 h).1
  have hle := hat.le marker_ne_nil
  rw [marker_length] at hle
  simp only [List.length_append, List.length_take] at hle
  have hlt : i < d.trailing.length := by omega
  have hcross : d.trailing.length < i + 12 := by
    -- a marker inside the tail alone would need twelve bytes of it
    omega
  refine ⟨hlt, hcross, by omega, ?_⟩
  have hne : d.trailing ≠ [] := by rintro h0; simp [h0] at hlt
  obtain ⟨zeros, hp⟩ := @seamProbe_eq bytes d.trailing ht
  simp only [hne, if_false, h, Option.map_some] at hp
  have hmarker : slice (d.trailing ++ bytes.take 11 ++ zeros) i (i + 12) = .ok sseDoneMarker := by
    rw [slice, if_pos ⟨by omega, by simp; omega⟩, List.drop_take]
    have hz : Find.At sseDoneMarker (d.trailing ++ bytes.take 11 ++ zeros) i :=
      (Find.at_append_left (hat.le marker_ne_nil)).2 hat
    have := hz.take_eq
    rw [marker_length] at this
    rw [show i + 12 - i = 12 by omega, this]
  have hin := checkedSub_of_le (Nat.le_of_lt hlt)
  have hstart := checkedSub_of_le (show d.trailing.length - i ≤ 12 by omega)
  simp only [inspect, hc, Find.first_eq_none.2 hno, hp, marker_length, bind_ok, hin, hstart,
    slice_to (Nat.le_of_lt hlt), hmarker, afterMarker_eq, Bool.false_eq_true, if_false]
  rfl

/-- A segment of at least 11 bytes: the held tail goes out with it, but only the
segment's own bytes reach the hasher. -/
theorem inspect_long (hc : d.completed = false) (ht : d.trailing.length ≤ 11)
    (hno : ¬ Find.Has sseDoneMarker bytes)
    (hseam : ¬ Find.Has sseDoneMarker (d.trailing ++ bytes.take 11)) (hlen : 11 ≤ bytes.length) :
    d.inspect P key amb bytes hasher = .ok
      (dataEvents d.trailing ++ dataEvents (bytes.take (bytes.length - 11)),
        { d with trailing := bytes.drop (bytes.length - 11) },
        hasher ++ bytes.take (bytes.length - 11)) := by
  simp only [inspect, hc, Find.first_eq_none.2 hno, seamProbe_none ht hseam, bind_ok, Bool.false_eq_true,
    if_false, retainTail, marker_length, Nat.reduceSub, hlen, if_true, checkedSub_of_le hlen,
    slice_to (Nat.sub_le _ _), slice_from (Nat.sub_le _ _)]
  rfl

/-- A segment of fewer than 11 bytes joins the held tail. -/
theorem inspect_short (hc : d.completed = false) (ht : d.trailing.length ≤ 11)
    (hno : ¬ Find.Has sseDoneMarker bytes)
    (hseam : ¬ Find.Has sseDoneMarker (d.trailing ++ bytes.take 11)) (hlen : bytes.length < 11) :
    d.inspect P key amb bytes hasher = .ok
      (dataEvents ((d.trailing ++ bytes).take ((d.trailing ++ bytes).length - 11)),
        { d with trailing := (d.trailing ++ bytes).drop ((d.trailing ++ bytes).length - 11) },
        hasher ++ (d.trailing ++ bytes).take ((d.trailing ++ bytes).length - 11)) := by
  simp only [inspect, hc, Find.first_eq_none.2 hno, seamProbe_none ht hseam, bind_ok, Bool.false_eq_true,
    if_false, retainTail, marker_length, Nat.reduceSub, show ¬ 11 ≤ bytes.length by omega]
  generalize d.trailing ++ bytes = held
  by_cases h0 : held.length - 11 = 0
  · simp [h0, dataEvents]
  · have hne : held.take (held.length - 11) ≠ [] := by
      intro h; have := congrArg List.length h; simp at this; omega
    simp only [h0, if_false, slice_to (Nat.sub_le _ _), slice_from (Nat.sub_le _ _), bind_ok,
      dataEvents, hne]
    rfl

end Paths

end DoneDetector

end PiiProxy
