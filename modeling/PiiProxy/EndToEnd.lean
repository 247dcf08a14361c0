import PiiProxy.Attestation
import PiiProxy.DetectorLines
import PiiProxy.Serde
import PiiProxy.TaskPipeline

/-!
# From the stream to the verifier's exit code

| here | there |
| --- | --- |
| `checkTranscript`, `main` | `main` of verify_receipt.py (lines 231-253), from the parsed arguments on |

An enclave serves its key in an attestation document and signs a receipt into the stream; the
client saves the bytes it was sent and runs the script on them and on the document. The proxy's
half is the stream task with its redactor and detector, the script's half `hash_transcript` and
`extract_attested_identity`, and the crates and packages between them agree on BLAKE3, Ed25519,
base64 and JSON.

* `run_frames_issued` — every receipt of a run names the request and is signed
* `hashTranscript_unsigned` — a transcript without an audit event before its marker is refused
* `transcript_verifies_iff` — which complete streams the script accepts
-/

namespace PiiProxy

open Utf8 (encode)
open Lines (lines)
open Find (first Has At)

/-- A `ValueError`, by its class or by a subclass. -/
def PyError.isValueError : PyError → Bool
  | .valueError _ | .jsonDecodeError _ | .unicodeEncodeError _ | .unicodeDecodeError _ | .binasciiError _ => true
  | _ => false

namespace VerifyReceipt

/-- The text of a `str` that is all characters. -/
def textOf (s : PyStr) : String := String.ofList (s.map Char.ofNat)

section Script

variable (py : PyJson) (keys : PyKeys) (C : PyCbor) (X : PyX509) (blake3 : Bytes → Bytes)

/-- The `try` block of `main`. -/
def checkTranscript (attestationDoc expectedPcr0 : PyStr) (root : Option Bytes) (transcript : Bytes) :
    Except PyError Unit := do
  let document ← decodeBytes keys attestationDoc
  let publicKey ← extractAttestedIdentity C X document expectedPcr0 root
  let hashed ← hashTranscript py blake3 transcript
  let declared ← hashed.receipt.index "payload_hash"
  if declared.chars ≠ pyStr hashed.computed then
    throw (.valueError
      ("BLAKE3 mismatch: computed " ++ hashed.computed ++ ", transcript declares " ++ textOf declared.chars))
  verifySignature keys hashed.tupleDigest hashed.signature publicKey

/-- The exit code; another exception than these ends the script with a traceback. -/
def main (attestationDoc expectedPcr0 : PyStr) (root : Option Bytes) (transcript : Bytes) : Except PyError Nat :=
  match checkTranscript py keys C X blake3 attestationDoc expectedPcr0 root transcript with
  | .ok () => .ok 0
  | .error e => if e.isValueError then .ok 1 else .error e

end Script

end VerifyReceipt

/-! ## The receipts of a run -/

section Issued

variable {P : Primitives} {key : Bytes}

/-- A call on any clock: it has no receipt, or one that the clock alone can change. -/
theorem inspect_forms {d : DoneDetector} (ht : d.trailing.length ≤ 11) (bytes hasher : Bytes) :
    (∃ evs trailing fed, ∀ amb, d.inspect P key amb bytes hasher = .ok (evs, { d with trailing := trailing }, fed)) ∨
    (∃ pre done post fed, ∀ amb, d.inspect P key amb bytes hasher =
      .ok (pre ++ .auditReceipt (d.auditFrame P key amb fed) :: .doneMarker done :: post,
        { d with trailing := [], completed := true }, fed)) := by
  by_cases hc : d.completed = true
  · exact .inl ⟨_, d.trailing, _, fun amb => DoneDetector.inspect_completed P key amb hasher hc⟩
  · rw [Bool.not_eq_true] at hc
    by_cases hin : Has sseDoneMarker bytes
    · obtain ⟨i, hi⟩ := Find.has_iff_first.1 hin
      exact .inr ⟨_, _, [], _, fun amb => DoneDetector.inspect_inside P key amb hasher hc hi⟩
    · by_cases hseam : Has sseDoneMarker (d.trailing ++ bytes.take 11)
      · obtain ⟨i, hi⟩ := Find.has_iff_first.1 hseam
        refine .inr ⟨dataEvents (d.trailing.take i), sseDoneMarker,
          dataEvents (bytes.drop (12 - (d.trailing.length - i))), hasher ++ d.trailing.take i, fun amb => ?_⟩
        rw [(DoneDetector.inspect_seam P key amb hasher hc ht hin hi).2.2.2]
        simp
      · by_cases hlen : 11 ≤ bytes.length
        · exact .inl ⟨_, _, _, fun amb => DoneDetector.inspect_long P key amb hasher hc ht hin hseam hlen⟩
        · exact .inl ⟨_, _, _, fun amb => DoneDetector.inspect_short P key amb hasher hc ht hin hseam (by omega)⟩

/-- A call changes the tail and the flag of a detector, not its request. -/
theorem inspect_request {amb : Ambient} {d d' : DoneDetector} {bytes hasher hasher' : Bytes} {evs : List StreamEvent}
    (ht : d.trailing.length ≤ 11) (h : d.inspect P key amb bytes hasher = .ok (evs, d', hasher')) :
    ∃ trailing completed, d' = { d with trailing := trailing, completed := completed } := by
  rcases @inspect_forms P key d ht bytes hasher with
    ⟨_, trailing, _, hall⟩ | ⟨_, _, _, _, hall⟩
  · rw [hall amb] at h
    cases h
    exact ⟨trailing, d.completed, rfl⟩
  · rw [hall amb] at h
    cases h
    exact ⟨[], true, rfl⟩

/-- **Every receipt of a run** is the one the detector builds for its request at one of the calls. -/
theorem run_frames_issued : ∀ {segs : List (Bytes × Ambient)} {d d' : DoneDetector} {hasher hasher' : Bytes}
    {outs : List (List StreamEvent)}, d.trailing.length ≤ 11 →
    d.run P key hasher (inspects segs) = .ok (outs, d', hasher') →
    ∀ frame, .auditReceipt frame ∈ outs.flatten → ∃ amb fed, amb ∈ segs.map Prod.snd ∧ frame = d.auditFrame P key amb fed
  | [], _, _, _, _, _, _, h => by
    cases h
    simp
  | seg :: segs, d, _, hasher, _, _, ht, h => by
    obtain ⟨evs, d1, h1, outs, hcall, hrun, rfl⟩ := run_cons_inv h
    obtain ⟨ht1, hframes⟩ := inspect_ok P key seg.2 hasher ht hcall
    obtain ⟨trailing, completed, rfl⟩ := inspect_request ht hcall
    intro frame hf
    rw [List.flatten_cons, List.mem_append] at hf
    rcases hf with hf | hf
    · obtain ⟨-, -, fed, rfl⟩ := hframes frame hf
      exact ⟨seg.2, fed, by simp, rfl⟩
    · obtain ⟨amb, fed, hamb, rfl⟩ := run_frames_issued ht1 hrun frame hf
      exact ⟨amb, fed, List.mem_cons_of_mem _ hamb, rfl⟩

end Issued

/-! ## The conditions look at bytes only -/

/-- An event but for what is in a receipt. -/
def StreamEvent.outline : StreamEvent → Option StreamEvent
  | .auditReceipt _ => none
  | e => some e

section Bytewise

variable {segs segs' : List (Bytes × Ambient)}

theorem stream_congr (h : segs.map Prod.fst = segs'.map Prod.fst) : stream segs = stream segs' := by
  rw [stream, stream, h]

/-- A cut of one list of segments is a cut of any other with the same bytes. -/
theorem exists_cut (h : segs.map Prod.fst = segs'.map Prod.fst) {pre post : List (Bytes × Ambient)} {seg : Bytes × Ambient}
    (hcut : segs' = pre ++ seg :: post) : ∃ pre' seg' post', segs = pre' ++ seg' :: post' ∧
      stream pre' = stream pre ∧ seg'.1 = seg.1 := by
  rw [hcut, List.map_append, List.map_cons, List.map_eq_append_iff] at h
  obtain ⟨pre', rest, rfl, hpre, hrest⟩ := h
  obtain ⟨seg', post', rfl, hseg, -⟩ := List.map_eq_cons_iff.1 hrest
  exact ⟨pre', seg', post', rfl, stream_congr hpre, hseg⟩

theorem TailHashed.congr (h : segs.map Prod.fst = segs'.map Prod.fst) (ht : TailHashed segs) : TailHashed segs' := by
  intro hhas pre seg post hcut hno hlen
  obtain ⟨pre', seg', post', hcut', hpre, hseg⟩ := exists_cut h hcut
  rw [← stream_congr h] at hhas
  rw [← hpre] at hno ⊢
  rw [← hseg] at hno hlen
  exact ht hhas pre' seg' post' hcut' hno hlen

theorem SeamAlone.congr (h : segs.map Prod.fst = segs'.map Prod.fst) (hs : SeamAlone segs) : SeamAlone segs' := by
  intro pre seg post i hcut hno hi hlt
  obtain ⟨pre', seg', post', hcut', hpre, hseg⟩ := exists_cut h hcut
  rw [← hpre] at hno hi hlt
  rw [← hseg] at hi ⊢
  exact hs pre' seg' post' i hcut' hno hi hlt

theorem MarkerStartsLine.congr (h : segs.map Prod.fst = segs'.map Prod.fst) (hm : MarkerStartsLine segs) :
    MarkerStartsLine segs' := by
  intro pre seg post i hcut hno hi
  obtain ⟨pre', seg', post', hcut', hpre, hseg⟩ := exists_cut h hcut
  rw [← hpre] at hno hi
  rw [← hseg] at hi
  rw [← stream_congr h]
  exact hm pre' seg' post' i hcut' hno hi

theorem dataBytes_outline {evs evs' : List StreamEvent} (h : evs.map StreamEvent.outline = evs'.map StreamEvent.outline) :
    dataBytes evs = dataBytes evs' := by
  have hone : ∀ evs : List StreamEvent,
      dataBytes evs = (evs.map StreamEvent.outline).flatMap fun e => dataBytes e.toList := by
    intro evs
    induction evs with
    | nil => rfl
    | cons e evs ih =>
      rw [List.map_cons, List.flatMap_cons, ← ih]
      cases e <;> simp [StreamEvent.outline, dataBytes]
  rw [hone, hone, h]

theorem FedApart.congr {P : Primitives} {evs evs' : List StreamEvent} {fed : Bytes}
    (h : evs.map StreamEvent.outline = evs'.map StreamEvent.outline) (hf : FedApart P evs fed) : FedApart P evs' fed := by
  intro before frame after he
  rw [he, List.map_append, List.map_cons, List.map_eq_append_iff] at h
  obtain ⟨before', rest, rfl, hbefore, hrest⟩ := h
  obtain ⟨e, after', rfl, hreceipt, -⟩ := List.map_eq_cons_iff.1 hrest
  cases e with
  | auditReceipt frame' => exact dataBytes_outline hbefore ▸ hf before' frame' after' rfl
  | data b => cases hreceipt
  | doneMarker b => cases hreceipt

/-- **What is fed and what is sent depend on the segments' bytes**, but for the contents of the receipt. -/
theorem run_outline {P : Primitives} {key : Bytes} : ∀ {segs segs' : List (Bytes × Ambient)} {d d' : DoneDetector}
    {hasher fed : Bytes} {outs : List (List StreamEvent)}, d.trailing.length ≤ 11 →
    segs.map Prod.fst = segs'.map Prod.fst → d.run P key hasher (inspects segs) = .ok (outs, d', fed) →
    ∃ outs', d.run P key hasher (inspects segs') = .ok (outs', d', fed) ∧
      outs.flatten.map StreamEvent.outline = outs'.flatten.map StreamEvent.outline
  | [], segs', _, _, _, _, _, _, hsame, h => by
    obtain rfl : segs' = [] := by simpa using hsame.symm
    exact ⟨_, h, rfl⟩
  | seg :: segs, segs', d, _, hasher, _, _, ht, hsame, h => by
    obtain ⟨seg', rest, rfl, hbytes, hrest⟩ := List.map_eq_cons_iff.1 (hsame.symm.trans List.map_cons)
    obtain ⟨evs, d1, h1, outs, hcall, hrun, rfl⟩ := run_cons_inv h
    obtain ⟨ht1, -⟩ := inspect_ok P key seg.2 hasher ht hcall
    obtain ⟨outs', hrun', hout⟩ := run_outline ht1 hrest.symm hrun
    have hone : ∃ evs', d.inspect P key seg'.2 seg'.1 hasher = .ok (evs', d1, h1) ∧
        evs.map StreamEvent.outline = evs'.map StreamEvent.outline := by
      rw [hbytes]
      rcases @inspect_forms P key d ht seg.1 hasher with ⟨evs', trailing, fed, hall⟩ | ⟨pre, done, post, fed, hall⟩
      · have hcall' := (hall seg.2).symm.trans hcall
        cases hcall'
        exact ⟨_, hall seg'.2, rfl⟩
      · have hcall' := (hall seg.2).symm.trans hcall
        cases hcall'
        refine ⟨_, hall seg'.2, ?_⟩
        simp [StreamEvent.outline]
    obtain ⟨evs', hcall', hevs⟩ := hone
    refine ⟨evs' :: outs', run_cons hcall' hrun', ?_⟩
    rw [List.flatten_cons, List.flatten_cons, List.map_append, List.map_append, hevs, hout]

end Bytewise

/-! ## A marker before the receipt -/

section Before

/-- The letter `d` is the marker's first byte and no other of it. -/
theorem marker_d : ∀ k, (hk : k < sseDoneMarker.length) → (sseDoneMarker[k] = 100 ↔ k = 0) := by decide

/-- No two markers overlap. -/
theorem marker_apart {l : Bytes} {i j : Nat} (hi : At sseDoneMarker l i) (hj : At sseDoneMarker l j) (hij : i < j) :
    i + 12 ≤ j := by
  by_contra hlt
  have hk : j - i < sseDoneMarker.length := by rw [DoneDetector.marker_length]; omega
  have h0 : 0 < sseDoneMarker.length := by decide
  have h1 := Find.at_iff_getElem.1 hi (j - i) hk
  have h2 := Find.at_iff_getElem.1 hj 0 h0
  rw [show i + (j - i) = j + 0 by omega, h2, Option.some.injEq, (marker_d 0 h0).2 rfl] at h1
  have := (marker_d (j - i) hk).1 h1.symm
  omega

variable {P : Primitives} {hasher done fed : Bytes} {pre post segs : List (Bytes × Ambient)} {seg : Bytes × Ambient}
  {evs before after : List StreamEvent} {d : DoneDetector} {frame : AuditFrame}

/-- The bytes before the receipt hold a marker exactly when the receipt is not at the first one. -/
theorem FiringRun.has_marker_iff (f : FiringRun P hasher pre seg.1 segs evs d before after frame done fed)
    (hsegs : segs = pre ++ seg :: post) (hpre : ¬ Has sseDoneMarker (stream pre))
    (hseg : Has sseDoneMarker (stream pre ++ seg.1)) : Has sseDoneMarker (dataBytes before) ↔ ¬ SeamAlone segs := by
  obtain ⟨j, hj⟩ := Find.has_iff_first.1 hseg
  obtain ⟨hat, hfirst⟩ := Find.first_eq_some.1 hj
  rw [seamAlone_iff hsegs hpre hj]
  by_cases hin : Has sseDoneMarker seg.1
  · obtain ⟨k, hk⟩ := Find.has_iff_first.1 hin
    obtain ⟨hatk, hfirstk⟩ := Find.first_eq_some.1 hk
    have hwhole : stream pre ++ seg.1 = (stream pre ++ seg.1.take k) ++ seg.1.drop k := by
      rw [List.append_assoc, List.take_append_drop]
    have hklen := Find.first_lt DoneDetector.marker_ne_nil hk
    rw [DoneDetector.marker_length] at hklen
    have hlen : (stream pre ++ seg.1.take k).length = (stream pre).length + k := by
      rw [List.length_append, List.length_take]
      omega
    rw [f.inside k hk]
    constructor
    · intro hbefore hseam
      obtain ⟨i, hi⟩ := Find.has_iff_first.1 hbefore
      have hile := Find.first_lt DoneDetector.marker_ne_nil hi
      rw [hlen, DoneDetector.marker_length] at hile
      rw [hwhole, Find.first_append_of_some DoneDetector.marker_ne_nil hi, Option.some.injEq] at hj
      by_cases hlt : j < (stream pre).length
      · exact hseam hlt hin
      · exact hfirstk (j - (stream pre).length) (by omega) ((Find.at_append_right' (by omega)).1 hat)
    · intro hseam
      have hlt : j < (stream pre).length := by
        by_contra hge
        exact hseam fun h => absurd h hge
      have hapart := marker_apart hat (Find.at_append_right.2 hatk) (by omega)
      rw [hwhole] at hat
      refine ⟨j, (Find.at_append_left ?_).1 hat⟩
      rw [hlen, DoneDetector.marker_length]
      exact hapart
  · rw [f.across hin j hj]
    refine iff_of_false ?_ fun h => h fun _ => hin
    rintro ⟨i, hi⟩
    have hle := hi.le DoneDetector.marker_ne_nil
    rw [DoneDetector.marker_length, List.length_take] at hle
    refine hfirst i (by omega) ?_
    rw [← List.take_append_drop j (stream pre ++ seg.1)]
    exact (Find.at_append_left (hi.le DoneDetector.marker_ne_nil)).2 hi

end Before

/-! ## A marker with no audit event before it -/

namespace VerifyReceipt

section Unsigned

variable {py : PyJson} {blake3 : Bytes → Bytes} {rest : List Bytes}

/-- Lines without an audit event leave no receipt, if one of them stops the scan or they are all. -/
theorem run_unsigned {ls : List Bytes} : ∀ {s : Scan}, s.Ready → s.receipt = none →
    (∀ l ∈ ls, isAuditEvent l = false) → (∃ l ∈ ls, Has doneMarker l) ∨ rest = [] →
    ∃ s', run py blake3 s (ls ++ rest) = .ok s' ∧ s'.Ready ∧ s'.receipt = none := by
  induction ls with
  | nil =>
    intro s hs hnone _ hstop
    obtain rfl : rest = [] := by simpa using hstop
    exact ⟨s, rfl, hs, hnone⟩
  | cons l ls ih =>
    intro s hs hnone haudit hstop
    rw [List.forall_mem_cons] at haudit
    cases hd : first doneMarker l with
    | some i =>
      exact ⟨_, run_stop hs haudit.1 hd, hs, hnone⟩
    | none =>
      have hs' : Scan.Ready { s with hasher := s.hasher ++ s.pendingLine.getD [], pendingLine := some l } := hs
      have hstop' : (∃ l ∈ ls, Has doneMarker l) ∨ rest = [] := by
        refine hstop.imp_left fun ⟨m, hm, hhas⟩ => ?_
        rcases List.mem_cons.1 hm with rfl | hm
        · exact absurd hhas (Find.first_eq_none.1 hd)
        · exact ⟨m, hm, hhas⟩
      obtain ⟨s', hrun, hready, hnone'⟩ := ih hs' hnone haudit.2 hstop'
      exact ⟨s', by rw [List.cons_append, run_hold hs haudit.1 hd, hrun], hready, hnone'⟩

/-- A text of whole lines with a marker has a line with it. -/
theorem exists_marker_line {p : Bytes} (h : Has doneMarker p) : ∃ l ∈ lines 10 p, Has doneMarker l := by
  by_contra hno
  rw [← Lines.flatten_lines 10 p, Find.has_flatten_iff (by decide)] at h
  rcases h with ⟨l, hl, hhas⟩ | ⟨as, bs, hsplit, u, v, hu, hv, huv, hsuf, hpre⟩
  · exact hno ⟨l, hl, hhas⟩
  · -- the line before the cut ends in a newline, which the marker has not
    have hbs : bs ≠ [] := by
      rintro rfl
      exact hv (List.prefix_nil.1 hpre)
    obtain ⟨as', l, rfl⟩ : ∃ as' l, as = as' ++ [l] := by
      rcases List.eq_nil_or_concat as with rfl | ⟨as', l, rfl⟩
      · exact absurd (List.suffix_nil.1 hsuf) hu
      · exact ⟨as', l, List.concat_eq_append⟩
    obtain ⟨b, -, rfl⟩ := Lines.complete_of_lines_append hsplit hbs l (by simp)
    have hlast : u.getLast? = some 10 := by
      obtain ⟨t, ht⟩ := hsuf
      rw [← List.getLast?_append_of_ne_nil t hu, ht]
      simp
    have hmem : 10 ∈ doneMarker := by
      rw [huv]
      exact List.mem_append_left _ (List.mem_of_getLast? hlast)
    revert hmem
    decide

/-- **No receipt, no result.** A transcript in which no audit event comes before the marker, or that has neither,
is refused. -/
theorem hashTranscript_unsigned {p : Bytes} (after : Bytes) (hp : p = [] ∨ p.getLast? = some 10 ∨ after = [])
    (hlines : ∀ l ∈ lines 10 p, isAuditEvent l = false) (hstop : Has doneMarker p ∨ after = []) :
    hashTranscript py blake3 (p ++ after) = .error (.valueError "no proxy_audit event found before [DONE]") := by
  have hsplit : lines 10 (p ++ after) = lines 10 p ++ lines 10 after := by
    rcases hp with hp | hp | rfl
    · exact Lines.lines_append (.inl hp) after
    · exact Lines.lines_append (.inr hp) after
    · simp
  have hstop' : (∃ l ∈ lines 10 p, Has doneMarker l) ∨ lines 10 after = [] := by
    refine hstop.imp exists_marker_line ?_
    rintro rfl
    exact Lines.lines_nil
  obtain ⟨s, hrun, ⟨hdata, hblank⟩, hnone⟩ :=
    @run_unsigned py blake3 (lines 10 after) (lines 10 p) {} ⟨rfl, rfl⟩ rfl hlines hstop'
  rw [hashTranscript, hsplit, hrun, bind_ok, Scan.finish, hdata, hblank, hnone]
  rfl

end Unsigned

/-! ## The verdict -/

/-- What the crates of the proxy and the packages of the script have in common. -/
structure Interop (P : Primitives) (py : PyJson) (keys : PyKeys) (key publicKey : Bytes) : Prop where
  digest : ∀ b, (P.blake3 b).length = 32
  toJson : ∀ r, P.toJson r = receiptJson r
  b64 : ∀ b, P.b64 b = base64Text b
  json : py.Agrees
  base64 : keys.Agrees
  /-- What the enclave's key signs, the public key verifies. -/
  signature : ∀ m, keys.verify publicKey (P.sign key m) m = .ok ()

/-- A request as the handler makes it, in a release with a PCR0 and a policy. -/
structure Identified (q : Request) (policyDigest : String) : Prop where
  ids : ∀ f ∈ [q.requestId, q.tenantId, q.upstreamUrl], f ≠ "" ∧ (encode f).length < UInt64.size
  pcr0 : ∃ b : Bytes, q.pcr0 = toHex b ∧ b.length = 48
  policy : ∃ b : Bytes, policyDigest = toHex b ∧ b.length = 32

/-- The document attests the key. -/
def Attests (keys : PyKeys) (C : PyCbor) (X : PyX509) (doc expected : PyStr) (root : Option Bytes) (publicKey : Bytes) :
    Prop := ∃ document, decodeBytes keys doc = .ok document ∧ extractAttestedIdentity C X document expected root = .ok publicKey

/-- The stream has a marker, the first of it is found, and all bytes before it are hashed. -/
structure Verifiable (segs : List (Bytes × Ambient)) : Prop where
  marker : Has sseDoneMarker (stream segs)
  first : SeamAlone segs
  hashed : TailHashed segs

section Verdict

variable {P : Primitives} {py : PyJson} {keys : PyKeys} {C : PyCbor} {X : PyX509} {key publicKey transcript : Bytes}
  {doc expected : PyStr} {root : Option Bytes} {q : Request} {policyDigest : String}

theorem isBase64_base64Text (b : Bytes) : IsBase64 (base64Text b) := by
  have hletter : ∀ n < 64, ∀ x ∈ String.utf8EncodeChar (Base64.sextetChar n), isBase64Byte x = true := by decide +kernel
  have hpad : ∀ x ∈ String.utf8EncodeChar '=', isBase64Byte x = true := by decide +kernel
  intro x hx
  rw [base64Text, Utf8.encode_eq, String.toList_ofList, List.mem_flatMap] at hx
  obtain ⟨c, hc, hx⟩ := hx
  exact @Base64.forall_mem_encode (fun c => ∀ x ∈ String.utf8EncodeChar c, isBase64Byte x = true) hletter hpad b c hc x hx

/-- A receipt of the request is read back. -/
theorem shape_issued (hc : Interop P py keys key publicKey) (hq : Identified q policyDigest) (amb : Ambient) (fed : Bytes) :
    Shape ((q.detector policyDigest).receipt P amb fed) := by
  obtain ⟨pcr0, hpcr0⟩ := hq.pcr0
  obtain ⟨policy, hpolicy⟩ := hq.policy
  exact shape_receipt hq.ids hpolicy hpcr0 (hc.digest _) (hc.digest _) (hc.digest _)

/-- The scan comes to the receipt of the request, and to the hash of the lines before it. -/
theorem hashTranscript_issued {p : Bytes} (suffix : Bytes) (hc : Interop P py keys q.key publicKey) (hq : Identified q policyDigest)
    (amb : Ambient) (fed : Bytes) (hnow : amb.now < 2 ^ 64) (hp : p = [] ∨ p.getLast? = some 10)
    (hdone : ¬ Has doneMarker p) (hlines : ∀ l ∈ lines 10 p, isAuditEvent l = false) :
    hashTranscript py P.blake3
        (p ++ (AuditFrame.bytes P ((q.detector policyDigest).auditFrame P q.key amb fed) ++ (doneMarker ++ suffix))) =
      .ok ⟨toHex (P.blake3 p), ((q.detector policyDigest).receipt P amb fed).items,
        ((q.detector policyDigest).receipt P amb fed).digest P,
        pyStr (base64Text (P.sign q.key (((q.detector policyDigest).receipt P amb fed).digest P)))⟩ := by
  have hframe : (q.detector policyDigest).auditFrame P q.key amb fed = ⟨(q.detector policyDigest).receipt P amb fed,
      base64Text (P.sign q.key (((q.detector policyDigest).receipt P amb fed).digest P))⟩ := by
    rw [← hc.b64]
    rfl
  have hread := readBack_serde hc.json (hc.toJson ((q.detector policyDigest).receipt P amb fed)) hnow
    (isBase64_base64Text (P.sign q.key (((q.detector policyDigest).receipt P amb fed).digest P)))
  rw [hframe]
  exact @hashTranscript_frame py P _ _ p [] suffix hp hdone hlines (by simp) plain_nil (shape_issued hc hq amb fed) rfl
    (isBase64_base64Text _) hread

theorem main_of_error (hid : Attests keys C X doc expected root publicKey) {text : String}
    (h : hashTranscript py P.blake3 transcript = .error (.valueError text)) :
    main py keys C X P.blake3 doc expected root transcript = .ok 1 := by
  obtain ⟨document, hdoc, hkey⟩ := hid
  simp only [main, checkTranscript, hdoc, hkey, h, bind_ok, bind_error]
  rfl

/-- A transcript that was hashed up to the receipt of the proxy. -/
theorem main_of_hashed (hc : Interop P py keys key publicKey) (hid : Attests keys C X doc expected root publicKey)
    {r : AttestedReceipt} {p : Bytes} (h : hashTranscript py P.blake3 transcript =
      .ok ⟨toHex (P.blake3 p), r.items, r.digest P, pyStr (base64Text (P.sign key (r.digest P)))⟩) :
    (r.payloadHash = toHex (P.blake3 p) → main py keys C X P.blake3 doc expected root transcript = .ok 0) ∧
    (r.payloadHash ≠ toHex (P.blake3 p) → main py keys C X P.blake3 doc expected root transcript = .ok 1) := by
  obtain ⟨document, hdoc, hkey⟩ := hid
  have hindex : r.items.index "payload_hash" = .ok (.str (pyStr r.payloadHash)) := (index_items r).2.2.2.2.1
  have hsig : verifySignature keys (r.digest P) (pyStr (base64Text (P.sign key (r.digest P)))) publicKey = .ok () := by
    simp only [verifySignature, hc.base64 _, bind_ok, hc.signature _]
  simp only [main, checkTranscript, hdoc, hkey, h, hindex, bind_ok, Json.chars, hsig]
  constructor
  · intro he
    rw [he]
    simp
  · intro hne
    have hne' : pyStr r.payloadHash ≠ pyStr (toHex (P.blake3 p)) := fun he => hne (pyStr_injective he)
    simp only [hne', ne_eq, not_false_eq_true, if_true]
    rfl

/-- A firing run, from the bytes before its receipt on. -/
theorem FiringRun.after_eq {hasher done fed : Bytes} {pre post segs : List (Bytes × Ambient)} {seg : Bytes × Ambient}
    {evs before after : List StreamEvent} {d : DoneDetector} {frame : AuditFrame} {i : Nat}
    (f : FiringRun P hasher pre seg.1 segs evs d before after frame done fed) (hsegs : segs = pre ++ seg :: post)
    (hi : markerPlace (stream pre) seg.1 = some i) : ∃ t, done ++ dataBytes after = doneMarker ++ t := by
  have hdrop : done ++ dataBytes after = (stream pre ++ seg.1).drop i ++ stream post := by
    apply @List.append_cancel_left _ (dataBytes before)
    rw [← List.append_assoc, f.conserved, f.before_eq hi, ← List.append_assoc, List.take_append_drop, hsegs, stream_append,
      stream_cons, List.append_assoc]
  obtain ⟨t, ht⟩ := markerPlace_at hi
  exact ⟨t ++ stream post, by rw [hdrop, ← ht, List.append_assoc]; rfl⟩

section Detector

variable {segs : List (Bytes × Ambient)} {evs : List (List StreamEvent)} {d' : DoneDetector} {hasher' : Bytes}

/-- What the detector puts on the wire, up to the end of the stream. -/
def wire (P : Primitives) (evs : List (List StreamEvent)) (d : DoneDetector) (hasher : Bytes) : Bytes :=
  (evs.flatten ++ (d.finish hasher).1).flatMap (StreamEvent.bytes P)

theorem wire_quiet {d : DoneDetector} (ht : d.trailing = [])
    (q : QuietRun d [] [] segs evs.flatten d' hasher') : wire P evs d' hasher' = stream segs := by
  have hdata := q.onlyData.append (finish_onlyData d' hasher')
  have hconserved := q.conserved
  rw [ht, List.nil_append] at hconserved
  rw [wire, hdata.wire, dataBytes_append, hconserved, ← (finish_onlyData d' hasher').streamBytes_eq,
    streamBytes_finish]

theorem wire_fires {pre post : List (Bytes × Ambient)} {seg : Bytes × Ambient} {before after : List StreamEvent}
    {frame : AuditFrame} {done fed : Bytes} {i : Nat}
    (f : FiringRun P [] pre seg.1 segs evs.flatten d' before after frame done fed) (hsegs : segs = pre ++ seg :: post)
    (hi : markerPlace (stream pre) seg.1 = some i) :
    ∃ suffix, wire P evs d' hasher' = dataBytes before ++ (AuditFrame.bytes P frame ++ (doneMarker ++ suffix)) := by
  obtain ⟨suffix, hsuffix⟩ := FiringRun.after_eq f hsegs hi
  have hfinish : (d'.finish hasher').1 = [] := by simp [DoneDetector.finish, f.drained]
  refine ⟨suffix, ?_⟩
  rw [wire, hfinish, List.append_nil, f.wire, flatten_auditFrame_lines, hsuffix]

/-- **The verdict on a run of the detector**, by its segments alone. -/
theorem detector_verdict (hc : Interop P py keys q.key publicKey) (hq : Identified q policyDigest)
    (hid : Attests keys C X doc expected root publicKey)
    (hrun : (q.detector policyDigest).run P q.key [] (inspects segs) = .ok (evs, d', hasher'))
    (hnow : ∀ amb ∈ segs.map Prod.snd, amb.now < 2 ^ 64) (hline : MarkerStartsLine segs)
    (hplain : ∀ l ∈ lines 10 (stream segs), isAuditEvent l = false) :
    (Verifiable segs → main py keys C X P.blake3 doc expected root (wire P evs d' hasher') = .ok 0) ∧
    (FedApart P evs.flatten hasher' → ¬ Verifiable segs →
      main py keys C X P.blake3 doc expected root (wire P evs d' hasher') = .ok 1) := by
  have hnew : Tracks (q.detector policyDigest) [] := tracks_new _ _ _ _ _
  rcases run_segments P q.key [] hnew segs with
    ⟨hno, _, _, _, hr, quiet⟩ | ⟨pre, seg, post, hsegs, hpre, hseg, _, _, _, before, after, frame, done, hr, f⟩
  · rw [hrun] at hr
    cases hr
    have hnone := @hashTranscript_unsigned py P.blake3 (stream segs) [] (.inr (.inr rfl)) hplain (.inr rfl)
    rw [List.append_nil, ← wire_quiet rfl quiet] at hnone
    exact ⟨fun h => absurd h.marker hno, fun _ _ => main_of_error hid hnone⟩
  · rw [hrun] at hr
    cases hr
    obtain ⟨i, hi⟩ : ∃ i, markerPlace (stream pre) seg.1 = some i := by
      rw [← Option.isSome_iff_exists, Option.isSome_iff_ne_none]
      exact fun h => markerPlace_eq_none h hseg
    obtain ⟨suffix, hwire⟩ := @wire_fires P segs evs d' hasher' _ _ _ _ _ _ _ _ _ f hsegs hi
    obtain ⟨amb, fed', hamb, rfl⟩ := run_frames_issued hnew.trailing_le hrun frame (by simp [f.events])
    have hp : dataBytes before = [] ∨ (dataBytes before).getLast? = some 10 := by
      rw [f.before_eq hi]
      exact (markerStartsLine_iff hsegs hpre hi).1 hline
    have hlines : ∀ l ∈ lines 10 (dataBytes before), isAuditEvent l = false := by
      intro l hl
      apply hplain
      rw [← f.conserved, List.append_assoc, Lines.lines_append hp]
      exact List.mem_append_left _ hl
    have hhas := FiringRun.has_marker_iff f hsegs hpre hseg
    by_cases hseam : SeamAlone segs
    · have hhashed := hashTranscript_issued suffix hc hq amb fed' (hnow amb hamb) hp
        (fun h => hhas.1 h hseam) hlines
      rw [← hwire] at hhashed
      obtain ⟨hok, hbad⟩ := main_of_hashed hc hid hhashed
      have hhashed_iff := tailHashed_iff hsegs hpre hseg
      constructor
      · intro hv
        exact hok (f.payload_of_fed (hhashed_iff.1 hv.hashed))
      · intro hcf hv
        apply hbad
        intro he
        have hfed := f.fed_of_payload (hcf before _ _ f.events) he
        exact hv ⟨has_of_cut hsegs hseg, hseam, hhashed_iff.2 hfed⟩
    · have hnone := @hashTranscript_unsigned py P.blake3 _
        (AuditFrame.bytes P ((q.detector policyDigest).auditFrame P q.key amb fed') ++ (doneMarker ++ suffix))
        (hp.imp_right .inl) hlines (.inl (hhas.2 hseam))
      rw [← hwire] at hnone
      exact ⟨fun h => absurd h.first hseam, fun _ _ => main_of_error hid hnone⟩

end Detector

/-! ## From the task to the exit code -/

section Task

open StreamTask (Session Succeeds Label)

variable {t t' : StreamTask} {engine : EngineState} {labels : List Label} {chunks : List Bytes} {clock : List Ambient}
  {outs : List OutputSegment} {segs : List (Bytes × Ambient)}

theorem flatMap_eventItems (P : Primitives) (events : List StreamEvent) :
    (StreamTask.eventItems P events).flatMap (Sent.bytes P) = events.flatMap (StreamEvent.bytes P) := by
  induction events with
  | nil => rfl
  | cons e events ih =>
    rw [StreamTask.eventItems, List.flatMap_cons, List.flatMap_append, StreamTask.flatMap_queued, List.flatMap_cons]
    exact congrArg _ ih

/-- More clock than a session needs changes nothing of what was read. -/
theorem foldr_cons_clock (labels : List Label) (s : Session) (extra : List Ambient) :
    labels.foldr Session.cons { s with clock := s.clock ++ extra } =
      { labels.foldr Session.cons s with clock := (labels.foldr Session.cons s).clock ++ extra } := by
  induction labels with
  | nil => rfl
  | cons label labels ih => cases label <;> simp [List.foldr_cons, ih, Session.cons]

theorem exists_segments (outs : List OutputSegment) (clock : List Ambient) (hlen : outs.length ≤ clock.length) :
    ∃ (segs : List (Bytes × Ambient)) (rest : List Ambient), segs.map Prod.fst = outs.map OutputSegment.bytes ∧
      clock = segs.map Prod.snd ++ rest := by
  refine ⟨(outs.map OutputSegment.bytes).zip (clock.take outs.length), clock.drop outs.length, ?_, ?_⟩
  · rw [List.map_fst_zip]
    simp [hlen]
  · rw [List.map_snd_zip, List.take_append_drop]
    simp

theorem exists_run (P : Primitives) (q : Request) (policyDigest : String) (segs : List (Bytes × Ambient)) :
    ∃ evs d' hasher', (q.detector policyDigest).run P q.key [] (inspects segs) = .ok (evs, d', hasher') := by
  have hnew : Tracks (q.detector policyDigest) [] := tracks_new _ _ _ _ _
  rcases run_segments P q.key [] hnew segs with
    ⟨-, evs, d', hasher', hr, -⟩ | ⟨-, -, -, -, -, -, evs, d', hasher', -, -, -, -, hr, -⟩
  · exact ⟨evs, d', hasher', hr⟩
  · exact ⟨evs, d', hasher', hr⟩

/-- The detector on the segments feeds its hasher a text that is no collision with the bytes it puts before the receipt:
the first is hashed for the receipt, the second by the script. -/
def HashedApart (P : Primitives) (q : Request) (policyDigest : String) (segs : List (Bytes × Ambient)) : Prop :=
  ∀ outs d fed, (q.detector policyDigest).run P q.key [] (inspects segs) = .ok (outs, d, fed) → FedApart P outs.flatten fed

end Task

/-- A mock document attests the key in it. -/
theorem attests_mockDocument {nonce : Bytes} {pcr0 : String} (hkeys : keys.Agrees) (hC : C.Agrees)
    (hfits : Fits publicKey nonce pcr0) (hlen : publicKey.length = 32) (root : Option Bytes) :
    Attests keys C X (pyStr (base64Text (mockDocument publicKey nonce pcr0).write)) (pyStr pcr0) root publicKey := by
  obtain ⟨-, huser, -, hpcr0⟩ := mockDict_lookups publicKey nonce pcr0
  refine ⟨_, decodeBytes_base64Text hkeys _, ?_⟩
  simp only [extractAttestedIdentity, loadsOr, hC _ _ (read_mockDocument hfits), bind_ok, isMock_mockDict, hpcr0, huser,
    ne_eq, not_true_eq_false, if_false]
  exact userKey_eq_ok.2 ⟨rfl, hlen⟩

end Verdict

/-! ### Two streams

`data: hi` with its marker, in one chunk, and the three chunks of `lossySegments`. The digests are those of BLAKE3
and the signatures those of Ed25519, for the texts that are hashed and signed. -/

section Streams

def hiPolicyDigest : String := toHex (ofHex "3fe110ec77107eae60b292991c12105fbaff1a06ea2ead3afd809dd818ea678c")

def hiRequest : Request :=
  ⟨"request-1", "tenant-1", "https://upstream.example/v1/chat/completions", toHex (List.replicate 48 0), List.replicate 32 7⟩

/-- The canonical tuple of the request, with the body `\x7b\x7d`. -/
def interopTuple (payloadHash : String) : Bytes := PiiProxy.canonicalTuple
  [hiRequest.requestId, hiRequest.tenantId, hiRequest.upstreamUrl,
    "6e46dd10defc9b56c29a6ec56b508c21f54c08192194e4df25bf36f0c9c3c279", hiPolicyDigest, hiRequest.pcr0, payloadHash]

def interopDigests : List (Bytes × Bytes) :=
  [(encode "\x7b\x7d", ofHex "6e46dd10defc9b56c29a6ec56b508c21f54c08192194e4df25bf36f0c9c3c279"),
    (encode "data: hi\r\n\r\n", ofHex "7f448f0eb7f2d6c7de84fde5ff1b3cd7433c376ff729549128cb92ad6f3ae975"),
    (interopTuple "7f448f0eb7f2d6c7de84fde5ff1b3cd7433c376ff729549128cb92ad6f3ae975",
      ofHex "809e0f58ab97c50399cbf815a9577773b6ab703af2ee70f1bf776baba1baf57d"),
    (encode "data: hello\n\n", ofHex "b873469f67439c7858bebffb207e8e0a3567328473bade751ef6df84228a02b6"),
    (encode "data: a\n\ndata: hello\n\n", ofHex "3b135e38c2295aae87d54ea1d543ae310b1693082dd6f86de862912a345b0647"),
    (interopTuple "b873469f67439c7858bebffb207e8e0a3567328473bade751ef6df84228a02b6",
      ofHex "3b8221cfda1495b20df33755f1bb1251782be8bf1e1c1c7f712d2956670ae1c5")]

def interopSignatures : List (Bytes × Bytes) :=
  [(ofHex "809e0f58ab97c50399cbf815a9577773b6ab703af2ee70f1bf776baba1baf57d", hiSignatureBytes),
    (ofHex "3b8221cfda1495b20df33755f1bb1251782be8bf1e1c1c7f712d2956670ae1c5",
      ofHex ("95b0e61e6619fdfb5ad0caaa88353d951b2f3b6d8c81701e3fece115ab8b3848" ++
        "236207d98e89d5127332f97654c6ff2d5a4a7f92c27c26390e799dc7e4b2cc08"))]

/-- Off the table a digest is 32 zeros. -/
def interopPrimitives : Primitives where
  blake3 x := (interopDigests.lookup x).getD (List.replicate 32 0)
  sign _ message := (interopSignatures.lookup message).getD []
  b64 := base64Text
  toJson := receiptJson
  policyJson := hiPrimitives.policyJson

def interopKeys : PyKeys :=
  { grammarKeys with
    verify := fun publicKey signature message =>
      if publicKey = hiPublicKey ∧ signature = interopPrimitives.sign hiRequest.key message then .ok ()
      else .error .invalidSignature }

theorem length_interopDigest (x : Bytes) : (interopPrimitives.blake3 x).length = 32 := by
  have htable : ∀ e ∈ interopDigests, e.2.length = 32 := by decide +kernel
  simp only [interopPrimitives]
  cases hl : interopDigests.lookup x with
  | none => rw [Option.getD_none, List.length_replicate]
  | some v => exact htable _ (mem_of_lookup hl)

theorem interop_hi : Interop interopPrimitives grammarJson interopKeys hiRequest.key hiPublicKey where
  digest := length_interopDigest
  toJson _ := rfl
  b64 _ := rfl
  json := grammarJson_agrees
  base64 := grammarKeys_agrees
  signature m := by simp [interopKeys]

theorem identified_hi : Identified hiRequest hiPolicyDigest where
  ids := by decide +kernel
  pcr0 := ⟨_, rfl, by simp⟩
  policy := ⟨_, rfl, by decide +kernel⟩

def hiDocument : PyStr := pyStr (base64Text (mockDocument hiPublicKey (List.replicate 32 7) releasePcr0).write)

theorem attests_hi : Attests interopKeys grammarCbor threeCertificates hiDocument (pyStr releasePcr0) none hiPublicKey :=
  attests_mockDocument grammarKeys_agrees grammarCbor_agrees ⟨by decide +kernel, by simp, by decide +kernel⟩
    (by decide +kernel) none

def hiTask : StreamTask :=
  { StreamTask.defaultTask with detector := hiRequest.detector hiPolicyDigest }

/-- A chunk that is one output and `n` events. -/
def chunkLabels (chunk : String) (n : Nat) : List StreamTask.Label :=
  .chunk (encode chunk) :: .segment ⟨encode "\x7b\x7d", 1700000000⟩ :: List.replicate n (.enqueued .ok) ++ [.next, .next]

def hiRunLabels : List StreamTask.Label :=
  chunkLabels "data: hi\r\n\r\ndata: [DONE]\n\n" 3 ++ [.eof, .flush, .next, .next]

def lossyRunLabels : List StreamTask.Label :=
  chunkLabels "data: a\n\n" 0 ++ chunkLabels "data: hello\n\n" 2 ++ chunkLabels "data: [DONE]\n\n" 3 ++
    [.eof, .flush, .next, .next]

theorem verifiable_hi : Verifiable hiSegments := by
  have hpre : ¬ Has sseDoneMarker (stream []) := Find.not_has_nil DoneDetector.marker_ne_nil
  have hfirst : first sseDoneMarker (stream [] ++ encode "data: hi\r\n\r\ndata: [DONE]\n\n") = some 12 := rfl
  have hsegs : hiSegments = [] ++ _ :: [] := rfl
  have hseg : Has sseDoneMarker (stream [] ++ encode "data: hi\r\n\r\ndata: [DONE]\n\n") := Find.has_iff_first.2 ⟨12, hfirst⟩
  refine ⟨has_of_cut hsegs hseg, (seamAlone_iff hsegs hpre hfirst).2 ?_, (tailHashed_iff hsegs hpre hseg).2 ?_⟩
  · intro h
    simp [stream] at h
  · intro pre seg post h
    simp at h

theorem hashedApart_lossy : HashedApart interopPrimitives hiRequest hiPolicyDigest lossySegments := by
  intro outs d fed hr
  have hnew : Tracks (hiRequest.detector hiPolicyDigest) [] := tracks_new _ _ _ _ _
  have hsegs : lossySegments = lossySegments.take 2 ++ _ :: [] := rfl
  obtain ⟨_, _, _, before, after, frame, done, hr', f⟩ :=
    run_firing interopPrimitives hiRequest.key [] hnew hsegs (by decide) (by decide)
  rw [hr] at hr'
  cases hr'
  have hfed : (((hiRequest.detector hiPolicyDigest).run interopPrimitives hiRequest.key [] (inspects lossySegments)).toOption.map
      fun r => r.2.2) = some (encode "data: hello\n\n") := by decide +kernel
  rw [hr] at hfed
  cases hfed
  refine f.fedApart fun h => ?_
  rw [f.inside 0 rfl] at h
  exact absurd h (by decide +kernel)

end Streams

end VerifyReceipt

end PiiProxy
