import PiiProxy.TranscriptSound

/-!
# `hash_transcript` on a stream cut off by a shutdown

`shutdown_events` (lib.rs:1166) closes a stream with the receipt's frame and the line
`data: [ERROR: KILLED BY SHUTDOWN]`, a blank line after it. `hash_transcript` stops
hashing at `data: [DONE]` only: the blank line makes it feed the marker's line.

* `Reads.fed_shutdown` — what an accepted transcript of that form feeds
* `shutdown_receipt_unverifiable` — its hash is never the one the receipt declares
* `hashTranscript_shutdown` — the hash `hash_transcript` returns instead
-/

namespace PiiProxy

open Utf8 (encode)
open Find (first Has)
open Lines (lines Complete)

namespace VerifyReceipt

variable {py : PyJson} {P : Primitives} {r : AttestedReceipt} {signature : String} {p : Bytes}

/-- The marker of a shutdown as a line; a blank line follows it. -/
def killedLine : Bytes := encode "data: [ERROR: KILLED BY SHUTDOWN]\n"

theorem plain_killedLine : Plain killedLine := by
  constructor <;> rfl

theorem lines_shutdownMarker : lines 10 DoneDetector.shutdownMarker = [killedLine, [10]] := rfl

/-- What `shutdown_events` puts on the wire after the payload `hasher` has been fed. -/
theorem bytes_shutdownEvents {d : DoneDetector} (key hasher : Bytes) (amb : Ambient) (hopen : d.completed = false) :
    hasher ++ (d.shutdownEvents P key amb hasher).1.flatMap (StreamEvent.bytes P) =
      (hasher ++ d.trailing) ++ (AuditFrame.bytes P (d.auditFrame P key amb (hasher ++ d.trailing)) ++
        DoneDetector.shutdownMarker) := by
  have hdata : (dataEvents d.trailing).flatMap (StreamEvent.bytes P) = d.trailing := by
    unfold dataEvents
    split
    · rename_i h
      simp [h]
    · simp [StreamEvent.bytes]
  simp only [DoneDetector.shutdownEvents, hopen, Bool.false_eq_true, if_false, DoneDetector.receiptEvents,
    List.flatMap_append, hdata, List.append_assoc]
  simp [StreamEvent.bytes, DoneDetector.auditFrame, DoneDetector.receipt]

/-- The lines of such a transcript. -/
theorem lines_shutdown (hp : p = [] ∨ p.getLast? = some 10) (hj : 10 ∉ encode (P.toJson r))
    (hsig : IsBase64 signature) :
    lines 10 (p ++ (AuditFrame.bytes P ⟨r, signature⟩ ++ DoneDetector.shutdownMarker)) =
      lines 10 p ++ ([] ++ [10]) :: (auditEvent ++ [10]) :: dataLine P r signature :: [10] :: [killedLine, [10]] := by
  have hsplit : AuditFrame.bytes P ⟨r, signature⟩ ++ DoneDetector.shutdownMarker =
      [10] ++ ((auditEvent ++ [10]) ++ (dataLine P r signature ++ ([10] ++ DoneDetector.shutdownMarker))) := by
    simp [frame_bytes]
  rw [Lines.lines_append hp, hsplit, complete_blank.lines_append, complete_auditEvent.lines_append,
    (complete_dataLine hj hsig).lines_append, complete_blank.lines_append, lines_shutdownMarker]
  rfl

/-- **The marker's line is fed**: the blank line after it releases it, and only the blank line is
held at the end of the file. -/
theorem Reads.fed_shutdown {blake3 : Bytes → Bytes} {ms : List Bytes} {data blank fed : Bytes}
    (hms : ∀ m ∈ ms, Plain m)
    (h : Reads py blake3 none
      (ms ++ ([] ++ [10]) :: (auditEvent ++ [10]) :: data :: blank :: [killedLine, [10]]) fed) :
    fed = ms.flatten ++ killedLine := by
  have hnl : Plain [10] := plain_newline.2 plain_nil
  obtain ⟨_, _, tail, f, he, rfl, hr⟩ := h.around_event hms plain_nil
  simp only [List.cons.injEq] at he
  obtain ⟨-, -, rfl⟩ := he
  obtain ⟨f₁, rfl, hr₁⟩ := hr.of_hold plain_killedLine
  obtain ⟨f₂, rfl, hr₂⟩ := hr₁.of_hold hnl
  simp [hr₂.of_nil]

/-- **No shutdown receipt verifies.** The payload `p` is what the hasher has been fed when the
receipt is built, whole lines without a marker or an audit line; the transcript is the
payload and what `shutdown_events` sends after it. -/
theorem shutdown_receipt_unverifiable {d : DoneDetector} {key hasher : Bytes} {amb : Ambient}
    (hopen : d.completed = false) (hpay : p = hasher ++ d.trailing) (hp : p = [] ∨ p.getLast? = some 10)
    (hdone : ¬ Has doneMarker p) (hlines : ∀ l ∈ lines 10 p, isAuditEvent l = false)
    (hj : 10 ∉ encode (P.toJson (d.receipt P amb p))) (hsig : ∀ b, IsBase64 (P.b64 b))
    (hcf : CollisionFree P.blake3 (p ++ killedLine) p) :
    ¬ ∃ h, hashTranscript py P.blake3
        (hasher ++ (d.shutdownEvents P key amb hasher).1.flatMap (StreamEvent.bytes P)) = .ok h ∧
      h.computed = (d.receipt P amb p).payloadHash := by
  rintro ⟨h, hacc, hdecl⟩
  rw [bytes_shutdownEvents key hasher amb hopen, ← hpay] at hacc
  obtain ⟨s, -, hreads, hc⟩ := reads_of_hashTranscript hacc
  have hls := lines_shutdown hp hj (hsig (P.sign key ((d.receipt P amb p).digest P)))
  have hfed : s.hasher = p ++ killedLine := by
    have := Reads.fed_shutdown (plain_of_payload hdone hlines) (hls ▸ hreads)
    rwa [Lines.flatten_lines] at this
  have hdigest : P.blake3 (p ++ killedLine) = P.blake3 p := by
    rw [← hfed]
    exact toHex_injective (hc.symm.trans hdecl)
  -- equal digests would make the marker's line empty
  have hlen := congrArg List.length (hcf hdigest)
  have hne : 0 < killedLine.length := by decide
  rw [List.length_append] at hlen
  omega

/-- What the scan returns instead: the hash of the payload and the marker's line. -/
theorem hashTranscript_shutdown (hp : p = [] ∨ p.getLast? = some 10) (hdone : ¬ Has doneMarker p)
    (hlines : ∀ l ∈ lines 10 p, isAuditEvent l = false) (hr : Shape r) (htd : r.tupleDigest = toHex (r.digest P))
    (hsig : IsBase64 signature) (hb : ReadBack py P r signature) :
    hashTranscript py P.blake3 (p ++ (AuditFrame.bytes P ⟨r, signature⟩ ++ DoneDetector.shutdownMarker)) =
      .ok ⟨toHex (P.blake3 (p ++ killedLine)), r.items, r.digest P, pyStr signature⟩ := by
  have hnl : Plain [10] := plain_newline.2 plain_nil
  have hrun := @run_payload_frame py P r signature p [] DoneDetector.shutdownMarker hp hdone hlines (by simp)
    plain_nil hr htd hsig hb
  rw [List.nil_append] at hrun
  rw [hashTranscript, hrun, lines_shutdownMarker, run_hold ⟨rfl, rfl⟩ plain_killedLine.1 plain_killedLine.2,
    run_hold ⟨rfl, rfl⟩ hnl.1 hnl.2, run, bind_ok]
  simp [Scan.finish, Scan.audited]

/-! ### A shutdown after one event

The detector has seen `"data: hi\r\n\r\n"` and holds its last 11 bytes. -/

def killedPrimitives : Primitives := Primitives.ofTables
  [(encode "\x7b\x7d", ofHex "6e46dd10defc9b56c29a6ec56b508c21f54c08192194e4df25bf36f0c9c3c279"),
    (encode "data: hi\r\n\r\n", ofHex "7f448f0eb7f2d6c7de84fde5ff1b3cd7433c376ff729549128cb92ad6f3ae975"),
    (encode "data: hi\r\n\r\n" ++ killedLine,
      ofHex "0fec60d5fe4c86052a79a5969443df251328c39be523ac7afe3468f72373804c"),
    (PiiProxy.canonicalTuple hiReceipt.canonicalFields,
      ofHex "809e0f58ab97c50399cbf815a9577773b6ab703af2ee70f1bf776baba1baf57d")]
  [(ofHex "809e0f58ab97c50399cbf815a9577773b6ab703af2ee70f1bf776baba1baf57d",
    ofHex ("8fedf205cc465de6ddefae491f2e3b4d1344d37c6cfc01620271c7b97378443d" ++
      "6bfffb8eb937c34310ec3ae70da845e615301a3ca2b37cabfd2fd4ad70a8680c"))]
  [(ofHex ("8fedf205cc465de6ddefae491f2e3b4d1344d37c6cfc01620271c7b97378443d" ++
      "6bfffb8eb937c34310ec3ae70da845e615301a3ca2b37cabfd2fd4ad70a8680c"), hiSignature)]

def killedDetector : DoneDetector := { hiDetector with trailing := encode "ata: hi\r\n\r\n" }

def killedAmbient : Ambient := ⟨encode "\x7b\x7d", 1700000000⟩

theorem killedFrame : killedDetector.auditFrame killedPrimitives (List.replicate 32 7) killedAmbient
    (encode "data: hi\r\n\r\n") = ⟨hiReceipt, hiSignature⟩ := by
  decide +kernel

theorem killedReceipt : killedDetector.receipt killedPrimitives killedAmbient (encode "data: hi\r\n\r\n") = hiReceipt :=
  congrArg AuditFrame.receipt killedFrame

theorem base64_killed (b : Bytes) : IsBase64 (killedPrimitives.b64 b) := by
  unfold killedPrimitives Primitives.ofTables
  simp only [List.lookup_cons, List.lookup_nil]
  split
  · exact base64_hi
  · exact List.forall_mem_nil _

theorem killedPrimitives_injective : Function.Injective killedPrimitives.blake3 :=
  tabled_injective (by decide +kernel) (by decide +kernel)

theorem shutdown_receipt_unverifiable_hi :
    ¬ ∃ h, hashTranscript (jsonOf killedPrimitives hiReceipt hiSignature) killedPrimitives.blake3 (encode "d" ++
        (killedDetector.shutdownEvents killedPrimitives (List.replicate 32 7) killedAmbient (encode "d")).1.flatMap
          (StreamEvent.bytes killedPrimitives)) = .ok h ∧
      h.computed = hiReceipt.payloadHash :=
  killedReceipt ▸ shutdown_receipt_unverifiable rfl rfl (Or.inr rfl) (Find.first_eq_none.1 rfl) (by decide)
    (killedReceipt ▸ readBack_hi.no_newline) base64_killed (fun he => killedPrimitives_injective he)

/-- The scan accepts the transcript and returns a hash that the receipt does not declare. -/
theorem killed_stream_not_verified :
    ¬ ∀ (py : PyJson) (P : Primitives) (d : DoneDetector) (key hasher p : Bytes) (amb : Ambient),
      d.completed = false → p = hasher ++ d.trailing → (p = [] ∨ p.getLast? = some 10) → ¬ Has doneMarker p →
      (∀ l ∈ lines 10 p, isAuditEvent l = false) → Shape (d.receipt P amb p) → (∀ b, IsBase64 (P.b64 b)) →
      ReadBack py P (d.receipt P amb p) (d.auditFrame P key amb p).signature →
      ∃ h, hashTranscript py P.blake3
          (hasher ++ (d.shutdownEvents P key amb hasher).1.flatMap (StreamEvent.bytes P)) = .ok h ∧
        h.computed = (d.receipt P amb p).payloadHash := by
  intro h
  have hread : ReadBack (jsonOf killedPrimitives hiReceipt hiSignature) killedPrimitives hiReceipt hiSignature :=
    readBack_jsonOf readBack_hi.no_newline readBack_hi.opens
  obtain ⟨r, hr, hc⟩ := h (jsonOf killedPrimitives hiReceipt hiSignature) killedPrimitives killedDetector
    (List.replicate 32 7) (encode "d") (encode "data: hi\r\n\r\n") killedAmbient rfl rfl (Or.inr rfl)
    (Find.first_eq_none.1 rfl) (by decide) (killedReceipt ▸ shape_hi) base64_killed
    (by rw [killedFrame, killedReceipt]; exact hread)
  have hpay : encode "d" ++ killedDetector.trailing = encode "data: hi\r\n\r\n" := rfl
  rw [bytes_shutdownEvents _ _ _ rfl, hpay, killedFrame, hashTranscript_shutdown (Or.inr rfl)
    (Find.first_eq_none.1 rfl) (by decide) shape_hi (by decide +kernel) base64_hi hread, Except.ok.injEq] at hr
  rw [← hr, killedReceipt] at hc
  exact absurd hc (by decide +kernel)

end VerifyReceipt

end PiiProxy
