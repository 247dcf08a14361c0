import PiiProxy.Detector
import PiiProxy.TranscriptRuns

/-!
# `hash_transcript` reads back what the proxy writes

The frame `build_proxy_audit_frame` builds (lib.rs:881) starts with a newline of its
own. After a payload of whole lines that newline is the line `hash_transcript` holds
when it meets the event, so it is dropped and nothing else is.

* `canonicalReceiptDigest_items` — the script and the proxy compute one canonical digest
* `run_frame` — an audit frame is read as one audit event
* `finished_stream_read_back` — a finished stream gives its payload's hash and its receipt
-/

namespace PiiProxy

open Utf8 (encode)
open Find (first Has)
open Lines (lines Complete)

/-- A receipt as `json.loads` returns it. -/
def AttestedReceipt.items (r : AttestedReceipt) : Dict :=
  [(pyStr "request_id", .str (pyStr r.requestId)), (pyStr "tenant_id", .str (pyStr r.tenantId)),
    (pyStr "upstream_url", .str (pyStr r.upstreamUrl)), (pyStr "request_hash", .str (pyStr r.requestHash)),
    (pyStr "payload_hash", .str (pyStr r.payloadHash)), (pyStr "policy_digest", .str (pyStr r.policyDigest)),
    (pyStr "pcr0", .str (pyStr r.pcr0)), (pyStr "tuple_digest", .str (pyStr r.tupleDigest)),
    (pyStr "timestamp", .int r.timestamp)]

/-- The fields of the canonical tuple, in its order. -/
def AttestedReceipt.canonicalFields (r : AttestedReceipt) : List String :=
  [r.requestId, r.tenantId, r.upstreamUrl, r.requestHash, r.policyDigest, r.pcr0, r.payloadHash]

def AttestedReceipt.digest (P : Primitives) (r : AttestedReceipt) : Bytes :=
  canonicalReceiptDigest P r.requestId r.tenantId r.upstreamUrl r.requestHash r.policyDigest r.pcr0 r.payloadHash

namespace VerifyReceipt

variable {py : PyJson} {P : Primitives} {r : AttestedReceipt} {signature : String} {s : Scan}
  {rest : List Bytes}

/-- What `hash_transcript` asks of the fields. -/
structure Shape (r : AttestedReceipt) : Prop where
  nonempty : ∀ f ∈ r.tupleDigest :: r.canonicalFields, f ≠ ""
  /-- `to_bytes(8, "big")`. -/
  sizes : ∀ f ∈ r.canonicalFields, (encode f).length < UInt64.size
  requestHash : (fromhex (pyStr r.requestHash)).isOk = true
  payloadHash : r.payloadHash.length = 64 ∧ (fromhex (pyStr r.payloadHash)).isOk = true
  policyDigest : r.policyDigest.length = 64 ∧ (fromhex (pyStr r.policyDigest)).isOk = true
  pcr0 : r.pcr0.length = 96 ∧ (fromhex (pyStr r.pcr0)).isOk = true

theorem toHex_ne_empty {b : Bytes} (h : b.length ≠ 0) : toHex b ≠ "" := by
  intro he
  have hl := length_toHex b
  rw [he, String.length_empty] at hl
  omega

/-- The receipts `receipt_events` builds have this shape, for identifiers that are not empty and
digests of 32 and 48 bytes. -/
theorem shape_receipt {d : DoneDetector} {amb : Ambient} {hasher policy pcr0 : Bytes}
    (hids : ∀ f ∈ [d.requestId, d.tenantId, d.upstreamUrl], f ≠ "" ∧ (encode f).length < UInt64.size)
    (hpolicy : d.policyDigest = toHex policy ∧ policy.length = 32)
    (hpcr0 : d.pcr0 = toHex pcr0 ∧ pcr0.length = 48)
    (hrequest : (P.blake3 amb.requestHashed).length = 32) (hpayload : (P.blake3 hasher).length = 32)
    (htuple : ((d.receipt P amb hasher).digest P).length = 32) : Shape (d.receipt P amb hasher) := by
  have hhex : ∀ b : Bytes, b.length = 32 ∨ b.length = 48 → toHex b ≠ "" ∧ (encode (toHex b)).length < UInt64.size := by
    intro b hb
    refine ⟨toHex_ne_empty (by omega), ?_⟩
    rw [length_encode_toHex, UInt64.size]
    omega
  have htd : (d.receipt P amb hasher).tupleDigest = toHex ((d.receipt P amb hasher).digest P) := rfl
  have hfields : ∀ f ∈ (d.receipt P amb hasher).canonicalFields, f ≠ "" ∧ (encode f).length < UInt64.size := by
    intro f hf
    simp only [AttestedReceipt.canonicalFields, DoneDetector.receipt, List.mem_cons, List.not_mem_nil,
      or_false] at hf
    rcases hf with rfl | rfl | rfl | rfl | rfl | rfl | rfl
    · exact hids _ (by simp)
    · exact hids _ (by simp)
    · exact hids _ (by simp)
    · exact hhex _ (Or.inl hrequest)
    · rw [hpolicy.1]
      exact hhex _ (Or.inl hpolicy.2)
    · rw [hpcr0.1]
      exact hhex _ (Or.inr hpcr0.2)
    · exact hhex _ (Or.inl hpayload)
  constructor
  · intro f hf
    rcases List.mem_cons.1 hf with rfl | hf
    · rw [htd]
      exact (hhex _ (Or.inl htuple)).1
    · exact (hfields f hf).1
  · intro f hf
    exact (hfields f hf).2
  · simp [DoneDetector.receipt, fromhex_toHex, Except.isOk, Except.toBool]
  · simp [DoneDetector.receipt, fromhex_toHex, length_toHex, hpayload, Except.isOk, Except.toBool]
  · simp [DoneDetector.receipt, hpolicy, fromhex_toHex, length_toHex, Except.isOk, Except.toBool]
  · simp [DoneDetector.receipt, hpcr0, fromhex_toHex, length_toHex, Except.isOk, Except.toBool]

/-! ## Reading a receipt -/

@[simp] theorem pyStr_beq (a b : String) : (pyStr a == pyStr b) = (a == b) := by
  rw [Bool.eq_iff_iff, beq_iff_eq, beq_iff_eq, pyStr_injective.eq_iff]

@[simp] theorem get_cons (k key : String) (v : Json) (d : Dict) :
    Dict.get ((pyStr k, v) :: d) key = if key = k then some v else Dict.get d key := by
  rw [Dict.get, List.lookup_cons, pyStr_beq]
  by_cases h : key = k
  · simp [h]
  · simp [h, Dict.get, beq_false_of_ne h]

/-- Every field is there, as a string but for the time stamp. -/
@[simp] theorem index_items (r : AttestedReceipt) :
    r.items.index "request_id" = .ok (.str (pyStr r.requestId)) ∧
    r.items.index "tenant_id" = .ok (.str (pyStr r.tenantId)) ∧
    r.items.index "upstream_url" = .ok (.str (pyStr r.upstreamUrl)) ∧
    r.items.index "request_hash" = .ok (.str (pyStr r.requestHash)) ∧
    r.items.index "payload_hash" = .ok (.str (pyStr r.payloadHash)) ∧
    r.items.index "policy_digest" = .ok (.str (pyStr r.policyDigest)) ∧
    r.items.index "pcr0" = .ok (.str (pyStr r.pcr0)) ∧
    r.items.index "tuple_digest" = .ok (.str (pyStr r.tupleDigest)) ∧
    r.items.index "timestamp" = .ok (.int r.timestamp) := by
  simp [Dict.index, AttestedReceipt.items]

theorem canonicalField_pyStr {f : String} (h : (encode f).length < UInt64.size) :
    canonicalField (.str (pyStr f)) = .ok (PiiProxy.canonicalField f) := by
  have h8 : toBytes8 (encode f).length = .ok (u64be (encode f).length) := if_pos h
  rw [canonicalField, encodeUtf8_pyStr, bind_ok, h8, bind_ok, PiiProxy.canonicalField]
  rfl

theorem mapM_canonicalField : ∀ {fs : List String}, (∀ f ∈ fs, (encode f).length < UInt64.size) →
    (fs.map fun f => Json.str (pyStr f)).mapM canonicalField = .ok (fs.map PiiProxy.canonicalField)
  | [], _ => rfl
  | f :: fs, h => by
    rw [List.map_cons, List.mapM_cons, canonicalField_pyStr (h f (by simp)), bind_ok,
      mapM_canonicalField fun x hx => h x (List.mem_cons_of_mem _ hx)]
    rfl

/-- **One canonical digest**, for fields whose length fits in eight bytes. -/
theorem canonicalReceiptDigest_items (h : ∀ f ∈ r.canonicalFields, (encode f).length < UInt64.size) :
    canonicalReceiptDigest P.blake3 r.items = .ok (r.digest P) := by
  have hindex : ["request_id", "tenant_id", "upstream_url", "request_hash", "policy_digest", "pcr0",
      "payload_hash"].mapM r.items.index = .ok (r.canonicalFields.map fun f => Json.str (pyStr f)) := by
    simp [AttestedReceipt.canonicalFields]
  rw [canonicalReceiptDigest, hindex, bind_ok, mapM_canonicalField h, bind_ok, AttestedReceipt.digest,
    PiiProxy.canonicalReceiptDigest, PiiProxy.canonicalTuple, List.flatMap]
  rfl

theorem isText_pyStr {f : String} (h : f ≠ "") : (Json.str (pyStr f)).isText = true := by
  have hne : pyStr f ≠ [] := fun e => h (pyStr_injective (by rw [e]; rfl))
  simpa [Json.isText] using hne

theorem requireFields_items (raise : String → PyError) : requireFields raise r.items requiredFields = .ok () := by
  simp [requireFields, requiredFields, textFields, AttestedReceipt.items]

theorem requireTexts_ok {raise : String → PyError} {d : Dict} : ∀ {fields : List String},
    (∀ field ∈ fields, ∃ f, d.index field = .ok (.str (pyStr f)) ∧ f ≠ "") →
    requireTexts raise d fields = .ok ()
  | [], _ => rfl
  | field :: fields, h => by
    obtain ⟨f, hf, hne⟩ := h field (by simp)
    simp only [requireTexts, hf, bind_ok, isText_pyStr hne, Bool.not_true, Bool.false_eq_true, if_false]
    exact requireTexts_ok fun x hx => h x (List.mem_cons_of_mem _ hx)

theorem requireTexts_items (raise : String → PyError) (h : ∀ f ∈ r.tupleDigest :: r.canonicalFields, f ≠ "") :
    requireTexts raise r.items textFields = .ok () := by
  simp only [AttestedReceipt.canonicalFields, List.forall_mem_cons] at h
  obtain ⟨f1, f2, f3, f4, f5, f6, f7, f8, -⟩ := h
  apply requireTexts_ok
  simp only [textFields, List.forall_mem_cons, index_items, Except.ok.injEq, Json.str.injEq,
    pyStr_injective.eq_iff, exists_eq_left']
  exact ⟨f2, f3, f4, f5, f8, f6, f7, f1, by simp⟩

theorem exists_of_isOk {ε α : Type} {x : Except ε α} (h : x.isOk = true) : ∃ a, x = .ok a := by
  cases x with
  | error e => simp [Except.isOk, Except.toBool] at h
  | ok a => exact ⟨a, rfl⟩

/-- **A well-shaped receipt passes every check.** -/
theorem checkReceipt_items (hr : Shape r) (htd : r.tupleDigest = toHex (r.digest P)) :
    checkReceipt P.blake3 r.items = .ok (r.digest P) := by
  obtain ⟨b1, hb1⟩ := exists_of_isOk hr.requestHash
  obtain ⟨b2, hb2⟩ := exists_of_isOk hr.payloadHash.2
  obtain ⟨b3, hb3⟩ := exists_of_isOk hr.policyDigest.2
  obtain ⟨b4, hb4⟩ := exists_of_isOk hr.pcr0.2
  have hct : canonicalTuple P.blake3 r.items = .ok (r.digest P) := by
    simp [canonicalTuple, Json.chars, hb4, canonicalReceiptDigest_items hr.sizes]
  simp [checkReceipt, requireFields_items, requireTexts_items _ hr.nonempty, requireTimestamp, requireHex,
    requireDigest, Json.chars, Json.isNonNegInt, hb1, hb2, hb3, hr.payloadHash.1, hr.policyDigest.1, hr.pcr0.1,
    hct, ← htd]

/-! ## Reading a frame -/

/-- The JSON object of a frame. -/
def objectText (P : Primitives) (r : AttestedReceipt) (signature : String) : String :=
  "\x7b\"receipt\": " ++ P.toJson r ++ ", \"signature\": \"" ++ signature ++ "\"\x7d"

/-- What the script relies on `serde_json` and `json` for. -/
structure ReadBack (py : PyJson) (P : Primitives) (r : AttestedReceipt) (signature : String) : Prop where
  /-- A newline in a string is written escaped. -/
  no_newline : 10 ∉ encode (P.toJson r)
  /-- A struct is written as an object, without leading space. -/
  opens : (encode (P.toJson r)).head? = some 123
  /-- `json.loads` reads the object back. -/
  loads : py.loads (encode (objectText P r signature)) =
    .ok (.dict [(pyStr "receipt", .dict r.items), (pyStr "signature", .str (pyStr signature))])
  /-- `raw_decode` reads the receipt where it starts, whatever stands around it. -/
  rawDecode : ∀ before after : String, py.rawDecode (pyStr (before ++ P.toJson r ++ after)) before.length =
    .ok (.dict r.items, before.length + (P.toJson r).length)

/-- Letters, digits, `+`, `/` and `=`. -/
def isBase64Byte (b : UInt8) : Bool :=
  (65 ≤ b && b ≤ 90) || (97 ≤ b && b ≤ 122) || (48 ≤ b && b ≤ 57) || b ∈ [43, 47, 61]

def IsBase64 (t : String) : Prop := ∀ b ∈ encode t, isBase64Byte b = true

theorem IsBase64.no_newline (h : IsBase64 signature) : 10 ∉ encode signature := by
  intro hm
  exact absurd (h 10 hm) (by decide)

/-- The data line of a frame. -/
def dataLine (P : Primitives) (r : AttestedReceipt) (signature : String) : Bytes :=
  encode ("data: " ++ objectText P r signature ++ "\n")

/-- A frame is a newline, the event's line, its data line and a blank line. -/
theorem frame_bytes (P : Primitives) (r : AttestedReceipt) (signature : String) :
    AuditFrame.bytes P ⟨r, signature⟩ =
      [10] ++ ((auditEvent ++ [10]) ++ (dataLine P r signature ++ [10])) := by
  have h1 : encode "\nevent: proxy_audit\ndata: \x7b\"receipt\": " =
      [10] ++ (auditEvent ++ [10]) ++ encode "data: " ++ encode "\x7b\"receipt\": " := by decide
  have h2 : encode "\"\x7d\n\n" = encode "\"\x7d" ++ encode "\n" ++ [10] := rfl
  rw [AuditFrame.bytes, buildProxyAuditFrame, (Utf8.valid_encode _).lossy_eq, h1, h2, dataLine, objectText]
  simp only [Utf8.encode_append, List.append_assoc]

@[simp] theorem isSpace_space : isSpace 32 = true := by decide

@[simp] theorem isSpace_brace : isSpace 123 = false := by decide

/-- `strip` takes the space before the object and the line end after it. -/
theorem strip_object {o : Bytes} (ho : ∃ t, o = 123 :: t) (hc : ∃ t, o = t ++ [125]) :
    strip (32 :: (o ++ [10])) = o := by
  obtain ⟨t, ht⟩ := ho
  have hd : (32 :: (o ++ [10])).dropWhile isSpace = o ++ [10] := by
    simp [ht]
  obtain ⟨u, hu⟩ := hc
  rw [strip, hd, List.rdropWhile_concat_pos _ _ _ (by decide), hu,
    List.rdropWhile_concat_neg _ _ _ (by decide)]

theorem dataLine_eq (P : Primitives) (r : AttestedReceipt) (signature : String) :
    dataLine P r signature = encode "data:" ++ 32 :: (encode (objectText P r signature) ++ [10]) := by
  have h : encode "data: " = encode "data:" ++ [32] := rfl
  have h' : encode "\n" = [10] := by decide
  simp [dataLine, Utf8.encode_append, h, h']

theorem auditObject_dataLine (hb : ReadBack py P r signature) :
    auditObject py (dataLine P r signature) = .ok (r.items, pyStr signature) := by
  have hpre : (encode "data:").isPrefixOf (dataLine P r signature) = true := by
    rw [dataLine_eq, List.isPrefixOf_iff_prefix]
    exact List.prefix_append _ _
  have hopen : encode "\x7b\"receipt\": " = 123 :: encode "\"receipt\": " := rfl
  have hclose : encode "\"\x7d" = encode "\"" ++ [125] := rfl
  have hstrip : strip ((dataLine P r signature).drop 5) = encode (objectText P r signature) := by
    rw [dataLine_eq, List.drop_left' (by decide)]
    apply strip_object
    · simp [objectText, Utf8.encode_append, hopen]
    · rw [objectText, Utf8.encode_append, hclose, ← List.append_assoc]
      exact ⟨_, rfl⟩
  simp [auditObject, hpre, hstrip, hb.loads, Json.items]

/-- A data line around the key `"receipt"` and its colon. -/
theorem dataLine_key (hb : ReadBack py P r signature) :
    ∃ x, dataLine P r signature = encode "data: \x7b\"receipt\"" ++ 58 :: 32 :: 123 :: x := by
  obtain ⟨t, ht⟩ := List.head?_eq_some_iff.1 hb.opens
  have h1 : encode "data: " ++ encode "\x7b\"receipt\": " = encode "data: \x7b\"receipt\"" ++ [58, 32] := rfl
  refine ⟨t ++ encode ", \"signature\": \"" ++ encode signature ++ encode "\"\x7d" ++ encode "\n", ?_⟩
  simp only [dataLine, objectText, Utf8.encode_append, ht, ← List.append_assoc, h1]
  simp

theorem first_receipt_key (hb : ReadBack py P r signature) :
    first (encode "\"receipt\"") ((dataLine P r signature).drop 5) = some 2 := by
  obtain ⟨x, hx⟩ := dataLine_key hb
  have h : (dataLine P r signature).drop 5 = 32 :: 123 :: (encode "\"receipt\"" ++ 58 :: 32 :: 123 :: x) := by
    have h1 : encode "data: \x7b\"receipt\"" = encode "data:" ++ 32 :: 123 :: encode "\"receipt\"" := rfl
    rw [hx, h1, List.append_assoc, List.drop_left' (by decide)]
    rfl
  have hk : encode "\"receipt\"" = 34 :: encode "receipt\"" := rfl
  rw [h, Find.first_eq_some]
  refine ⟨?_, ?_⟩
  · exact List.prefix_append _ _
  · intro j hj
    rw [hk]
    obtain rfl | rfl : j = 0 ∨ j = 1 := by omega
    · simp [Find.At]
    · simp [Find.At]

/-- Past the colon and one space. -/
theorem receiptValueStart_dataLine (hb : ReadBack py P r signature) :
    receiptValueStart (dataLine P r signature) 2 = "data: \x7b\"receipt\": ".length := by
  obtain ⟨x, hx⟩ := dataLine_key hb
  have hcolon : encode ":" = [58] := rfl
  have h16 : (dataLine P r signature).drop 16 = 58 :: 32 :: 123 :: x := by
    rw [hx, List.drop_left' (by decide)]
  have h17 : (dataLine P r signature).drop 17 = 32 :: 123 :: x := by
    rw [show (17 : Nat) = 16 + 1 from rfl, ← List.drop_drop, h16]
    rfl
  have h18 : "data: \x7b\"receipt\": ".length = 18 := by decide
  simp [receiptValueStart, h16, hcolon, first, h17, h18]

theorem rereadReceipt_dataLine (hb : ReadBack py P r signature) :
    rereadReceipt py (dataLine P r signature) = .ok () := by
  have hline : dataLine P r signature = encode ("data: \x7b\"receipt\": " ++ P.toJson r ++
      (", \"signature\": \"" ++ signature ++ "\"\x7d\n")) := by
    have h1 : encode "data: \x7b\"receipt\": " = encode "data: " ++ encode "\x7b\"receipt\": " := rfl
    have h2 : encode "\"\x7d\n" = encode "\"\x7d" ++ encode "\n" := rfl
    simp only [dataLine, objectText, Utf8.encode_append, h1, h2, List.append_assoc]
  rw [rereadReceipt, first_receipt_key hb]
  simp only [receiptValueStart_dataLine hb]
  rw [hline, decodeUtf8_encode, bind_ok, hb.rawDecode]
  rfl

theorem readAudit_dataLine (hr : Shape r) (htd : r.tupleDigest = toHex (r.digest P))
    (hb : ReadBack py P r signature) :
    readAudit py P.blake3 (dataLine P r signature) = .ok ⟨r.items, pyStr signature, r.digest P⟩ := by
  simp [readAudit, auditObject_dataLine hb, checkReceipt_items hr htd, rereadReceipt_dataLine hb]

theorem complete_dataLine (hj : 10 ∉ encode (P.toJson r)) (hsig : IsBase64 signature) :
    Complete 10 (dataLine P r signature) := by
  refine ⟨encode ("data: " ++ objectText P r signature), ?_, ?_⟩
  · have h1 : 10 ∉ encode "data: " ++ encode "\x7b\"receipt\": " := by decide
    have h2 : 10 ∉ encode ", \"signature\": \"" := by decide
    have h3 : 10 ∉ encode "\"\x7d" := by decide
    simp only [List.mem_append, not_or] at h1
    simp only [objectText, Utf8.encode_append, List.mem_append, not_or]
    exact ⟨h1.1, ⟨⟨⟨h1.2, hj⟩, h2⟩, hsig.no_newline⟩, h3⟩
  · have h : encode "\n" = [10] := rfl
    rw [dataLine, Utf8.encode_append, h]

/-- **An audit frame is one audit event.** Its first newline ends the line before it, and that
line is held when the event comes: it is dropped with the newline. -/
theorem run_frame {last after : Bytes} (hs : s.Ready) (hl : 10 ∉ last) (hp : Plain (last ++ [10]))
    (hr : Shape r) (htd : r.tupleDigest = toHex (r.digest P)) (hb : ReadBack py P r signature)
    (hsig : IsBase64 signature) :
    run py P.blake3 s (lines 10 (last ++ (AuditFrame.bytes P ⟨r, signature⟩ ++ after))) =
      run py P.blake3 (Scan.audited { s with hasher := s.hasher ++ s.pendingLine.getD [] }
        ⟨r.items, pyStr signature, r.digest P⟩) (lines 10 after) := by
  have hnl : Complete 10 (last ++ [10]) := ⟨last, hl, rfl⟩
  have hsplit : last ++ (AuditFrame.bytes P ⟨r, signature⟩ ++ after) =
      (last ++ [10]) ++ ((auditEvent ++ [10]) ++ (dataLine P r signature ++ ([10] ++ after))) := by
    simp [frame_bytes]
  rw [hsplit, hnl.lines_append, complete_auditEvent.lines_append, (complete_dataLine hb.no_newline hsig).lines_append,
    complete_blank.lines_append, run_hold hs hp.1 hp.2]
  exact run_audit hs isAuditEvent_auditEvent (readAudit_dataLine hr htd hb) (Or.inl (by decide))

/-! ## A finished stream -/

/-- Plain lines are fed or held, in order. -/
theorem run_plain : ∀ {ms : List Bytes} {s : Scan}, s.Ready → (∀ m ∈ ms, Plain m) →
    ∃ s', run py P.blake3 s (ms ++ rest) = run py P.blake3 s' rest ∧ s'.Ready ∧
      s'.hasher ++ s'.pendingLine.getD [] = s.hasher ++ s.pendingLine.getD [] ++ ms.flatten
  | [], s, hs, _ => ⟨s, rfl, hs, by simp⟩
  | m :: ms, s, hs, hms => by
    have hm := hms m (by simp)
    have hs₁ : Scan.Ready { s with hasher := s.hasher ++ s.pendingLine.getD [], pendingLine := some m } := hs
    obtain ⟨s', hrun, hs', hf⟩ := run_plain hs₁ fun x hx => hms x (List.mem_cons_of_mem _ hx)
    refine ⟨s', ?_, hs', by simpa using hf⟩
    rw [List.cons_append, run_hold hs hm.1 hm.2, hrun]

theorem auditEvent_prefix_of {line : Bytes} (h : isAuditEvent line = true) : auditEvent <+: line := by
  rw [← eq_of_beq h]
  exact List.rdropWhile_prefix _ _

/-- The line of the marker ends the scan and feeds nothing. -/
theorem run_done {suffix : Bytes} (hs : s.Ready) (hp : s.pendingLine = none) :
    run py P.blake3 s (lines 10 (doneMarker ++ suffix)) = .ok s := by
  have hl : ∃ m ms, lines 10 (doneMarker ++ suffix) = (doneMarker ++ m) :: ms :=
    Lines.lines_append_of_not_mem (by decide) (by decide)
  obtain ⟨m, ms, hl⟩ := hl
  have ha : isAuditEvent (doneMarker ++ m) = false := by
    have hm : doneMarker = 100 :: encode "ata: [DONE]" := by decide
    have he : auditEvent = 101 :: encode "vent: proxy_audit" := by decide
    rw [Bool.eq_false_iff]
    intro h
    have := auditEvent_prefix_of h
    simp [hm, he] at this
  have hd : first doneMarker (doneMarker ++ m) = some 0 := by
    rw [Find.first_eq_some]
    exact ⟨List.prefix_append _ _, by simp⟩
  rw [hl, run_stop hs ha hd]
  cases s
  simp_all

/-- The lines of a payload without a marker or an audit line are plain. -/
theorem plain_of_payload {p : Bytes} (hdone : ¬ Has doneMarker p)
    (hlines : ∀ l ∈ lines 10 p, isAuditEvent l = false) : ∀ m ∈ lines 10 p, Plain m := by
  intro m hm
  refine ⟨hlines m hm, Find.first_eq_none.2 fun h => hdone ?_⟩
  obtain ⟨a, b, hab⟩ := List.append_of_mem hm
  have hpe : p = a.flatten ++ (m ++ b.flatten) := by
    rw [← Lines.flatten_lines 10 p, hab]
    simp
  rw [hpe]
  exact (h.append_left (by decide)).append_right

/-- A payload of whole lines, a last line `last` that the frame ends, and the frame: the scan has
been fed the whole lines, `last` is dropped. -/
theorem run_payload_frame {p last after : Bytes} (hp : p = [] ∨ p.getLast? = some 10)
    (hdone : ¬ Has doneMarker p) (hlines : ∀ l ∈ lines 10 p, isAuditEvent l = false) (hl : 10 ∉ last)
    (hlast : Plain last) (hr : Shape r) (htd : r.tupleDigest = toHex (r.digest P)) (hsig : IsBase64 signature)
    (hb : ReadBack py P r signature) :
    run py P.blake3 {} (lines 10 (p ++ (last ++ (AuditFrame.bytes P ⟨r, signature⟩ ++ after)))) =
      run py P.blake3 (Scan.audited { hasher := p } ⟨r.items, pyStr signature, r.digest P⟩) (lines 10 after) := by
  have hs₀ : Scan.Ready {} := ⟨rfl, rfl⟩
  obtain ⟨s, hrun, hs, hf⟩ := @run_plain py P _ _ _ hs₀ (plain_of_payload hdone hlines)
  have hfed : s.hasher ++ s.pendingLine.getD [] = p := by simpa using hf
  rw [Lines.lines_append hp, hrun, run_frame hs hl (plain_newline.2 hlast) hr htd hb hsig]
  simp [Scan.audited, hfed]

/-- With the marker after the frame, the scan returns the hash of the whole lines. -/
theorem hashTranscript_frame {p last suffix : Bytes} (hp : p = [] ∨ p.getLast? = some 10)
    (hdone : ¬ Has doneMarker p) (hlines : ∀ l ∈ lines 10 p, isAuditEvent l = false) (hl : 10 ∉ last)
    (hlast : Plain last) (hr : Shape r) (htd : r.tupleDigest = toHex (r.digest P)) (hsig : IsBase64 signature)
    (hb : ReadBack py P r signature) :
    hashTranscript py P.blake3 (p ++ (last ++ (AuditFrame.bytes P ⟨r, signature⟩ ++ (doneMarker ++ suffix)))) =
      .ok ⟨toHex (P.blake3 p), r.items, r.digest P, pyStr signature⟩ := by
  rw [hashTranscript, run_payload_frame hp hdone hlines hl hlast hr htd hsig hb, run_done ⟨rfl, rfl⟩ rfl, bind_ok]
  rfl

/-- **Verifier completeness.** A payload of whole lines without an event or a marker, the
receipt's frame, and the marker: the scan returns the payload's hash, the receipt, its
canonical digest and the signature, whatever follows. -/
theorem finished_stream_read_back {p suffix : Bytes} (hp : p = [] ∨ p.getLast? = some 10)
    (hdone : ¬ Has doneMarker p) (hlines : ∀ l ∈ lines 10 p, isAuditEvent l = false) (hr : Shape r)
    (htd : r.tupleDigest = toHex (r.digest P)) (hsig : IsBase64 signature) (hb : ReadBack py P r signature) :
    hashTranscript py P.blake3 (p ++ AuditFrame.bytes P ⟨r, signature⟩ ++ doneMarker ++ suffix) =
      .ok ⟨toHex (P.blake3 p), r.items, r.digest P, pyStr signature⟩ := by
  have h := @hashTranscript_frame py P r signature p [] suffix hp hdone hlines (by simp) plain_nil hr htd hsig hb
  simpa using h

/-! ### A finished stream, in full

The digests and the signatures are those of the crates; `json` is given by what it
returns on the one object and the one receipt. -/

/-- `json` on a frame's object and on the receipt in it. -/
def jsonOf (P : Primitives) (r : AttestedReceipt) (signature : String) : PyJson where
  loads b :=
    if b = encode (objectText P r signature) then
      .ok (.dict [(pyStr "receipt", .dict r.items), (pyStr "signature", .str (pyStr signature))])
    else .error (.jsonDecodeError "Expecting value: line 1 column 1 (char 0)")
  loadsText t :=
    if t = pyStr (objectText P r signature) then
      .ok (.dict [(pyStr "receipt", .dict r.items), (pyStr "signature", .str (pyStr signature))])
    else .error (.jsonDecodeError "Expecting value: line 1 column 1 (char 0)")
  rawDecode t i :=
    if pyStr (P.toJson r) <+: t.drop i then .ok (.dict r.items, i + (P.toJson r).length)
    else .error (.jsonDecodeError "Expecting value: line 1 column 1 (char 0)")

theorem readBack_jsonOf (h1 : 10 ∉ encode (P.toJson r)) (h2 : (encode (P.toJson r)).head? = some 123) :
    ReadBack (jsonOf P r signature) P r signature where
  no_newline := h1
  opens := h2
  loads := by simp [jsonOf]
  rawDecode before after := by
    have h : pyStr (P.toJson r) <+: (pyStr (before ++ P.toJson r ++ after)).drop before.length := by
      have hl : before.length = (pyStr before).length := (length_pyStr before).symm
      rw [pyStr_append, pyStr_append, List.append_assoc, hl, List.drop_left]
      exact List.prefix_append _ _
    simp [jsonOf, h]

def hiPrimitives : Primitives := Primitives.ofTables
  [(encode "\x7b\x7d", ofHex "6e46dd10defc9b56c29a6ec56b508c21f54c08192194e4df25bf36f0c9c3c279"),
    (encode "data: hi\r\n\r\n", ofHex "7f448f0eb7f2d6c7de84fde5ff1b3cd7433c376ff729549128cb92ad6f3ae975"),
    (encode "data: hi\r\n\r\nhello", ofHex "1a76cfc18ea76386d3d75d6c6d2e3b30bb38db87f6ad980c4243f0aac329da55"),
    (PiiProxy.canonicalTuple ["request-1", "tenant-1", "https://upstream.example/v1/chat/completions",
        toHex (ofHex "6e46dd10defc9b56c29a6ec56b508c21f54c08192194e4df25bf36f0c9c3c279"),
        toHex (ofHex "3fe110ec77107eae60b292991c12105fbaff1a06ea2ead3afd809dd818ea678c"),
        toHex (List.replicate 48 0),
        toHex (ofHex "7f448f0eb7f2d6c7de84fde5ff1b3cd7433c376ff729549128cb92ad6f3ae975")],
      ofHex "809e0f58ab97c50399cbf815a9577773b6ab703af2ee70f1bf776baba1baf57d")] [] []

def hiDetector : DoneDetector := DoneDetector.new "request-1" "tenant-1"
  "https://upstream.example/v1/chat/completions"
  (toHex (ofHex "3fe110ec77107eae60b292991c12105fbaff1a06ea2ead3afd809dd818ea678c")) (toHex (List.replicate 48 0))

/-- What `receipt_events` builds after the request body `\x7b\x7d` and the payload `"data: hi\r\n\r\n"`. -/
def hiReceipt : AttestedReceipt :=
  hiDetector.receipt hiPrimitives ⟨encode "\x7b\x7d", 1700000000⟩ (encode "data: hi\r\n\r\n")

def hiSignature : String :=
  "j+3yBcxGXebd765JHy47TRNE03xs/AFiAnHHuXN4RD1r//uOuTfDQxDsOucNqEXmFTAaPKKzfKv9L9StcKhoDA=="

theorem readBack_hi : ReadBack (jsonOf hiPrimitives hiReceipt hiSignature) hiPrimitives hiReceipt hiSignature :=
  readBack_jsonOf (by decide +kernel) (by decide +kernel)

theorem shape_hi : Shape hiReceipt :=
  shape_receipt (by decide +kernel) ⟨rfl, by decide +kernel⟩ ⟨rfl, by decide +kernel⟩ (by decide +kernel)
    (by decide +kernel) (by decide +kernel)

theorem base64_hi : IsBase64 hiSignature := by
  unfold IsBase64
  decide +kernel

theorem finished_stream_read_back_hi :
    hashTranscript (jsonOf hiPrimitives hiReceipt hiSignature) hiPrimitives.blake3
      (encode "data: hi\r\n\r\n" ++ AuditFrame.bytes hiPrimitives ⟨hiReceipt, hiSignature⟩ ++
        doneMarker ++ encode "\n\n") =
      .ok ⟨hiReceipt.payloadHash, hiReceipt.items, hiReceipt.digest hiPrimitives,
        pyStr hiSignature⟩ :=
  finished_stream_read_back (Or.inr rfl) (Find.first_eq_none.1 rfl) (by decide) shape_hi rfl base64_hi readBack_hi

end VerifyReceipt

end PiiProxy
