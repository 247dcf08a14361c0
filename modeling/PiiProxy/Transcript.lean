import PiiProxy.Lib.Lines
import PiiProxy.Python

/-!
# The two transcript verifiers

| here | there |
| --- | --- |
| `canonicalReceiptDigest`   | `canonical_receipt_digest` (verify_receipt.py:26) |
| `requireFields`, `requireTexts`, `requireTimestamp` | the receipt checks the scripts share (verify_receipt.py:146-153, verify_e2e.py:138-145) |
| `readAudit`                | the data line of an audit event (verify_receipt.py:135-183) |
| `Scan`, `step`, `run`      | the locals and the loop of `hash_transcript` (verify_receipt.py:125-209) |
| `hashTranscript`           | `hash_transcript` (verify_receipt.py:123) |
| `VerifyE2e.auditStart`, `VerifyE2e.check` | `main` of verify_e2e.py, from the bytes read on (lines 116-169) |

`hash_transcript` goes line by line and holds one line back, so that the newline
`build_proxy_audit_frame` puts before its event is not hashed; verify_e2e.py searches
the bytes for that newline and the event together.
-/

namespace PiiProxy

open Utf8 (encode)
open Find (first)
open Lines (lines)

/-- The bytes `b"data: [DONE]"`, `DONE_MARKER`. -/
def doneMarker : Bytes := encode "data: [DONE]"

/-- The line `b"event: proxy_audit"`, its end stripped. -/
def auditEvent : Bytes := encode "event: proxy_audit"

/-- The bytes verify_e2e.py searches, `audit_marker`. -/
def auditMarker : Bytes := encode "\nevent: proxy_audit\n"

namespace VerifyReceipt

/-- One turn of the loop: the length in eight bytes, then the field. -/
def canonicalField : Json → Except PyError Bytes
  | .str s => do
    let encoded ← encodeUtf8 s
    let len ← toBytes8 encoded.length
    return len ++ encoded
  | _ => throw (.valueError "canonical receipt fields must be strings")

def canonicalReceiptDigest (blake3 : Bytes → Bytes) (receipt : Dict) : Except PyError Bytes := do
  let fields ← ["request_id", "tenant_id", "upstream_url", "request_hash", "policy_digest", "pcr0",
    "payload_hash"].mapM receipt.index
  let canonical ← fields.mapM canonicalField
  return blake3 canonical.flatten

/-! ## Receipt checks -/

def textFields : List String :=
  ["request_id", "tenant_id", "upstream_url", "request_hash", "payload_hash", "policy_digest", "pcr0",
    "tuple_digest"]

def requiredFields : List String := textFields ++ ["timestamp"]

/-- `field not in receipt`, for each field in turn. -/
def requireFields (raise : String → PyError) (receipt : Dict) : List String → Except PyError Unit
  | [] => .ok ()
  | field :: fields =>
    if (receipt.get field).isNone then .error (raise ("receipt missing required field: " ++ field))
    else requireFields raise receipt fields

/-- `not isinstance(receipt[field], str) or not receipt[field]`, for each field in turn. -/
def requireTexts (raise : String → PyError) (receipt : Dict) : List String → Except PyError Unit
  | [] => .ok ()
  | field :: fields => do
    let value ← receipt.index field
    if !value.isText then throw (raise ("receipt field must be a non-empty string: " ++ field))
    requireTexts raise receipt fields

def requireTimestamp (raise : String → PyError) (receipt : Dict) : Except PyError Unit := do
  let timestamp ← receipt.index "timestamp"
  if !timestamp.isNonNegInt then throw (raise "receipt timestamp must be a non-negative integer")

/-- `bytes.fromhex(receipt[field])`, with the exception it is turned into. -/
def requireHex (raise : String → PyError) (receipt : Dict) (field : String) : Except PyError Unit := do
  let value ← receipt.index field
  match fromhex value.chars with
  | .ok _ => return ()
  | .error _ => throw (raise ("receipt field is not hexadecimal: " ++ field))

/-- A digest of 32 bytes: 64 characters, then the digits. -/
def requireDigest (receipt : Dict) (field : String) : Except PyError Unit := do
  let value ← receipt.index field
  if value.chars.length ≠ 64 then
    throw (.valueError ("receipt field must be a 32-byte hexadecimal digest: " ++ field))
  requireHex .valueError receipt field

/-- The `pcr0` text and the canonical tuple, behind one `except (ValueError, KeyError)`. -/
def canonicalTuple (blake3 : Bytes → Bytes) (receipt : Dict) : Except PyError Bytes :=
  let body : Except PyError Bytes := do
    let pcr0 ← receipt.index "pcr0"
    let _ ← fromhex pcr0.chars
    canonicalReceiptDigest blake3 receipt
  match body with
  | .ok digest => .ok digest
  | .error e => match e.valueOrKeyText with
    | some text => .error (.valueError ("invalid canonical receipt fields: " ++ text))
    | none => .error e

/-- verify_receipt.py:146-170; the length of `request_hash` is not checked. -/
def checkReceipt (blake3 : Bytes → Bytes) (receipt : Dict) : Except PyError Bytes := do
  requireFields .valueError receipt requiredFields
  requireTexts .valueError receipt textFields
  requireTimestamp .valueError receipt
  requireHex .valueError receipt "request_hash"
  requireDigest receipt "payload_hash"
  requireDigest receipt "policy_digest"
  let pcr0 ← receipt.index "pcr0"
  if pcr0.chars.length ≠ 96 then throw (.valueError "receipt pcr0 must be a 48-byte hexadecimal digest")
  let tupleDigest ← canonicalTuple blake3 receipt
  let declared ← receipt.index "tuple_digest"
  if declared.chars ≠ pyStr (toHex tupleDigest) then
    throw (.valueError "receipt tuple_digest does not match canonical tuple")
  return tupleDigest

/-! ## The data line of an audit event -/

structure Audit where
  receipt : Dict
  signature : PyStr
  tupleDigest : Bytes

/-- verify_receipt.py:136-145. -/
def auditObject (py : PyJson) (line : Bytes) : Except PyError (Dict × PyStr) := do
  if !(encode "data:").isPrefixOf line then
    throw (.valueError "proxy_audit event is missing its data line")
  let data ← match py.loads (strip (line.drop 5)) with
    | .error (.jsonDecodeError text) => throw (.valueError ("invalid proxy_audit JSON: " ++ text))
    | r => r
  let items ← data.items
  match items.get "receipt", items.get "signature" with
  | some (.dict receipt), some (.str signature) => return (receipt, signature)
  | _, _ => throw (.valueError "proxy_audit payload missing receipt or signature")

/-- Where `raw_decode` starts: past the first colon after the key and the white space after it. -/
def receiptValueStart (line : Bytes) (receiptKeyStart : Nat) : Nat :=
  let colon := 5 + receiptKeyStart + 9
  let start := match first (encode ":") (line.drop colon) with
    | some i => colon + i + 1
    | none => 0
  start + ((line.drop start).takeWhile isSpace).length

/-- verify_receipt.py:171-180: the receipt's own text is decoded once more, from a byte offset. -/
def rereadReceipt (py : PyJson) (line : Bytes) : Except PyError Unit :=
  match first (encode "\"receipt\"") (line.drop 5) with
  | none => .error (.valueError "audit event has no receipt field")
  | some receiptKeyStart => do
    let text ← decodeUtf8 line
    let _ ← py.rawDecode text (receiptValueStart line receiptKeyStart)
    return ()

def readAudit (py : PyJson) (blake3 : Bytes → Bytes) (line : Bytes) : Except PyError Audit := do
  let (receipt, signature) ← auditObject py line
  let tupleDigest ← checkReceipt blake3 receipt
  rereadReceipt py line
  return ⟨receipt, signature, tupleDigest⟩

/-! ## The loop -/

/-- The locals of `hash_transcript`; `hasher` is what was fed to it. -/
structure Scan where
  hasher : Bytes := []
  receipt : Option Dict := none
  tupleDigest : Option Bytes := none
  signature : Option PyStr := none
  expectingAuditData : Bool := false
  expectingAuditBlank : Bool := false
  pendingLine : Option Bytes := none

def isAuditEvent (line : Bytes) : Bool := rstripCrLf line == auditEvent

/-- The held line is fed, unless an audit event follows it; then nothing is held. -/
def Scan.release (s : Scan) (line : Bytes) : Scan :=
  match s.pendingLine with
  | none => s
  | some pending =>
    { s with hasher := if isAuditEvent line then s.hasher else s.hasher ++ pending, pendingLine := none }

/-- One turn of the loop; `done` is `break`. -/
def step (py : PyJson) (blake3 : Bytes → Bytes) (s : Scan) (line : Bytes) :
    Except PyError (ForInStep Scan) :=
  if s.expectingAuditData then do
    let audit ← readAudit py blake3 line
    return .yield { s with
      receipt := some audit.receipt, tupleDigest := some audit.tupleDigest,
      signature := some audit.signature, expectingAuditData := false, expectingAuditBlank := true }
  else if s.expectingAuditBlank then
    if line = encode "\n" ∨ line = encode "\r\n" then .ok (.yield { s with expectingAuditBlank := false })
    else .error (.valueError "proxy_audit event is missing its terminating blank line")
  else
    let s := s.release line
    if isAuditEvent line then .ok (.yield { s with expectingAuditData := true })
    else match first doneMarker line with
      | some markerStart =>
        -- The source tests the held line once more here; it was released above.
        let s := match s.pendingLine with
          | none => s
          | some pending => { s with hasher := s.hasher ++ pending, pendingLine := none }
        .ok (.done { s with hasher := s.hasher ++ line.take markerStart })
      | none => .ok (.yield { s with pendingLine := some line })

def run (py : PyJson) (blake3 : Bytes → Bytes) : Scan → List Bytes → Except PyError Scan
  | s, [] => .ok s
  | s, line :: rest => do
    match ← step py blake3 s line with
    | .yield s => run py blake3 s rest
    | .done s => .ok s

/-- What `hash_transcript` returns. -/
structure Hashed where
  computed : String
  receipt : Dict
  tupleDigest : Bytes
  signature : PyStr

/-- After the loop. -/
def Scan.finish (blake3 : Bytes → Bytes) (s : Scan) : Except PyError Hashed :=
  if s.expectingAuditData || s.expectingAuditBlank then
    .error (.valueError "proxy_audit event is missing its data line")
  else match s.receipt, s.tupleDigest, s.signature with
    | some receipt, some tupleDigest, some signature =>
      .ok ⟨toHex (blake3 s.hasher), receipt, tupleDigest, signature⟩
    | _, _, _ => .error (.valueError "no proxy_audit event found before [DONE]")

def hashTranscript (py : PyJson) (blake3 : Bytes → Bytes) (transcript : Bytes) : Except PyError Hashed :=
  run py blake3 {} (lines 10 transcript) >>= Scan.finish blake3

end VerifyReceipt

namespace VerifyE2e

open VerifyReceipt

/-- `audit_start`, with the marker it must not come after. -/
def auditStart (raw : Bytes) : Except PyError Nat :=
  match first doneMarker raw with
  | none => .error (.assertionError "fragmented SSE response has no DONE marker")
  | some doneStart => match first auditMarker raw with
    | none => .error (.assertionError "proxy_audit event missing or ordered after DONE")
    | some auditStart =>
      if doneStart < auditStart then
        .error (.assertionError "proxy_audit event missing or ordered after DONE")
      else .ok auditStart

/-- The bytes of the JSON object after the event at `auditStart`. -/
def auditPayload (raw : Bytes) (auditStart : Nat) : Except PyError Bytes :=
  match first (encode "data:") (raw.drop auditStart) with
  | none => .error (.assertionError "malformed proxy_audit event")
  | some i => match first (encode "\n\n") (raw.drop (auditStart + i)) with
    | none => .error (.assertionError "malformed proxy_audit event")
    | some j => .ok (strip ((raw.take (auditStart + i + j)).drop (auditStart + i + 5)))

/-- `computed`: the hash of what stands before the event. -/
def payloadHash (blake3 : Bytes → Bytes) (raw : Bytes) (auditStart : Nat) : String :=
  toHex (blake3 (raw.take auditStart))

/-- verify_e2e.py:138-158. -/
def checkFields (blake3 : Bytes → Bytes) (body : Bytes) (receipt : Dict) : Except PyError Unit := do
  requireFields .assertionError receipt requiredFields
  requireTexts .assertionError receipt textFields
  requireTimestamp .assertionError receipt
  let requestHash ← receipt.index "request_hash"
  if requestHash.chars ≠ pyStr (toHex (blake3 body)) then
    throw (.assertionError "request_hash does not match the request body")
  let upstreamUrl ← receipt.index "upstream_url"
  if upstreamUrl.chars.isEmpty then throw (.assertionError "upstream_url must be non-empty")
  let digests ← ["request_hash", "payload_hash", "policy_digest", "tuple_digest"].mapM receipt.index
  if digests.any (·.chars.length ≠ 64) then
    throw (.assertionError "receipt hashes must be 32-byte hexadecimal BLAKE3 digests")
  let pcr0 ← receipt.index "pcr0"
  if pcr0.chars.length ≠ 96 then throw (.assertionError "receipt pcr0 must be a 48-byte hexadecimal digest")
  ["request_hash", "payload_hash", "policy_digest", "pcr0", "tuple_digest"].forM
    (requireHex .assertionError receipt)

/-- What `main` checks of the bytes it read, for the request `body` and the attested key. -/
def check (py : PyJson) (keys : PyKeys) (blake3 : Bytes → Bytes) (body publicKey raw : Bytes) : Except PyError Unit := do
  if (first (encode "password") raw).isSome then throw (.assertionError "PII was not redacted")
  let auditStart ← auditStart raw
  let payload ← auditPayload raw auditStart
  let text ← decodeUtf8 payload
  let data ← py.loadsText text
  let audit ← data.items
  let receipt : Dict ← match audit.get "receipt" with
    | some (.dict receipt) => .ok receipt
    | _ => .error (.assertionError "receipt must be a JSON object")
  checkFields blake3 body receipt
  let signature ← match ← audit.index "signature" with
    | .str s => keys.b64decode s
    | _ => .error .typeError
  let computed := payloadHash blake3 raw auditStart
  let declared ← receipt.index "payload_hash"
  if declared.chars ≠ pyStr computed then
    throw (.assertionError ("BLAKE3 mismatch: computed " ++ computed ++ ", declared " ++
      String.ofList (declared.chars.map Char.ofNat)))
  let tupleDigest ← VerifyReceipt.canonicalReceiptDigest blake3 receipt
  let tuple ← receipt.index "tuple_digest"
  if tuple.chars ≠ pyStr (toHex tupleDigest) then
    throw (.assertionError "receipt tuple_digest does not match canonical tuple")
  keys.verify publicKey signature tupleDigest

end VerifyE2e

end PiiProxy
