import Mathlib.Data.List.Nodup
import PiiProxy.Base

/-!
# Receipts: what is signed and how it is framed

| here | there |
| --- | --- |
| `AttestedReceipt`          | `AttestedReceipt` (lib.rs:890) |
| `canonicalReceiptDigest`   | `canonical_receipt_digest` (lib.rs:903) |
| `buildProxyAuditFrame`     | `build_proxy_audit_frame` (lib.rs:881) |
| `Primitives`               | the crates `blake3`, `ed25519-dalek`, `base64` and `serde_json` |

The four crates are parameters: a theorem that needs something of them says so.
-/

namespace PiiProxy

open Utf8 (encode)

structure AttestedReceipt where
  requestId : String
  tenantId : String
  upstreamUrl : String
  requestHash : String
  payloadHash : String
  policyDigest : String
  pcr0 : String
  tupleDigest : String
  timestamp : Nat
deriving DecidableEq, Repr

structure Primitives where
  /-- The 32-byte digest of the bytes fed to a hasher. -/
  blake3 : Bytes → Bytes
  /-- Ed25519: signing key, message. -/
  sign : Bytes → Bytes → Bytes
  /-- Standard base64. -/
  b64 : Bytes → String
  /-- `serde_json::to_vec` of a receipt; its bytes are UTF-8. -/
  toJson : AttestedReceipt → String
  /-- `serde_json::to_vec` of a policy's patterns and replacements (engine.rs:65). -/
  policyJson : List String → List String → String

/-- `x` and `y` are no collision: with one digest they are one text. Asked of the texts a result is
about, never of all of them, which no digest of 32 bytes tells apart. -/
def CollisionFree (hash : Bytes → Bytes) (x y : Bytes) : Prop := hash x = hash y → x = y

/-- `field.len() as u64` in big-endian, then the field. -/
def canonicalField (field : String) : Bytes := u64be (encode field).length ++ encode field

def canonicalTuple (fields : List String) : Bytes := fields.flatMap canonicalField

def canonicalReceiptDigest (P : Primitives) (requestId tenantId upstreamUrl requestHash policyDigest
    pcr0 redactedResponseHash : String) : Bytes :=
  P.blake3 (canonicalTuple
    [requestId, tenantId, upstreamUrl, requestHash, policyDigest, pcr0, redactedResponseHash])

def buildProxyAuditFrame (receiptJson : Bytes) (signature : String) : Bytes :=
  encode "\nevent: proxy_audit\ndata: \x7b\"receipt\": " ++ Utf8.fromUtf8Lossy receiptJson ++
    encode ", \"signature\": \"" ++ encode signature ++ encode "\"\x7d\n\n"

/-- What an audit frame is built from. -/
structure AuditFrame where
  receipt : AttestedReceipt
  signature : String
deriving DecidableEq, Repr

def AuditFrame.bytes (P : Primitives) (f : AuditFrame) : Bytes :=
  buildProxyAuditFrame (encode (P.toJson f.receipt)) f.signature

/-! ## Concrete primitives

Fixed inputs need the real values of the four crates. Digests, signatures and base64
texts come from tables; off the table the digest is still collision free. -/

def tabled (t : List (Bytes × Bytes)) (x : Bytes) : Bytes :=
  (t.lookup x).getD (List.replicate 33 0 ++ x)

theorem mem_of_lookup {t : List (Bytes × Bytes)} {x h : Bytes} (hl : t.lookup x = some h) : (x, h) ∈ t := by
  induction t with
  | nil => simp at hl
  | cons e t ih =>
    obtain ⟨k, v⟩ := e
    rw [List.lookup_cons] at hl
    by_cases hx : x == k
    · simp only [hx, Option.some.injEq] at hl
      simp [← hl, eq_of_beq hx]
    · simp only [hx] at hl
      exact List.mem_cons_of_mem _ (ih hl)

theorem tabled_injective {t : List (Bytes × Bytes)} (h32 : ∀ e ∈ t, e.2.length = 32)
    (hnd : (t.map Prod.snd).Nodup) : Function.Injective (tabled t) := by
  intro x y h
  unfold tabled at h
  cases hx : t.lookup x with
  | none => cases hy : t.lookup y with
    | none =>
      simp only [hx, hy, Option.getD_none] at h
      exact List.append_cancel_left h
    | some v =>
      have := h32 _ (mem_of_lookup hy)
      have := congrArg List.length h
      simp [hx, hy] at this; simp_all
  | some u => cases hy : t.lookup y with
    | none =>
      have := h32 _ (mem_of_lookup hx)
      have := congrArg List.length h
      simp [hx, hy] at this; simp_all
    | some v =>
      simp only [hx, hy, Option.getD_some] at h
      exact congrArg Prod.fst (List.inj_on_of_nodup_map hnd (mem_of_lookup hx) (mem_of_lookup hy) h)

/-- A JSON string of characters that need no escape. -/
def jsonText (s : String) : String := "\"" ++ s ++ "\""

/-- `serde_json::to_string` of a receipt whose fields need no escape. -/
def plainJson (r : AttestedReceipt) : String :=
  "\x7b\"request_id\":" ++ jsonText r.requestId ++ ",\"tenant_id\":" ++ jsonText r.tenantId ++
    ",\"upstream_url\":" ++ jsonText r.upstreamUrl ++ ",\"request_hash\":" ++ jsonText r.requestHash ++
    ",\"payload_hash\":" ++ jsonText r.payloadHash ++ ",\"policy_digest\":" ++ jsonText r.policyDigest ++
    ",\"pcr0\":" ++ jsonText r.pcr0 ++ ",\"tuple_digest\":" ++ jsonText r.tupleDigest ++
    ",\"timestamp\":" ++ toString r.timestamp ++ "\x7d"

def jsonTexts (l : List String) : String := "[" ++ ",".intercalate (l.map jsonText) ++ "]"

def Primitives.ofTables (digests signatures : List (Bytes × Bytes)) (base64 : List (Bytes × String)) :
    Primitives where
  blake3 := tabled digests
  sign _ message := (signatures.lookup message).getD []
  b64 b := (base64.lookup b).getD ""
  toJson := plainJson
  policyJson patterns replacements := "[" ++ jsonTexts patterns ++ "," ++ jsonTexts replacements ++ "]"

end PiiProxy
