import PiiProxy.Lib.Base64
import PiiProxy.Lib.Cbor
import PiiProxy.ReceiptAuthentic

/-!
# Attestation: the handler and the clients

| here | there |
| --- | --- |
| `Crates`, `Cbor.Value`   | the crates `hex`, `base64` and `ciborium`, and `ciborium::Value` |
| `decodeNonce`, `attestationHandler` | the handler `attestation_document` (lib.rs:248-282) |
| `validateNonce`, `Attestor`, `attestationDocument` | attestation.rs:8-90 |
| `mockDocument`           | the value of attestation.rs:55-84 |
| `Item`, `PyCbor`         | what `cbor2.loads` returns, and the function |
| `PyX509`, `verifyCertificateChain` | `x509`, `verify_certificate_chain` (verify_receipt.py:55-73) |
| `decodeBytes`, `extractAttestedIdentity` | verify_receipt.py:46-52, 76-120 |
| `VerifyE2e.verifyAttestationNonce`, `VerifyE2e.attest` | verify_e2e.py:31-77, and `main` up to line 93 |

The crates and the packages `cbor2`, `x509` and `pycose` are parameters, as partial functions; what
is assumed of them is named (`Crates.Agrees`, `PyKeys.Agrees`, `PyCbor.Agrees`). A `CBORDecodeError`
stands as the `ValueError` both scripts treat it like.

* `attestationHandler_ok_iff` — which nonces the handler takes, and what it answers with
* `attested_key_iff` — when the client takes the key of what the handler serves
* `extractAttestedIdentity_unsigned` — verify_receipt.py reads the key from a payload that nothing signs
* `VerifyE2e.attest_ok_iff` — verify_e2e.py takes mock documents only
-/

namespace PiiProxy

open Utf8 (encode)

/-! ## The proxy -/

section Proxy

structure Crates where
  /-- `hex::decode`; its error is dropped. -/
  hexDecode : String → Option Bytes
  /-- `B64Std.decode`, the error dropped. -/
  b64Decode : String → Option Bytes
  /-- `B64Std.encode`. -/
  b64Encode : Bytes → String
  /-- `ciborium::ser::into_writer`, to a vector. -/
  intoWriter : Cbor.Value → Except String Bytes

variable (A : Crates)

/-- `hex::decode(..).or_else(|_| B64Std.decode(..))`. -/
def decodeNonce (encoded : String) : Option Bytes := (A.hexDecode encoded).or (A.b64Decode encoded)

def validateNonce : Option Bytes → Except String Unit
  | some nonce => if nonce.length ≠ 32 then .error "attestation nonce must be exactly 32 bytes" else .ok ()
  | none => .ok ()

/-- With and without the feature `nitro`. -/
inductive Attestor where
  /-- With the variable `MOCK_PCR0`. -/
  | mock (mockPcr0 : Option String)
  /-- The request to `/dev/nsm`, with the nonce and the user data. -/
  | nitro (request : Option Bytes → Bytes → Except String Bytes)

def mockDocument (publicKey nonce : Bytes) (pcr0 : String) : Cbor.Value := .map
  [(.text "format", .text "local-mock-not-nitro"), (.text "user_data", .bytes publicKey),
    (.text "public_key", .bytes publicKey), (.text "nonce", .bytes nonce), (.text "pcr0", .text pcr0),
    (.text "certificate", .bytes []), (.text "cabundle", .array [])]

/-- `none` is the panic without `MOCK_PCR0`. -/
def attestationDocument (attestor : Attestor) (publicKey : Bytes) (nonce : Option Bytes) :
    Option (Except String Bytes) :=
  match validateNonce nonce with
  | .error e => some (.error e)
  | .ok () => match attestor with
    | .nitro request => some (request nonce publicKey)
    | .mock mockPcr0 => mockPcr0.map fun pcr0 =>
      (A.intoWriter (mockDocument publicKey (nonce.getD []) pcr0)).mapError ("failed to encode mock attestation: " ++ ·)

/-- Status and body. -/
def attestationHandler (attestor : Attestor) (publicKey : Bytes) (nonce : Option String) : Option (Nat × String) :=
  match nonce with
  | none => some (400, "nonce query parameter is required")
  | some encodedNonce => match decodeNonce A encodedNonce with
    | none => some (400, "nonce must be hex or standard base64")
    | some nonce =>
      if nonce.length ≠ 32 then some (400, "nonce must decode to exactly 32 bytes")
      else (attestationDocument A attestor publicKey (some nonce)).map fun
        | .ok document => (200, A.b64Encode document)
        | .error e => (502, e)

/-- The standard base64 of bytes, with its pads. -/
def base64Text (b : Bytes) : String := String.ofList (Base64.encode b)

/-- What the crates document: hexadecimal digits of either case, base64 written with its pads and read strictly, CBOR
with every length in front, in its shortest form. -/
structure Crates.Agrees : Prop where
  hexDecode : ∀ s, A.hexDecode s = Base64.hexDecode s.toList
  b64Decode : ∀ s, A.b64Decode s = Base64.decode s.toList
  b64Encode : ∀ b, A.b64Encode b = base64Text b
  intoWriter : ∀ v, A.intoWriter v = .ok v.write

end Proxy

/-! ## The clients -/

/-- What `cbor2.loads` returns. -/
inductive Item where
  | int (n : Int)
  /-- A float, with the integer it is equal to. -/
  | float (whole : Option Int)
  | bool (b : Bool)
  | null
  | bytes (b : Bytes)
  | str (s : PyStr)
  | list (items : List Item)
  /-- The items of a `dict`. -/
  | dict (items : List (Item × Item))
  | other

abbrev ItemDict := List (Item × Item)

/-- The function `cbor2.loads`. -/
structure PyCbor where
  loads : Bytes → Except PyError Item

/-- The integer a key is equal to; `False == 0` in Python. -/
def Item.asInt : Item → Option Int
  | .int n => some n
  | .float whole => whole
  | .bool b => some b.toNat
  | _ => none

def Item.isStr (s : PyStr) : Item → Bool
  | .str s' => s' == s
  | _ => false

/-- `d.get(key)` for a text key; `none` is `None`. -/
def ItemDict.getText (d : ItemDict) (key : String) : Option Item := (d.find? fun e => e.1.isStr (pyStr key)).map Prod.snd

/-- `d.get(key)` for an integer key. -/
def ItemDict.getInt (d : ItemDict) (key : Int) : Option Item := (d.find? fun e => e.1.asInt == some key).map Prod.snd

/-- `str.isspace()` of one character. -/
def isStrSpace (n : Nat) : Bool :=
  (9 ≤ n && n ≤ 13) || (28 ≤ n && n ≤ 32) || n == 0x85 || n == 0xA0 || n == 0x1680 || (0x2000 ≤ n && n ≤ 0x200A) ||
    n == 0x2028 || n == 0x2029 || n == 0x202F || n == 0x205F || n == 0x3000

def stripStr (s : PyStr) : PyStr := (s.dropWhile isStrSpace).rdropWhile isStrSpace

inductive KeyKind where
  | rsa
  | ellipticCurve
  | edwards
  | other
deriving DecidableEq, Repr

/-- The module `x509`; `verify issuer child` is the signature check of the issuer's key type. -/
structure PyX509 where
  Certificate : Type
  load : Bytes → Except PyError Certificate
  subject : Certificate → String
  issuer : Certificate → String
  keyKind : Certificate → KeyKind
  verify : Certificate → Certificate → Except PyError Unit

namespace VerifyReceipt

def decodeBytes (keys : PyKeys) (value : PyStr) : Except PyError Bytes :=
  match keys.b64decode (stripStr value) with
  | .ok raw => .ok raw
  | .error (.binasciiError text) | .error (.valueError text) =>
    .error (.valueError ("invalid base64 attestation document: " ++ text))
  | .error e => .error e

section Chain

variable (X : PyX509)

/-- `x509.load_der_x509_certificate(value)`, which takes bytes. -/
def loadItem : Item → Except PyError X.Certificate
  | .bytes b => X.load b
  | _ => .error .typeError

def checkLink (child issuer : X.Certificate) : Except PyError Unit :=
  if X.issuer child ≠ X.subject issuer then .error (.valueError "attestation certificate issuer chain is inconsistent")
  else if X.keyKind issuer = .other then .error (.valueError "unsupported attestation certificate public-key type")
  else X.verify issuer child

/-- The loop over neighbours in the list of certificates. -/
def checkLinks : List X.Certificate → Except PyError Unit
  | child :: issuer :: rest => do
    checkLink X child issuer
    checkLinks (issuer :: rest)
  | _ => .ok ()

def verifyCertificateChain (certificate : Bytes) (cabundle : List Item) (root : Bytes) : Except PyError Unit := do
  let leaf ← X.load certificate
  let bundle ← cabundle.mapM (loadItem X)
  let root ← X.load root
  checkLinks X (leaf :: bundle ++ [root])
  if X.subject root ≠ X.issuer root then
    throw (.valueError "AWS attestation root certificate is not self-signed")

end Chain

/-- The `user_data` of a document, if it is a key. -/
def userKey (value : Option Item) (text : String) : Except PyError Bytes :=
  match value with
  | some (.bytes key) => if key.length = 32 then .ok key else .error (.valueError text)
  | _ => .error (.valueError text)

def isMock : Item → Option ItemDict
  | .dict d => match ItemDict.getText d "format" with
    | some (.str s) => if s = pyStr "local-mock-not-nitro" then some d else none
    | _ => none
  | _ => none

/-- `cbor2.loads` in a `try`, with the text of its exception. -/
def loadsOr (C : PyCbor) (text : String) (document : Bytes) : Except PyError Item :=
  match C.loads document with
  | .error (.valueError e) => .error (.valueError (text ++ e))
  | r => r

/-- The claims of a `COSE_Sign1` structure (verify_receipt.py:91-101). -/
def coseClaims (C : PyCbor) : Item → Except PyError ItemDict
  | .list [_, _, .bytes payload, _] => do
    match ← loadsOr C "attestation payload is not valid CBOR: " payload with
    | .dict claims => return claims
    | _ => throw (.valueError "attestation payload must be a CBOR map")
  | .list [_, _, _, _] => .error (.valueError "COSE attestation payload is missing")
  | _ => .error (.valueError "attestation document must be a COSE_Sign1 structure")

/-- `claims.get(name, claims.get(number))`. -/
def claim (claims : ItemDict) (name : String) (number : Int) : Option Item := (claims.getText name).or (claims.getInt number)

/-- PCR0 as the text it is compared as; bytes in hexadecimal. -/
def claimedPcr0 (claims : ItemDict) : Option PyStr :=
  match claim claims "pcrs" 4 with
  | some (.dict pcrs) => match ItemDict.getInt pcrs 0 with
    | some (.bytes b) => some (pyStr (toHex b))
    | some (.str s) => some s
    | _ => none
  | _ => none

/-- What is checked of the claims before the key is read (verify_receipt.py:103-116). -/
def checkClaims (X : PyX509) (claims : ItemDict) (expectedPcr0 : PyStr) (root : Option Bytes) : Except PyError Unit :=
  if claimedPcr0 claims ≠ some expectedPcr0 then
    .error (.valueError "attestation PCR0 does not match expected release hash")
  else match claim claims "certificate" 3, claim claims "cabundle" 4 with
    | some (.bytes certificate), some (.list (ca :: cabundle)) => match root with
      | none => .error (.valueError "--aws-root-cert is required for AWS Nitro certificate-chain validation")
      | some root => verifyCertificateChain X certificate (ca :: cabundle) root
    | _, _ => .error (.valueError "attestation certificate chain is missing; AWS PKI validation required")

def extractAttestedIdentity (C : PyCbor) (X : PyX509) (document : Bytes) (expectedPcr0 : PyStr) (root : Option Bytes) :
    Except PyError Bytes := do
  let decoded ← loadsOr C "attestation document is not valid CBOR: " document
  match isMock decoded with
  | some d => match ItemDict.getText d "pcr0" with
    | some (.str pcr0) =>
      if pcr0 ≠ expectedPcr0 then throw (.valueError "mock attestation PCR0 does not match expected release hash")
      userKey (ItemDict.getText d "user_data") "mock attestation user_data must contain a 32-byte public key"
    | _ => throw (.valueError "mock attestation PCR0 does not match expected release hash")
  | none =>
    let claims ← coseClaims C decoded
    checkClaims X claims expectedPcr0 root
    userKey (claim claims "user_data" 5) "attestation user_data must contain the 32-byte Ed25519 public key"

end VerifyReceipt

/-- The package `pycose`; a certificate's key is made into a `COSE` key of its curve. -/
structure PyCose (X : PyX509) where
  /-- `Sign1Message.decode(document).payload`. -/
  payload : Bytes → Except PyError Bytes
  curve : X.Certificate → String
  /-- `verify_signature()` of the message under the certificate's key. -/
  verifySignature : Bytes → X.Certificate → Except PyError Bool

namespace VerifyE2e

open VerifyReceipt (isMock decodeBytes extractAttestedIdentity)

def nonceMismatch : PyError :=
  .assertionError "CRITICAL: Attestation nonce mismatch. Replay attack detected or stale hardware state."

/-- `returned_nonce == client_nonce`. -/
def isBytes (b : Bytes) : Option Item → Bool
  | some (.bytes b') => b' == b
  | _ => false

/-- The certificate whose key checks the message (verify_e2e.py:45-66). -/
def messageCertificate (X : PyX509) (K : PyCose X) (payload : ItemDict) : Except PyError X.Certificate :=
  match payload.getText "certificate" with
  | some (.bytes der) => do
    let cert ← X.load der
    if X.keyKind cert ≠ .ellipticCurve then
      throw (.valueError "CRITICAL: Nitro attestation certificate key is not elliptic curve")
    if K.curve cert ∉ ["secp256r1", "secp384r1", "secp521r1"] then
      throw (.valueError ("CRITICAL: unsupported Nitro certificate curve: " ++ K.curve cert))
    return cert
  | _ => .error (.valueError "CRITICAL: Nitro attestation certificate is missing")

def verifyAttestationNonce (C : PyCbor) (X : PyX509) (K : PyCose X) (document clientNonce : Bytes) (expectedPcr0 : PyStr) :
    Except PyError Unit := do
  let decoded ← C.loads document
  match isMock decoded with
  | some d =>
    if !isBytes clientNonce (ItemDict.getText d "nonce") then throw nonceMismatch
    if !((ItemDict.getText d "pcr0").any (Item.isStr expectedPcr0)) then
      throw (.assertionError "CRITICAL: Mock PCR0 mismatch.")
  | none =>
    let payload ← K.payload document
    match ← C.loads payload with
    | .dict payload =>
      let cert ← messageCertificate X K payload
      if !(← K.verifySignature document cert) then
        throw (.valueError "CRITICAL: Nitro COSE_Sign1 signature verification failed")
      if !isBytes clientNonce (ItemDict.getText payload "nonce") then throw nonceMismatch
      match ItemDict.getText payload "pcrs" with
      | some (.dict pcrs) => match ItemDict.getInt pcrs 0 with
        | some (.bytes b) =>
          if pyStr (toHex b) ≠ expectedPcr0 then throw (.valueError "CRITICAL: Nitro attestation PCR0 mismatch")
        | _ => throw (.valueError "CRITICAL: Nitro attestation PCR0 mismatch")
      | _ => throw (.valueError "CRITICAL: Nitro attestation PCR0 mismatch")
    | _ => throw (.attributeError "'get'")

/-- The key `main` takes from the body of the attestation endpoint, for the nonce it has sent. -/
def attest (keys : PyKeys) (C : PyCbor) (X : PyX509) (K : PyCose X) (nonce : Bytes) (expectedPcr0 body : PyStr) :
    Except PyError Bytes := do
  let document ← decodeBytes keys body
  verifyAttestationNonce C X K document nonce expectedPcr0
  extractAttestedIdentity C X document expectedPcr0 none

end VerifyE2e

/-! ## The nonce -/

section Nonce

theorem hexValue_hexDigit : ∀ n < 16, Base64.hexValue (hexDigit n) = some n := by decide

theorem hexDecode_toHex (b : Bytes) : Base64.hexDecode (toHex b).toList = some b := by
  induction b with
  | nil => rfl
  | cons x b ih =>
    have hx := x.toNat_lt
    have hbyte : UInt8.ofNat (16 * (x.toNat / 16) + x.toNat % 16) = x := by
      rw [Nat.div_add_mod, UInt8.ofNat_toNat]
    have htext : (toHex (x :: b)).toList = hexDigit (x.toNat / 16) :: hexDigit (x.toNat % 16) :: (toHex b).toList := by
      simp [toHex]
    rw [htext, Base64.hexDecode, hexValue_hexDigit _ (by omega), hexValue_hexDigit _ (by omega), ih]
    simp only [Option.bind_eq_bind, Option.bind_some, hbyte]
    rfl

variable {A : Crates}

/-- Both spellings of a nonce. -/
theorem decodeNonce_eq_some (hA : A.Agrees) {encoded : String} {nonce : Bytes} (hlen : nonce.length = 32) :
    decodeNonce A encoded = some nonce ↔
      Base64.hexDecode encoded.toList = some nonce ∨ encoded = base64Text nonce := by
  rw [decodeNonce, hA.hexDecode, hA.b64Decode]
  constructor
  · intro h
    cases hhex : Base64.hexDecode encoded.toList with
    | some b =>
      rw [hhex, Option.some_or] at h
      exact .inl h
    | none =>
      rw [hhex, Option.none_or] at h
      refine .inr ?_
      rw [base64Text, Base64.encode_decode h, String.ofList_toList]
  · rintro (h | rfl)
    · rw [h, Option.some_or]
    · rw [base64Text, String.toList_ofList, Base64.hexDecode_encode nonce (by omega), Option.none_or,
        Base64.decode_encode]

/-- **What the handler answers.** It answers with a document exactly for a 32-byte nonce, written in hexadecimal of
either case or in standard base64, and the document is made for that nonce; every nonce is taken in both
spellings. -/
theorem attestationHandler_ok_iff (hA : A.Agrees) (attestor : Attestor) (publicKey : Bytes) (query : Option String)
    (body : String) :
    (attestationHandler A attestor publicKey query = some (200, body) ↔ ∃ encoded nonce document, query = some encoded ∧
      nonce.length = 32 ∧ (Base64.hexDecode encoded.toList = some nonce ∨ encoded = base64Text nonce) ∧
      attestationDocument A attestor publicKey (some nonce) = some (.ok document) ∧ body = base64Text document) ∧
    ∀ nonce : Bytes, nonce.length = 32 →
      decodeNonce A (toHex nonce) = some nonce ∧ decodeNonce A (base64Text nonce) = some nonce := by
  refine ⟨?_, fun nonce hlen => ⟨(decodeNonce_eq_some hA hlen).2 (.inl (hexDecode_toHex nonce)),
    (decodeNonce_eq_some hA hlen).2 (.inr rfl)⟩⟩
  constructor
  · intro h
    cases query with
    | none => simp [attestationHandler] at h
    | some encoded =>
      cases hd : decodeNonce A encoded with
      | none => simp [attestationHandler, hd] at h
      | some nonce =>
        by_cases hlen : nonce.length = 32
        · simp only [attestationHandler, hd, hlen, ne_eq, not_true_eq_false, if_false, Option.map_eq_some_iff] at h
          obtain ⟨r, hr, h⟩ := h
          cases r with
          | ok document =>
            simp only [Prod.mk.injEq, true_and, hA.b64Encode] at h
            exact ⟨encoded, nonce, document, rfl, hlen, (decodeNonce_eq_some hA hlen).1 hd, hr, h.symm⟩
          | error e => simp at h
        · simp [attestationHandler, hd, hlen] at h
  · rintro ⟨encoded, nonce, document, rfl, hlen, hspelt, hdoc, rfl⟩
    simp only [attestationHandler, (decodeNonce_eq_some hA hlen).2 hspelt, hlen, ne_eq, not_true_eq_false, if_false, hdoc,
      Option.map_some, hA.b64Encode]

/-- The crates, as far as the grammars go. -/
def grammarCrates : Crates where
  hexDecode s := Base64.hexDecode s.toList
  b64Decode s := Base64.decode s.toList
  b64Encode := base64Text
  intoWriter v := .ok v.write

theorem grammarCrates_agrees : grammarCrates.Agrees := ⟨fun _ => rfl, fun _ => rfl, fun _ => rfl, fun _ => rfl⟩

def releasePcr0 : String := toHex (List.replicate 48 171)

theorem attestationHandler_ok_iff_sevens :
    attestationHandler grammarCrates (.mock (some releasePcr0)) (List.replicate 32 9) (some (toHex (List.replicate 32 7))) =
      some (200, base64Text (mockDocument (List.replicate 32 9) (List.replicate 32 7) releasePcr0).write) :=
  (attestationHandler_ok_iff grammarCrates_agrees _ _ _ _).1.2 ⟨_, List.replicate 32 7, _, rfl, by simp,
    .inl (hexDecode_toHex _), rfl, rfl⟩

end Nonce

/-! ## A mock document, from the proxy to the client -/

section Mock

variable {A : Crates} {keys : PyKeys} {C : PyCbor} {X : PyX509} {K : PyCose X} {publicKey nonce : Bytes} {pcr0 : String}

/-- Equality of keys that are texts or integers. -/
def Item.keyEq : Item → Item → Bool
  | .str a, .str b => a == b
  | .int a, .int b => a == b
  | _, _ => false

def Item.isKey : Item → Bool
  | .str _ | .int _ => true
  | _ => false

/-- `d[key] = value`, which keeps the place of a key that is there. -/
def ItemDict.insert (d : ItemDict) (k v : Item) : ItemDict :=
  if d.any fun e => e.1.keyEq k then d.map fun e => if e.1.keyEq k then (e.1, v) else e else d ++ [(k, v)]

/-- An entry of a map, if its key is a text or an integer. -/
def keyed (e : Option Item × Option Item) : Option (Item × Item) :=
  match e with
  | (some k, some v) => if k.isKey then some (k, v) else none
  | _ => none

/-- The values `cbor2` makes of items whose maps have texts and integers for keys. -/
def cborBuild : Cbor.Build (Option Item) where
  int n := some (.int n)
  bytes b := some (.bytes b)
  text t := some (.str (pyStr t))
  list items := (items.mapM id).map .list
  map es := (es.mapM keyed).map fun es => .dict (es.foldl (fun d e => ItemDict.insert d e.1 e.2) [])

/-- `cbor2` reads what the grammar reads, as the same value. -/
def PyCbor.Agrees (C : PyCbor) : Prop :=
  ∀ document v, Cbor.read cborBuild 16 document = some (some v) → C.loads document = .ok v

/-- `base64` reads what the proxy's encoder writes. -/
def PyKeys.Agrees (keys : PyKeys) : Prop := ∀ b, keys.b64decode (pyStr (base64Text b)) = .ok b

theorem foldl_insert_str {ms : List (PyStr × Item)} : ∀ {d : List (PyStr × Item)}, ((d ++ ms).map Prod.fst).Nodup →
    (ms.map fun m => (Item.str m.1, m.2)).foldl (fun d e => ItemDict.insert d e.1 e.2) (d.map fun m => (Item.str m.1, m.2)) =
      (d ++ ms).map fun m => (Item.str m.1, m.2) := by
  induction ms with
  | nil => intro d _; simp
  | cons m ms ih =>
    intro d hd
    have hnew : (d.map fun m => (Item.str m.1, m.2)).any (fun e => e.1.keyEq (.str m.1)) = false := by
      rw [List.map_append, List.map_cons, List.nodup_middle, List.nodup_cons] at hd
      rw [List.any_eq_false]
      intro e he
      obtain ⟨x, hx, rfl⟩ := List.mem_map.1 he
      have hne : x.1 ≠ m.1 := fun h => hd.1 (List.mem_append_left _ (h ▸ List.mem_map_of_mem hx))
      simpa [Item.keyEq] using hne
    have hins : ItemDict.insert (d.map fun m => (Item.str m.1, m.2)) (.str m.1) m.2 =
        (d ++ [m]).map fun m => (Item.str m.1, m.2) := by
      rw [ItemDict.insert, hnew]
      simp
    rw [List.append_cons] at hd
    rw [List.map_cons, List.foldl_cons, hins, ih hd, List.append_assoc, List.singleton_append]

/-- A map whose keys are texts of their own. -/
theorem cborBuild_map {ms : List (String × Item)} (h : (ms.map Prod.fst).Nodup) :
    cborBuild.map (ms.map fun m => (some (.str (pyStr m.1)), some m.2)) =
      some (.dict (ms.map fun m => (.str (pyStr m.1), m.2))) := by
  have hkeyed : (ms.map fun m => (some (Item.str (pyStr m.1)), some m.2)).mapM keyed =
      some (ms.map fun m => (Item.str (pyStr m.1), m.2)) := by
    clear h
    induction ms with
    | nil => rfl
    | cons m ms ih => simp [List.mapM_cons, keyed, Item.isKey, ih]
  have hnodup : (([] ++ ms.map fun m : String × Item => (pyStr m.1, m.2)).map Prod.fst).Nodup := by
    have := h.map pyStr_injective
    simpa [List.map_map, Function.comp_def] using this
  have hfold := foldl_insert_str hnodup
  simp only [List.map_nil, List.map_map, Function.comp_def, List.nil_append] at hfold
  simp only [cborBuild, hkeyed, Option.map_some, hfold]

/-- The `dict` of a mock document. -/
def mockEntries (publicKey nonce : Bytes) (pcr0 : String) : List (String × Item) :=
  [("format", .str (pyStr "local-mock-not-nitro")), ("user_data", .bytes publicKey), ("public_key", .bytes publicKey),
    ("nonce", .bytes nonce), ("pcr0", .str (pyStr pcr0)), ("certificate", .bytes []), ("cabundle", .list [])]

def mockDict (publicKey nonce : Bytes) (pcr0 : String) : ItemDict :=
  (mockEntries publicKey nonce pcr0).map fun m => (.str (pyStr m.1), m.2)

/-- Whether the lengths of a document fit in 64 bits. -/
structure Fits (publicKey nonce : Bytes) (pcr0 : String) : Prop where
  publicKey : publicKey.length < 2 ^ 64
  nonce : nonce.length < 2 ^ 64
  pcr0 : (encode pcr0).length < 2 ^ 64

theorem read_mockDocument (h : Fits publicKey nonce pcr0) :
    Cbor.read cborBuild 16 (mockDocument publicKey nonce pcr0).write = some (some (.dict (mockDict publicKey nonce pcr0))) := by
  have htext : ∀ t : String, (encode t).length < 2 ^ 64 → Cbor.Reads cborBuild 15 (Cbor.writeText t) (some (.str (pyStr t))) :=
    fun t ht => Cbor.reads_text cborBuild 15 ht
  have hbytes : ∀ b : Bytes, b.length < 2 ^ 64 → Cbor.Reads cborBuild 15 (Cbor.writeBytes b) (some (.bytes b)) :=
    fun b hb => Cbor.reads_bytes cborBuild 15 hb
  have hlist : Cbor.Reads cborBuild 15 (Cbor.writeList []) (some (.list [])) :=
    @Cbor.reads_list _ cborBuild 14 [] (by decide) (by simp)
  have hreads := @Cbor.reads_map _ cborBuild 15
    [((Cbor.writeText "format", some (.str (pyStr "format"))),
        (Cbor.writeText "local-mock-not-nitro", some (.str (pyStr "local-mock-not-nitro")))),
      ((Cbor.writeText "user_data", some (.str (pyStr "user_data"))), (Cbor.writeBytes publicKey, some (.bytes publicKey))),
      ((Cbor.writeText "public_key", some (.str (pyStr "public_key"))), (Cbor.writeBytes publicKey, some (.bytes publicKey))),
      ((Cbor.writeText "nonce", some (.str (pyStr "nonce"))), (Cbor.writeBytes nonce, some (.bytes nonce))),
      ((Cbor.writeText "pcr0", some (.str (pyStr "pcr0"))), (Cbor.writeText pcr0, some (.str (pyStr pcr0)))),
      ((Cbor.writeText "certificate", some (.str (pyStr "certificate"))), (Cbor.writeBytes [], some (.bytes []))),
      ((Cbor.writeText "cabundle", some (.str (pyStr "cabundle"))), (Cbor.writeList [], some (.list [])))]
    (by simp) (by
      simp only [List.forall_mem_cons]
      refine ⟨⟨htext _ (by decide), htext _ (by decide)⟩, ⟨htext _ (by decide), hbytes _ h.publicKey⟩,
        ⟨htext _ (by decide), hbytes _ h.publicKey⟩, ⟨htext _ (by decide), hbytes _ h.nonce⟩,
        ⟨htext _ (by decide), htext _ h.pcr0⟩, ⟨htext _ (by decide), hbytes _ (by decide)⟩,
        ⟨htext _ (by decide), hlist⟩, by simp⟩)
  have hmap := @cborBuild_map (mockEntries publicKey nonce pcr0) (by simp [mockEntries])
  simp only [List.map_cons, List.map_nil] at hreads
  simp only [mockEntries, List.map_cons, List.map_nil] at hmap
  rw [hmap] at hreads
  simp only [mockDocument, Cbor.Value.write, List.map_cons, List.map_nil]
  exact Cbor.read_reads hreads

theorem mockDict_lookups (publicKey nonce : Bytes) (pcr0 : String) :
    (mockDict publicKey nonce pcr0).getText "format" = some (.str (pyStr "local-mock-not-nitro")) ∧
    (mockDict publicKey nonce pcr0).getText "user_data" = some (.bytes publicKey) ∧
    (mockDict publicKey nonce pcr0).getText "nonce" = some (.bytes nonce) ∧
    (mockDict publicKey nonce pcr0).getText "pcr0" = some (.str (pyStr pcr0)) := by
  simp [ItemDict.getText, mockDict, mockEntries, Item.isStr]

theorem isMock_mockDict (publicKey nonce : Bytes) (pcr0 : String) :
    VerifyReceipt.isMock (.dict (mockDict publicKey nonce pcr0)) = some (mockDict publicKey nonce pcr0) := by
  simp only [VerifyReceipt.isMock, (mockDict_lookups publicKey nonce pcr0).1, if_true]

/-- `strip` leaves a text without white space as it is. -/
theorem stripStr_eq {s : PyStr} (h : ∀ n ∈ s, isStrSpace n = false) : stripStr s = s := by
  have hdrop : s.dropWhile isStrSpace = s := by
    cases s with
    | nil => rfl
    | cons n s => simp [h n List.mem_cons_self]
  rw [stripStr, hdrop, List.rdropWhile_eq_self_iff]
  intro hne
  rw [Bool.not_eq_true]
  exact h _ (List.getLast_mem hne)

theorem sextetChar_not_space : ∀ n < 64, isStrSpace (Base64.sextetChar n).toNat = false := by decide

theorem encode_not_space (b : Bytes) : ∀ c ∈ Base64.encode b, isStrSpace c.toNat = false :=
  Base64.forall_mem_encode sextetChar_not_space (by decide) b

theorem decodeBytes_base64Text (hkeys : keys.Agrees) (b : Bytes) : VerifyReceipt.decodeBytes keys (pyStr (base64Text b)) = .ok b := by
  have hstrip : stripStr (pyStr (base64Text b)) = pyStr (base64Text b) := by
    apply stripStr_eq
    intro n hn
    rw [base64Text, pyStr, String.toList_ofList] at hn
    obtain ⟨c, hc, rfl⟩ := List.mem_map.1 hn
    exact encode_not_space b c hc
  rw [VerifyReceipt.decodeBytes, hstrip, hkeys b]

/-- Both checks of verify_e2e.py on a mock document. -/
theorem attest_mockDocument (hkeys : keys.Agrees) (hC : C.Agrees) (h : Fits publicKey nonce pcr0) (client key : Bytes)
    (expected : PyStr) :
    VerifyE2e.attest keys C X K client expected (pyStr (base64Text (mockDocument publicKey nonce pcr0).write)) = .ok key ↔
      nonce = client ∧ pyStr pcr0 = expected ∧ publicKey.length = 32 ∧ key = publicKey := by
  obtain ⟨-, huser, hnonce, hpcr0⟩ := mockDict_lookups publicKey nonce pcr0
  have hloads := hC _ _ (read_mockDocument h)
  rw [VerifyE2e.attest, decodeBytes_base64Text hkeys, bind_ok]
  simp only [VerifyE2e.verifyAttestationNonce, VerifyReceipt.extractAttestedIdentity, VerifyReceipt.loadsOr, hloads, bind_ok,
    isMock_mockDict, hnonce, hpcr0, huser, VerifyE2e.isBytes, Option.any_some, Item.isStr, VerifyReceipt.userKey]
  by_cases hn : nonce = client
  · by_cases hp : pyStr pcr0 = expected
    · by_cases hl : publicKey.length = 32
      · simp [hn, hp, hl, eq_comm]
      · simp [hn, hp, hl]
    · simp [hn, hp]
  · simp [hn]

/-- What a mock proxy answers to a nonce. -/
theorem attestationHandler_mock (hA : A.Agrees) {encoded : String} (hd : decodeNonce A encoded = some nonce)
    (hlen : nonce.length = 32) : attestationHandler A (.mock (some pcr0)) publicKey (some encoded) =
      some (200, base64Text (mockDocument publicKey nonce pcr0).write) := by
  simp only [attestationHandler, hd, hlen, ne_eq, not_true_eq_false, if_false, attestationDocument, validateNonce,
    Option.map_some, Option.getD_some, hA.intoWriter, Except.mapError, hA.b64Encode]

/-- **A fresh document, and only that, gives the proxy's key.** The client asks with its nonce and takes the body
it is given: it comes to the proxy's key if the body was served for that nonce by a proxy of the
expected PCR0, and to no key otherwise. -/
theorem attested_key_iff (hA : A.Agrees) (hkeys : keys.Agrees) (hC : C.Agrees) {mockPcr0 : Option String}
    {encoded body : String}
    (hserved : attestationHandler A (.mock mockPcr0) publicKey (some encoded) = some (200, body)) (hkey : publicKey.length = 32)
    (hsize : ∀ pcr0, mockPcr0 = some pcr0 → (encode pcr0).length < 2 ^ 64) (client key : Bytes) (expected : PyStr) :
    VerifyE2e.attest keys C X K client expected (pyStr body) = .ok key ↔
      decodeNonce A encoded = some client ∧ mockPcr0.map pyStr = some expected ∧ key = publicKey := by
  cases hd : decodeNonce A encoded with
  | none => simp [attestationHandler, hd] at hserved
  | some nonce =>
    by_cases hlen : nonce.length = 32
    · cases hpcr0 : mockPcr0 with
      | none => simp [attestationHandler, hd, hlen, attestationDocument, validateNonce, hpcr0] at hserved
      | some pcr0 =>
        rw [hpcr0, attestationHandler_mock hA hd hlen, Option.some.injEq, Prod.mk.injEq] at hserved
        have hfits : Fits publicKey nonce pcr0 := ⟨by omega, by omega, hsize pcr0 hpcr0⟩
        rw [← hserved.2, attest_mockDocument hkeys hC hfits]
        simp [hkey]
    · simp [attestationHandler, hd, hlen] at hserved

/-- `cbor2` as far as the grammar goes. -/
def grammarCbor : PyCbor where
  loads document := match Cbor.read cborBuild 16 document with
    | some (some v) => .ok v
    | _ => .error (.valueError "premature end of stream")

theorem grammarCbor_agrees : grammarCbor.Agrees := by
  intro document v h
  simp only [grammarCbor, h]

/-- `base64`, with no signature that verifies. -/
def grammarKeys : PyKeys where
  b64decode text := match Base64.decode (text.map Char.ofNat) with
    | some b => .ok b
    | none => .error (.binasciiError "Only base64 data is allowed")
  verify _ _ _ := .error .invalidSignature

theorem grammarKeys_agrees : grammarKeys.Agrees := by
  intro b
  have hchars : (pyStr (base64Text b)).map Char.ofNat = Base64.encode b := by
    rw [base64Text, pyStr, String.toList_ofList, List.map_map]
    simp [Function.comp_def]
  simp only [grammarKeys, hchars, Base64.decode_encode]

/-! ### Three certificates

A chain of P-384 keys in DER, fifty bytes a number: `CN=leaf` was issued by `CN=intermediate`, and that by
`CN=root`, which signed itself. -/

def leafDer : Bytes :=
  Cbor.bigEndian 50 0x308201a63082012ca003020102020103300a06082a8648ce3d04030330173115301306035504030c0c696e7465726d656469 ++
  Cbor.bigEndian 50 0x6174653020170d3236313131383135343931365a180f32313236313032353135343931365a300f310d300b06035504030c04 ++
  Cbor.bigEndian 50 0x6c6561663076301006072a8648ce3d020106052b810400220362000470af1e4747e38a5f3a1cf2ee9f0a57d99303fb80c5ea ++
  Cbor.bigEndian 50 0x3831854d4101120cdbe6a8a095af9def4d0a77aa076dfaa14ecde22f1521bead346d2bdf91f0cb8d1014f13c6b352d6fd25c ++
  Cbor.bigEndian 50 0xb166dfa86e10887592fe0776ccfcc8df97df176875d38943a3523050300e0603551d0f0101ff040403020780301d0603551d ++
  Cbor.bigEndian 50 0x0e04160414c5502db50183e07fdccee400b6bb414a7f771b1a301f0603551d2304183016801464d2898d10d02db2c7a4eb87 ++
  Cbor.bigEndian 50 0xe80567489cd563a1300a06082a8648ce3d0403030368003065023100942ede175ae86778a66f85093932f6be9c855b8b35ec ++
  Cbor.bigEndian 50 0xf9619464ae4aa6d048bdea1e1c962d881d4d74fbd6cdec159f8502303ee68410764ff02a4c5b9ba455b48397faf7c5ff04c3 ++
  Cbor.bigEndian 26 0x7356c4d57afc0453d0ab03c0b0939e26cdff6bac5b0f33de0bf6

def intermediateDer : Bytes :=
  Cbor.bigEndian 50 0x308201b73082013da003020102020102300a06082a8648ce3d040303300f310d300b06035504030c04726f6f743020170d32 ++
  Cbor.bigEndian 50 0x36313131383135343931365a180f32313236313032353135343931365a30173115301306035504030c0c696e7465726d6564 ++
  Cbor.bigEndian 50 0x696174653076301006072a8648ce3d020106052b81040022036200045f06b7942eca7c0afd8b6f5a8049d6669b4a8ec72aaf ++
  Cbor.bigEndian 50 0xda4c0f72be70b3cded5207108d240f51fcc613a92ffa7012e7d502eef5751bbaffc6db6759ae0a90d2f30a468080f9db0dfb ++
  Cbor.bigEndian 50 0xdb14ffacd535ec0404c35ab5e5f3e0ed2303095f7f229d40a3633061300f0603551d130101ff040530030101ff300e060355 ++
  Cbor.bigEndian 50 0x1d0f0101ff040403020204301d0603551d0e0416041464d2898d10d02db2c7a4eb87e80567489cd563a1301f0603551d2304 ++
  Cbor.bigEndian 50 0x1830168014905f90b0263fb9599b3110150aaeee93bbce0912300a06082a8648ce3d040303036800306502307b7bde4207e2 ++
  Cbor.bigEndian 50 0xd520bac768cc051a245cdce8b918614e83f900b374a5fa54abc56e5b31766bff8ac894fc67cae2a6d42d023100c29fc84dcb ++
  Cbor.bigEndian 43 0xf7a6c65ff93a8edbb591025838c84d28dd4b0090af5c898651bf8aa60307777cd4ada1887b68266513588e

def rootDer : Bytes :=
  Cbor.bigEndian 50 0x3082018e30820114a003020102020101300a06082a8648ce3d040303300f310d300b06035504030c04726f6f743020170d32 ++
  Cbor.bigEndian 50 0x36313131383135343931355a180f32313236313032353135343931355a300f310d300b06035504030c04726f6f7430763010 ++
  Cbor.bigEndian 50 0x06072a8648ce3d020106052b810400220362000436826d5c21ff1a0add5dd9869bcfc2854814e5fe2b05b304d6673b2179ba ++
  Cbor.bigEndian 50 0xedc53e828133082b24ada786a173555236b45fea644d083e352a2cae66524885e8406d459ff48e45ab3d932e21d88b2bd011 ++
  Cbor.bigEndian 50 0xa05c8c47c67c3ab1c43704bbcd4383b0a3423040300f0603551d130101ff040530030101ff300e0603551d0f0101ff040403 ++
  Cbor.bigEndian 50 0x020204301d0603551d0e04160414905f90b0263fb9599b3110150aaeee93bbce0912300a06082a8648ce3d04030303680030 ++
  Cbor.bigEndian 50 0x65023100bcfa5946630d040c74ad85e124d97734cedec081bd4b784d6f5fe240ea238e122762b1841179f2267e8743af978e ++
  Cbor.bigEndian 50 0x931e02302a233ec7010e139deafaa49758078fd377e00cbcc2479eab3355dd73cdd86ae44612abaea28a17557b95eed31ea9 ++
  Cbor.bigEndian 2 0x2229

theorem length_leafDer : leafDer.length = 426 := by simp [leafDer, Cbor.length_bigEndian]

theorem length_intermediateDer : intermediateDer.length = 443 := by simp [intermediateDer, Cbor.length_bigEndian]

/-- `x509` on them; a signature verifies under the next key of the chain only. -/
def threeCertificates : PyX509 where
  Certificate := Fin 3
  load der := match [(leafDer, 0), (intermediateDer, 1), (rootDer, 2)].lookup der with
    | some certificate => .ok certificate
    | none => .error (.valueError "error parsing asn1 value")
  subject c := if c = 0 then "CN=leaf" else if c = 1 then "CN=intermediate" else "CN=root"
  issuer c := if c = 0 then "CN=intermediate" else "CN=root"
  keyKind _ := .ellipticCurve
  verify issuer child := if issuer.val = min 2 (child.val + 1) then .ok () else .error .invalidSignature

/-- No message decodes. -/
def noCose : PyCose threeCertificates where
  payload _ := .error (.valueError "no message")
  curve _ := "secp384r1"
  verifySignature _ _ := .ok false

theorem attested_key_iff_sevens :
    VerifyE2e.attest grammarKeys grammarCbor threeCertificates noCose (List.replicate 32 7) (pyStr releasePcr0)
      (pyStr (base64Text (mockDocument (List.replicate 32 9) (List.replicate 32 7) releasePcr0).write)) =
        .ok (List.replicate 32 9) := by
  have hnonce : decodeNonce grammarCrates (toHex (List.replicate 32 7)) = some (List.replicate 32 7) :=
    (decodeNonce_eq_some grammarCrates_agrees (by simp)).2 (.inl (hexDecode_toHex _))
  have hserved := @attestationHandler_mock grammarCrates (List.replicate 32 9) _ releasePcr0 grammarCrates_agrees _ hnonce
    (by simp)
  refine (attested_key_iff grammarCrates_agrees grammarKeys_agrees grammarCbor_agrees hserved (by simp) ?_ _ _ _).2
    ⟨hnonce, rfl, rfl⟩
  rintro _ ⟨⟩
  decide +kernel

end Mock

/-! ## Nitro documents -/

namespace VerifyReceipt

variable {C : PyCbor} {X : PyX509} {expected : PyStr} {root : Option Bytes}

/-- The key of a `COSE_Sign1` document, once it is decoded. -/
theorem extractAttestedIdentity_cose {document payload : Bytes} {a b d : Item} {claims : ItemDict}
    (hdoc : C.loads document = .ok (.list [a, b, .bytes payload, d])) (hpayload : C.loads payload = .ok (.dict claims)) :
    extractAttestedIdentity C X document expected root = (do
      checkClaims X claims expected root
      userKey (claim claims "user_data" 5) "attestation user_data must contain the 32-byte Ed25519 public key") := by
  simp only [extractAttestedIdentity, loadsOr, hdoc, hpayload, bind_ok, isMock, coseClaims, pure_eq_ok]

/-- **Nothing signs the key.** Take a Nitro document that verify_receipt.py accepts. Any other with the same PCRs and
certificates is accepted too, whatever its headers and its signature, and gives the key that was put into it. -/
theorem extractAttestedIdentity_unsigned {document forged payload payload' : Bytes} {a b d a' b' d' : Item}
    {claims claims' : ItemDict} {key key' : Bytes}
    (hdoc : C.loads document = .ok (.list [a, b, .bytes payload, d])) (hpayload : C.loads payload = .ok (.dict claims))
    (hdoc' : C.loads forged = .ok (.list [a', b', .bytes payload', d'])) (hpayload' : C.loads payload' = .ok (.dict claims'))
    (hsame : ∀ c ∈ [("pcrs", 4), ("certificate", 3), ("cabundle", 4)], claim claims' c.1 c.2 = claim claims c.1 c.2)
    (huser : claim claims' "user_data" 5 = some (.bytes key')) (hlen : key'.length = 32)
    (hacc : extractAttestedIdentity C X document expected root = .ok key) :
    extractAttestedIdentity C X forged expected root = .ok key' := by
  simp only [List.forall_mem_cons] at hsame
  obtain ⟨hpcrs, hcert, hca, -⟩ := hsame
  have hpcr0 : claimedPcr0 claims' = claimedPcr0 claims := by simp only [claimedPcr0, hpcrs]
  have hcheck : checkClaims X claims' expected root = checkClaims X claims expected root := by
    rw [checkClaims, checkClaims, hpcr0, hcert, hca]
  rw [extractAttestedIdentity_cose hdoc hpayload, bind_eq_ok] at hacc
  obtain ⟨u, hok, -⟩ := hacc
  rw [extractAttestedIdentity_cose hdoc' hpayload', hcheck, hok, bind_ok]
  simp only [huser, userKey, hlen, if_true]

section Forged

/-- A payload of a Nitro document, with its PCR0, its chain and a key. -/
def nitroPayload (key : Bytes) : Bytes := Cbor.writeMap
  [(Cbor.writeText "pcrs", Cbor.writeMap [(Cbor.writeHead 0 0, Cbor.writeBytes (List.replicate 48 171))]),
    (Cbor.writeText "certificate", Cbor.writeBytes leafDer),
    (Cbor.writeText "cabundle", Cbor.writeList [Cbor.writeBytes intermediateDer]),
    (Cbor.writeText "user_data", Cbor.writeBytes key)]

def nitroDocument (key signature : Bytes) : Bytes := Cbor.writeList
  [Cbor.writeBytes [161, 1, 56, 34], Cbor.writeMap [], Cbor.writeBytes (nitroPayload key), Cbor.writeBytes signature]

def nitroEntries (key : Bytes) : List (String × Item) :=
  [("pcrs", .dict [(.int 0, .bytes (List.replicate 48 171))]), ("certificate", .bytes leafDer),
    ("cabundle", .list [.bytes intermediateDer]), ("user_data", .bytes key)]

def nitroClaims (key : Bytes) : ItemDict := (nitroEntries key).map fun m => (.str (pyStr m.1), m.2)

theorem loads_nitroPayload {key : Bytes} (hkey : key.length < 2 ^ 64) :
    grammarCbor.loads (nitroPayload key) = .ok (.dict (nitroClaims key)) := by
  have htext : ∀ t : String, (encode t).length < 2 ^ 64 → Cbor.Reads cborBuild 15 (Cbor.writeText t) (some (.str (pyStr t))) :=
    fun t ht => Cbor.reads_text cborBuild 15 ht
  have hpcrs : Cbor.Reads cborBuild 15 (Cbor.writeMap [(Cbor.writeHead 0 0, Cbor.writeBytes (List.replicate 48 171))])
      (some (.dict [(.int 0, .bytes (List.replicate 48 171))])) :=
    @Cbor.reads_map _ cborBuild 14 [((Cbor.writeHead 0 0, some (.int 0)),
        (Cbor.writeBytes (List.replicate 48 171), some (.bytes (List.replicate 48 171))))] (by simp) (by
      simp only [List.forall_mem_singleton]
      exact ⟨Cbor.reads_nat cborBuild 14 (by decide), Cbor.reads_bytes cborBuild 14 (by simp)⟩)
  have hcabundle : Cbor.Reads cborBuild 15 (Cbor.writeList [Cbor.writeBytes intermediateDer])
      (some (.list [.bytes intermediateDer])) :=
    @Cbor.reads_list _ cborBuild 14 [(Cbor.writeBytes intermediateDer, some (.bytes intermediateDer))] (by simp) (by
      simp only [List.forall_mem_singleton]
      exact Cbor.reads_bytes cborBuild 14 (by rw [length_intermediateDer]; decide))
  have hreads := @Cbor.reads_map _ cborBuild 15
    [((Cbor.writeText "pcrs", some (.str (pyStr "pcrs"))),
        (Cbor.writeMap [(Cbor.writeHead 0 0, Cbor.writeBytes (List.replicate 48 171))],
          some (.dict [(.int 0, .bytes (List.replicate 48 171))]))),
      ((Cbor.writeText "certificate", some (.str (pyStr "certificate"))), (Cbor.writeBytes leafDer, some (.bytes leafDer))),
      ((Cbor.writeText "cabundle", some (.str (pyStr "cabundle"))),
        (Cbor.writeList [Cbor.writeBytes intermediateDer], some (.list [.bytes intermediateDer]))),
      ((Cbor.writeText "user_data", some (.str (pyStr "user_data"))), (Cbor.writeBytes key, some (.bytes key)))]
    (by simp) (by
      simp only [List.forall_mem_cons]
      exact ⟨⟨htext _ (by decide), hpcrs⟩, ⟨htext _ (by decide), Cbor.reads_bytes cborBuild 15 (by rw [length_leafDer]; decide)⟩,
        ⟨htext _ (by decide), hcabundle⟩, ⟨htext _ (by decide), Cbor.reads_bytes cborBuild 15 hkey⟩, by simp⟩)
  have hmap := @cborBuild_map (nitroEntries key) (by simp [nitroEntries])
  simp only [List.map_cons, List.map_nil] at hreads
  simp only [nitroEntries, List.map_cons, List.map_nil] at hmap
  rw [hmap] at hreads
  exact grammarCbor_agrees _ _ (Cbor.read_reads hreads)

theorem loads_nitroDocument {key signature : Bytes} (hpayload : (nitroPayload key).length < 2 ^ 64)
    (hsignature : signature.length < 2 ^ 64) : grammarCbor.loads (nitroDocument key signature) =
      .ok (.list [.bytes [161, 1, 56, 34], .dict [], .bytes (nitroPayload key), .bytes signature]) := by
  have hmap : Cbor.Reads cborBuild 15 (Cbor.writeMap []) (some (.dict [])) :=
    @Cbor.reads_map _ cborBuild 14 [] (by decide) (by simp)
  have hreads := @Cbor.reads_list _ cborBuild 15
    [(Cbor.writeBytes [161, 1, 56, 34], some (.bytes [161, 1, 56, 34])), (Cbor.writeMap [], some (.dict [])),
      (Cbor.writeBytes (nitroPayload key), some (.bytes (nitroPayload key))),
      (Cbor.writeBytes signature, some (.bytes signature))] (by simp) (by
      simp only [List.forall_mem_cons]
      exact ⟨Cbor.reads_bytes cborBuild 15 (by decide), hmap, Cbor.reads_bytes cborBuild 15 hpayload,
        Cbor.reads_bytes cborBuild 15 hsignature, by simp⟩)
  exact grammarCbor_agrees _ _ (Cbor.read_reads hreads)

/-- The enclave's key, and the one that stands in its place. -/
def enclaveKey : Bytes := List.replicate 32 9
def forgedKey : Bytes := List.replicate 32 66

/-- The leaf's signature of the document with the enclave's key. -/
def enclaveSignature : Bytes :=
  Cbor.bigEndian 50 0x3867bb094bfe55853a102aaf291d7513a70ba0d3dde5cf1aaf79681e1c4ca4d327dceffd4946eca0825b3035ca543afaaae7 ++
  Cbor.bigEndian 46 0xac9e030d13d2e38b8bd31ca55df605db5919a4461cb40e14a9936d888100e868d2235c861600bcc487b4fc092e7a

theorem extractAttestedIdentity_unsigned_forged :
    extractAttestedIdentity grammarCbor threeCertificates (nitroDocument forgedKey []) (pyStr releasePcr0) (some rootDer) =
      .ok forgedKey := by
  have hdoc := @loads_nitroDocument enclaveKey enclaveSignature (by decide +kernel) (by decide +kernel)
  have hpayload := @loads_nitroPayload enclaveKey (by simp [enclaveKey])
  have haccepted : extractAttestedIdentity grammarCbor threeCertificates (nitroDocument enclaveKey enclaveSignature)
      (pyStr releasePcr0) (some rootDer) = .ok enclaveKey := by
    have hpcr0 : claimedPcr0 (nitroClaims enclaveKey) = some (pyStr releasePcr0) := rfl
    have hchain : verifyCertificateChain threeCertificates leafDer [.bytes intermediateDer] rootDer = .ok () := by
      decide +kernel
    rw [extractAttestedIdentity_cose hdoc hpayload, checkClaims, if_neg (by rw [hpcr0]; simp)]
    exact (congrArg (· >>= _) hchain).trans rfl
  refine extractAttestedIdentity_unsigned hdoc hpayload (loads_nitroDocument (by decide +kernel) (by decide))
    (loads_nitroPayload (by simp [forgedKey])) ?_ rfl (by decide) haccepted
  simp only [List.forall_mem_cons]
  exact ⟨rfl, rfl, rfl, by simp⟩

end Forged

/-- Without a root certificate no claims pass. -/
theorem checkClaims_no_root (claims : ItemDict) (u : Unit) : checkClaims X claims expected none ≠ .ok u := by
  unfold checkClaims
  split
  · simp
  · split <;> simp

theorem userKey_eq_ok {value : Option Item} {text : String} {key : Bytes} :
    userKey value text = .ok key ↔ value = some (.bytes key) ∧ key.length = 32 := by
  unfold userKey
  split
  · rename_i b
    by_cases hb : b.length = 32
    · simp only [hb, if_true, Except.ok.injEq, Option.some.injEq, Item.bytes.injEq]
      exact ⟨fun h => ⟨h, h ▸ hb⟩, fun h => h.1⟩
    · simp only [hb, if_false, reduceCtorEq, Option.some.injEq, Item.bytes.injEq, false_iff, not_and]
      rintro rfl
      exact hb
  · rename_i hne
    simp only [reduceCtorEq, false_iff, not_and]
    rintro rfl
    exact absurd rfl (hne key)

end VerifyReceipt

namespace VerifyE2e

open VerifyReceipt (isMock decodeBytes extractAttestedIdentity)

variable {keys : PyKeys} {C : PyCbor} {X : PyX509} {K : PyCose X}

/-- A mock document for this nonce and this PCR0, with `key` in it. -/
structure MockFor (nonce : Bytes) (expected : PyStr) (key : Bytes) (d : ItemDict) : Prop where
  format : d.getText "format" = some (.str (pyStr "local-mock-not-nitro"))
  nonce : d.getText "nonce" = some (.bytes nonce)
  pcr0 : d.getText "pcr0" = some (.str expected)
  userData : d.getText "user_data" = some (.bytes key)
  length : key.length = 32

theorem isMock_eq_some {decoded : Item} {d : ItemDict} :
    isMock decoded = some d ↔ decoded = .dict d ∧ d.getText "format" = some (.str (pyStr "local-mock-not-nitro")) := by
  unfold isMock
  split
  · rename_i d'
    split
    · rename_i s hs
      by_cases h : s = pyStr "local-mock-not-nitro"
      · simp only [h, if_true, Option.some.injEq, Item.dict.injEq]
        constructor
        · rintro rfl
          exact ⟨rfl, h ▸ hs⟩
        · exact fun hd => hd.1
      · simp only [h, if_false, reduceCtorEq, Item.dict.injEq, false_iff, not_and]
        rintro rfl hf
        rw [hs] at hf
        simp only [Option.some.injEq, Item.str.injEq] at hf
        exact h hf
    · rename_i hne
      simp only [reduceCtorEq, Item.dict.injEq, false_iff, not_and]
      rintro rfl hf
      exact hne _ hf
  · rename_i hne
    simp only [reduceCtorEq, false_iff, not_and]
    rintro rfl
    exact absurd rfl (hne d)

theorem isBytes_iff {b : Bytes} {v : Option Item} : isBytes b v = true ↔ v = some (.bytes b) := by
  unfold isBytes
  split
  · simp only [beq_iff_eq, Option.some.injEq, Item.bytes.injEq]
  · rename_i hne
    simp only [Bool.false_eq_true, false_iff]
    rintro rfl
    exact absurd rfl (hne b)

theorem any_isStr_iff {s : PyStr} {v : Option Item} : v.any (Item.isStr s) = true ↔ v = some (.str s) := by
  cases v with
  | none => simp
  | some v => cases v <;> simp [Item.isStr]

/-- **The end-to-end check knows mock documents only.** It comes to a key exactly for a mock document with its own
nonce and the expected PCR0: every document a Nitro enclave can make is refused, for `main` passes no root
certificate. -/
theorem attest_ok_iff (nonce key : Bytes) (expected body : PyStr) :
    attest keys C X K nonce expected body = .ok key ↔ ∃ document d, decodeBytes keys body = .ok document ∧
      C.loads document = .ok (.dict d) ∧ MockFor nonce expected key d := by
  constructor
  · intro h
    rw [attest, bind_eq_ok] at h
    obtain ⟨document, hdecode, h⟩ := h
    rw [bind_eq_ok] at h
    obtain ⟨u, hverify, hextract⟩ := h
    rw [verifyAttestationNonce, bind_eq_ok] at hverify
    obtain ⟨decoded, hloads, hverify⟩ := hverify
    simp only [extractAttestedIdentity, VerifyReceipt.loadsOr, hloads, bind_ok] at hextract
    cases hm : isMock decoded with
    | some d =>
      obtain ⟨rfl, hformat⟩ := isMock_eq_some.1 hm
      simp only [hm] at hverify hextract
      cases hn : isBytes nonce (ItemDict.getText d "nonce") with
      | false => simp [hn] at hverify
      | true =>
        cases hp : (ItemDict.getText d "pcr0").any (Item.isStr expected) with
        | false => simp [hn, hp] at hverify
        | true =>
          have hpcr0 := any_isStr_iff.1 hp
          simp only [hpcr0, ne_eq, not_true_eq_false, if_false] at hextract
          obtain ⟨huser, hlen⟩ := VerifyReceipt.userKey_eq_ok.1 hextract
          exact ⟨document, d, hdecode, hloads, hformat, isBytes_iff.1 hn, hpcr0, huser, hlen⟩
    | none =>
      simp only [hm, bind_eq_ok] at hextract
      obtain ⟨claims, -, u', hcheck, -⟩ := hextract
      exact absurd hcheck (VerifyReceipt.checkClaims_no_root claims u')
  · rintro ⟨document, d, hdecode, hloads, hmock⟩
    have hm : isMock (.dict d) = some d := isMock_eq_some.2 ⟨rfl, hmock.format⟩
    have hn := isBytes_iff.2 hmock.nonce
    have hp := any_isStr_iff.2 hmock.pcr0
    rw [attest, hdecode, bind_ok]
    simp only [verifyAttestationNonce, extractAttestedIdentity, VerifyReceipt.loadsOr, hloads, bind_ok, hm, hn, hp,
      Bool.not_true, Bool.false_eq_true, if_false, pure_eq_ok]
    simp only [hmock.pcr0, hmock.userData, ne_eq, not_true_eq_false, if_false]
    exact VerifyReceipt.userKey_eq_ok.2 ⟨rfl, hmock.length⟩

end VerifyE2e

end PiiProxy
