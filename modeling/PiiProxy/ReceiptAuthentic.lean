import PiiProxy.Lib.PrefixFree
import PiiProxy.TranscriptFrame

/-!
# What a verified receipt fixes

| here | there |
| --- | --- |
| `SignedTuple`       | the seven arguments of `canonical_receipt_digest` (lib.rs:903), the seven keys of the script's (verify_receipt.py:27) |
| `verifySignature`   | `verify_signature` (verify_receipt.py:218) |

Each field of the canonical tuple stands behind its length in eight bytes, so the bytes
hashed give the fields back, and the signature of a digest fixes all seven. The script
recomputes the digest from the receipt it read and compares `tuple_digest` with it.

* `canonical_preimage_shared_injective` — the proxy and the script hash the same bytes, which fix the fields
* `verified_receipt_authentic` — an accepted receipt whose digest the proxy signed is the proxy's, but for its time
-/

namespace PiiProxy

open Utf8 (encode)
open PrefixFree

/-- The arguments of `canonical_receipt_digest`, in their order. -/
structure SignedTuple where
  requestId : String
  tenantId : String
  upstreamUrl : String
  requestHash : String
  policyDigest : String
  pcr0 : String
  redactedResponseHash : String
deriving DecidableEq, Repr

def SignedTuple.fields (v : SignedTuple) : List String :=
  [v.requestId, v.tenantId, v.upstreamUrl, v.requestHash, v.policyDigest, v.pcr0, v.redactedResponseHash]

/-- `canonical_receipt_digest(..)` of the tuple. -/
def SignedTuple.digest (P : Primitives) (v : SignedTuple) : Bytes :=
  canonicalReceiptDigest P v.requestId v.tenantId v.upstreamUrl v.requestHash v.policyDigest v.pcr0
    v.redactedResponseHash

def AttestedReceipt.signed (r : AttestedReceipt) : SignedTuple :=
  ⟨r.requestId, r.tenantId, r.upstreamUrl, r.requestHash, r.policyDigest, r.pcr0, r.payloadHash⟩

/-- Every field's byte length is a `u64`. -/
def SignedTuple.Fits (v : SignedTuple) : Prop := ∀ f ∈ v.fields, (encode f).length < UInt64.size

theorem SignedTuple.fields_injective : Function.Injective SignedTuple.fields := by
  intro v w h
  simp only [SignedTuple.fields, List.cons.injEq, and_true] at h
  obtain ⟨h1, h2, h3, h4, h5, h6, h7⟩ := h
  cases v
  cases w
  simp_all only

/-! ## The bytes hashed -/

theorem length_u64be (n : Nat) : (u64be n).length = 8 := rfl

/-- One byte more of two numbers that agree above it. -/
theorem shiftRight_eq_of_byte {m n : Nat} (s : Nat) (hhigh : m >>> (s + 8) = n >>> (s + 8))
    (hbyte : UInt8.ofNat (m >>> s) = UInt8.ofNat (n >>> s)) : m >>> s = n >>> s := by
  rw [Nat.shiftRight_add, Nat.shiftRight_add] at hhigh
  rw [← UInt8.toNat_inj, UInt8.toNat_ofNat', UInt8.toNat_ofNat'] at hbyte
  omega

theorem u64be_injOn : Set.InjOn u64be {n | n < UInt64.size} := by
  intro m hm n hn h
  have hm : m < UInt64.size := hm
  have hn : n < UInt64.size := hn
  simp only [u64be, Nat.mod_eq_of_lt hm, Nat.mod_eq_of_lt hn, List.map_cons, List.map_nil, List.cons.injEq,
    and_true] at h
  obtain ⟨h56, h48, h40, h32, h24, h16, h8, h0⟩ := h
  have htop : m >>> (56 + 8) = n >>> (56 + 8) := by
    rw [UInt64.size] at hm hn
    omega
  have e56 := shiftRight_eq_of_byte 56 htop h56
  have e48 := shiftRight_eq_of_byte 48 e56 h48
  have e40 := shiftRight_eq_of_byte 40 e48 h40
  have e32 := shiftRight_eq_of_byte 32 e40 h32
  have e24 := shiftRight_eq_of_byte 24 e32 h24
  have e16 := shiftRight_eq_of_byte 16 e24 h16
  have e8 := shiftRight_eq_of_byte 8 e16 h8
  exact shiftRight_eq_of_byte 0 e8 h0

/-- A field can be told apart from what follows it. -/
theorem canonicalField_prefixFree :
    PrefixFreeOn {f : String | (encode f).length < UInt64.size} canonicalField :=
  prefixFreeOn_length length_u64be u64be_injOn Utf8.encode_injective

theorem canonicalTuple_inj {fs gs : List String} (hf : ∀ f ∈ fs, (encode f).length < UInt64.size)
    (hg : ∀ g ∈ gs, (encode g).length < UInt64.size) (hl : fs.length = gs.length)
    (h : canonicalTuple fs = canonicalTuple gs) : fs = gs :=
  canonicalField_prefixFree.flatMap_inj hf hg hl h

theorem SignedTuple.preimage_inj {v w : SignedTuple} (hv : v.Fits) (hw : w.Fits)
    (h : canonicalTuple v.fields = canonicalTuple w.fields) : v = w :=
  SignedTuple.fields_injective (canonicalTuple_inj hv hw rfl h)

namespace VerifyReceipt

variable {py : PyJson} {keys : PyKeys} {P : Primitives} {receipt : Dict}

/-- The keys `canonical_receipt_digest` reads, in its order. -/
def canonicalKeys : List String :=
  ["request_id", "tenant_id", "upstream_url", "request_hash", "policy_digest", "pcr0", "payload_hash"]

/-- A receipt whose canonical fields are the strings of `v`. -/
def Holds (receipt : Dict) (v : SignedTuple) : Prop :=
  canonicalKeys.map receipt.get = v.fields.map fun f => some (.str (pyStr f))

theorem mapM_index {ks : List String} {vs : List Json} :
    ks.mapM receipt.index = .ok vs ↔ ks.map receipt.get = vs.map some := by
  induction ks generalizing vs with
  | nil => cases vs <;> simp
  | cons k ks ih =>
    rw [List.mapM_cons, List.map_cons, Dict.index]
    cases hk : receipt.get k with
    | none =>
      simp only [bind_error]
      cases vs <;> simp
    | some v =>
      rw [bind_ok, bind_eq_ok]
      cases vs with
      | nil => simp
      | cons w vs => simp [ih, and_comm]

/-- **The script and the proxy hash one byte string**, for a receipt that holds the fields. -/
theorem canonicalReceiptDigest_holds {v : SignedTuple} (hv : v.Fits) (h : Holds receipt v) (hash : Bytes → Bytes) :
    canonicalReceiptDigest hash receipt = .ok (hash (PiiProxy.canonicalTuple v.fields)) := by
  have hindex : canonicalKeys.mapM receipt.index = .ok (v.fields.map fun f => Json.str (pyStr f)) := by
    rw [mapM_index, h, List.map_map]
    rfl
  rw [canonicalKeys] at hindex
  rw [canonicalReceiptDigest, hindex, bind_ok, mapM_canonicalField hv, bind_ok]
  rfl

/-- **The pre-image of a receipt is shared and unambiguous.** Whatever hash the two are given, the
script hashes, for a receipt that holds the seven fields, the bytes the proxy hashes; and these
bytes fix the fields. -/
theorem canonical_preimage_shared_injective :
    (∀ (P : Primitives) (v : SignedTuple) (receipt : Dict), v.Fits → Holds receipt v →
      v.digest P = P.blake3 (PiiProxy.canonicalTuple v.fields) ∧
      canonicalReceiptDigest P.blake3 receipt = .ok (P.blake3 (PiiProxy.canonicalTuple v.fields))) ∧
    ∀ v w : SignedTuple, v.Fits → w.Fits →
      PiiProxy.canonicalTuple v.fields = PiiProxy.canonicalTuple w.fields → v = w := by
  refine ⟨?_, ?_⟩
  · intro P v receipt hv h
    exact ⟨rfl, canonicalReceiptDigest_holds hv h P.blake3⟩
  · intro v w hv hw h
    exact SignedTuple.preimage_inj hv hw h

/-- The receipt's own items hold its canonical fields. -/
theorem holds_items (r : AttestedReceipt) : Holds r.items r.signed := by
  simp [Holds, canonicalKeys, AttestedReceipt.items, SignedTuple.fields, AttestedReceipt.signed]

/-- A byte moved from the request to the tenant. -/
def movedByte (requestId tenantId : String) : SignedTuple := ⟨requestId, tenantId, "u", "h", "d", "p", "r"⟩

theorem canonical_preimage_moved_byte :
    canonicalReceiptDigest hiPrimitives.blake3 hiReceipt.items =
      .ok (hiPrimitives.blake3 (PiiProxy.canonicalTuple hiReceipt.signed.fields)) ∧
    PiiProxy.canonicalTuple (movedByte "ab" "c").fields ≠ PiiProxy.canonicalTuple (movedByte "a" "bc").fields := by
  refine ⟨(canonical_preimage_shared_injective.1 hiPrimitives hiReceipt.signed hiReceipt.items shape_hi.sizes
    (holds_items _)).2, ?_⟩
  intro h
  have hfits : (movedByte "ab" "c").Fits ∧ (movedByte "a" "bc").Fits := by
    unfold SignedTuple.Fits
    decide
  have hv := canonical_preimage_shared_injective.2 _ _ hfits.1 hfits.2 h
  simp [movedByte] at hv

/-! ## From an accepted receipt to the proxy's -/

/-- A `str` holds code points. -/
def IsPyStr (s : PyStr) : Prop := ∀ c ∈ s, c < 0x110000

/-- What `encode` accepts is the text of a Rust string. -/
theorem encodeUtf8_eq_ok {s : PyStr} {b : Bytes} (hs : IsPyStr s) (h : encodeUtf8 s = .ok b) :
    ∃ t, s = pyStr t ∧ encode t = b := by
  have hsur : ∀ c ∈ s, isSurrogate c = false := by
    cases hf : s.findIdx? isSurrogate with
    | none => exact List.findIdx?_eq_none_iff.1 hf
    | some i => simp [encodeUtf8, hf] at h
  have hchar : ∀ c ∈ s, (Char.ofNat c).toNat = c := by
    intro c hc
    have hr := hs c hc
    have hn := hsur c hc
    simp only [isSurrogate, Bool.and_eq_false_iff, decide_eq_false_iff_not] at hn
    have hvalid : c.isValidChar := by
      unfold Nat.isValidChar
      omega
    rw [Char.ofNat, dif_pos hvalid]
    rfl
  have hst : s = pyStr (String.ofList (s.map Char.ofNat)) := by
    rw [pyStr, String.toList_ofList, List.map_map]
    conv => lhs; rw [← List.map_id s]
    exact List.map_congr_left fun c hc => (hchar c hc).symm
  refine ⟨String.ofList (s.map Char.ofNat), hst, ?_⟩
  rw [hst, encodeUtf8_pyStr] at h
  injection h

/-- Every `str` in the receipt is one. -/
def IsPyDict (receipt : Dict) : Prop := ∀ key s, receipt.get key = some (.str s) → IsPyStr s

theorem canonicalField_eq_ok {j : Json} {b : Bytes} (hj : ∀ s, j = .str s → IsPyStr s)
    (h : canonicalField j = .ok b) :
    ∃ t, j = .str (pyStr t) ∧ (encode t).length < UInt64.size ∧ b = PiiProxy.canonicalField t := by
  cases j with
  | str s =>
    obtain ⟨e, he, h⟩ := bind_eq_ok.1 h
    obtain ⟨len, hlen, h⟩ := bind_eq_ok.1 h
    obtain ⟨t, rfl, rfl⟩ := encodeUtf8_eq_ok (hj s rfl) he
    have hfits : (encode t).length < UInt64.size := by
      by_contra hn
      simp [toBytes8, hn] at hlen
    rw [toBytes8, if_pos hfits] at hlen
    injection hlen with hlen
    injection h with h
    exact ⟨t, rfl, hfits, by rw [← h, ← hlen]; rfl⟩
  | _ => simp [canonicalField] at h

theorem mapM_canonicalField_eq_ok : ∀ {vs : List Json} {bs : List Bytes},
    (∀ j ∈ vs, ∀ s, j = .str s → IsPyStr s) → vs.mapM canonicalField = .ok bs →
    ∃ fs : List String, vs = fs.map (fun f => .str (pyStr f)) ∧ (∀ f ∈ fs, (encode f).length < UInt64.size) ∧
      bs = fs.map PiiProxy.canonicalField
  | [], bs, _, h => by
    injection h with h
    exact ⟨[], rfl, by simp, h.symm⟩
  | j :: vs, bs, hv, h => by
    rw [List.mapM_cons] at h
    obtain ⟨b, hb, h⟩ := bind_eq_ok.1 h
    obtain ⟨bs', hbs, h⟩ := bind_eq_ok.1 h
    injection h with h
    obtain ⟨t, rfl, ht, rfl⟩ := canonicalField_eq_ok (hv j (by simp)) hb
    obtain ⟨fs, rfl, hfs, rfl⟩ := mapM_canonicalField_eq_ok (fun x hx => hv x (List.mem_cons_of_mem _ hx)) hbs
    refine ⟨t :: fs, rfl, ?_, h.symm⟩
    intro f hf
    rcases List.mem_cons.1 hf with rfl | hf
    · exact ht
    · exact hfs f hf

theorem exists_signedTuple : ∀ {fs : List String}, fs.length = 7 → ∃ v : SignedTuple, v.fields = fs
  | [a, b, c, d, e, f, g], _ => ⟨⟨a, b, c, d, e, f, g⟩, rfl⟩

/-- A digest the script computes is that of seven strings the receipt holds. -/
theorem canonicalReceiptDigest_eq_ok {hash : Bytes → Bytes} {digest : Bytes} (hpy : IsPyDict receipt)
    (h : canonicalReceiptDigest hash receipt = .ok digest) :
    ∃ v : SignedTuple, v.Fits ∧ Holds receipt v ∧ digest = hash (PiiProxy.canonicalTuple v.fields) := by
  obtain ⟨vs, hvs, h⟩ := bind_eq_ok.1 h
  obtain ⟨bs, hbs, h⟩ := bind_eq_ok.1 h
  injection h with h
  have hget : canonicalKeys.map receipt.get = vs.map some := mapM_index.1 hvs
  have hstr : ∀ j ∈ vs, ∀ s, j = .str s → IsPyStr s := by
    rintro j hj s rfl
    have hmem : some (Json.str s) ∈ canonicalKeys.map receipt.get := by
      rw [hget]
      exact List.mem_map_of_mem hj
    obtain ⟨key, -, hkey⟩ := List.mem_map.1 hmem
    exact hpy key s hkey
  obtain ⟨fs, rfl, hfits, rfl⟩ := mapM_canonicalField_eq_ok hstr hbs
  have hlen : fs.length = 7 := by
    have := congrArg List.length hget
    simpa [canonicalKeys] using this.symm
  obtain ⟨v, rfl⟩ := exists_signedTuple hlen
  refine ⟨v, hfits, ?_, by rw [← h]; rfl⟩
  rw [Holds, hget, List.map_map]
  rfl

/-! ## What the checks leave -/

theorem index_eq_ok {key : String} {v : Json} : receipt.index key = .ok v ↔ receipt.get key = some v := by
  unfold Dict.index
  cases receipt.get key <;> simp

theorem requireTexts_isText {raise : String → PyError} : ∀ {fields : List String},
    requireTexts raise receipt fields = .ok () → ∀ field ∈ fields, ∃ s, receipt.get field = some (.str s)
  | [], _ => by simp
  | field :: fields, h => by
    obtain ⟨v, hv, h⟩ := bind_eq_ok.1 h
    have htext : v.isText = true := by
      by_contra hn
      rw [Bool.not_eq_true] at hn
      simp [hn] at h
    have hrest : requireTexts raise receipt fields = .ok () := by
      simpa [htext] using h
    have hstr : ∃ s, receipt.get field = some (.str s) := by
      cases v with
      | str s => exact ⟨s, index_eq_ok.1 hv⟩
      | _ => simp [Json.isText] at htext
    intro f hf
    rcases List.mem_cons.1 hf with rfl | hf
    · exact hstr
    · exact requireTexts_isText hrest f hf

theorem requireTimestamp_eq_ok {raise : String → PyError} (h : requireTimestamp raise receipt = .ok ()) :
    ∃ t, receipt.get "timestamp" = some t ∧ t.isNonNegInt = true := by
  obtain ⟨t, ht, h⟩ := bind_eq_ok.1 h
  refine ⟨t, index_eq_ok.1 ht, ?_⟩
  by_contra hn
  simp [hn] at h

theorem canonicalTuple_eq_ok {hash : Bytes → Bytes} {digest : Bytes} (h : canonicalTuple hash receipt = .ok digest) :
    canonicalReceiptDigest hash receipt = .ok digest := by
  unfold canonicalTuple at h
  simp only at h
  split at h
  · rename_i heq
    obtain ⟨p, -, heq⟩ := bind_eq_ok.1 heq
    obtain ⟨b, -, heq⟩ := bind_eq_ok.1 heq
    rw [heq, h]
  · split at h <;> simp at h

/-- **An accepted receipt** has the digest it declares, of its own fields, and some time. -/
theorem checkReceipt_eq_ok {hash : Bytes → Bytes} {digest : Bytes} (h : checkReceipt hash receipt = .ok digest) :
    canonicalReceiptDigest hash receipt = .ok digest ∧
    receipt.get "tuple_digest" = some (.str (pyStr (toHex digest))) ∧
    ∃ t, receipt.get "timestamp" = some t ∧ t.isNonNegInt = true := by
  obtain ⟨_, -, h⟩ := bind_eq_ok.1 h
  obtain ⟨_, htexts, h⟩ := bind_eq_ok.1 h
  obtain ⟨_, htime, h⟩ := bind_eq_ok.1 h
  obtain ⟨_, -, h⟩ := bind_eq_ok.1 h
  obtain ⟨_, -, h⟩ := bind_eq_ok.1 h
  obtain ⟨_, -, h⟩ := bind_eq_ok.1 h
  obtain ⟨pcr0, -, h⟩ := bind_eq_ok.1 h
  split at h
  · simp at h
  obtain ⟨d, hd, h⟩ := bind_eq_ok.1 h
  obtain ⟨declared, hdecl, h⟩ := bind_eq_ok.1 h
  split at h
  · simp at h
  rename_i heq
  injection h with h
  subst h
  obtain ⟨s, hs⟩ := requireTexts_isText htexts "tuple_digest" (by simp [textFields])
  have hds : declared = .str s := by
    rw [index_eq_ok, hs] at hdecl
    exact (Option.some.inj hdecl).symm
  simp only [hds, Json.chars, ne_eq, not_not] at heq
  exact ⟨canonicalTuple_eq_ok hd, by rw [hs, heq], requireTimestamp_eq_ok htime⟩

/-- The receipt of the scan passed the checks, with the digest kept beside it. -/
def Scan.Checked (hash : Bytes → Bytes) (s : Scan) : Prop :=
  ∀ r d, s.receipt = some r → s.tupleDigest = some d → checkReceipt hash r = .ok d

theorem readAudit_checked {hash : Bytes → Bytes} {line : Bytes} {a : Audit} (h : readAudit py hash line = .ok a) :
    checkReceipt hash a.receipt = .ok a.tupleDigest := by
  obtain ⟨⟨r, sig⟩, -, h⟩ := bind_eq_ok.1 h
  obtain ⟨d, hd, h⟩ := bind_eq_ok.1 h
  obtain ⟨_, -, h⟩ := bind_eq_ok.1 h
  injection h with h
  rw [← h]
  exact hd

/-- What one line leaves of the receipt: the same, or the one just read. -/
theorem step_receipt {hash : Bytes → Bytes} {s : Scan} {line : Bytes} {o : ForInStep Scan}
    (h : step py hash s line = .ok o) : ∃ s', (o = .yield s' ∨ o = .done s') ∧
      ((s'.receipt = s.receipt ∧ s'.tupleDigest = s.tupleDigest) ∨
        ∃ a, readAudit py hash line = .ok a ∧ s'.receipt = some a.receipt ∧ s'.tupleDigest = some a.tupleDigest) := by
  have hrel : (s.release line).receipt = s.receipt ∧ (s.release line).tupleDigest = s.tupleDigest := by
    unfold Scan.release
    cases s.pendingLine <;> simp
  unfold step at h
  split at h
  · obtain ⟨a, ha, h⟩ := bind_eq_ok.1 h
    injection h with h
    exact ⟨_, Or.inl h.symm, Or.inr ⟨a, ha, rfl, rfl⟩⟩
  · split at h
    · split at h
      · injection h with h
        exact ⟨_, Or.inl h.symm, Or.inl ⟨rfl, rfl⟩⟩
      · simp at h
    · simp only at h
      split at h
      · injection h with h
        exact ⟨_, Or.inl h.symm, Or.inl hrel⟩
      · split at h
        · injection h with h
          refine ⟨_, Or.inr h.symm, Or.inl ?_⟩
          cases (s.release line).pendingLine <;> exact hrel
        · injection h with h
          exact ⟨_, Or.inl h.symm, Or.inl hrel⟩

theorem run_checked {hash : Bytes → Bytes} : ∀ {ls : List Bytes} {s s' : Scan}, s.Checked hash →
    run py hash s ls = .ok s' → s'.Checked hash
  | [], s, s', hs, h => by
    injection h with h
    rwa [← h]
  | line :: rest, s, s', hs, h => by
    obtain ⟨o, ho, h⟩ := bind_eq_ok.1 h
    obtain ⟨t, hot, ht⟩ := step_receipt ho
    have hchecked : t.Checked hash := by
      intro r d hr hd
      rcases ht with ⟨hr', hd'⟩ | ⟨a, ha, hr', hd'⟩
      · exact hs r d (by rw [← hr', hr]) (by rw [← hd', hd])
      · have hra := readAudit_checked ha
        rw [hr, Option.some.injEq] at hr'
        rw [hd, Option.some.injEq] at hd'
        rw [hr', hd']
        exact hra
    rcases hot with rfl | rfl
    · exact run_checked hchecked h
    · injection h with h
      rwa [← h]

/-- **What `hash_transcript` returns has passed its checks.** -/
theorem checkReceipt_of_hashTranscript {hash : Bytes → Bytes} {transcript : Bytes} {h : Hashed}
    (hacc : hashTranscript py hash transcript = .ok h) : checkReceipt hash h.receipt = .ok h.tupleDigest := by
  obtain ⟨s, hrun, hf⟩ := bind_eq_ok.1 hacc
  have hs : s.Checked hash := run_checked (fun r d hr _ => by simp at hr) hrun
  unfold Scan.finish at hf
  split at hf
  · simp at hf
  · split at hf
    · rename_i r d sig hr hd hsig
      injection hf with hf
      rw [← hf]
      exact hs r d hr hd
    · simp at hf

/-! ## Authenticity -/

def verifySignature (keys : PyKeys) (tupleDigest : Bytes) (signatureB64 : PyStr) (publicKey : Bytes) :
    Except PyError Unit := do
  let signature ← match keys.b64decode signatureB64 with
    | .error (.binasciiError text) => .error (.valueError ("signature is not valid base64: " ++ text))
    | r => r
  match keys.verify publicKey signature tupleDigest with
  | .error .invalidSignature => .error (.valueError "Ed25519 signature verification failed")
  | r => r

theorem verifySignature_eq_ok {digest signature publicKey : Bytes} {text : PyStr}
    (hsig : keys.b64decode text = .ok signature) (h : verifySignature keys digest text publicKey = .ok ()) :
    keys.verify publicKey signature digest = .ok () := by
  simp only [verifySignature, hsig, bind_ok] at h
  split at h
  · simp at h
  · exact h

/-- How the proxy fills in `tuple_digest` (lib.rs:1139 and lib.rs:630). -/
def Issued (P : Primitives) (r : AttestedReceipt) : Prop := r.tupleDigest = toHex (r.signed.digest P)

/-- The receipt read has the fields of `r`, each in its JSON form. -/
def AgreesOn (fields : List String) (receipt : Dict) (r : AttestedReceipt) : Prop :=
  ∀ field ∈ fields, receipt.get field = r.items.get field

/-- BLAKE3 tells the pre-image of the receipt read from that of `w`. -/
def NoCollision (hash : Bytes → Bytes) (receipt : Dict) (w : SignedTuple) : Prop :=
  ∀ v, Holds receipt v → hash (PiiProxy.canonicalTuple v.fields) = hash (PiiProxy.canonicalTuple w.fields) →
    PiiProxy.canonicalTuple v.fields = PiiProxy.canonicalTuple w.fields

theorem agreesOn_textFields {r : AttestedReceipt} (h : Holds receipt r.signed)
    (ht : receipt.get "tuple_digest" = some (.str (pyStr r.tupleDigest))) : AgreesOn textFields receipt r := by
  simp only [Holds, canonicalKeys, SignedTuple.fields, AttestedReceipt.signed, List.map_cons, List.map_nil,
    List.cons.injEq, and_true] at h
  obtain ⟨h1, h2, h3, h4, h5, h6, h7⟩ := h
  simp [AgreesOn, textFields, AttestedReceipt.items, h1, h2, h3, h4, h5, h6, h7, ht]

/-- **A verified receipt is the proxy's, but for its time.** The transcript is accepted and the
digest recomputed from its receipt verifies under the proxy's signature of `r₀`: every text
field is that of `r₀`. The time is in no signed byte; it is only some non-negative integer. -/
theorem verified_receipt_authentic {transcript key publicKey : Bytes} {signature : PyStr} {h : Hashed}
    {r₀ : AttestedReceipt} (hissued : Issued P r₀) (hfits : r₀.signed.Fits)
    (hforge : ∀ m, keys.verify publicKey (P.sign key (r₀.signed.digest P)) m = .ok () → m = r₀.signed.digest P)
    (hcf : NoCollision P.blake3 h.receipt r₀.signed) (hpy : IsPyDict h.receipt)
    (hacc : hashTranscript py P.blake3 transcript = .ok h)
    (hsig : keys.b64decode signature = .ok (P.sign key (r₀.signed.digest P)))
    (hver : verifySignature keys h.tupleDigest signature publicKey = .ok ()) :
    AgreesOn textFields h.receipt r₀ ∧ ∃ t, h.receipt.get "timestamp" = some t ∧ t.isNonNegInt = true := by
  obtain ⟨hdigest, htuple, htime⟩ := checkReceipt_eq_ok (checkReceipt_of_hashTranscript hacc)
  have hsigned : h.tupleDigest = r₀.signed.digest P := hforge _ (verifySignature_eq_ok hsig hver)
  obtain ⟨v, hv, hholds, hvd⟩ := canonicalReceiptDigest_eq_ok hpy hdigest
  have hpre : PiiProxy.canonicalTuple v.fields = PiiProxy.canonicalTuple r₀.signed.fields :=
    hcf v hholds (by rw [← hvd, hsigned]; rfl)
  obtain rfl : v = r₀.signed := SignedTuple.preimage_inj hv hfits hpre
  refine ⟨agreesOn_textFields hholds ?_, htime⟩
  rw [htuple, hsigned, hissued]

/-! ### The same receipt at another time

The receipt of the finished stream, signed with the key `[7; 32]`, and the transcript with
its time stamp set to `t`. -/

def hiDigest : Bytes := ofHex "809e0f58ab97c50399cbf815a9577773b6ab703af2ee70f1bf776baba1baf57d"

def hiSignatureBytes : Bytes :=
  ofHex ("8fedf205cc465de6ddefae491f2e3b4d1344d37c6cfc01620271c7b97378443d" ++
    "6bfffb8eb937c34310ec3ae70da845e615301a3ca2b37cabfd2fd4ad70a8680c")

def signingPrimitives : Primitives :=
  { hiPrimitives with sign := fun _ message => if message = hiDigest then hiSignatureBytes else [] }

def hiPublicKey : Bytes := ofHex "ea4a6c63e29c520abef5507b132ec5f9954776aebebe7b92421eea691446d22c"

def hiKeys : PyKeys where
  b64decode text :=
    if text = pyStr hiSignature then .ok hiSignatureBytes
    else .error (.binasciiError "Only base64 data is allowed")
  verify publicKey signature message :=
    if publicKey = hiPublicKey ∧ message = hiDigest ∧ signature = hiSignatureBytes then .ok ()
    else .error .invalidSignature

/-- The receipt of the payload `"data: hi\r\n\r\n"` at the time `t`. -/
def stampedReceipt (t : Nat) : AttestedReceipt :=
  hiDetector.receipt signingPrimitives ⟨encode "\x7b\x7d", t⟩ (encode "data: hi\r\n\r\n")

def stampedJson (t : Nat) : PyJson := jsonOf signingPrimitives (stampedReceipt t) hiSignature

def stampedTranscript (t : Nat) : Bytes :=
  encode "data: hi\r\n\r\n" ++ AuditFrame.bytes signingPrimitives ⟨stampedReceipt t, hiSignature⟩ ++ doneMarker ++
    encode "\n\n"

def stampedHashed (t : Nat) : Hashed :=
  ⟨toHex (signingPrimitives.blake3 (encode "data: hi\r\n\r\n")), (stampedReceipt t).items,
    (stampedReceipt t).digest signingPrimitives, pyStr hiSignature⟩

theorem issued_receipt (d : DoneDetector) (amb : Ambient) (hasher : Bytes) : Issued P (d.receipt P amb hasher) := rfl

theorem digest_stamped (t : Nat) : (stampedReceipt t).signed.digest signingPrimitives = hiDigest := by
  have h0 : (stampedReceipt 0).signed.digest signingPrimitives = hiDigest := by decide +kernel
  exact h0

theorem sign_stamped (t : Nat) :
    signingPrimitives.sign (List.replicate 32 7) ((stampedReceipt t).signed.digest signingPrimitives) =
      hiSignatureBytes := by
  rw [digest_stamped]
  simp [signingPrimitives]

theorem stampedReceipt_eq (t : Nat) : stampedReceipt t = { hiReceipt with timestamp := t } := by
  have hblake : signingPrimitives.blake3 = hiPrimitives.blake3 := rfl
  simp only [stampedReceipt, hiReceipt, DoneDetector.receipt, PiiProxy.canonicalReceiptDigest, hblake]

/-- The time stamp is no field that `hash_transcript` reads as text. -/
theorem Shape.stamp (h : Shape r) (t : Nat) : Shape { r with timestamp := t } :=
  ⟨h.nonempty, h.sizes, h.requestHash, h.payloadHash, h.policyDigest, h.pcr0⟩

theorem shape_stamped (t : Nat) : Shape (stampedReceipt t) := by
  rw [stampedReceipt_eq]
  exact shape_hi.stamp t

theorem stampedTranscript_accepted {t : Nat} (h1 : 10 ∉ encode (plainJson (stampedReceipt t)))
    (h2 : (encode (plainJson (stampedReceipt t))).head? = some 123) :
    hashTranscript (stampedJson t) signingPrimitives.blake3 (stampedTranscript t) = .ok (stampedHashed t) :=
  finished_stream_read_back (Or.inr rfl) (Find.first_eq_none.1 rfl) (by decide) (shape_stamped t)
    (issued_receipt _ _ _) base64_hi (readBack_jsonOf h1 h2)

theorem stampedTranscript_zero :
    hashTranscript (stampedJson 0) signingPrimitives.blake3 (stampedTranscript 0) = .ok (stampedHashed 0) :=
  stampedTranscript_accepted (by decide +kernel) (by decide +kernel)

theorem isPyStr_pyStr (s : String) : IsPyStr (pyStr s) := by
  intro c hc
  obtain ⟨x, -, rfl⟩ := List.mem_map.1 hc
  rcases x.valid with h | ⟨-, h⟩
  · exact Nat.lt_trans h (by decide)
  · exact h

theorem isPyDict_items (r : AttestedReceipt) : IsPyDict r.items := by
  intro key s h
  obtain ⟨l₁, l₂, he, -⟩ := List.lookup_eq_some_iff.1 h
  have hmem : (pyStr key, Json.str s) ∈ r.items := by
    rw [he]
    simp
  simp only [AttestedReceipt.items, List.mem_cons, Prod.mk.injEq, Json.str.injEq, List.not_mem_nil, or_false,
    reduceCtorEq, and_false] at hmem
  rcases hmem with ⟨-, rfl⟩ | ⟨-, rfl⟩ | ⟨-, rfl⟩ | ⟨-, rfl⟩ | ⟨-, rfl⟩ | ⟨-, rfl⟩ | ⟨-, rfl⟩ | ⟨-, rfl⟩ <;>
    exact isPyStr_pyStr _

theorem verify_stamped (t : Nat) (m : Bytes) :
    hiKeys.verify hiPublicKey
        (signingPrimitives.sign (List.replicate 32 7) ((stampedReceipt t).signed.digest signingPrimitives)) m = .ok () ↔
      m = (stampedReceipt t).signed.digest signingPrimitives := by
  rw [sign_stamped, digest_stamped]
  by_cases hm : m = hiDigest
  · simp [hiKeys, hm]
  · simp [hiKeys, hm]

theorem noCollision_stamped (receipt : Dict) (w : SignedTuple) :
    NoCollision signingPrimitives.blake3 receipt w := by
  intro v _ h
  exact tabled_injective (by decide +kernel) (by decide +kernel) h

theorem verifySignature_stamped (t : Nat) :
    verifySignature hiKeys (stampedHashed t).tupleDigest (pyStr hiSignature) hiPublicKey = .ok () := by
  have hd : (stampedHashed t).tupleDigest = hiDigest := digest_stamped t
  simp [verifySignature, hiKeys, hd]

theorem b64decode_stamped (t : Nat) : hiKeys.b64decode (pyStr hiSignature) =
    .ok (signingPrimitives.sign (List.replicate 32 7) ((stampedReceipt t).signed.digest signingPrimitives)) := by
  rw [sign_stamped]
  simp [hiKeys]

theorem verified_receipt_authentic_hi :
    AgreesOn textFields (stampedHashed 0).receipt (stampedReceipt 1700000000) ∧
      ∃ t, (stampedHashed 0).receipt.get "timestamp" = some t ∧ t.isNonNegInt = true :=
  verified_receipt_authentic (issued_receipt _ _ _) (shape_stamped 1700000000).sizes
    (fun m => (verify_stamped 1700000000 m).1) (noCollision_stamped _ _) (isPyDict_items _)
    stampedTranscript_zero (b64decode_stamped 1700000000) (verifySignature_stamped 0)

theorem timestamp_not_signed :
    ¬ ∀ (py : PyJson) (keys : PyKeys) (P : Primitives) (transcript key publicKey : Bytes) (signature : PyStr)
        (h : Hashed) (r₀ : AttestedReceipt), Issued P r₀ → r₀.signed.Fits →
      (∀ m, keys.verify publicKey (P.sign key (r₀.signed.digest P)) m = .ok () → m = r₀.signed.digest P) →
      NoCollision P.blake3 h.receipt r₀.signed → IsPyDict h.receipt →
      hashTranscript py P.blake3 transcript = .ok h →
      keys.b64decode signature = .ok (P.sign key (r₀.signed.digest P)) →
      verifySignature keys h.tupleDigest signature publicKey = .ok () →
      AgreesOn requiredFields h.receipt r₀ := by
  intro h
  have hagrees := h (stampedJson 0) hiKeys signingPrimitives (stampedTranscript 0) (List.replicate 32 7) hiPublicKey
    (pyStr hiSignature) (stampedHashed 0) (stampedReceipt 1700000000) (issued_receipt _ _ _)
    (shape_stamped 1700000000).sizes (fun m => (verify_stamped 1700000000 m).1) (noCollision_stamped _ _)
    (isPyDict_items _) stampedTranscript_zero (b64decode_stamped 1700000000) (verifySignature_stamped 0)
  have htime := hagrees "timestamp" (by simp [requiredFields])
  simp [stampedHashed, AttestedReceipt.items, stampedReceipt, DoneDetector.receipt] at htime

end VerifyReceipt

end PiiProxy
