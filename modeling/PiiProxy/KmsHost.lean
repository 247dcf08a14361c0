import PiiProxy.VsockHostBridge

/-!
# What the host relay lets through and what it dials

`validate_kms_host` (vsock_host_bridge.rs:121) looks at the part of the authority before
the port; `relay_connect_connection` (vsock_host_bridge.rs:48) dials the whole authority
and gives the port a second time.

* `validateKmsHost_iff` — the allow-list is one grammar
* `dialled_host_never_plain` — no accepted handshake dials a host of that grammar
-/

namespace PiiProxy

open Utf8 (encode)

namespace VsockHostBridge

/-- A character of `[a-z0-9-]`. -/
def isRegionChar (c : Char) : Bool := ('a' ≤ c && c ≤ 'z') || ('0' ≤ c && c ≤ '9') || c == '-'

/-- `kms` or `kms-fips`, a region, and `amazonaws.com`. -/
def IsKmsHost (host : List Char) : Prop :=
  ∃ service region : List Char, (service = "kms".toList ∨ service = "kms-fips".toList) ∧ region ≠ [] ∧
    (∀ c ∈ region, isRegionChar c = true) ∧ host = service ++ '.' :: (region ++ ".amazonaws.com".toList)

/-! ## Regions -/

theorem isRegionChar_iff {c : Char} : isRegionChar c = true ↔
    (97 ≤ c.toNat ∧ c.toNat ≤ 122) ∨ (48 ≤ c.toNat ∧ c.toNat ≤ 57) ∨ c.toNat = 45 := by
  simp only [isRegionChar, Bool.or_eq_true, Bool.and_eq_true, decide_eq_true_eq, beq_iff_eq, Char.le_def,
    UInt32.le_iff_toNat_le, ← Char.toNat_inj, or_assoc]
  rfl

theorem isRegionByte_iff {b : UInt8} : isRegionByte b = true ↔
    (97 ≤ b.toNat ∧ b.toNat ≤ 122) ∨ (48 ≤ b.toNat ∧ b.toNat ≤ 57) ∨ b.toNat = 45 := by
  simp only [isRegionByte, Bool.or_eq_true, Bool.and_eq_true, decide_eq_true_eq, beq_iff_eq,
    UInt8.le_iff_toNat_le, ← UInt8.toNat_inj, or_assoc]
  rfl

/-- A character's bytes pass the test exactly when it is a region character. -/
theorem all_isRegionByte_encodeChar {c : Char} :
    (String.utf8EncodeChar c).all isRegionByte = true ↔ isRegionChar c = true := by
  rw [List.all_eq_true, isRegionChar_iff]
  constructor
  · intro h
    obtain ⟨b, bs, hb⟩ := List.exists_cons_of_ne_nil (String.utf8EncodeChar_ne_nil (c := c))
    have hmem : b ∈ String.utf8EncodeChar c := by simp [hb]
    have hregion := isRegionByte_iff.1 (h b hmem)
    have hascii : b < 0x80 := by
      rw [UInt8.lt_iff_toNat_lt]
      simp only [UInt8.reduceToNat]
      omega
    rw [(Utf8.encodeChar_of_ascii_mem hmem hascii).2]
    exact hregion
  · intro h b hb
    have hsize : c.utf8Size = 1 := by
      rw [Char.utf8Size_eq_one_iff, UInt32.le_iff_toNat_le]
      have : c.toNat ≤ 127 := by omega
      exact this
    have he := String.utf8EncodeChar_eq_singleton hsize
    rw [he, List.mem_singleton] at hb
    subst hb
    have hlt : c.toNat < 256 := by omega
    have hn : c.val.toUInt8.toNat = c.toNat := by
      rw [UInt32.toNat_toUInt8]
      exact Nat.mod_eq_of_lt hlt
    rw [isRegionByte_iff, hn]
    exact h

theorem all_isRegionByte_encode {region : List Char} :
    (encode (String.ofList region)).all isRegionByte = true ↔ ∀ c ∈ region, isRegionChar c = true := by
  rw [Utf8.encode_eq, String.toList_ofList, List.all_flatMap, List.all_eq_true]
  exact forall₂_congr fun c _ => all_isRegionByte_encodeChar

/-! ## The allow-list -/

/-- Four labels, and no dot in them. -/
theorem splitOnP_dot_four {host service region domain top : List Char} :
    host.splitOnP (· == '.') = [service, region, domain, top] ↔
      host = service ++ '.' :: (region ++ '.' :: (domain ++ '.' :: top)) ∧
        '.' ∉ service ∧ '.' ∉ region ∧ '.' ∉ domain ∧ '.' ∉ top := by
  have hcat : ['.'].intercalate [service, region, domain, top] =
      service ++ '.' :: (region ++ '.' :: (domain ++ '.' :: top)) := by
    simp [List.intercalate, List.intersperse]
  constructor
  · intro h
    have hhost : ['.'].intercalate (host.splitOnP (· == '.')) = host := List.intercalate_splitOn '.'
    rw [h, hcat] at hhost
    have hdot : ∀ l ∈ host.splitOnP (· == '.'), '.' ∉ l := by
      intro l hl hmem
      have := (Text.mem_splitOnP (p := (· == '.')) (c := '.') (s := host)).1 ⟨l, hl, hmem⟩
      simp at this
    rw [h] at hdot
    simp only [List.forall_mem_cons] at hdot
    exact ⟨hhost.symm, hdot.1, hdot.2.1, hdot.2.2.1, hdot.2.2.2.1⟩
  · rintro ⟨rfl, h1, h2, h3, h4⟩
    rw [← hcat]
    exact List.splitOn_intercalate '.' (by simp [h1, h2, h3, h4]) (by simp)

/-- A host whose first letter is `k` is no IP address. -/
theorem parse_kms {rest : List Char} : IpAddr.parse (encode (String.ofList ('k' :: rest))) = none := by
  have hk : String.utf8EncodeChar 'k' = [107] := by decide
  rw [Utf8.encode_eq, String.toList_ofList, List.flatMap_cons, hk, List.singleton_append]
  exact IpAddr.parse_eq_none (by decide) (by decide)

theorem IsKmsHost.cons {host : List Char} (h : IsKmsHost host) : ∃ rest, host = 'k' :: rest := by
  obtain ⟨service, region, rfl | rfl, -, -, rfl⟩ := h
  · exact ⟨_, rfl⟩
  · exact ⟨_, rfl⟩

theorem not_dot_of_region {region : List Char} (h : ∀ c ∈ region, isRegionChar c = true) : '.' ∉ region := by
  intro hd
  exact absurd (h '.' hd) (by decide)

/-- The labels of a host of the grammar, and of no other. -/
theorem isKmsHost_iff_labels {host : List Char} : IsKmsHost host ↔
    ∃ service region, host.splitOnP (· == '.') = [service, region, "amazonaws".toList, "com".toList] ∧
      (service = "kms".toList ∨ service = "kms-fips".toList) ∧ region ≠ [] ∧
      ∀ c ∈ region, isRegionChar c = true := by
  constructor
  · rintro ⟨service, region, hservice, hne, hregion, rfl⟩
    refine ⟨service, region, splitOnP_dot_four.2 ⟨rfl, ?_, not_dot_of_region hregion, by decide, by decide⟩,
      hservice, hne, hregion⟩
    rcases hservice with rfl | rfl
    · decide
    · decide
  · rintro ⟨service, region, hsplit, hservice, hne, hregion⟩
    exact ⟨service, region, hservice, hne, hregion, (splitOnP_dot_four.1 hsplit).1⟩

theorem rsplitOnce_port {authority host : List Char} :
    Text.rsplitOnce ':' authority = some (host, "443".toList) ↔ authority = host ++ ":443".toList := by
  rw [Text.rsplitOnce_eq_some]
  constructor
  · intro h
    exact h.1
  · intro h
    exact ⟨h, by decide⟩

theorem isKmsHost_of_valid {authority : String} (h : validateKmsHost authority = .ok ()) :
    ∃ host, IsKmsHost host ∧ authority.toList = host ++ ":443".toList := by
  unfold validateKmsHost at h
  split at h
  · simp at h
  · rename_i host port hsplit
    split at h
    · simp at h
    · rename_i hport
      push Not at hport
      obtain ⟨rfl, -, -⟩ := hport
      split at h
      · rename_i service region domain top hlabels
        split at h
        · simp at h
        · rename_i hlabel
          push Not at hlabel
          obtain ⟨hservice, hdomain, htop, hne, hregion⟩ := hlabel
          rw [hdomain, htop] at hlabels
          have hhost : IsKmsHost host :=
            isKmsHost_iff_labels.2 ⟨service, region, hlabels, hservice, hne, all_isRegionByte_encode.1 hregion⟩
          exact ⟨host, hhost, rsplitOnce_port.1 hsplit⟩
      · simp at h

theorem valid_of_isKmsHost {authority : String} {host : List Char} (hhost : IsKmsHost host)
    (h : authority.toList = host ++ ":443".toList) : validateKmsHost authority = .ok () := by
  obtain ⟨rest, hk⟩ := hhost.cons
  have hip : ¬ ("443".toList ≠ "443".toList ∨ host = [] ∨
      (IpAddr.parse (encode (String.ofList host))).isSome = true) := by
    rw [hk, parse_kms]
    simp
  obtain ⟨service, region, hlabels, hservice, hne, hregion⟩ := isKmsHost_iff_labels.1 hhost
  simp only [validateKmsHost, rsplitOnce_port.2 h, if_neg hip, hlabels]
  rw [if_neg]
  push Not
  exact ⟨hservice, rfl, rfl, hne, all_isRegionByte_encode.2 hregion⟩

/-- **`validate_kms_host` approves exactly the KMS hosts at port 443.** -/
theorem validateKmsHost_iff (authority : String) : validateKmsHost authority = .ok () ↔
    ∃ host, IsKmsHost host ∧ authority.toList = host ++ ":443".toList := by
  constructor
  · intro h
    exact isKmsHost_of_valid h
  · rintro ⟨host, hhost, h⟩
    exact valid_of_isKmsHost hhost h

/-! ## The dial -/

/-- What is dialled is a KMS host, the one of the authority that was validated. -/
def DialsPlainHost (r : Relayed) (authority : String) : Prop :=
  ∃ host : String, r.dialled = some (host, 443) ∧ IsKmsHost host.toList ∧
    authority.toList = host.toList ++ ":443".toList

/-- An accepted handshake dials the whole authority. -/
theorem dialled_authority (net : Net) (fallbackHost : String) {authority : String} {source : Source}
    (hread : (readConnectTarget source).1 = .ok authority) (hvalid : validateKmsHost authority = .ok ())
    (hne : authority ≠ "") : (relayConnectConnection net fallbackHost source).dialled = some (authority, 443) := by
  have hempty : authority.isEmpty = false := by simpa using hne
  simp only [relayConnectConnection, hread, hvalid, hempty, Bool.false_eq_true, if_false]
  split
  · rfl
  · unfold relayTunnel
    split
    · rfl
    · split <;> rfl

/-- A KMS host ends in a letter, so it has no port. -/
theorem not_isKmsHost_port (host : List Char) : ¬ IsKmsHost (host ++ ":443".toList) := by
  rintro ⟨service, region, -, -, -, h⟩
  have h' : host ++ ":443".toList = (service ++ '.' :: region) ++ ".amazonaws.com".toList := by
    rw [h]
    simp only [List.append_assoc, List.cons_append]
  have hlast := congrArg List.getLast? h'
  rw [List.getLast?_append, List.getLast?_append] at hlast
  simp at hlast

/-- **No accepted handshake dials a KMS host.** The authority keeps its port, and with it is no host
name of the grammar; it is dialled as it is, with the port given once more. -/
theorem dialled_host_never_plain (net : Net) (fallbackHost authority : String) (source : Source)
    (hread : (readConnectTarget source).1 = .ok authority) (hvalid : validateKmsHost authority = .ok ()) :
    (relayConnectConnection net fallbackHost source).dialled = some (authority, 443) ∧
    ¬ IsKmsHost authority.toList ∧
    ¬ DialsPlainHost (relayConnectConnection net fallbackHost source) authority := by
  obtain ⟨host, hhost, heq⟩ := isKmsHost_of_valid hvalid
  have hne : authority ≠ "" := by
    rintro rfl
    simp at heq
  have hdialled := dialled_authority net fallbackHost hread hvalid hne
  have hplain : ¬ IsKmsHost authority.toList := by
    rw [heq]
    exact not_isKmsHost_port host
  refine ⟨hdialled, hplain, ?_⟩
  rintro ⟨dialled, hd, hkms, -⟩
  rw [hdialled, Option.some.injEq, Prod.mk.injEq] at hd
  rw [hd.1] at hplain
  exact hplain hkms

theorem readConnectTarget_kmsHandshake :
    (readConnectTarget (sourceOf kmsHandshake)).1 = .ok "kms.us-east-1.amazonaws.com:443" := by
  have hoff : Offers (sourceOf kmsHandshake) kmsHandshake := by
    simpa using offers_sourceOf kmsHandshake []
  rw [readConnectTarget_terminated hoff terminated_kmsHandshake (by decide)]
  exact (parseHandshake_eq_ok terminated_kmsHandshake.has).2 requests_kmsHandshake

theorem valid_kmsHandshake : validateKmsHost "kms.us-east-1.amazonaws.com:443" = .ok () := by
  have hhost : IsKmsHost "kms.us-east-1.amazonaws.com".toList :=
    ⟨"kms".toList, "us-east-1".toList, Or.inl rfl, by decide, List.all_eq_true.1 rfl, rfl⟩
  exact valid_of_isKmsHost hhost rfl

/-- A name with a colon does not resolve. -/
def resolver : Net where
  connect host _ :=
    if ':' ∈ host.toList then .error "failed to lookup address information: Name or service not known" else .ok ()
  writeAll _ := .ok ()
  copyBidirectional := .ok ()

theorem dialled_host_never_plain_kms :
    (relayConnectConnection resolver "kms.us-east-1.amazonaws.com" (sourceOf kmsHandshake)).dialled =
      some ("kms.us-east-1.amazonaws.com:443", 443) :=
  (dialled_host_never_plain resolver "kms.us-east-1.amazonaws.com" _ _ readConnectTarget_kmsHandshake
    valid_kmsHandshake).1

theorem kms_dialled_with_port :
    ¬ ∀ (net : Net) (fallbackHost authority : String) (source : Source),
      (readConnectTarget source).1 = .ok authority → validateKmsHost authority = .ok () →
      DialsPlainHost (relayConnectConnection net fallbackHost source) authority := by
  intro h
  obtain ⟨host, hd, hkms, -⟩ := h resolver "kms.us-east-1.amazonaws.com" _ (sourceOf kmsHandshake)
    readConnectTarget_kmsHandshake valid_kmsHandshake
  have hdialled := dialled_authority resolver "kms.us-east-1.amazonaws.com" readConnectTarget_kmsHandshake valid_kmsHandshake (by decide)
  rw [hdialled, Option.some.injEq, Prod.mk.injEq] at hd
  rw [← hd.1] at hkms
  exact not_isKmsHost_port "kms.us-east-1.amazonaws.com".toList hkms

end VsockHostBridge

end PiiProxy
