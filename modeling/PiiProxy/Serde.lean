import PiiProxy.Lib.JsonText
import PiiProxy.HotSwap
import PiiProxy.TranscriptFrame

/-!
# What `serde_json` writes and `json` reads

| here | there |
| --- | --- |
| `jsonString`, `jsonArray`, `jsonObject` | `serde_json`'s compact texts |
| `receiptJson`   | `serde_json::to_vec(&receipt)` (lib.rs:1147, of the fields of lib.rs:890-902) |
| `policyJson`    | `serde_json::to_vec(&(&self.patterns, &self.replacement_strings))` (engine.rs:65) |
| `pyBuild`, `PyJson.Agrees` | the values `json` makes, and that it reads what `JsonText.value` does |

* `readBack_serde` — whatever its fields hold, a receipt is read back as it was written
* `policyDigest_eq_iff` — the digest names the policy
-/

namespace PiiProxy

open Utf8 (encode)
open JsonText (codes quote natText commaJoin memberText dictText listText Reads)

/-! ## The texts -/

def jsonString (s : String) : String := String.ofList (quote s.toList)

def commaSep : List String → String
  | [] => ""
  | [t] => t
  | t :: ts => t ++ "," ++ commaSep ts

theorem commaSep_cons (t u : String) (ts : List String) : commaSep (t :: u :: ts) = t ++ "," ++ commaSep (u :: ts) := rfl

def jsonArray (items : List String) : String := "[" ++ commaSep items ++ "]"

/-- The members of a struct, in the order of its fields. -/
def jsonObject (members : List (String × String)) : String :=
  "\x7b" ++ commaSep (members.map fun m => jsonString m.1 ++ ":" ++ m.2) ++ "\x7d"

def receiptJson (r : AttestedReceipt) : String := jsonObject
  [("request_id", jsonString r.requestId), ("tenant_id", jsonString r.tenantId),
    ("upstream_url", jsonString r.upstreamUrl), ("request_hash", jsonString r.requestHash),
    ("payload_hash", jsonString r.payloadHash), ("policy_digest", jsonString r.policyDigest),
    ("pcr0", jsonString r.pcr0), ("tuple_digest", jsonString r.tupleDigest), ("timestamp", toString r.timestamp)]

/-- A tuple is an array. -/
def policyJson (patterns replacements : List String) : String :=
  jsonArray [jsonArray (patterns.map jsonString), jsonArray (replacements.map jsonString)]

/-! ## The reader -/

/-- `d[key] = value`, which keeps the place of a key that is there. -/
def Dict.insert (d : Dict) (key : PyStr) (v : Json) : Dict :=
  if (d.lookup key).isSome then d.map fun m => if m.1 = key then (key, v) else m else d ++ [(key, v)]

/-- The values `json` makes. -/
def pyBuild : JsonText.Build Json where
  null := .null
  bool := .bool
  int := .int
  float ds := .float (String.ofList (ds.map Char.ofNat))
  str := .str
  list := .list
  dict ms := .dict (ms.foldl (fun d m => Dict.insert d m.1 m.2) [])

/-- How deep the scripts' inputs nest, with room to spare; `json` itself raises `RecursionError` beyond the
interpreter's limit. -/
def jsonDepth : Nat := 16

/-- `json` reads what the grammar reads, as the same value: bytes that start an object as UTF-8, and
`raw_decode` from its index up to where the value ends. -/
structure PyJson.Agrees (py : PyJson) : Prop where
  loads : ∀ t v, (encode t).take 2 = [123, 34] → JsonText.read pyBuild jsonDepth (pyStr t) = some v →
    py.loads (encode t) = .ok v
  loadsText : ∀ s v, JsonText.read pyBuild jsonDepth s = some v → py.loadsText s = .ok v
  rawDecode : ∀ s i v rest, JsonText.value pyBuild jsonDepth (s.drop i) = some (v, rest) →
    py.rawDecode s i = .ok (v, s.length - rest.length)

theorem lookup_isSome {d : Dict} {key : PyStr} : (d.lookup key).isSome ↔ key ∈ d.map Prod.fst := by
  induction d with
  | nil => simp
  | cons m d ih =>
    rw [List.lookup_cons, List.map_cons, List.mem_cons, ← ih]
    by_cases h : key = m.1
    · simp [h]
    · simp [h, beq_false_of_ne h]

theorem foldl_insert {ms : List (PyStr × Json)} : ∀ {d : Dict}, ((d ++ ms).map Prod.fst).Nodup →
    ms.foldl (fun d m => Dict.insert d m.1 m.2) d = d ++ ms := by
  induction ms with
  | nil => intro d _; simp
  | cons m ms ih =>
    intro d hd
    have hnew : m.1 ∉ d.map Prod.fst := by
      rw [List.map_append, List.map_cons, List.nodup_middle, List.nodup_cons] at hd
      exact fun hm => hd.1 (List.mem_append_left _ hm)
    have hins : Dict.insert d m.1 m.2 = d ++ [m] := by
      rw [Dict.insert, if_neg (lookup_isSome.not.2 hnew)]
    rw [List.append_cons] at hd
    rw [List.foldl_cons, hins, ih hd, List.append_assoc, List.singleton_append]

/-- Members with names of their own are the items of the `dict`. -/
theorem pyBuild_dict {ms : List (PyStr × Json)} (h : (ms.map Prod.fst).Nodup) : pyBuild.dict ms = .dict ms := by
  have := @foldl_insert ms [] h
  rw [List.nil_append] at this
  exact congrArg Json.dict this

/-! ## Texts as code points -/

theorem pyStr_eq (s : String) : pyStr s = codes s.toList := rfl

theorem pyStr_jsonString (s : String) : pyStr (jsonString s) = codes (quote s.toList) := by
  rw [pyStr_eq, jsonString, String.toList_ofList]

theorem pyStr_commaSep (ts : List String) : pyStr (commaSep ts) = commaJoin [] (ts.map pyStr) := by
  induction ts with
  | nil => rfl
  | cons t ts ih =>
    cases ts with
    | nil => rfl
    | cons u ts =>
      have h : pyStr "," = [44] := rfl
      rw [commaSep_cons, pyStr_append, pyStr_append, ih, h]
      simp [commaJoin]

theorem pyStr_jsonArray (items : List String) : pyStr (jsonArray items) = listText [] (items.map pyStr) := by
  have h₁ : pyStr "[" = [91] := rfl
  have h₂ : pyStr "]" = [93] := rfl
  rw [jsonArray, pyStr_append, pyStr_append, pyStr_commaSep, h₁, h₂]
  rfl

theorem pyStr_jsonObject (members : List (String × String)) :
    pyStr (jsonObject members) = dictText [] (members.map fun m => (m.1.toList, pyStr m.2)) := by
  have h₁ : pyStr "\x7b" = [123] := rfl
  have h₂ : pyStr "\x7d" = [125] := rfl
  have h₃ : pyStr ":" = [58] := rfl
  rw [jsonObject, pyStr_append, pyStr_append, pyStr_commaSep, h₁, h₂]
  simp only [dictText, List.map_map, Function.comp_def, memberText, pyStr_append, pyStr_jsonString, h₃,
    List.append_assoc, List.nil_append, List.cons_append]

theorem pyStr_toString (n : Nat) : pyStr (toString n) = natText n := by
  rw [pyStr_eq, Nat.toString_eq_ofList_toDigits, String.toList_ofList, natText]

/-! ## A receipt -/

section Receipt

variable {py : PyJson} {r : AttestedReceipt} {n : Nat}

theorem noGap : JsonText.Blank [] := by simp [JsonText.Blank]

theorem reads_jsonString (n : Nat) (s : String) : Reads pyBuild n (pyStr (jsonString s)) (.str (pyStr s)) := by
  rw [pyStr_jsonString]
  exact JsonText.reads_quote pyBuild n s.toList

theorem reads_toString (n : Nat) {k : Nat} (hk : k < 2 ^ 64) : Reads pyBuild n (pyStr (toString k)) (.int k) := by
  rw [pyStr_toString]
  have hpow : 2 ^ 64 ≤ 10 ^ 20 := by decide
  have hmax : 10 ^ 20 ≤ 10 ^ JsonText.maxDigits := Nat.pow_le_pow_right (by decide) (by decide)
  exact JsonText.reads_nat pyBuild n (by omega)

/-- The members of a receipt, as they are written and as they are read. -/
def AttestedReceipt.members (r : AttestedReceipt) : List (List Char × PyStr × Json) :=
  [("request_id".toList, pyStr (jsonString r.requestId), .str (pyStr r.requestId)),
    ("tenant_id".toList, pyStr (jsonString r.tenantId), .str (pyStr r.tenantId)),
    ("upstream_url".toList, pyStr (jsonString r.upstreamUrl), .str (pyStr r.upstreamUrl)),
    ("request_hash".toList, pyStr (jsonString r.requestHash), .str (pyStr r.requestHash)),
    ("payload_hash".toList, pyStr (jsonString r.payloadHash), .str (pyStr r.payloadHash)),
    ("policy_digest".toList, pyStr (jsonString r.policyDigest), .str (pyStr r.policyDigest)),
    ("pcr0".toList, pyStr (jsonString r.pcr0), .str (pyStr r.pcr0)),
    ("tuple_digest".toList, pyStr (jsonString r.tupleDigest), .str (pyStr r.tupleDigest)),
    ("timestamp".toList, pyStr (toString r.timestamp), .int r.timestamp)]

theorem reads_members (n : Nat) (ht : r.timestamp < 2 ^ 64) : ∀ m ∈ r.members, Reads pyBuild n m.2.1 m.2.2 := by
  simp only [AttestedReceipt.members, List.forall_mem_cons, reads_jsonString, reads_toString n ht, true_and]
  simp

theorem pyStr_receiptJson (r : AttestedReceipt) :
    pyStr (receiptJson r) = dictText [] (r.members.map fun m => (m.1, m.2.1)) := by
  rw [receiptJson, pyStr_jsonObject]
  simp only [AttestedReceipt.members, List.map_cons, List.map_nil]

theorem dict_members (r : AttestedReceipt) :
    pyBuild.dict (r.members.map fun m => (codes m.1, m.2.2)) = .dict r.items := by
  have hkeys : ((r.members.map fun m => (codes m.1, m.2.2)).map Prod.fst).Nodup := by
    have h : (["request_id", "tenant_id", "upstream_url", "request_hash", "payload_hash", "policy_digest", "pcr0",
        "tuple_digest", "timestamp"].map pyStr).Nodup := by decide
    exact h
  rw [pyBuild_dict hkeys]
  simp only [AttestedReceipt.members, AttestedReceipt.items, List.map_cons, List.map_nil, pyStr_eq]

theorem value_receiptJson (ht : r.timestamp < 2 ^ 64) (rest : PyStr) :
    JsonText.value pyBuild (n + 1) (pyStr (receiptJson r) ++ rest) = some (.dict r.items, rest) := by
  rw [pyStr_receiptJson, JsonText.value_dict noGap (reads_members n ht), dict_members]

/-- Printable characters only. -/
def Printable (s : String) : Prop := ∀ c ∈ s.toList, 32 ≤ c.toNat

theorem Printable.append {s t : String} (hs : Printable s) (ht : Printable t) : Printable (s ++ t) := by
  intro c hc
  rw [String.toList_append, List.mem_append] at hc
  rcases hc with hc | hc
  · exact hs c hc
  · exact ht c hc

theorem printable_jsonString (s : String) : Printable (jsonString s) := by
  intro c hc
  rw [jsonString, String.toList_ofList] at hc
  exact JsonText.quote_ge hc

theorem printable_toString (n : Nat) : Printable (toString n) := by
  intro c hc
  have hd : JsonText.isDigit c.toNat = true := by
    apply JsonText.isDigit_natText (n := n)
    rw [← pyStr_toString]
    exact List.mem_map_of_mem hc
  simp only [JsonText.isDigit, Bool.and_eq_true, decide_eq_true_eq] at hd
  omega

theorem printable_commaSep {ts : List String} (h : ∀ t ∈ ts, Printable t) : Printable (commaSep ts) := by
  induction ts with
  | nil => simp [Printable, commaSep]
  | cons t ts ih =>
    have ht := h t List.mem_cons_self
    cases ts with
    | nil => exact ht
    | cons u ts =>
      have hcomma : Printable "," := by simp [Printable]
      rw [commaSep_cons]
      exact (ht.append hcomma).append (ih fun x hx => h x (List.mem_cons_of_mem _ hx))

theorem printable_jsonObject {members : List (String × String)} (h : ∀ m ∈ members, Printable m.2) :
    Printable (jsonObject members) := by
  have hopen : Printable "\x7b" := by simp [Printable]
  have hclose : Printable "\x7d" := by simp [Printable]
  have hcolon : Printable ":" := by simp [Printable]
  rw [jsonObject]
  refine (hopen.append (printable_commaSep fun t ht => ?_)).append hclose
  obtain ⟨m, hm, rfl⟩ := List.mem_map.1 ht
  exact ((printable_jsonString _).append hcolon).append (h m hm)

theorem printable_receiptJson (r : AttestedReceipt) : Printable (receiptJson r) := by
  apply printable_jsonObject
  simp only [List.forall_mem_cons, printable_jsonString, printable_toString, true_and]
  simp

theorem Printable.no_newline {s : String} (h : Printable s) : 10 ∉ encode s := by
  intro hm
  rw [Utf8.encode_eq, List.mem_flatMap] at hm
  obtain ⟨c, hc, hb⟩ := hm
  have hnl := (Utf8.encodeChar_of_ascii_mem hb (by decide)).2
  have hge := h c hc
  rw [hnl] at hge
  exact absurd hge (by decide)

theorem base64_byte {b : UInt8} (h : VerifyReceipt.isBase64Byte b = true) :
    32 ≤ b.toNat ∧ b.toNat < 128 ∧ b.toNat ≠ 34 ∧ b.toNat ≠ 92 := by
  simp only [VerifyReceipt.isBase64Byte, Bool.or_eq_true, Bool.and_eq_true, decide_eq_true_eq, UInt8.le_iff_toNat_le,
    List.mem_cons, List.not_mem_nil, or_false, ← UInt8.toNat_inj, UInt8.reduceToNat] at h
  omega

/-- A base64 text is written as it is. -/
theorem jsonString_base64 {t : String} (h : VerifyReceipt.IsBase64 t) : jsonString t = "\"" ++ t ++ "\"" := by
  have hplain : ∀ c ∈ t.toList, c ≠ '"' ∧ c ≠ '\\' ∧ 32 ≤ c.toNat := by
    intro c hc
    obtain ⟨b, hb⟩ : ∃ b, b ∈ String.utf8EncodeChar c := by
      have hne : String.utf8EncodeChar c ≠ [] := by simp
      obtain ⟨b, bs, hb⟩ := List.exists_cons_of_ne_nil hne
      exact ⟨b, hb ▸ List.mem_cons_self⟩
    have hmem : b ∈ encode t := by
      rw [Utf8.encode_eq]
      exact List.mem_flatMap.2 ⟨c, hc, hb⟩
    obtain ⟨hge, hlt, hq, hs⟩ := base64_byte (h b hmem)
    have hcb := (Utf8.encodeChar_of_ascii_mem hb (UInt8.lt_iff_toNat_lt.2 hlt)).2
    refine ⟨?_, ?_, hcb ▸ hge⟩
    · rintro rfl
      exact hq hcb.symm
    · rintro rfl
      exact hs hcb.symm
  rw [jsonString, quote, JsonText.flatMap_escape hplain, ← String.toList_inj, String.toList_ofList]
  simp

theorem reads_receiptJson (n : Nat) (ht : r.timestamp < 2 ^ 64) :
    Reads pyBuild (n + 1) (pyStr (receiptJson r)) (.dict r.items) where
  solid := by
    rw [pyStr_receiptJson]
    exact ⟨123, _, rfl, by decide⟩
  value rest _ := value_receiptJson ht rest

/-- The object of a frame, its receipt in the text of `serde_json`. -/
theorem read_objectText {P : Primitives} {signature : String} (hP : P.toJson r = receiptJson r) (ht : r.timestamp < 2 ^ 64)
    (hsig : VerifyReceipt.IsBase64 signature) :
    JsonText.read pyBuild jsonDepth (pyStr (VerifyReceipt.objectText P r signature)) =
      some (.dict [(pyStr "receipt", .dict r.items), (pyStr "signature", .str (pyStr signature))]) := by
  have hgap : JsonText.Blank [32] := by simp [JsonText.Blank, JsonText.isWs]
  have hms : ∀ m ∈ [("receipt".toList, pyStr (receiptJson r), Json.dict r.items),
      ("signature".toList, pyStr (jsonString signature), Json.str (pyStr signature))],
      Reads pyBuild 15 m.2.1 m.2.2 := by
    simp only [List.forall_mem_cons, reads_receiptJson 14 ht, reads_jsonString, true_and]
    simp
  have hreads := JsonText.reads_dict hgap hms
  have htext : pyStr (VerifyReceipt.objectText P r signature) = dictText [32]
      [("receipt".toList, pyStr (receiptJson r)), ("signature".toList, pyStr (jsonString signature))] := by
    have h₁ : pyStr "\x7b\"receipt\": " = 123 :: (codes (quote "receipt".toList) ++ [58, 32]) := by decide
    have h₂ : pyStr ", \"signature\": \"" = 44 :: 32 :: (codes (quote "signature".toList) ++ 58 :: 32 :: pyStr "\"") := by decide
    have h₃ : pyStr "\"\x7d" = pyStr "\"" ++ [125] := by decide
    rw [VerifyReceipt.objectText, hP, jsonString_base64 hsig]
    simp only [pyStr_append, h₁, h₂, h₃, dictText, List.map_cons, List.map_nil, commaJoin, memberText]
    simp
  have hkeys : ([(codes "receipt".toList, Json.dict r.items), (codes "signature".toList, Json.str (pyStr signature))].map
      Prod.fst).Nodup := by
    have h : (["receipt", "signature"].map pyStr).Nodup := by decide
    exact h
  simp only [List.map_cons, List.map_nil] at hreads
  rw [pyBuild_dict hkeys] at hreads
  rw [htext, jsonDepth, JsonText.read_reads hreads]
  simp only [pyStr_eq]

/-- **A receipt survives its frame.** Whatever characters its fields hold, the receipt that `serde_json` wrote
is what both of the script's readings of the frame give, and the frame is one line. -/
theorem readBack_serde {P : Primitives} {signature : String} (hpy : py.Agrees) (hP : P.toJson r = receiptJson r)
    (ht : r.timestamp < 2 ^ 64) (hsig : VerifyReceipt.IsBase64 signature) :
    VerifyReceipt.ReadBack py P r signature where
  no_newline := hP ▸ (printable_receiptJson r).no_newline
  opens := by
    have h : encode "\x7b" = [123] := rfl
    rw [hP, receiptJson, jsonObject, Utf8.encode_append, Utf8.encode_append, h]
    rfl
  loads := by
    have hread := read_objectText hP ht hsig
    apply hpy.loads (VerifyReceipt.objectText P r signature) _ _ hread
    have h : encode "\x7b\"receipt\": " = 123 :: 34 :: encode "receipt\": " := rfl
    rw [VerifyReceipt.objectText]
    simp only [Utf8.encode_append, h]
    rfl
  rawDecode before after := by
    have hdrop : (pyStr (before ++ P.toJson r ++ after)).drop before.length = pyStr (receiptJson r) ++ pyStr after := by
      rw [pyStr_append, pyStr_append, List.append_assoc, hP]
      exact List.drop_left' (length_pyStr before)
    have hval : JsonText.value pyBuild (15 + 1) (pyStr (receiptJson r) ++ pyStr after) = some (.dict r.items, pyStr after) :=
      value_receiptJson ht (pyStr after)
    rw [← hdrop] at hval
    rw [hpy.rawDecode _ _ _ _ hval, hP]
    simp only [pyStr_append, List.length_append, length_pyStr, Nat.add_sub_cancel]

end Receipt

/-- `json` as far as the grammar goes; what it refuses is no JSON text. -/
def grammarJson : PyJson where
  loads b := match decodeUtf8 b with
    | .ok s => match JsonText.read pyBuild jsonDepth s with
      | some v => .ok v
      | none => .error (.jsonDecodeError "Expecting value: line 1 column 1 (char 0)")
    | .error e => .error e
  loadsText s := match JsonText.read pyBuild jsonDepth s with
    | some v => .ok v
    | none => .error (.jsonDecodeError "Expecting value: line 1 column 1 (char 0)")
  rawDecode s i := match JsonText.value pyBuild jsonDepth (s.drop i) with
    | some (v, rest) => .ok (v, s.length - rest.length)
    | none => .error (.jsonDecodeError "Expecting value: line 1 column 1 (char 0)")

theorem grammarJson_agrees : grammarJson.Agrees where
  loads t v _ h := by simp only [grammarJson, decodeUtf8_encode, h]
  loadsText s v h := by simp only [grammarJson, h]
  rawDecode s i v rest h := by simp only [grammarJson, h]

/-- A tenant whose name has a quote, a backslash and a newline in it. -/
def quotedReceipt : AttestedReceipt := { VerifyReceipt.hiReceipt with tenantId := "a\"b\\c\nd" }

example : VerifyReceipt.ReadBack grammarJson
    { VerifyReceipt.hiPrimitives with toJson := receiptJson } quotedReceipt VerifyReceipt.hiSignature :=
  readBack_serde grammarJson_agrees rfl (by decide +kernel) VerifyReceipt.base64_hi

/-! ## The policy -/

section Policy

variable {P : Primitives} {s s' : EngineState}

theorem reads_jsonArray (n : Nat) (l : List String) :
    Reads pyBuild (n + 1) (pyStr (jsonArray (l.map jsonString))) (.list (l.map fun s => .str (pyStr s))) := by
  have h := @JsonText.reads_list Json pyBuild n [] (l.map fun s => (pyStr (jsonString s), .str (pyStr s))) noGap (by
    intro p hp
    obtain ⟨t, -, rfl⟩ := List.mem_map.1 hp
    dsimp only
    refine ⟨reads_jsonString n t, ?_⟩
    rw [pyStr_jsonString]
    simp [codes, quote])
  simp only [List.map_map, Function.comp_def] at h
  rw [pyStr_jsonArray, List.map_map, Function.comp_def]
  exact h

theorem head_jsonArray (l : List String) : (pyStr (jsonArray l)).head? ≠ some 93 := by
  rw [pyStr_jsonArray]
  simp [listText]

theorem reads_policyJson (n : Nat) (patterns replacements : List String) :
    Reads pyBuild (n + 2) (pyStr (policyJson patterns replacements))
      (.list [.list (patterns.map fun s => .str (pyStr s)), .list (replacements.map fun s => .str (pyStr s))]) := by
  have h := @JsonText.reads_list Json pyBuild (n + 1) []
    [(pyStr (jsonArray (patterns.map jsonString)), .list (patterns.map fun s => .str (pyStr s))),
      (pyStr (jsonArray (replacements.map jsonString)), .list (replacements.map fun s => .str (pyStr s)))] noGap (by
    simp only [List.forall_mem_cons, reads_jsonArray, head_jsonArray, ne_eq, not_false_eq_true, true_and]
    simp)
  simp only [List.map_cons, List.map_nil] at h
  rw [policyJson, pyStr_jsonArray, List.map_cons, List.map_cons, List.map_nil]
  exact h

/-- No two policies have one text. -/
theorem policyJson_injective {ps ps' rs rs' : List String} (h : policyJson ps rs = policyJson ps' rs') :
    ps = ps' ∧ rs = rs' := by
  have h₁ := JsonText.read_reads (reads_policyJson 0 ps rs)
  have h₂ := JsonText.read_reads (reads_policyJson 0 ps' rs')
  rw [h, h₂] at h₁
  have hinj : Function.Injective fun s : String => Json.str (pyStr s) :=
    fun a b hab => pyStr_injective (Json.str.inj hab)
  simp only [Option.some.injEq, Json.list.injEq, List.cons.injEq, and_true, (List.map_injective_iff.2 hinj).eq_iff] at h₁
  exact ⟨h₁.1.symm, h₁.2.symm⟩

/-- **A digest names one policy.** Two engines have the same digest exactly when they have the same patterns and
the same replacements, in the same order, as long as the hash does not collide on their two texts. -/
theorem policyDigest_eq_iff (hP : P.policyJson = policyJson)
    (hash : P.blake3 (encode (policyJson s.patterns s.replacementStrings)) =
        P.blake3 (encode (policyJson s'.patterns s'.replacementStrings)) →
      encode (policyJson s.patterns s.replacementStrings) = encode (policyJson s'.patterns s'.replacementStrings)) :
    s.policyDigest P = s'.policyDigest P ↔ s.patterns = s'.patterns ∧ s.replacementStrings = s'.replacementStrings := by
  rw [EngineState.policyDigest, EngineState.policyDigest, hP]
  constructor
  · intro h
    exact policyJson_injective (Utf8.encode_injective (hash (toHex_injective h)))
  · rintro ⟨hp, hr⟩
    rw [hp, hr]

def betaPolicy : EngineState := .new (Search.AhoCorasick.scan asciiLower) ["beta"] ["[REDACTED]"]

/-- `swapPrimitives` with the texts of `serde_json`. -/
def serdePrimitives : Primitives := { swapPrimitives with toJson := receiptJson, policyJson := policyJson }

theorem serdePrimitives_injective : Function.Injective serdePrimitives.blake3 := by
  unfold serdePrimitives swapPrimitives Primitives.ofTables
  exact tabled_injective (by decide +kernel) (by decide +kernel)

theorem policyDigest_eq_iff_beta : alphaPolicy.policyDigest serdePrimitives = betaPolicy.policyDigest serdePrimitives ↔
    alphaPolicy.patterns = betaPolicy.patterns ∧ alphaPolicy.replacementStrings = betaPolicy.replacementStrings :=
  policyDigest_eq_iff rfl fun h => serdePrimitives_injective h

end Policy

end PiiProxy
