import PiiProxy.IpAddr
import PiiProxy.Text

/-!
# The host relay: the CONNECT handshake and the KMS allow-list

| here | there |
| --- | --- |
| `Source`                 | the `BufReader` over the VSOCK stream, one `read_exact` of one byte after another |
| `nextState`, `readHandshake`, `readConnectTarget` | `read_connect_target` (vsock_host_bridge.rs:72) |
| `validateKmsHost`        | `validate_kms_host` (vsock_host_bridge.rs:121) |
| `Net`, `relayConnectConnection` | `relay_connect_connection` (vsock_host_bridge.rs:48) and what it does to the network |

The handshake is read one byte at a time, so that no byte of the tunnel behind it is taken
from the reader. An automaton of four states watches for the empty line.
-/

namespace PiiProxy

open Utf8 (encode)
open Find (first At Has)

namespace VsockHostBridge

/-- What the read of the `i`-th byte gives: the byte, or the text of the error. -/
abbrev Source := Nat → Except String UInt8

def maxConnectHeaders : Nat := 4096

/-- The state after a byte; `none` is `break`. -/
def nextState (state : Nat) (byte : UInt8) : Option Nat :=
  match state, byte with
  | 0, 13 => some 1
  | 1, 10 => some 2
  | 2, 13 => some 3
  | 3, 10 => none
  | _, 13 => some 1
  | _, _ => some 0

/-- The loop; `room` is how far `handshake` is from its limit. Gives the bytes up to the empty line,
and how many were read. -/
def readHandshake (source : Source) : (room : Nat) → (handshake : Bytes) → (state : Nat) → Except String Bytes × Nat
  | 0, handshake, _ => (.error "CONNECT headers exceed 4096 bytes", handshake.length)
  | room + 1, handshake, state => match source handshake.length with
    | .error error => (.error ("failed to read CONNECT headers: " ++ error), handshake.length)
    | .ok byte => match nextState state byte with
      | none => (.ok (handshake ++ [byte]), handshake.length + 1)
      | some state => readHandshake source room (handshake ++ [byte]) state

/-- The words of the request line. -/
def parseRequestLine (requestLine : List Char) : Except String (List Char) :=
  match Text.splitWhitespace requestLine with
  | [] => .error "CONNECT method is missing"
  | [_] => .error "CONNECT authority is missing"
  | [_, _] => .error "CONNECT HTTP version is missing"
  | method :: authority :: version :: fields =>
    if method ≠ "CONNECT".toList ∨ version ≠ "HTTP/1.1".toList ∨ fields ≠ [] then
      .error "invalid CONNECT request line"
    else .ok authority

/-- From the handshake's bytes on. -/
def parseHandshake (handshake : Bytes) : Except String String :=
  match String.fromUTF8? ⟨handshake.toArray⟩ with
  | none => .error "CONNECT headers are not valid ASCII"
  | some headerText => match (Text.splitCrlf headerText.toList).head? with
    | none => .error "CONNECT request is empty"
    | some requestLine => String.ofList <$> parseRequestLine requestLine

/-- The authority, and how many bytes were taken from the reader. -/
def readConnectTarget (source : Source) : Except String String × Nat :=
  match readHandshake source maxConnectHeaders [] 0 with
  | (.error error, consumed) => (.error error, consumed)
  | (.ok handshake, consumed) => (parseHandshake handshake, consumed)

/-- `byte.is_ascii_lowercase() || byte.is_ascii_digit() || byte == b'-'`. -/
def isRegionByte (b : UInt8) : Bool := (97 ≤ b && b ≤ 122) || (48 ≤ b && b ≤ 57) || b == 45

def notApproved : String := "KMS CONNECT target is not an approved hostname"

def validateKmsHost (authority : String) : Except String Unit :=
  match Text.rsplitOnce ':' authority.toList with
  | none => .error "KMS CONNECT authority must include port 443"
  | some (host, port) =>
    if port ≠ "443".toList ∨ host = [] ∨ (IpAddr.parse (encode (String.ofList host))).isSome = true then
      .error notApproved
    else match host.splitOnP (· == '.') with
      | [service, region, domain, top] =>
        if ¬ (service = "kms".toList ∨ service = "kms-fips".toList) ∨ domain ≠ "amazonaws".toList ∨
            top ≠ "com".toList ∨ region = [] ∨ ¬ (encode (String.ofList region)).all isRegionByte then
          .error notApproved
        else .ok ()
      | _ => .error notApproved

/-- What the network answers: the dial of a host and a port, the write of the acknowledgement, and
the copy that follows. -/
structure Net where
  connect : String → Nat → Except String Unit
  writeAll : Bytes → Except String Unit
  copyBidirectional : Except String Unit

/-- The result, what was dialled and what was written to the enclave. -/
structure Relayed where
  result : Except String Unit
  dialled : Option (String × Nat) := none
  written : Bytes := []

def acknowledgement : Bytes := encode "HTTP/1.1 200 Connection Established\r\n\r\n"

/-- After the dial. -/
def relayTunnel (net : Net) (target : String × Nat) : Relayed :=
  match net.writeAll acknowledgement with
  | .error error => ⟨.error ("failed to acknowledge CONNECT request: " ++ error), some target, []⟩
  | .ok () => match net.copyBidirectional with
    | .error error => ⟨.error ("KMS relay copy failed: " ++ error), some target, acknowledgement⟩
    | .ok () => ⟨.ok (), some target, acknowledgement⟩

def relayConnectConnection (net : Net) (fallbackHost : String) (source : Source) : Relayed :=
  match (readConnectTarget source).1 with
  | .error error => ⟨.error error, none, []⟩
  | .ok requestedHost => match validateKmsHost requestedHost with
    | .error error => ⟨.error error, none, []⟩
    | .ok () =>
      let targetHost := if requestedHost.isEmpty then fallbackHost else requestedHost
      match net.connect targetHost 443 with
      | .error error => ⟨.error ("failed to connect to KMS endpoint: " ++ error), some (targetHost, 443), []⟩
      | .ok () => relayTunnel net (targetHost, 443)

/-! ## The automaton -/

/-- The end of a line and an empty line. -/
def emptyLine : Bytes := [13, 10, 13, 10]

/-- How much of the empty line the bytes end with, the last byte first. -/
def matched (last : Bytes) : Nat :=
  if [13, 10, 13] <+: last then 3 else if [10, 13] <+: last then 2 else if [13] <+: last then 1 else 0

theorem nextState_other {b : UInt8} (h13 : b ≠ 13) (h10 : b ≠ 10) (state : Nat) : nextState state b = some 0 := by
  unfold nextState
  split
  case h_6 => rfl
  all_goals contradiction

/-- **The state is how much of the empty line was just read**, after every byte but the last of it. -/
theorem nextState_matched (last : Bytes) (b : UInt8) :
    nextState (matched last) b =
      if [10, 13, 10, 13] <+: b :: last then none else some (matched (b :: last)) := by
  have h32 : [13, 10, 13] <+: last → ¬ [10, 13] <+: last := by
    rintro ⟨t, rfl⟩
    simp
  have h31 : [13, 10, 13] <+: last → [13] <+: last := by
    rintro ⟨t, rfl⟩
    simp
  have h21 : [10, 13] <+: last → ¬ [13] <+: last := by
    rintro ⟨t, rfl⟩
    simp
  by_cases h13 : b = 13
  · subst h13
    by_cases h2 : [10, 13] <+: last
    · simp [matched, List.cons_prefix_cons, h2, mt h32 (not_not.2 h2), nextState]
    · by_cases h3 : [13, 10, 13] <+: last
      · simp [matched, List.cons_prefix_cons, h2, h3, nextState]
      · by_cases h1 : [13] <+: last
        · simp [matched, List.cons_prefix_cons, h1, h2, h3, nextState]
        · simp [matched, List.cons_prefix_cons, h1, h2, h3, nextState]
  · by_cases h10 : b = 10
    · subst h10
      by_cases h3 : [13, 10, 13] <+: last
      · simp [matched, List.cons_prefix_cons, h3, nextState]
      · by_cases h2 : [10, 13] <+: last
        · simp [matched, List.cons_prefix_cons, h2, h3, h21 h2, nextState]
        · by_cases h1 : [13] <+: last
          · simp [matched, List.cons_prefix_cons, h1, h2, h3, nextState]
          · simp [matched, List.cons_prefix_cons, h1, h2, h3, nextState]
    · rw [nextState_other h13 h10]
      simp [matched, List.cons_prefix_cons, Ne.symm h13, Ne.symm h10]

theorem nextState_handshake (handshake : Bytes) (b : UInt8) :
    nextState (matched handshake.reverse) b =
      if emptyLine <:+ handshake ++ [b] then none else some (matched (handshake ++ [b]).reverse) := by
  have hsuffix : emptyLine <:+ handshake ++ [b] ↔ [10, 13, 10, 13] <+: b :: handshake.reverse := by
    rw [← List.reverse_prefix, List.reverse_append]
    rfl
  rw [nextState_matched, List.reverse_append]
  simp only [hsuffix, List.reverse_cons, List.reverse_nil, List.nil_append, List.cons_append]

/-! ## The handshake -/

/-- The stream starts with `bytes`. -/
def Offers (source : Source) (bytes : Bytes) : Prop := ∀ i b, bytes[i]? = some b → source i = .ok b

/-- The first empty line is at the end. -/
def Terminated (bytes : Bytes) : Prop := (first emptyLine bytes).map (· + 4) = some bytes.length

theorem terminated_iff {bytes : Bytes} :
    Terminated bytes ↔ emptyLine <:+ bytes ∧ ∀ j, j + 4 < bytes.length → ¬ At emptyLine bytes j := by
  rw [Terminated, Option.map_eq_some_iff]
  constructor
  · rintro ⟨i, hi, hl⟩
    obtain ⟨hat, hmin⟩ := Find.first_eq_some.1 hi
    refine ⟨?_, fun j hj => hmin j (by omega)⟩
    have hdrop : bytes.drop i = emptyLine := by
      have hlen : (bytes.drop i).length = emptyLine.length := by
        simp [emptyLine]
        omega
      exact (hat.eq_of_length hlen.symm).symm
    rw [← hdrop]
    exact List.drop_suffix i bytes
  · rintro ⟨⟨t, rfl⟩, hmin⟩
    refine ⟨t.length, Find.first_eq_some.2 ⟨?_, fun j hj => hmin j ?_⟩, ?_⟩
    · simp [At]
    · simp [emptyLine]
      omega
    · simp [emptyLine]

theorem Terminated.append_eq {a b : Bytes} (ha : Terminated a) (hab : Terminated (a ++ b)) : b = [] := by
  obtain ⟨i, hi, hl⟩ := Option.map_eq_some_iff.1 ha
  obtain ⟨j, hj, hl'⟩ := Option.map_eq_some_iff.1 hab
  rw [Find.first_append_of_some (by decide) hi, Option.some.injEq] at hj
  rw [List.length_append] at hl'
  exact List.eq_nil_of_length_eq_zero (by omega)

theorem Terminated.has {a : Bytes} (ha : Terminated a) : Has emptyLine a := by
  obtain ⟨i, hi, -⟩ := Option.map_eq_some_iff.1 ha
  exact Find.has_iff_first.2 ⟨i, hi⟩

/-- One byte more: the line is now complete, or it still does not occur. -/
theorem terminated_concat {handshake : Bytes} {b : UInt8} (h : ¬ Has emptyLine handshake) :
    if emptyLine <:+ handshake ++ [b] then Terminated (handshake ++ [b]) else ¬ Has emptyLine (handshake ++ [b]) := by
  have hnot : ∀ j, j + 4 < (handshake ++ [b]).length → ¬ At emptyLine (handshake ++ [b]) j := by
    intro j hj hat
    rw [List.length_append, List.length_singleton] at hj
    rw [Find.at_append_left (by simp [emptyLine]; omega)] at hat
    exact h ⟨j, hat⟩
  split
  · rename_i hs
    exact terminated_iff.2 ⟨hs, hnot⟩
  · rename_i hs
    rintro ⟨j, hj⟩
    by_cases hlt : j + 4 < (handshake ++ [b]).length
    · exact hnot j hlt hj
    · have hle : j + 4 ≤ (handshake ++ [b]).length := hj.le (by decide)
      apply hs
      have hdrop : (handshake ++ [b]).drop j = emptyLine := by
        refine (hj.eq_of_length ?_).symm
        rw [List.length_drop]
        simp only [emptyLine, List.length_cons, List.length_nil]
        omega
      rw [← hdrop]
      exact List.drop_suffix j _

theorem Offers.next {source : Source} {a b : Bytes} {x : UInt8} (h : Offers source (a ++ x :: b)) :
    source a.length = .ok x := h a.length x (by simp)

theorem Offers.concat {source : Source} {a : Bytes} {x : UInt8} (h : Offers source a) (hx : source a.length = .ok x) :
    Offers source (a ++ [x]) := by
  intro i b hb
  by_cases hi : i < a.length
  · rw [List.getElem?_append_left hi] at hb
    exact h i b hb
  · have hia : i = a.length := by
      have hlt := (List.getElem?_eq_some_iff.1 hb).1
      rw [List.length_append, List.length_singleton] at hlt
      omega
    subst hia
    have hxb : x = b := by simpa using hb
    rw [hx, hxb]

/-- **The loop stops right after the first empty line**, if it comes before the limit. -/
theorem readHandshake_terminated {source : Source} : ∀ {rest handshake : Bytes} {room : Nat},
    ¬ Has emptyLine handshake → Offers source (handshake ++ rest) → Terminated (handshake ++ rest) →
    rest.length ≤ room →
    readHandshake source room handshake (matched handshake.reverse) =
      (.ok (handshake ++ rest), (handshake ++ rest).length)
  | [], handshake, room, hno, _, ht, _ => by
    rw [List.append_nil] at ht
    exact absurd ht.has hno
  | b :: rest, handshake, 0, _, _, _, hroom => by simp at hroom
  | b :: rest, handshake, room + 1, hno, hoff, ht, hroom => by
    have hstep := terminated_concat (b := b) hno
    have hcat : handshake ++ b :: rest = (handshake ++ [b]) ++ rest := by simp
    rw [readHandshake, hoff.next]
    simp only [nextState_handshake]
    by_cases hs : emptyLine <:+ handshake ++ [b]
    · rw [if_pos hs] at hstep ⊢
      rw [hcat] at ht ⊢
      obtain rfl := hstep.append_eq ht
      simp
    · rw [if_neg hs] at hstep ⊢
      rw [hcat] at ht hoff ⊢
      exact readHandshake_terminated hstep hoff ht (by simpa using hroom)

/-- Whatever the stream, the loop reads no more than its room, and returns nothing but bytes of the
stream up to their first empty line. -/
theorem readHandshake_bounded {source : Source} : ∀ {room : Nat} {handshake : Bytes},
    ¬ Has emptyLine handshake → Offers source handshake →
    (readHandshake source room handshake (matched handshake.reverse)).2 ≤ handshake.length + room ∧
    ∀ bytes, (readHandshake source room handshake (matched handshake.reverse)).1 = .ok bytes →
      Offers source bytes ∧ Terminated bytes ∧ bytes.length ≤ handshake.length + room
  | 0, handshake, _, _ => by simp [readHandshake]
  | room + 1, handshake, hno, hoff => by
    rw [readHandshake]
    cases hsrc : source handshake.length with
    | error e => simp
    | ok b =>
      have hstep := terminated_concat (b := b) hno
      have hoff' := hoff.concat hsrc
      simp only [nextState_handshake]
      by_cases hs : emptyLine <:+ handshake ++ [b]
      · rw [if_pos hs] at hstep ⊢
        refine ⟨by simp, ?_⟩
        intro bytes hb
        injection hb with hb
        subst hb
        exact ⟨hoff', hstep, by simp⟩
      · rw [if_neg hs] at hstep ⊢
        have ih := @readHandshake_bounded source room _ hstep hoff'
        rw [List.length_append, List.length_singleton, Nat.add_assoc, Nat.add_comm 1 room] at ih
        exact ih

/-! ## The request line -/

/-- The text before the first line end of the headers is `CONNECT`, the authority and `HTTP/1.1`. -/
def Requests (headers : Bytes) (authority : String) : Prop :=
  ∃ (text : String) (i : Nat), encode text = headers ∧ first ['\r', '\n'] text.toList = some i ∧
    Text.splitWhitespace (text.toList.take i) = ["CONNECT".toList, authority.toList, "HTTP/1.1".toList]

theorem parseRequestLine_eq_ok {line authority : List Char} : parseRequestLine line = .ok authority ↔
    Text.splitWhitespace line = ["CONNECT".toList, authority, "HTTP/1.1".toList] := by
  unfold parseRequestLine
  split
  · simp_all
  · simp_all
  · simp_all
  · rename_i method word version fields hwords
    rw [hwords]
    by_cases h : method ≠ "CONNECT".toList ∨ version ≠ "HTTP/1.1".toList ∨ fields ≠ []
    · rw [if_pos h]
      simp only [reduceCtorEq, List.cons.injEq, false_iff]
      rintro ⟨hm, -, hv, hf⟩
      simp [hm, hv, hf] at h
    · rw [if_neg h]
      push Not at h
      obtain ⟨rfl, rfl, rfl⟩ := h
      simp

/-- A text whose bytes have an empty line has a line end. -/
theorem exists_lineEnd {text : String} (h : Has emptyLine (encode text)) :
    ∃ i, first ['\r', '\n'] text.toList = some i := by
  have hcrlf : Has [13, 10] (encode text) := by
    obtain ⟨i, hi⟩ := h
    exact ⟨i, List.IsPrefix.trans (by simp [emptyLine]) hi⟩
  rw [Utf8.encode_eq] at hcrlf
  exact Find.has_iff_first.1 (Text.has_of_ascii (by simp) (by simp) hcrlf)

theorem parseHandshake_eq_ok {handshake : Bytes} {authority : String} (h : Has emptyLine handshake) :
    parseHandshake handshake = .ok authority ↔ Requests handshake authority := by
  unfold parseHandshake
  constructor
  · intro hok
    split at hok
    · simp at hok
    · rename_i text htext
      rw [Utf8.fromUTF8?_eq_some] at htext
      subst htext
      obtain ⟨i, hi⟩ := exists_lineEnd h
      rw [Text.head?_splitCrlf hi] at hok
      cases hline : parseRequestLine (text.toList.take i) with
      | error e => simp [hline] at hok
      | ok word =>
        simp only [hline] at hok
        injection hok with hok
        have hword : authority.toList = word := by rw [← hok, String.toList_ofList]
        refine ⟨text, i, rfl, hi, ?_⟩
        rw [hword]
        exact parseRequestLine_eq_ok.1 hline
  · rintro ⟨text, i, rfl, hi, hwords⟩
    have htext : String.fromUTF8? ⟨(encode text).toArray⟩ = some text := Utf8.fromUTF8?_eq_some.2 rfl
    simp only [htext, Text.head?_splitCrlf hi, parseRequestLine_eq_ok.2 hwords]
    simp

theorem readConnectTarget_terminated {source : Source} {headers : Bytes} (hoff : Offers source headers)
    (ht : Terminated headers) (hle : headers.length ≤ 4096) :
    readConnectTarget source = (parseHandshake headers, headers.length) := by
  have hno : ¬ Has emptyLine [] := Find.not_has_nil (by decide)
  have h0 : matched [].reverse = 0 := by decide
  have hrun := @readHandshake_terminated source headers [] _ hno hoff ht hle
  rw [h0, List.nil_append] at hrun
  simp only [readConnectTarget, maxConnectHeaders, hrun]

theorem readConnectTarget_bounded (source : Source) : (readConnectTarget source).2 ≤ 4096 ∧
    ((∃ authority, (readConnectTarget source).1 = .ok authority) →
      ∃ headers, Offers source headers ∧ Terminated headers ∧ headers.length ≤ 4096) := by
  have hno : ¬ Has emptyLine [] := Find.not_has_nil (by decide)
  have h0 : matched [].reverse = 0 := by decide
  obtain ⟨hle, hok⟩ := @readHandshake_bounded source 4096 [] hno (by simp [Offers])
  rw [h0, List.length_nil, Nat.zero_add] at hle hok
  unfold readConnectTarget maxConnectHeaders
  cases hr : readHandshake source 4096 [] 0 with
  | mk result consumed =>
    rw [hr] at hle hok
    cases result with
    | error e => exact ⟨hle, by simp⟩
    | ok bytes => exact ⟨hle, fun _ => ⟨bytes, hok bytes rfl⟩⟩

/-- **What `read_connect_target` does, for every stream.** Where the first empty line ends within
4096 bytes, exactly the bytes up to it are read, and the authority is returned exactly for a
`CONNECT` request line in valid UTF-8. Where it does not, an error is returned, and at most
4096 bytes are read. -/
theorem readConnectTarget_spec (source : Source) :
    (∀ headers, Offers source headers → Terminated headers → headers.length ≤ 4096 →
      (readConnectTarget source).2 = headers.length ∧
      ∀ authority, (readConnectTarget source).1 = .ok authority ↔ Requests headers authority) ∧
    ((¬ ∃ headers, Offers source headers ∧ Terminated headers ∧ headers.length ≤ 4096) →
      (∃ error, (readConnectTarget source).1 = .error error) ∧ (readConnectTarget source).2 ≤ 4096) := by
  obtain ⟨hle, hok⟩ := readConnectTarget_bounded source
  constructor
  · intro headers hoff ht hlen
    rw [readConnectTarget_terminated hoff ht hlen]
    exact ⟨rfl, fun authority => parseHandshake_eq_ok ht.has⟩
  · intro hnone
    refine ⟨?_, hle⟩
    cases hr : (readConnectTarget source).1 with
    | error e => exact ⟨e, rfl⟩
    | ok authority => exact absurd (hok ⟨authority, hr⟩) hnone

/-- The stream of some bytes and then the end. -/
def sourceOf (bytes : Bytes) : Source := fun i => match bytes[i]? with
  | some b => .ok b
  | none => .error "early eof"

theorem offers_sourceOf (a b : Bytes) : Offers (sourceOf (a ++ b)) a := by
  intro i x hx
  have hlt : i < a.length := (List.getElem?_eq_some_iff.1 hx).1
  simp [sourceOf, List.getElem?_append_left hlt, hx]

def kmsHandshake : Bytes := encode "CONNECT kms.us-east-1.amazonaws.com:443 HTTP/1.1\r\n\r\n"

theorem terminated_kmsHandshake : Terminated kmsHandshake := by
  unfold Terminated
  decide

theorem requests_kmsHandshake : Requests kmsHandshake "kms.us-east-1.amazonaws.com:443" :=
  ⟨"CONNECT kms.us-east-1.amazonaws.com:443 HTTP/1.1\r\n\r\n", 48, rfl, by decide, by decide⟩

/-- The first bytes of a TLS record stay in the reader. -/
theorem readConnectTarget_spec_kms :
    (readConnectTarget (sourceOf (kmsHandshake ++ [22, 3, 1]))).2 = 52 ∧
    (readConnectTarget (sourceOf (kmsHandshake ++ [22, 3, 1]))).1 = .ok "kms.us-east-1.amazonaws.com:443" := by
  have h := (readConnectTarget_spec (sourceOf (kmsHandshake ++ [22, 3, 1]))).1 kmsHandshake (offers_sourceOf _ _)
    terminated_kmsHandshake (by decide)
  exact ⟨h.1, (h.2 _).2 requests_kmsHandshake⟩

end VsockHostBridge

end PiiProxy
