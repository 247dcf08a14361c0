import PiiProxy.TranscriptFrame

/-!
# When the two verifiers hash the same bytes

verify_e2e.py hashes what stands before the first `"\nevent: proxy_audit\n"`.
`hash_transcript` drops the line before an audit event, whatever it is, and goes on
hashing after the event. The two agree exactly when nothing but plain lines comes
before the event, and what comes after it puts back the unterminated line that was
dropped with the newline (`AddsOnly`).

* `payload_hash_sound_iff` — for an accepted transcript whose receipt declares the hash computed
-/

namespace PiiProxy

open Utf8 (encode)
open Find (first At Has)
open Lines (lines Complete unterminated)

namespace VerifyReceipt

variable {py : PyJson} {blake3 : Bytes → Bytes} {line after : Bytes} {rest ls ms : List Bytes}
  {fed last : Bytes} {held : Option Bytes} {i : Nat}

/-- Lines after an audit event that feed `last` and nothing else: whole audit events, each
after at most one other line, and then the marker's line or the end of the file. -/
inductive AddsOnly (last : Bytes) : List Bytes → Prop
  | stop {line : Bytes} {rest : List Bytes} {i : Nat} (ha : isAuditEvent line = false)
      (hd : first doneMarker line = some i) (hl : line.take i = last) : AddsOnly last (line :: rest)
  | eof (hl : last = []) : AddsOnly last []
  | final {line : Bytes} (hp : Plain line) (hl : last = []) : AddsOnly last [line]
  | audit {line data blank : Bytes} {rest : List Bytes} (ha : isAuditEvent line = true)
      (hr : AddsOnly last rest) : AddsOnly last (line :: data :: blank :: rest)
  | dropped {line event data blank : Bytes} {rest : List Bytes} (hp : Plain line)
      (ha : isAuditEvent event = true) (hr : AddsOnly last rest) :
      AddsOnly last (line :: event :: data :: blank :: rest)

/-- The condition on a transcript whose first event starts at `i`. -/
def SameBytes (transcript : Bytes) (i : Nat) : Prop :=
  (∀ l ∈ lines 10 (transcript.take i), Plain l) ∧
    AddsOnly (unterminated 10 (transcript.take i)) ((lines 10 (transcript.drop (i + auditMarker.length))).drop 2)

/-! ## After the event -/

theorem Reads.of_audit (h : Reads py blake3 held (line :: rest) fed) (ha : isAuditEvent line = true) :
    ∃ data blank tail, rest = data :: blank :: tail ∧ (∃ a, readAudit py blake3 data = .ok a) ∧
      Reads py blake3 none tail fed := by
  cases h with
  | stop ha' => simp [ha] at ha'
  | hold ha' => simp [ha] at ha'
  | audit _ hd hb hr => exact ⟨_, _, _, rfl, ⟨_, hd⟩, hr⟩

theorem Reads.of_hold (h : Reads py blake3 held (line :: rest) fed) (hp : Plain line) :
    ∃ fed', fed = held.getD [] ++ fed' ∧ Reads py blake3 (some line) rest fed' := by
  cases h with
  | stop _ hd => simp [hp.2] at hd
  | hold _ _ hr => exact ⟨_, rfl, hr⟩
  | audit ha' => simp [hp.1] at ha'

theorem Reads.of_stop (h : Reads py blake3 held (line :: rest) fed) (ha : isAuditEvent line = false)
    (hd : first doneMarker line = some i) : fed = held.getD [] ++ line.take i := by
  cases h with
  | stop _ hd' =>
    rw [hd, Option.some.injEq] at hd'
    rw [hd']
  | hold _ hd' => simp [hd] at hd'
  | audit ha' => simp [ha] at ha'

/-- A held line is fed when anything but an audit event follows. -/
theorem Reads.starts_held (h : Reads py blake3 held (line :: rest) fed) (ha : isAuditEvent line = false) :
    ∃ f, fed = held.getD [] ++ f := by
  cases h with
  | stop => exact ⟨_, rfl⟩
  | hold => exact ⟨_, rfl⟩
  | audit ha' => simp [ha] at ha'

theorem Reads.of_nil (h : Reads py blake3 held [] fed) : fed = [] := by
  cases h
  rfl

theorem AddsOnly.fed_eq (h : AddsOnly last ls) : ∀ {fed : Bytes}, Reads py blake3 none ls fed → fed = last := by
  induction h with
  | stop ha hd hl =>
    intro fed hr
    simpa [hl] using hr.of_stop ha hd
  | eof hl =>
    intro fed hr
    rw [hl, hr.of_nil]
  | final hp hl =>
    intro fed hr
    obtain ⟨f, rfl, hr⟩ := hr.of_hold hp
    simp [hl, hr.of_nil]
  | audit ha _ ih =>
    intro fed hr
    obtain ⟨_, _, _, hl, -, hr⟩ := hr.of_audit ha
    cases hl
    exact ih hr
  | dropped hp ha _ ih =>
    intro fed hr
    obtain ⟨f, rfl, hr⟩ := hr.of_hold hp
    obtain ⟨_, _, _, hl, -, hr⟩ := hr.of_audit ha
    cases hl
    simpa using ih hr

/-- **Lines that feed a text without a line end are `AddsOnly` of it**: a line that
another one follows is complete, so feeding it would feed a line end. -/
theorem Reads.addsOnly {text : Bytes} (hls : ls = lines 10 text) (h : Reads py blake3 none ls last)
    (hlast : 10 ∉ last) : AddsOnly last ls := by
  -- An audit event takes three lines, so the induction is on their number.
  induction hn : ls.length using Nat.strong_induction_on generalizing ls text with
  | _ n ih => cases ls with
    | nil => exact .eof h.of_nil
    | cons line rest =>
      obtain ⟨b, hb, hcl⟩ := Lines.lines_eq_cons hls.symm
      cases ha : isAuditEvent line with
      | true =>
        obtain ⟨data, blank, tail, rfl, -, hr⟩ := h.of_audit ha
        obtain ⟨c, hc, -⟩ := Lines.lines_eq_cons hb.symm
        obtain ⟨d, hd, -⟩ := Lines.lines_eq_cons hc.symm
        simp only [List.length_cons] at hn
        exact .audit ha (ih tail.length (by omega) hd hr rfl)
      | false => cases hd : first doneMarker line with
        | some i => exact .stop ha hd (by simpa using (h.of_stop ha hd).symm)
        | none =>
          obtain ⟨f, hf, hr⟩ := h.of_hold ⟨ha, hd⟩
          have hf : last = f := by simpa using hf
          rw [← hf] at hr
          cases rest with
          | nil => exact .final ⟨ha, hd⟩ hr.of_nil
          | cons event rest => cases hev : isAuditEvent event with
            | true =>
              obtain ⟨data, blank, tail, rfl, -, hr⟩ := hr.of_audit hev
              obtain ⟨c, hc, -⟩ := Lines.lines_eq_cons hb.symm
              obtain ⟨d, hd', -⟩ := Lines.lines_eq_cons hc.symm
              obtain ⟨e, he, -⟩ := Lines.lines_eq_cons hd'.symm
              simp only [List.length_cons] at hn
              exact .dropped ⟨ha, hd⟩ hev (ih tail.length (by omega) he hr rfl)
            | false =>
              obtain ⟨f, rfl⟩ := hr.starts_held hev
              have hmem : 10 ∈ line := (hcl.resolve_right (by simp)).mem
              exact absurd (List.mem_append_left _ hmem) hlast

/-! ## Before the event -/

/-- Plain lines are fed, all but what is still held after them. -/
theorem Reads.plain_lines : ∀ {ms : List Bytes} {held : Option Bytes} {fed : Bytes}, (∀ m ∈ ms, Plain m) →
    Reads py blake3 held (ms ++ rest) fed → ∃ held' released f, fed = released ++ f ∧
      held.getD [] ++ ms.flatten = released ++ held'.getD [] ∧ Reads py blake3 held' rest f
  | [], held, fed, _, h => ⟨held, [], fed, by simp, by simp, h⟩
  | m :: ms, held, fed, hms, h => by
    obtain ⟨f, rfl, hr⟩ := Reads.of_hold h (hms m (by simp))
    obtain ⟨held', released, f', rfl, hf, hr⟩ :=
      Reads.plain_lines (fun x hx => hms x (List.mem_cons_of_mem _ hx)) hr
    refine ⟨held', held.getD [] ++ released, f', by simp, ?_, hr⟩
    rw [List.append_assoc, ← hf]
    simp

/-- A marker in a line, with no audit event before it, cuts the bytes fed short. -/
theorem Reads.fed_short : ∀ {ms : List Bytes} {held : Option Bytes} {fed : Bytes},
    (∀ m ∈ ms, isAuditEvent m = false) → (∃ m ∈ ms, first doneMarker m ≠ none) →
    Reads py blake3 held (ms ++ rest) fed → fed.length + 12 ≤ (held.getD [] ++ ms.flatten).length
  | m :: ms, held, fed, hms, hd, h => by
    have hm := hms m (by simp)
    cases hdm : first doneMarker m with
    | some i =>
      have hi := first_doneMarker_le hdm
      rw [Reads.of_stop h hm hdm]
      simp only [List.length_append, List.length_take, List.flatten_cons]
      omega
    | none =>
      obtain ⟨f, rfl, hr⟩ := Reads.of_hold h ⟨hm, hdm⟩
      have hd' : ∃ m ∈ ms, first doneMarker m ≠ none := by
        obtain ⟨x, hx, hdx⟩ := hd
        rcases List.mem_cons.1 hx with rfl | hx
        · exact absurd hdm hdx
        · exact ⟨x, hx, hdx⟩
      have ih := Reads.fed_short (fun x hx => hms x (List.mem_cons_of_mem _ hx)) hd' hr
      simp only [List.length_append, Option.getD_some, List.flatten_cons] at ih ⊢
      omega

/-- The data line of an event is not another event. -/
theorem readAudit_auditEvent (a : Audit) : readAudit py blake3 (auditEvent ++ [10]) ≠ .ok a := by
  have hd : (encode "data:").isPrefixOf (auditEvent ++ [10]) = false := by decide
  simp [readAudit, auditObject, hd]

/-- The lines of a transcript around its first event. -/
theorem lines_around {transcript : Bytes} (hm : first auditMarker transcript = some i) :
    ∃ ms last, transcript.take i = ms.flatten ++ last ∧ (∀ m ∈ ms, Complete 10 m) ∧ 10 ∉ last ∧
      lines 10 transcript = ms ++ (last ++ [10]) :: (auditEvent ++ [10]) ::
        lines 10 (transcript.drop (i + auditMarker.length)) := by
  obtain ⟨ms, last, hbody, hms, hlast⟩ := Lines.exists_complete_lines 10 (transcript.take i)
  refine ⟨ms, last, hbody, hms, hlast, ?_⟩
  have hlast' : Complete 10 (last ++ [10]) := ⟨last, hlast, rfl⟩
  have hsplit := (Find.first_eq_some.1 hm).1.split
  rw [hbody, auditMarker_eq] at hsplit
  calc lines 10 transcript
      = lines 10 (ms.flatten ++ ((last ++ [10]) ++ ((auditEvent ++ [10]) ++
          transcript.drop (i + auditMarker.length)))) := by
        rw [auditMarker_eq]
        conv => lhs; rw [hsplit]
        simp
    _ = _ := by rw [Lines.lines_flatten_append hms, hlast'.lines_append, complete_auditEvent.lines_append]

theorem plain_lines_iff (hms : ∀ m ∈ ms, Complete 10 m) (hlast : 10 ∉ last) :
    (∀ l ∈ lines 10 (ms.flatten ++ last), Plain l) ↔ (∀ m ∈ ms, Plain m) ∧ Plain last := by
  rw [Lines.lines_flatten_append hms]
  by_cases h : last = []
  · simp [h, plain_nil]
  · simp [Lines.lines_of_not_mem hlast h, or_imp, forall_and]

/-- Plain lines before an event: they are fed, but for the last one, and the scan goes on after it. -/
theorem Reads.around_event (hms : ∀ m ∈ ms, Plain m) (hlast : Plain last)
    (h : Reads py blake3 none (ms ++ (last ++ [10]) :: (auditEvent ++ [10]) :: rest) fed) :
    ∃ data blank tail f, rest = data :: blank :: tail ∧ fed = ms.flatten ++ f ∧ Reads py blake3 none tail f := by
  obtain ⟨held, released, f, rfl, hf, hr⟩ := h.plain_lines hms
  obtain ⟨f, rfl, hr'⟩ := hr.of_hold (plain_newline.2 hlast)
  obtain ⟨data, blank, tail, rfl, -, hr'⟩ := hr'.of_audit isAuditEvent_auditEvent
  refine ⟨data, blank, tail, f, rfl, ?_, hr'⟩
  rw [← List.append_assoc, ← hf, Option.getD_none, List.nil_append]

/-- A reading that feeds the bytes before an event has only plain lines there. -/
theorem Reads.plain_before {text : Bytes} (hms : ∀ m ∈ ms, Complete 10 m) (hlast : 10 ∉ last)
    (hls : ms ++ (last ++ [10]) :: (auditEvent ++ [10]) :: rest = lines 10 text)
    (h : Reads py blake3 none (ms ++ (last ++ [10]) :: (auditEvent ++ [10]) :: rest) (ms.flatten ++ last)) :
    (∀ m ∈ ms, Plain m) ∧ Plain last := by
  have hna : ∀ m ∈ ms, isAuditEvent m = false := by
    obtain ⟨ms', tail, he, hms', ht⟩ := h.fed_lines hls (by simp)
    obtain ⟨rfl, -⟩ := Lines.complete_lines_unique he hms (fun m hm => (hms' m hm).1) hlast ht
    exact fun m hm => (hms' m hm).2
  have hnd : ∀ m ∈ ms, first doneMarker m = none := by
    by_contra hex
    push Not at hex
    have := h.fed_short hna hex
    simp only [Option.getD_none, List.nil_append, List.length_append] at this
    omega
  have hms' : ∀ m ∈ ms, Plain m := fun m hm => ⟨hna m hm, hnd m hm⟩
  have hla : isAuditEvent (last ++ [10]) = false := by
    obtain ⟨held, released, f, -, -, hr⟩ := h.plain_lines hms'
    cases ha : isAuditEvent (last ++ [10]) with
    | false => rfl
    | true =>
      -- The event would have to be the data line of this one.
      obtain ⟨_, _, _, hl, ⟨a, hd⟩, -⟩ := hr.of_audit ha
      cases hl
      exact absurd hd (readAudit_auditEvent a)
  have hld : first doneMarker (last ++ [10]) = none := by
    by_contra hd
    have h' : Reads py blake3 none ((ms ++ [last ++ [10]]) ++ (auditEvent ++ [10]) :: rest) (ms.flatten ++ last) := by
      simpa using h
    have := h'.fed_short (by simpa [or_imp, forall_and] using ⟨hna, by simpa using hla⟩)
      ⟨last ++ [10], by simp, hd⟩
    simp only [Option.getD_none, List.nil_append, List.length_append, List.flatten_append, List.flatten_cons,
      List.flatten_nil, List.length_cons, List.length_nil] at this
    omega
  exact ⟨hms', plain_newline.1 ⟨hla, hld⟩⟩

/-- **What is fed is what stands before the first event, exactly on `SameBytes` transcripts.** -/
theorem Reads.eq_take_iff {transcript : Bytes} (hm : first auditMarker transcript = some i)
    (h : Reads py blake3 none (lines 10 transcript) fed) : fed = transcript.take i ↔ SameBytes transcript i := by
  obtain ⟨ms, last, hbody, hms, hlast, hls⟩ := lines_around hm
  have hunt : unterminated 10 (transcript.take i) = last := by
    rw [hbody, Lines.unterminated_flatten_append hms hlast]
  rw [SameBytes, hunt, hbody, plain_lines_iff hms hlast]
  rw [hls] at h
  constructor
  · rintro rfl
    have hplain := h.plain_before hms hlast hls.symm
    obtain ⟨data, blank, tail, f, hrest, hf, hr⟩ := h.around_event hplain.1 hplain.2
    obtain rfl := List.append_cancel_left hf
    obtain ⟨b, hb, -⟩ := Lines.lines_eq_cons hrest
    obtain ⟨c, hc, -⟩ := Lines.lines_eq_cons hb.symm
    rw [hrest]
    exact ⟨hplain, hr.addsOnly hc hlast⟩
  · rintro ⟨hplain, hadds⟩
    obtain ⟨data, blank, tail, f, hrest, rfl, hr⟩ := h.around_event hplain.1 hplain.2
    rw [hrest] at hadds
    rw [hadds.fed_eq hr]

/-- What the scan of `transcript` hashed and its first `i` bytes are no collision. -/
def ScannedApart (py : PyJson) (blake3 : Bytes → Bytes) (transcript : Bytes) (i : Nat) : Prop :=
  ∀ s, run py blake3 {} (lines 10 transcript) = .ok s → CollisionFree blake3 s.hasher (transcript.take i)

/-- **Verifier soundness, and where it ends.** The transcript has an event, the scan accepts it
and the receipt declares the hash computed: the declared hash is the one verify_e2e.py
computes exactly on `SameBytes` transcripts. -/
theorem payload_hash_sound_iff {transcript : Bytes} {h : Hashed} (hm : first auditMarker transcript = some i)
    (hacc : hashTranscript py blake3 transcript = .ok h)
    (hdecl : h.receipt.get "payload_hash" = some (.str (pyStr h.computed))) :
    (SameBytes transcript i →
      h.receipt.get "payload_hash" = some (.str (pyStr (VerifyE2e.payloadHash blake3 transcript i)))) ∧
    (ScannedApart py blake3 transcript i →
      h.receipt.get "payload_hash" = some (.str (pyStr (VerifyE2e.payloadHash blake3 transcript i))) →
      SameBytes transcript i) := by
  obtain ⟨s, hrun, hreads, hc⟩ := reads_of_hashTranscript hacc
  rw [← hreads.eq_take_iff hm, hdecl, hc, VerifyE2e.payloadHash, Option.some.injEq, Json.str.injEq,
    pyStr_injective.eq_iff, toHex_injective.eq_iff]
  constructor
  · intro he
    rw [he]
  · intro hcf he
    exact hcf s hrun he

/-! ### A line put in front of the event

The stream `"data: hi\r\n\r\n"` with its receipt, and the same transcript with `hello` put
between the payload and the frame. Both are accepted with the same hash. -/

def hiTranscript (last : Bytes) : Bytes :=
  encode "data: hi\r\n\r\n" ++ (last ++ (AuditFrame.bytes hiPrimitives ⟨hiReceipt, hiSignature⟩ ++
    (doneMarker ++ encode "\n\n")))

theorem hiTranscript_accepted {last : Bytes} (hl : 10 ∉ last) (hp : Plain last) :
    hashTranscript (jsonOf hiPrimitives hiReceipt hiSignature) hiPrimitives.blake3 (hiTranscript last) =
      .ok ⟨hiReceipt.payloadHash, hiReceipt.items, hiReceipt.digest hiPrimitives,
        pyStr hiSignature⟩ :=
  hashTranscript_frame (Or.inr rfl) (Find.first_eq_none.1 rfl) (by decide) hl hp shape_hi rfl base64_hi readBack_hi

theorem hiTranscript_eq (last : Bytes) :
    hiTranscript last = (encode "data: hi\r\n\r\n" ++ last ++ auditMarker) ++
      (dataLine hiPrimitives hiReceipt hiSignature ++ ([10] ++ (doneMarker ++ encode "\n\n"))) := by
  simp [hiTranscript, frame_bytes, auditMarker_eq]

theorem first_hiTranscript {last : Bytes}
    (h : first auditMarker (encode "data: hi\r\n\r\n" ++ last ++ auditMarker) = some i) :
    first auditMarker (hiTranscript last) = some i := by
  rw [hiTranscript_eq, Find.first_append_of_some (by decide) h]

theorem payloadHash_hi :
    hiReceipt.items.get "payload_hash" = some (.str (pyStr hiReceipt.payloadHash)) := by
  simp [AttestedReceipt.items]

theorem hiPrimitives_injective : Function.Injective hiPrimitives.blake3 :=
  tabled_injective (by decide +kernel) (by decide +kernel)

theorem sameBytes_hi : SameBytes (hiTranscript []) 12 := by
  have hafter : (lines 10 ((hiTranscript []).drop (12 + auditMarker.length))).drop 2 = [doneMarker ++ [10], [10]] := by
    have hlen : (encode "data: hi\r\n\r\n" ++ [] ++ auditMarker).length = 12 + auditMarker.length := rfl
    rw [hiTranscript_eq, List.drop_left' hlen, (complete_dataLine readBack_hi.no_newline base64_hi).lines_append, complete_blank.lines_append]
    rfl
  have htake : (hiTranscript []).take 12 = encode "data: hi\r\n\r\n" := List.take_left' rfl
  rw [SameBytes, hafter, htake]
  refine ⟨?_, ?_⟩
  · have : ∀ l ∈ lines 10 (encode "data: hi\r\n\r\n"), isAuditEvent l = false ∧ first doneMarker l = none := by
      decide
    exact this
  · exact .stop (i := 0) rfl rfl rfl

theorem payload_hash_sound_iff_hi :
    SameBytes (hiTranscript []) 12 ∧
    (hiReceipt.items.get "payload_hash" =
      some (.str (pyStr (VerifyE2e.payloadHash hiPrimitives.blake3 (hiTranscript []) 12))) ↔
      SameBytes (hiTranscript []) 12) := by
  have hm : first auditMarker (hiTranscript []) = some 12 := first_hiTranscript (by decide)
  obtain ⟨hsame, hbytes⟩ := payload_hash_sound_iff hm (hiTranscript_accepted (by simp) plain_nil) payloadHash_hi
  exact ⟨sameBytes_hi, hbytes fun _ _ he => hiPrimitives_injective he, hsame⟩

theorem line_before_event_not_hashed :
    ¬ ∀ (py : PyJson) (blake3 : Bytes → Bytes) (transcript : Bytes) (i : Nat) (h : Hashed),
      first auditMarker transcript = some i → hashTranscript py blake3 transcript = .ok h →
      h.receipt.get "payload_hash" = some (.str (pyStr h.computed)) → Function.Injective blake3 →
      h.receipt.get "payload_hash" = some (.str (pyStr (VerifyE2e.payloadHash blake3 transcript i))) := by
  intro h
  have hplain : Plain (encode "hello") := ⟨rfl, rfl⟩
  have heq := h _ hiPrimitives.blake3 (hiTranscript (encode "hello")) 17 _ (first_hiTranscript (by decide))
    (hiTranscript_accepted (by decide) hplain) payloadHash_hi hiPrimitives_injective
  rw [payloadHash_hi, Option.some.injEq, Json.str.injEq, pyStr_injective.eq_iff] at heq
  exact absurd heq (by decide +kernel)

end VerifyReceipt

end PiiProxy
