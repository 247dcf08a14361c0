import PiiProxy.Transcript

/-!
# What a scan that is accepted does with its lines

`Reads held ls fed`: with `held` held back, `hash_transcript` takes the lines `ls`
without raising and feeds `fed` to its hasher. It has one rule for each thing a turn
of the loop can do, the three lines of an audit event taken as one.

* `reads_of_run` — every run that ends outside an audit event is such a reading
* `Reads.fed_lines` — no complete line fed is an audit line
-/

namespace PiiProxy.VerifyReceipt

open Utf8 (encode)
open Find (first)
open Lines (lines Complete)

variable {py : PyJson} {blake3 : Bytes → Bytes} {s s' : Scan} {line : Bytes} {rest ls : List Bytes}
  {fed : Bytes} {held : Option Bytes} {i : Nat}

/-! ## One turn -/

/-- Outside an audit event. -/
def Scan.Ready (s : Scan) : Prop := s.expectingAuditData = false ∧ s.expectingAuditBlank = false

/-- Neither an audit line nor one with a marker. -/
def Plain (line : Bytes) : Prop := isAuditEvent line = false ∧ first doneMarker line = none

def IsBlank (line : Bytes) : Prop := line = encode "\n" ∨ line = encode "\r\n"

@[simp] theorem isAuditEvent_newline (l : Bytes) : isAuditEvent (l ++ [10]) = isAuditEvent l := by
  rw [isAuditEvent, isAuditEvent, rstripCrLf, rstripCrLf, List.rdropWhile_concat_pos _ _ _ (by decide)]

theorem plain_newline {l : Bytes} : Plain (l ++ [10]) ↔ Plain l := by
  rw [Plain, Plain, isAuditEvent_newline, Find.first_eq_none, Find.first_eq_none,
    Find.has_concat (by decide)]

theorem plain_nil : Plain [] := by
  constructor <;> decide

theorem isAuditEvent_auditEvent : isAuditEvent (auditEvent ++ [10]) = true := by
  decide

theorem auditMarker_eq : auditMarker = [10] ++ (auditEvent ++ [10]) := rfl

theorem complete_auditEvent : Complete 10 (auditEvent ++ [10]) := ⟨auditEvent, by decide, rfl⟩

theorem complete_blank : Complete 10 ([10] : Bytes) := ⟨[], List.not_mem_nil, rfl⟩

/-- A marker takes twelve bytes of its line. -/
theorem first_doneMarker_le (h : first doneMarker line = some i) : i + 12 ≤ line.length :=
  Find.first_lt (by decide) h

/-- The locals after the three lines of an audit event. -/
def Scan.audited (s : Scan) (a : Audit) : Scan :=
  { s with
    receipt := some a.receipt, tupleDigest := some a.tupleDigest, signature := some a.signature,
    expectingAuditData := false, expectingAuditBlank := false, pendingLine := none }

theorem step_hold (hs : s.Ready) (ha : isAuditEvent line = false) (hd : first doneMarker line = none) :
    step py blake3 s line =
      .ok (.yield { s with hasher := s.hasher ++ s.pendingLine.getD [], pendingLine := some line }) := by
  obtain ⟨h1, h2⟩ := hs
  cases hp : s.pendingLine <;> simp [step, h1, h2, ha, hd, Scan.release, hp]

theorem step_stop (hs : s.Ready) (ha : isAuditEvent line = false) (hd : first doneMarker line = some i) :
    step py blake3 s line =
      .ok (.done { s with hasher := s.hasher ++ s.pendingLine.getD [] ++ line.take i, pendingLine := none }) := by
  obtain ⟨h1, h2⟩ := hs
  cases hp : s.pendingLine <;> simp [step, h1, h2, ha, hd, Scan.release, hp]

theorem step_event (hs : s.Ready) (ha : isAuditEvent line = true) :
    step py blake3 s line = .ok (.yield { s with pendingLine := none, expectingAuditData := true }) := by
  obtain ⟨h1, h2⟩ := hs
  cases hp : s.pendingLine <;> simp [step, h1, h2, ha, Scan.release, hp]

theorem run_cons (s : Scan) (line : Bytes) (rest : List Bytes) :
    run py blake3 s (line :: rest) = (step py blake3 s line >>= fun
      | .yield s => run py blake3 s rest
      | .done s => .ok s) := rfl

theorem run_hold (hs : s.Ready) (ha : isAuditEvent line = false) (hd : first doneMarker line = none) :
    run py blake3 s (line :: rest) =
      run py blake3 { s with hasher := s.hasher ++ s.pendingLine.getD [], pendingLine := some line } rest := by
  rw [run_cons, step_hold hs ha hd]
  rfl

theorem run_stop (hs : s.Ready) (ha : isAuditEvent line = false) (hd : first doneMarker line = some i) :
    run py blake3 s (line :: rest) =
      .ok { s with hasher := s.hasher ++ s.pendingLine.getD [] ++ line.take i, pendingLine := none } := by
  rw [run_cons, step_stop hs ha hd]
  rfl

/-- A whole audit event drops the held line. -/
theorem run_audit {data blank : Bytes} {a : Audit} (hs : s.Ready) (ha : isAuditEvent line = true)
    (hd : readAudit py blake3 data = .ok a) (hb : IsBlank blank) :
    run py blake3 s (line :: data :: blank :: rest) = run py blake3 (s.audited a) rest := by
  have hb : blank = encode "\n" ∨ blank = encode "\r\n" := hb
  rw [run_cons, step_event hs ha]
  simp [run_cons, step, hd, hb, Scan.audited]

/-- An audit event that did not raise had all its lines, unless the transcript ended in it. -/
theorem run_audit_inv (hs : s.Ready) (ha : isAuditEvent line = true)
    (h : run py blake3 s (line :: rest) = .ok s') (hs' : s'.Ready) :
    ∃ data blank tail a, rest = data :: blank :: tail ∧ readAudit py blake3 data = .ok a ∧ IsBlank blank ∧
      run py blake3 (s.audited a) tail = .ok s' := by
  rw [run_cons, step_event hs ha] at h
  cases rest with
  | nil =>
    simp only [bind_ok, run, Except.ok.injEq] at h
    simp [← h, Scan.Ready] at hs'
  | cons data rest =>
    simp only [bind_ok, run_cons, step, if_true, bind_eq_ok] at h
    obtain ⟨_, ⟨a, hd, hy⟩, h⟩ := h
    simp only [pure_eq_ok, Except.ok.injEq] at hy
    subst hy
    cases rest with
    | nil =>
      simp only [run, Except.ok.injEq] at h
      simp [← h, Scan.Ready] at hs'
    | cons blank tail =>
      by_cases hb : IsBlank blank
      · have hb' : blank = encode "\n" ∨ blank = encode "\r\n" := hb
        simp only [run_cons, step, hb', Bool.false_eq_true, if_false, if_true, bind_ok] at h
        exact ⟨data, blank, tail, a, rfl, hd, hb, h⟩
      · have hb' : ¬ (blank = encode "\n" ∨ blank = encode "\r\n") := hb
        simp [run_cons, step, hb'] at h

theorem Scan.ready_audited (s : Scan) (a : Audit) : (s.audited a).Ready := ⟨rfl, rfl⟩

/-! ## Readings -/

/-- Lines taken without an exception, and what they feed. -/
inductive Reads (py : PyJson) (blake3 : Bytes → Bytes) : Option Bytes → List Bytes → Bytes → Prop
  /-- A line still held at the end of the file is never fed. -/
  | eof (held : Option Bytes) : Reads py blake3 held [] []
  | stop {held : Option Bytes} {line : Bytes} {rest : List Bytes} {i : Nat}
      (ha : isAuditEvent line = false) (hd : first doneMarker line = some i) :
      Reads py blake3 held (line :: rest) (held.getD [] ++ line.take i)
  | hold {held : Option Bytes} {line : Bytes} {rest : List Bytes} {fed : Bytes}
      (ha : isAuditEvent line = false) (hd : first doneMarker line = none)
      (hr : Reads py blake3 (some line) rest fed) : Reads py blake3 held (line :: rest) (held.getD [] ++ fed)
  | audit {held : Option Bytes} {line data blank : Bytes} {rest : List Bytes} {fed : Bytes} {a : Audit}
      (ha : isAuditEvent line = true) (hd : readAudit py blake3 data = .ok a) (hb : IsBlank blank)
      (hr : Reads py blake3 none rest fed) : Reads py blake3 held (line :: data :: blank :: rest) fed

/-- **A run is a reading**: what it adds to the hasher is what the lines feed. -/
theorem reads_of_run : ∀ {ls : List Bytes} {s s' : Scan}, s.Ready → run py blake3 s ls = .ok s' → s'.Ready →
    ∃ fed, Reads py blake3 s.pendingLine ls fed ∧ s'.hasher = s.hasher ++ fed
  | [], s, s', _, h, _ => by
    simp only [run, Except.ok.injEq] at h
    exact ⟨[], .eof _, by simp [h]⟩
  | line :: rest, s, s', hs, h, hs' => by
    cases ha : isAuditEvent line with
    | true =>
      obtain ⟨data, blank, tail, a, rfl, hd, hb, h⟩ := run_audit_inv hs ha h hs'
      obtain ⟨fed, hr, hf⟩ := reads_of_run (s.ready_audited a) h hs'
      exact ⟨fed, .audit ha hd hb hr, hf⟩
    | false => cases hd : first doneMarker line with
      | some i =>
        rw [run_stop hs ha hd, Except.ok.injEq] at h
        exact ⟨_, .stop ha hd, by simp [← h]⟩
      | none =>
        rw [run_hold hs ha hd] at h
        have hs₁ : Scan.Ready { s with hasher := s.hasher ++ s.pendingLine.getD [], pendingLine := some line } := hs
        obtain ⟨fed, hr, hf⟩ := reads_of_run hs₁ h hs'
        exact ⟨_, .hold ha hd hr, by simpa using hf⟩
termination_by ls => ls.length

theorem finish_eq_ok {r : Hashed} (h : s.finish blake3 = .ok r) :
    s.Ready ∧ r.computed = toHex (blake3 s.hasher) := by
  unfold Scan.finish at h
  split at h
  · simp at h
  · rename_i hexp
    refine ⟨by simpa [Scan.Ready] using hexp, ?_⟩
    split at h
    · simp only [Except.ok.injEq] at h
      simp [← h]
    · simp at h

/-- An accepted transcript, read from its first line on. -/
theorem reads_of_hashTranscript {transcript : Bytes} {r : Hashed}
    (h : hashTranscript py blake3 transcript = .ok r) :
    ∃ s, run py blake3 {} (lines 10 transcript) = .ok s ∧ Reads py blake3 none (lines 10 transcript) s.hasher ∧
      r.computed = toHex (blake3 s.hasher) := by
  obtain ⟨s, hrun, hf⟩ := bind_eq_ok.1 h
  obtain ⟨hs, hc⟩ := finish_eq_ok hf
  obtain ⟨fed, hr, hfed⟩ := reads_of_run ⟨rfl, rfl⟩ hrun hs
  rw [List.nil_append] at hfed
  exact ⟨s, hrun, hfed ▸ hr, hc⟩

/-! ## What is fed -/

/-- What stands before a marker in a line has no line end. -/
theorem take_marker_no_newline (hl : Complete 10 line ∨ 10 ∉ line) (hd : first doneMarker line = some i) :
    10 ∉ line.take i := by
  rcases hl with ⟨b, hb, rfl⟩ | hl
  · have hi := first_doneMarker_le hd
    simp only [List.length_append, List.length_singleton] at hi
    rw [List.take_append_of_le_length (by omega)]
    exact fun h => hb (List.mem_of_mem_take h)
  · exact fun h => hl (List.mem_of_mem_take h)

/-- **No complete line that is fed is an audit line.** The hypothesis on `held` is what
a turn leaves: a line that another one follows is complete. -/
theorem Reads.fed_lines (h : Reads py blake3 held ls fed) : ∀ {text : Bytes}, ls = lines 10 text →
    (∀ p ∈ held, isAuditEvent p = false ∧ (Complete 10 p ∨ ls = [])) →
    ∃ (ms : List Bytes) (tail : Bytes), fed = ms.flatten ++ tail ∧
      (∀ m ∈ ms, Complete 10 m ∧ isAuditEvent m = false) ∧ 10 ∉ tail := by
  induction h with
  | eof held => exact fun _ _ => ⟨[], [], by simp⟩
  | @stop held line rest i ha hd =>
    intro text hls hheld
    obtain ⟨_, -, hl⟩ := Lines.lines_eq_cons hls.symm
    refine ⟨held.toList, line.take i, ?_, ?_, take_marker_no_newline (hl.imp_right And.left) hd⟩
    · cases held <;> simp
    · intro m hm
      obtain ⟨h1, h2⟩ := hheld m (by simpa using hm)
      exact ⟨h2.resolve_right (by simp), h1⟩
  | @hold held line rest fed ha hd hr ih =>
    intro text hls hheld
    obtain ⟨b, hb, hl⟩ := Lines.lines_eq_cons hls.symm
    obtain ⟨ms, tail, rfl, hms, ht⟩ := ih hb (by
      intro p hp
      cases hp
      exact ⟨ha, hl.imp_right And.right⟩)
    refine ⟨held.toList ++ ms, tail, ?_, ?_, ht⟩
    · cases held <;> simp
    · intro m hm
      rcases List.mem_append.1 hm with hm | hm
      · obtain ⟨h1, h2⟩ := hheld m (by simpa using hm)
        exact ⟨h2.resolve_right (by simp), h1⟩
      · exact hms m hm
  | audit ha hd hb hr ih =>
    intro text hls hheld
    obtain ⟨b, hb, -⟩ := Lines.lines_eq_cons hls.symm
    obtain ⟨c, hc, -⟩ := Lines.lines_eq_cons hb.symm
    obtain ⟨d, hd, -⟩ := Lines.lines_eq_cons hc.symm
    exact ih hd (by simp)

end PiiProxy.VerifyReceipt
