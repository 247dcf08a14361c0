import PiiProxy.RedactorRuns

/-!
# What a run emits tiles its input

Whatever the chunks, the tokens of a run stand for consecutive pieces of the text: a
byte for itself, a mark for an occurrence of its pattern (`run_tiles`). So bytes that
are next to one another in the output were next to one another in the text, and a
stretch no occurrence touches comes out as it was.
-/

namespace PiiProxy

open Utf8 (encode)
open Search (Match)

inductive Tiles (state : EngineState) : Bytes → List Token → Prop
  | nil : Tiles state [] []
  | byte {b : UInt8} {w : Bytes} {ts : List Token} : Tiles state w ts → Tiles state (b :: w) (.byte b :: ts)
  | mark {k : Nat} {p : String} {w w' : Bytes} {ts : List Token} : state.patterns[k]? = some p →
    w.map asciiLower = (encode p).map asciiLower → Tiles state w' ts →
    Tiles state (w ++ w') (.mark (state.replacements.getD k []) :: ts)

section

variable {state : EngineState} {a b w l l1 l2 : Bytes} {ts ts1 ts2 : List Token}

theorem Tiles.append (h1 : Tiles state a ts1) (h2 : Tiles state b ts2) : Tiles state (a ++ b) (ts1 ++ ts2) := by
  induction h1 with
  | nil => exact h2
  | byte _ ih => exact .byte ih
  | mark hk hw _ ih =>
    rw [List.append_assoc]
    exact .mark hk hw ih

theorem tiles_bytes (state : EngineState) : ∀ w : Bytes, Tiles state w (w.map .byte)
  | [] => .nil
  | _ :: w => .byte (tiles_bytes state w)

/-- Cutting the tokens cuts the text. -/
theorem Tiles.split : ∀ {ts1 : List Token} {l : Bytes}, Tiles state l (ts1 ++ ts2) →
    ∃ l1 l2, l = l1 ++ l2 ∧ Tiles state l1 ts1 ∧ Tiles state l2 ts2
  | [], l, h => ⟨[], l, rfl, .nil, h⟩
  | t :: ts1, l, h => by
    cases h with
    | @byte b w _ h =>
      obtain ⟨l1, l2, rfl, h1, h2⟩ := Tiles.split h
      exact ⟨b :: l1, l2, rfl, .byte h1, h2⟩
    | mark hk hw h =>
      obtain ⟨l1, l2, rfl, h1, h2⟩ := Tiles.split h
      exact ⟨_, l2, (List.append_assoc _ _ _).symm, .mark hk hw h1, h2⟩

theorem Tiles.eq_bytes : ∀ {w l : Bytes}, Tiles state l (w.map .byte) → l = w
  | [], l, h => by cases h; rfl
  | b :: w, l, h => by
    cases h with
    | byte h => rw [Tiles.eq_bytes h]

/-- The piece under a mark is an occurrence. -/
theorem occurs_head {k : Nat} {p : String} (hk : state.patterns[k]? = some p)
    (hw : w.map asciiLower = (encode p).map asciiLower) :
    Search.Occurs asciiLower (state.patterns.map encode) (w ++ l) ⟨k, 0, w.length⟩ := by
  have hlen : w.length = (encode p).length := by simpa using congrArg List.length hw
  refine ⟨encode p, by simp [hk], by simp [hlen], by simp, ?_⟩
  rw [Find.at_zero, List.map_append, hw]
  exact List.prefix_append _ _

theorem occurs_cons {x : UInt8} {m : Match} (h : Search.Occurs asciiLower (state.patterns.map encode) l m) :
    Search.Occurs asciiLower (state.patterns.map encode) (x :: l) (m.shift 1) :=
  (Search.occurs_append_right (a := [x])).2 h

/-- **Untouched in front**: no occurrence starts in `l1`, so `l1` comes out as it is. -/
theorem Tiles.front (h : Tiles state (l1 ++ l2) ts)
    (hno : ∀ m, Search.Occurs asciiLower (state.patterns.map encode) (l1 ++ l2) m → l1.length ≤ m.start) :
    ∃ ts', ts = l1.map .byte ++ ts' := by
  generalize hl : l1 ++ l2 = l at h
  induction h generalizing l1 with
  | nil =>
    obtain ⟨rfl, -⟩ := List.append_eq_nil_iff.1 hl
    exact ⟨[], rfl⟩
  | @byte b w ts _ ih =>
    cases l1 with
    | nil => exact ⟨_, rfl⟩
    | cons x l1 =>
      simp only [List.cons_append, List.cons.injEq] at hl
      obtain ⟨rfl, rfl⟩ := hl
      obtain ⟨ts', rfl⟩ := ih (fun m hm => by
        have := hno (m.shift 1) (occurs_cons hm)
        simp only [List.length_cons, Match.shift_start] at this
        omega) rfl
      exact ⟨ts', rfl⟩
  | mark hk hw _ _ =>
    cases l1 with
    | nil => exact ⟨_, rfl⟩
    | cons x l1 =>
      have := hno _ (hl ▸ occurs_head hk hw)
      simp at this

theorem Tiles.untouched (h : Tiles state l ts)
    (hno : ∀ m, ¬ Search.Occurs asciiLower (state.patterns.map encode) l m) : ts = l.map .byte := by
  induction h with
  | nil => rfl
  | byte _ ih => rw [List.map_cons, ih fun m hm => hno _ (occurs_cons hm)]
  | mark hk hw _ _ => exact absurd (occurs_head hk hw) (hno _)

/-- **Untouched at the back**: no occurrence ends in `l2`. -/
theorem Tiles.back (hne : ∀ p ∈ state.patterns, p ≠ "") (h : Tiles state (l1 ++ l2) ts)
    (hno : ∀ m, Search.Occurs asciiLower (state.patterns.map encode) (l1 ++ l2) m → m.stop ≤ l1.length) :
    ∃ ts', ts = ts' ++ l2.map .byte := by
  generalize hl : l1 ++ l2 = l at h hno
  induction h generalizing l1 with
  | nil =>
    obtain ⟨-, rfl⟩ := List.append_eq_nil_iff.1 hl
    exact ⟨[], rfl⟩
  | @byte b w ts h ih =>
    cases l1 with
    | nil =>
      refine ⟨[], ?_⟩
      rw [List.nil_append] at hl
      rw [hl]
      refine (Tiles.byte h).untouched ?_
      intro m hm
      have h1 := hno m hm
      have h2 := hm.start_lt (patterns_ne hne)
      simp only [List.length_nil] at h1
      omega
    | cons x l1 =>
      simp only [List.cons_append, List.cons.injEq] at hl
      obtain ⟨rfl, rfl⟩ := hl
      obtain ⟨ts', rfl⟩ := ih rfl fun m hm => by
        have := hno (m.shift 1) (occurs_cons hm)
        simp only [List.length_cons, Match.shift_stop] at this
        omega
      exact ⟨.byte x :: ts', rfl⟩
  | @mark k p w w' ts hk hw _ ih =>
    have hle := hno _ (occurs_head hk hw)
    obtain ⟨l1', rfl⟩ : ∃ l1', l1 = w ++ l1' := by
      have hp : w <+: l1 := List.prefix_of_prefix_length_le (List.prefix_append w w')
        (hl ▸ List.prefix_append l1 l2) hle
      exact hp.imp fun _ h => h.symm
    rw [List.append_assoc, List.append_cancel_left_eq] at hl
    subst hl
    obtain ⟨ts', rfl⟩ := ih rfl fun m hm => by
      have := hno (m.shift w.length) (Search.occurs_append_right.2 hm)
      simp only [List.length_append, Match.shift_stop] at this
      omega
    exact ⟨_ :: ts', rfl⟩

/-- A byte that stands in no pattern comes out, and cuts the tokens as it cuts the text. -/
theorem Tiles.split_byte {x : UInt8} (hx : ∀ p ∈ state.patterns, asciiLower x ∉ (encode p).map asciiLower)
    (h : Tiles state (l1 ++ x :: l2) ts) :
    ∃ ts1 ts2, ts = ts1 ++ .byte x :: ts2 ∧ Tiles state l1 ts1 ∧ Tiles state l2 ts2 := by
  generalize hl : l1 ++ x :: l2 = l at h
  induction h generalizing l1 with
  | nil => simp at hl
  | @byte b w ts h ih =>
    cases l1 with
    | nil =>
      simp only [List.nil_append, List.cons.injEq] at hl
      obtain ⟨rfl, rfl⟩ := hl
      exact ⟨[], ts, rfl, .nil, h⟩
    | cons y l1 =>
      simp only [List.cons_append, List.cons.injEq] at hl
      obtain ⟨rfl, rfl⟩ := hl
      obtain ⟨ts1, ts2, rfl, h1, h2⟩ := ih rfl
      exact ⟨.byte y :: ts1, ts2, rfl, .byte h1, h2⟩
  | @mark k p w w' ts hk hw h ih =>
    rcases List.append_eq_append_iff.1 hl with ⟨a, rfl, ha⟩ | ⟨a, rfl, ha⟩
    · cases a with
      | nil =>
        obtain ⟨ts1, ts2, rfl, h1, h2⟩ := @ih [] ha
        exact ⟨_ :: ts1, ts2, rfl, by simpa using Tiles.mark hk hw h1, h2⟩
      | cons y a =>
        -- the byte would be inside an occurrence
        simp only [List.cons_append, List.cons.injEq] at ha
        refine absurd ?_ (hx p (List.mem_of_getElem? hk))
        rw [← hw, List.map_append, List.map_cons, ha.1]
        simp
    · obtain ⟨ts1, ts2, rfl, h1, h2⟩ := ih ha.symm
      exact ⟨_ :: ts1, ts2, rfl, .mark hk hw h1, h2⟩

theorem Tiles.mark_mem (ha : state.Aligned) (h : Tiles state l ts) {r : Bytes} (hr : .mark r ∈ ts) :
    r ∈ state.replacements := by
  induction h with
  | nil => simp at hr
  | byte _ ih => exact ih (by simpa using hr)
  | @mark k p w w' ts hk _ _ ih =>
    rcases List.mem_cons.1 hr with hr | hr
    · have hlt : k < state.replacements.length := ha ▸ (List.getElem?_eq_some_iff.1 hk).1
      simp only [Token.mark.injEq] at hr
      rw [hr, List.getD_eq_getElem?_getD, List.getElem?_eq_getElem hlt]
      exact List.getElem_mem hlt
    · exact ih hr

theorem tiles_tokensFrom {hay : Bytes} : ∀ (ms : List Match) (last : Nat),
    Search.Spans asciiLower (state.patterns.map encode) hay last ms →
    Tiles state (hay.drop last) (tokensFrom state hay last ms)
  | [], last, _ => tiles_bytes state _
  | m :: ms, last, ⟨hocc, hlast, hrest⟩ => by
    have ih := tiles_tokensFrom ms m.stop hrest
    have hstart := hocc.start_le
    obtain ⟨q, hq, hs, hle, hat⟩ := hocc
    rw [List.getElem?_map, Option.map_eq_some_iff] at hq
    obtain ⟨p, hp, rfl⟩ := hq
    have hw := hat.take_eq
    rw [List.length_map, ← List.map_drop, ← List.map_take] at hw
    have hsplit : hay.drop last = (hay.take m.start).drop last ++
        ((hay.drop m.start).take (encode p).length ++ hay.drop m.stop) := by
      rw [hs, ← List.drop_drop, List.take_append_drop, ← List.drop_append_of_le_length (by simp; omega),
        List.take_append_drop]
    rw [hsplit, tokensFrom]
    exact (tiles_bytes state _).append (.mark hp hw ih)

theorem tiles_redact (state : EngineState) (hay : Bytes) : Tiles state hay (state.redact hay) :=
  tiles_tokensFrom _ 0 (state.ac.spans hay)

end

/-- **A run tiles its input.** -/
theorem run_tiles : ∀ {chunks : List Bytes} {r : StreamRedactor} {segs : List OutputSegment}
    (_ : r.state.Aligned) (_ : r.redactChunks chunks = .ok segs),
    Tiles r.state (r.pending ++ chunks.flatten) (tokens segs)
  | [], r, segs, ha, hr => by
    obtain ⟨r', hf⟩ := StreamRedactor.redactChunks_nil_ok hr
    rw [List.flatten_nil, List.append_nil]
    rcases finish_ok ha hf with ⟨hp, rfl⟩ | ⟨_, rfl⟩
    · rw [hp]
      exact .nil
    · rw [tokens_segments]
      exact tiles_redact _ _
  | c :: cs, r, segs, ha, hr => by
    obtain ⟨out, r1, rest, hp, hr1, rfl⟩ := StreamRedactor.redactChunks_cons_ok hr
    have pushed := push_ok ha hp
    have hst := pushed.state_eq
    have ih := run_tiles (by rw [hst]; exact ha) hr1
    rw [hst] at ih
    rw [tokens_append, List.flatten_cons]
    by_cases hc : c = []
    · obtain ⟨rfl, rfl⟩ := pushed.idle hc
      simpa [hc, tokens] using ih
    · rw [pushed.pending_eq hc] at ih
      rw [pushed.out_eq hc, tokens_segments, ← List.append_assoc,
        ← List.take_append_drop (r.state.cut (r.pending ++ c)) (r.pending ++ c), List.append_assoc]
      rw [List.take_append_drop]
      exact (tiles_redact _ _).append ih

end PiiProxy
