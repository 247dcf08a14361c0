import Mathlib.Data.List.Pairwise
import PiiProxy.Lib.Find

/-!
# Multi-pattern search, earliest end first

The contract of an Aho-Corasick searcher in `Standard` mode: from the end of the last
match on, report the match that ends first; of those ending together the longest, and
of equal patterns the one listed first. Symbols compare through `fold` (for instance
ASCII lowercase).

`Standard` is the contract, `AhoCorasick` a searcher that meets it, `AhoCorasick.scan`
one that can be evaluated. What a streaming caller needs is `Standard.append`: when no
reported match lies across a cut, searching the two parts is searching the whole.
-/

namespace Search

structure Match where
  pattern : Nat
  start : Nat
  stop : Nat
deriving DecidableEq, Repr

/-- The order in which candidates are preferred. -/
def Match.Earlier (m n : Match) : Prop :=
  m.stop < n.stop ∨ m.stop = n.stop ∧ (m.start < n.start ∨ m.start = n.start ∧ m.pattern < n.pattern)

instance (m n : Match) : Decidable (m.Earlier n) := by unfold Match.Earlier; infer_instance

theorem Match.eq_of_not_earlier {m n : Match} (h1 : ¬ m.Earlier n) (h2 : ¬ n.Earlier m) : m = n := by
  obtain ⟨p, a, b⟩ := m
  obtain ⟨q, c, d⟩ := n
  simp only [Earlier] at h1 h2
  simp only [mk.injEq]
  omega

theorem Match.stop_le_of_not_earlier {m n : Match} (h : ¬ m.Earlier n) : n.stop ≤ m.stop := by
  simp only [Earlier] at h
  omega

def Match.shift (k : Nat) (m : Match) : Match := ⟨m.pattern, k + m.start, k + m.stop⟩

@[simp] theorem Match.shift_start (k : Nat) (m : Match) : (m.shift k).start = k + m.start := rfl

@[simp] theorem Match.shift_stop (k : Nat) (m : Match) : (m.shift k).stop = k + m.stop := rfl

@[simp] theorem Match.shift_pattern (k : Nat) (m : Match) : (m.shift k).pattern = m.pattern := rfl

theorem Match.earlier_shift {k : Nat} {m n : Match} : (m.shift k).Earlier (n.shift k) ↔ m.Earlier n := by
  simp only [Earlier, shift_start, shift_stop, shift_pattern]
  omega

theorem Match.exists_shift {k : Nat} {m : Match} (h1 : k ≤ m.start) (h2 : k ≤ m.stop) :
    ∃ n, m = Match.shift k n := by
  refine ⟨⟨m.pattern, m.start - k, m.stop - k⟩, ?_⟩
  simp only [shift, Nat.add_sub_cancel' h1, Nat.add_sub_cancel' h2]

/-! ## The contract -/

section

variable {α : Type} {fold : α → α} {ps : List (List α)} {hay a b : List α} {m n : Match} {frm k : Nat}
  {ms ms' : List Match}

/-- `m` marks a place of `hay` where its pattern stands, up to `fold`. -/
def Occurs (fold : α → α) (ps : List (List α)) (hay : List α) (m : Match) : Prop :=
  ∃ p, ps[m.pattern]? = some p ∧ m.stop = m.start + p.length ∧ m.stop ≤ hay.length ∧
    Find.At (p.map fold) (hay.map fold) m.start

theorem Occurs.stop_le (h : Occurs fold ps hay m) : m.stop ≤ hay.length := by
  obtain ⟨p, _, _, h, _⟩ := h
  exact h

theorem Occurs.start_le (h : Occurs fold ps hay m) : m.start ≤ m.stop := by
  obtain ⟨p, _, h, _, _⟩ := h
  omega

theorem Occurs.start_lt (hne : ∀ p ∈ ps, p ≠ []) (h : Occurs fold ps hay m) : m.start < m.stop := by
  obtain ⟨p, hp, h, _, _⟩ := h
  have := List.length_pos_iff.2 (hne p (List.mem_of_getElem? hp))
  omega

theorem Occurs.pattern_lt (h : Occurs fold ps hay m) : m.pattern < ps.length := by
  obtain ⟨p, hp, _⟩ := h
  exact (List.getElem?_eq_some_iff.1 hp).1

theorem occurs_append_left (h : m.stop ≤ a.length) : Occurs fold ps (a ++ b) m ↔ Occurs fold ps a m := by
  constructor
  · rintro ⟨p, hp, hs, _, hat⟩
    rw [List.map_append, Find.at_append_left (by simp; omega)] at hat
    exact ⟨p, hp, hs, h, hat⟩
  · rintro ⟨p, hp, hs, _, hat⟩
    refine ⟨p, hp, hs, by simp; omega, ?_⟩
    rw [List.map_append, Find.at_append_left (by simp; omega)]
    exact hat

theorem Occurs.left (h : Occurs fold ps a m) : Occurs fold ps (a ++ b) m :=
  (occurs_append_left h.stop_le).2 h

theorem occurs_append_right : Occurs fold ps (a ++ b) (m.shift a.length) ↔ Occurs fold ps b m := by
  have hat : ∀ p : List α, Find.At (p.map fold) ((a ++ b).map fold) (a.length + m.start) ↔
      Find.At (p.map fold) (b.map fold) m.start := by
    intro p
    rw [List.map_append, show a.length = (a.map fold).length by simp, Find.at_append_right]
  simp only [Occurs, Match.shift_pattern, Match.shift_start, Match.shift_stop, hat, List.length_append]
  constructor
  · rintro ⟨p, hp, h1, h2, h3⟩
    exact ⟨p, hp, by omega, by omega, h3⟩
  · rintro ⟨p, hp, h1, h2, h3⟩
    exact ⟨p, hp, by omega, by omega, h3⟩

/-- What a search from offset `frm` reports. -/
inductive Standard (fold : α → α) (ps : List (List α)) (hay : List α) : Nat → List Match → Prop
  | done {frm : Nat} : (∀ m, Occurs fold ps hay m → m.start < frm) → Standard fold ps hay frm []
  | next {frm : Nat} {m : Match} {ms : List Match} : Occurs fold ps hay m → frm ≤ m.start →
    (∀ n, Occurs fold ps hay n → frm ≤ n.start → ¬ n.Earlier m) →
    Standard fold ps hay m.stop ms → Standard fold ps hay frm (m :: ms)

/-- The contract determines the answer. -/
theorem Standard.unique (h : Standard fold ps hay frm ms) (h' : Standard fold ps hay frm ms') : ms = ms' := by
  induction h generalizing ms' with
  | done hno =>
    cases h' with
    | done => rfl
    | next hocc hle _ _ => exact absurd (hno _ hocc) (by omega)
  | next hocc hle hmin _ ih =>
    cases h' with
    | done hno => exact absurd (hno _ hocc) (by omega)
    | next hocc' hle' hmin' h' =>
      obtain rfl := Match.eq_of_not_earlier (hmin' _ hocc hle) (hmin _ hocc' hle')
      rw [ih h']

theorem Standard.mem (h : Standard fold ps hay frm ms) (hm : m ∈ ms) : Occurs fold ps hay m ∧ frm ≤ m.start := by
  induction h with
  | done => simp at hm
  | next hocc hle _ _ ih =>
    rcases List.mem_cons.1 hm with rfl | hm
    · exact ⟨hocc, hle⟩
    · have := hocc.start_le
      exact ⟨(ih hm).1, by have := (ih hm).2; omega⟩

/-- No occurrence inside a reported match ends before it. -/
theorem Standard.minimal (h : Standard fold ps hay frm ms) (hm : m ∈ ms) (hn : Occurs fold ps hay n)
    (hle : m.start ≤ n.start) : m.stop ≤ n.stop := by
  induction h with
  | done => simp at hm
  | @next frm m' ms hocc hfrm hmin hrest ih =>
    rcases List.mem_cons.1 hm with rfl | hm
    · exact Match.stop_le_of_not_earlier (hmin n hn (by omega))
    · exact ih hm

/-! ## Cutting the haystack -/

/-- A search that starts in `b` is a search of `b`. -/
theorem Standard.unshift (h : Standard fold ps (a ++ b) (a.length + frm) ms) :
    ∃ ms', ms = ms'.map (Match.shift a.length) ∧ Standard fold ps b frm ms' := by
  generalize hk : a.length + frm = k at h
  induction h generalizing frm with
  | done hno =>
    refine ⟨[], rfl, .done ?_⟩
    intro m hm
    have := hno _ (occurs_append_right.2 hm)
    simp only [Match.shift_start] at this
    omega
  | @next k m ms hocc hle hmin _ ih =>
    have := hocc.start_le
    obtain ⟨n, rfl⟩ := Match.exists_shift (k := a.length) (m := m) (by omega) (by omega)
    obtain ⟨ms', rfl, h'⟩ := ih rfl
    simp only [Match.shift_start] at hle
    refine ⟨n :: ms', rfl, .next (occurs_append_right.1 hocc) (by omega) (?_) h'⟩
    intro n' hn' hfrm
    rw [← Match.earlier_shift (k := a.length)]
    exact hmin _ (occurs_append_right.2 hn') (by simp only [Match.shift_start]; omega)

/-- **The cut.** When no reported match lies across the end of `a`, the search of `a ++ b`
is the search of `a` and then that of `b`. -/
theorem Standard.append (hne : ∀ p ∈ ps, p ≠ []) (h : Standard fold ps (a ++ b) frm ms) (hfrm : frm ≤ a.length)
    (hcut : ∀ m ∈ ms, ¬ (m.start < a.length ∧ a.length < m.stop)) :
    ∃ ms1 ms2, ms = ms1 ++ ms2.map (Match.shift a.length) ∧ Standard fold ps a frm ms1 ∧
      Standard fold ps b 0 ms2 := by
  generalize hhay : a ++ b = hay at h
  induction h with
  | @done frm hno =>
    subst hhay
    refine ⟨[], [], rfl, .done fun m hm => hno m hm.left, .done ?_⟩
    intro m hm
    have := hno _ (occurs_append_right.2 hm)
    simp only [Match.shift_start] at this
    omega
  | @next frm m ms hocc hle hmin hrest ih =>
    subst hhay
    have hlt := hocc.start_lt hne
    by_cases hstop : m.stop ≤ a.length
    · obtain ⟨ms1, ms2, rfl, h1, h2⟩ := ih hstop (fun n hn => hcut n (by simp [hn]))
      exact ⟨m :: ms1, ms2, rfl,
        .next ((occurs_append_left hstop).1 hocc) hle (fun n hn hfrm => hmin n hn.left hfrm) h1, h2⟩
    · -- the first match is in `b`: nothing of `a` was left to report
      have hstart : a.length ≤ m.start := by
        have := hcut m (by simp)
        omega
      have hb : Standard fold ps (a ++ b) (a.length + 0) (m :: ms) :=
        .next hocc hstart (fun n hn hn' => hmin n hn (by omega)) hrest
      obtain ⟨ms2, hms, h2⟩ := hb.unshift
      refine ⟨[], ms2, hms, .done ?_, h2⟩
      intro n hn
      by_contra hge
      have := hmin n hn.left (by omega)
      have := hn.stop_le
      exact absurd (Match.stop_le_of_not_earlier ‹¬ n.Earlier m›) (by omega)

end

/-! ## Searchers -/

section

variable {α : Type} {fold : α → α} {ps : List (List α)} {hay a b : List α}

/-- Real matches from offset `frm` on, left to right and disjoint. -/
def Spans (fold : α → α) (ps : List (List α)) (hay : List α) : Nat → List Match → Prop
  | _, [] => True
  | frm, m :: ms => Occurs fold ps hay m ∧ frm ≤ m.start ∧ Spans fold ps hay m.stop ms

/-- A searcher for the patterns `ps`. An empty pattern matches everywhere, which the
standard contract leaves out; the matches are real and disjoint in any case. -/
structure AhoCorasick (fold : α → α) (ps : List (List α)) where
  findIter : List α → List Match
  spans : ∀ hay, Spans fold ps hay 0 (findIter hay)
  standard : (∀ p ∈ ps, p ≠ []) → ∀ hay, Standard fold ps hay 0 (findIter hay)

def AhoCorasick.find (ac : AhoCorasick fold ps) (hay : List α) : Option Match := (ac.findIter hay).head?

theorem AhoCorasick.findIter_append (ac : AhoCorasick fold ps) (hne : ∀ p ∈ ps, p ≠ [])
    (hcut : ∀ m ∈ ac.findIter (a ++ b), ¬ (m.start < a.length ∧ a.length < m.stop)) :
    ac.findIter (a ++ b) = ac.findIter a ++ (ac.findIter b).map (Match.shift a.length) := by
  obtain ⟨ms1, ms2, h, h1, h2⟩ := (ac.standard hne (a ++ b)).append hne (Nat.zero_le _) hcut
  rw [h, h1.unique (ac.standard hne a), h2.unique (ac.standard hne b)]

/-! ### A searcher that evaluates -/

/-- Take each candidate that starts late enough. -/
def greedy : Nat → List Match → List Match
  | _, [] => []
  | frm, m :: ms => if frm ≤ m.start then m :: greedy m.stop ms else greedy frm ms

theorem spans_greedy : ∀ {ms : List Match} {frm : Nat}, (∀ m ∈ ms, Occurs fold ps hay m) →
    Spans fold ps hay frm (greedy frm ms)
  | [], _, _ => trivial
  | m :: ms, frm, h => by
    have hms : ∀ n ∈ ms, Occurs fold ps hay n := fun n hn => h n (by simp [hn])
    simp only [greedy]
    split
    · exact ⟨h m (by simp), ‹_›, spans_greedy hms⟩
    · exact spans_greedy hms

/-- On a list that is in order and misses no candidate, taking greedily is the contract. -/
theorem standard_greedy (hne : ∀ p ∈ ps, p ≠ []) : ∀ {ms : List Match} {frm : Nat},
    ms.Pairwise Match.Earlier → (∀ m ∈ ms, Occurs fold ps hay m) →
    (∀ m, Occurs fold ps hay m → frm ≤ m.start → m ∈ ms) → Standard fold ps hay frm (greedy frm ms)
  | [], frm, _, _, hall => .done fun m hm => by
    by_contra hlt
    exact absurd (hall m hm (by omega)) (by simp)
  | m :: ms, frm, hord, hocc, hall => by
    have hrest : ∀ n ∈ ms, Occurs fold ps hay n := fun n hn => hocc n (by simp [hn])
    have hord' := (List.pairwise_cons.1 hord).2
    have hm := hocc m (by simp)
    simp only [greedy]
    split
    · refine .next hm ‹_› (fun n hn hfrm hear => ?_) (standard_greedy hne hord' hrest fun n hn hle => ?_)
      · rcases List.mem_cons.1 (hall n hn hfrm) with rfl | hmem
        · simp only [Match.Earlier] at hear; omega
        · have := (List.pairwise_cons.1 hord).1 n hmem
          simp only [Match.Earlier] at hear this; omega
      · have := hm.start_lt hne
        rcases List.mem_cons.1 (hall n hn (by omega)) with rfl | hmem
        · omega
        · exact hmem
    · refine standard_greedy hne hord' hrest ?_
      intro n hn hle
      rcases List.mem_cons.1 (hall n hn hle) with rfl | hmem
      · omega
      · exact hmem

variable [DecidableEq α]

instance (fold : α → α) (ps : List (List α)) (hay : List α) (m : Match) : Decidable (Occurs fold ps hay m) :=
  match h : ps[m.pattern]? with
  | none => .isFalse (by rintro ⟨p, hp, _⟩; rw [h] at hp; cases hp)
  | some p =>
    decidable_of_iff (m.stop = m.start + p.length ∧ m.stop ≤ hay.length ∧
      Find.At (p.map fold) (hay.map fold) m.start) (by simp [Occurs, h])

/-- All occurrences, in the order of preference. -/
def occurrences (fold : α → α) (ps : List (List α)) (hay : List α) : List Match :=
  (List.range (hay.length + 1)).flatMap fun stop => (List.range (stop + 1)).flatMap fun start =>
    ((List.range ps.length).map fun k => (⟨k, start, stop⟩ : Match)).filter
      fun m => decide (Occurs fold ps hay m)

theorem mem_occurrences {m : Match} : m ∈ occurrences fold ps hay ↔ Occurs fold ps hay m := by
  obtain ⟨k, start, stop⟩ := m
  simp only [occurrences, List.mem_flatMap, List.mem_filter, List.mem_map, List.mem_range,
    Match.mk.injEq, decide_eq_true_eq]
  constructor
  · rintro ⟨_, _, _, _, _, h⟩
    exact h
  · intro h
    have h1 := h.stop_le
    have h2 := h.start_le
    have h3 := h.pattern_lt
    simp only at h1 h2 h3
    exact ⟨stop, by omega, start, by omega, ⟨k, h3, rfl, rfl, rfl⟩, h⟩

theorem pairwise_occurrences : (occurrences fold ps hay).Pairwise Match.Earlier := by
  have hrange : ∀ n, (List.range n).Pairwise (· < ·) := fun n => List.pairwise_lt_range
  refine List.pairwise_flatMap.2 ⟨fun stop _ => List.pairwise_flatMap.2 ⟨fun start _ => ?_, ?_⟩, ?_⟩
  · refine List.Pairwise.filter _ (List.pairwise_map.2 ((hrange _).imp ?_))
    intro i j hij
    simp [Match.Earlier, hij]
  · refine (hrange _).imp ?_
    intro i j hij x hx y hy
    simp only [List.mem_filter, List.mem_map] at hx hy
    obtain ⟨⟨_, _, rfl⟩, _⟩ := hx
    obtain ⟨⟨_, _, rfl⟩, _⟩ := hy
    simp [Match.Earlier, hij]
  · refine (hrange _).imp ?_
    intro i j hij x hx y hy
    simp only [List.mem_flatMap, List.mem_filter, List.mem_map] at hx hy
    obtain ⟨_, _, ⟨_, _, rfl⟩, _⟩ := hx
    obtain ⟨_, _, ⟨_, _, rfl⟩, _⟩ := hy
    simp [Match.Earlier, hij]

/-- Every occurrence listed, then taken greedily. -/
def AhoCorasick.scan (fold : α → α) (ps : List (List α)) : AhoCorasick fold ps where
  findIter hay := greedy 0 (occurrences fold ps hay)
  spans _ := spans_greedy fun _ => mem_occurrences.1
  standard hne _ := standard_greedy hne pairwise_occurrences (fun _ => mem_occurrences.1)
    fun _ hm _ => mem_occurrences.2 hm

end

end Search
