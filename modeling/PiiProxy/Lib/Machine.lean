import Mathlib.Order.Basic

/-!
# Partial step machines

A machine is a partial function from a state and a move to the next state; a run takes a
list of moves. The rules say what a whole run keeps, from what one step does.

* `run_invariant`, `run_keeps` — a predicate of the state, for some moves and for all
* `run_until` — a predicate that holds until some state is met
* `run_forecast` — a value of the state and of the moves still to come
* `run_reaches` — a measure that every step lowers outside some states bounds the way to them
* `run_simulates` — a machine whose steps are runs of another
-/

namespace Machine

variable {σ μ : Type*} {step : σ → μ → Option σ} {s s' : σ} {m : μ} {ms pre post : List μ}

def run (step : σ → μ → Option σ) : σ → List μ → Option σ
  | s, [] => some s
  | s, m :: ms => (step s m).bind fun s => run step s ms

@[simp] theorem run_nil (s : σ) : run step s [] = some s := rfl

theorem run_cons (s : σ) (m : μ) (ms : List μ) :
    run step s (m :: ms) = (step s m).bind fun s => run step s ms := rfl

@[simp] theorem run_singleton (s : σ) (m : μ) : run step s [m] = step s m := Option.bind_fun_some _

theorem run_cons_some : run step s (m :: ms) = some s' ↔ ∃ s₁, step s m = some s₁ ∧ run step s₁ ms = some s' := by
  rw [run_cons, Option.bind_eq_some_iff]

theorem run_append (pre post : List μ) (s : σ) :
    run step s (pre ++ post) = (run step s pre).bind fun s => run step s post := by
  induction pre generalizing s with
  | nil => rfl
  | cons m pre ih =>
    rw [List.cons_append, run_cons, run_cons, Option.bind_assoc]
    exact Option.bind_congr fun s' _ => ih s'

theorem run_append_some (h : run step s pre = some s') : run step s (pre ++ post) = run step s' post := by
  rw [run_append, h, Option.bind_some]

/-- The rule of invariants, for runs whose moves `ok` allows. -/
theorem run_invariant {I : σ → Prop} (ok : μ → Prop) (hstep : ∀ s m s', I s → ok m → step s m = some s' → I s') :
    ∀ {ms s s'}, I s → (∀ m ∈ ms, ok m) → run step s ms = some s' → I s' := by
  intro ms
  induction ms with
  | nil =>
    intro s s' hi _ h
    cases h
    exact hi
  | cons m ms ih =>
    intro s s' hi hok h
    obtain ⟨s₁, h₁, h⟩ := run_cons_some.1 h
    have hi₁ := hstep s m s₁ hi (hok m List.mem_cons_self) h₁
    exact ih hi₁ (fun m hm => hok m (List.mem_cons_of_mem _ hm)) h

/-- The same for all moves. -/
theorem run_keeps {I : σ → Prop} (hstep : ∀ s m s', I s → step s m = some s' → I s') {ms : List μ} {s s' : σ} (hi : I s)
    (h : run step s ms = some s') : I s' :=
  run_invariant (fun _ => True) (fun s m s' hi _ h => hstep s m s' hi h) hi (fun _ _ => trivial) h

/-- The rule of invariants up to an event. What every step from a state outside `Q` keeps holds of the whole run, if
it meets no `Q`; and if it does, of the first state of `Q`. -/
theorem run_until {I Q : σ → Prop} (ok : μ → Prop)
    (hstep : ∀ s m s', I s → ¬ Q s → ok m → step s m = some s' → I s') :
    ∀ {ms s s'}, I s → (∀ m ∈ ms, ok m) → run step s ms = some s' →
      I s' ∧ ¬ Q s' ∨ ∃ pre post s₁, ms = pre ++ post ∧ run step s pre = some s₁ ∧ I s₁ ∧ Q s₁ ∧ run step s₁ post = some s' := by
  intro ms
  induction ms with
  | nil =>
    intro s s' hi _ h
    by_cases hq : Q s
    · exact .inr ⟨[], [], s, rfl, rfl, hi, hq, h⟩
    · cases h
      exact .inl ⟨hi, hq⟩
  | cons m ms ih =>
    intro s s' hi hok h
    by_cases hq : Q s
    · exact .inr ⟨[], m :: ms, s, rfl, rfl, hi, hq, h⟩
    · obtain ⟨s₁, h₁, h⟩ := run_cons_some.1 h
      have hi₁ := hstep s m s₁ hi hq (hok m List.mem_cons_self) h₁
      rcases ih hi₁ (fun m hm => hok m (List.mem_cons_of_mem _ hm)) h with hend | ⟨pre, post, s₂, rfl, hpre, hi₂, hq₂, hpost⟩
      · exact .inl hend
      · exact .inr ⟨m :: pre, post, s₂, rfl, run_cons_some.2 ⟨s₁, h₁, hpre⟩, hi₂, hq₂, hpost⟩

/-- The rule of forecasts. A value that is read off the state and the moves to come, and that no step changes,
is at the start of a run what it is at its end. -/
theorem run_forecast {τ : Type*} {F : σ → List μ → τ} (ok : μ → Prop)
    (hstep : ∀ s m s' ms, ok m → step s m = some s' → F s (m :: ms) = F s' ms) :
    ∀ {ms s s'}, (∀ m ∈ ms, ok m) → run step s ms = some s' → F s ms = F s' [] := by
  intro ms
  induction ms with
  | nil =>
    intro s s' _ h
    cases h
    rfl
  | cons m ms ih =>
    intro s s' hok h
    obtain ⟨s₁, h₁, h⟩ := run_cons_some.1 h
    rw [hstep s m s₁ ms (hok m List.mem_cons_self) h₁]
    exact ih (fun m hm => hok m (List.mem_cons_of_mem _ hm)) h

/-- A run with more moves than the work to do comes to a state of `rest`. -/
theorem run_reaches {work : σ → Nat} {rest : σ → Prop} (hstep : ∀ s m s', ¬ rest s → step s m = some s' → work s' < work s) :
    ∀ {ms s s'}, run step s ms = some s' → work s < ms.length →
      ∃ pre post s₁, ms = pre ++ post ∧ pre.length ≤ work s ∧ run step s pre = some s₁ ∧ rest s₁ := by
  intro ms
  induction ms with
  | nil =>
    intro s s' _ hlt
    exact absurd hlt (Nat.not_lt_zero _)
  | cons m ms ih =>
    intro s s' h hlt
    by_cases hr : rest s
    · exact ⟨[], m :: ms, s, rfl, Nat.zero_le _, rfl, hr⟩
    · obtain ⟨s₁, h₁, h⟩ := run_cons_some.1 h
      have hw := hstep s m s₁ hr h₁
      rw [List.length_cons] at hlt
      obtain ⟨pre, post, s₂, rfl, hlen, h₂, hr₂⟩ := ih h (by omega)
      refine ⟨m :: pre, post, s₂, rfl, ?_, run_cons_some.2 ⟨s₁, h₁, h₂⟩, hr₂⟩
      rw [List.length_cons]
      omega

/-- The rule of simulations. If each step is matched by a run of a second machine that shows the same, so is each run;
and where the steps to a `clean` state begin in one and are matched by `good` moves, so is the run to one. -/
theorem run_simulates {τ ν ο : Type*} {step' : τ → ν → Option τ} {R : σ → τ → Prop} {shows : μ → List ο}
    {shows' : ν → List ο} {clean : σ → Prop} {good : ν → Prop}
    (hstep : ∀ s m s' t, R s t → step s m = some s' → ∃ ns t', run step' t ns = some t' ∧ R s' t' ∧
      ns.flatMap shows' = shows m ∧ (clean s' → clean s ∧ ∀ n ∈ ns, good n)) :
    ∀ {ms s s' t}, R s t → run step s ms = some s' → ∃ ns t', run step' t ns = some t' ∧ R s' t' ∧
      ns.flatMap shows' = ms.flatMap shows ∧ (clean s' → clean s ∧ ∀ n ∈ ns, good n) := by
  intro ms
  induction ms with
  | nil =>
    intro s s' t hR h
    cases h
    exact ⟨[], t, rfl, hR, rfl, fun hc => ⟨hc, by simp⟩⟩
  | cons m ms ih =>
    intro s s' t hR h
    obtain ⟨s₁, h₁, h⟩ := run_cons_some.1 h
    obtain ⟨ns₁, t₁, hrun₁, hR₁, hshows₁, hclean₁⟩ := hstep s m s₁ t hR h₁
    obtain ⟨ns, t', hrun, hR', hshows, hclean⟩ := ih hR₁ h
    refine ⟨ns₁ ++ ns, t', ?_, hR', ?_, ?_⟩
    · rw [run_append_some hrun₁]
      exact hrun
    · rw [List.flatMap_append, hshows₁, hshows]
      rfl
    · intro hc
      obtain ⟨hc₁, hgood⟩ := hclean hc
      obtain ⟨hc₀, hgood₁⟩ := hclean₁ hc₁
      refine ⟨hc₀, fun n hn => ?_⟩
      rcases List.mem_append.1 hn with hn | hn
      · exact hgood₁ n hn
      · exact hgood n hn

end Machine
