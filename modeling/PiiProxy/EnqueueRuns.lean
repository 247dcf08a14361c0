import PiiProxy.BudgetBounds

/-!
# Enqueue calls against one body

| here | there |
| --- | --- |
| `EnqueueError`        | `EnqueueError` (budget_queue.rs:217) |
| `Channel`, `Event`    | one producer that calls `enqueue` (budget_queue.rs:197) again and again, the channel, and the `BudgetedBody` |
| `Channel.step`        | the call up to its next await, its cancellation by `enqueue_with_timeout` (lib.rs:930), and the body's moves |
| `Stream.polls`        | one `poll_frame` (budget_queue.rs:249) after another |

A call runs from one await to the next: it reserves a slice, or it sends the slice it
holds. Between two moves the other streams of the process may do anything to the budgets.

* `queue_integrity` — delivered and queued bytes are prefixes of the calls' bytes, in order
-/

namespace PiiProxy.BudgetQueue

inductive EnqueueError where
  /-- The five seconds are over. -/
  | capacity
  | budget (e : BudgetError)
  | closed
deriving DecidableEq, Repr

structure Channel where
  mem : Memory
  stream : Stream
  /-- The call that is running: its bytes, and the slices it has not sent. -/
  running : Option (Bytes × List Bytes)
  /-- The calls that are over, with what they returned. -/
  returned : List (Bytes × Except EnqueueError Unit)
  /-- The frames the body has given. -/
  frames : List Bytes
  /-- What was queued when the body was dropped. -/
  dropped : List Bytes

inductive Event where
  | call (bytes : Bytes)
  | reserve
  | send
  | cancel
  | poll
  | dropBody
  /-- The last sender is dropped. -/
  | finish
  /-- The other streams. -/
  | others (mem : Memory)

def Channel.open (mem : Memory) (tenant : TenantId) (budget : ByteBudget) : Channel :=
  ⟨mem, .open tenant budget, none, [], [], []⟩

/-- The data of a frame. -/
def Poll.frame : Poll (Option Bytes) → List Bytes
  | .ready (some bytes) => [bytes]
  | _ => []

/-- Everything a poll can do: the body has ended; it gives the next segment; it sees the end; or it
waits. -/
theorem Stream.pollFrame_eq (m : Memory) (st : Stream) :
    (st.ended = true ∧ st.pollFrame m = (m, st, .ready none)) ∨
    (st.ended = false ∧ ∃ mem,
      (∃ seg queue, st.queue = seg :: queue ∧
        st.pollFrame m = (mem, { st with inFlight := some seg, queue := queue }, .ready (some seg.bytes))) ∨
      (st.queue = [] ∧ st.finished = true ∧
        st.pollFrame m = (mem, { st with inFlight := none, ended := true }, .ready none)) ∨
      (st.queue = [] ∧ st.finished = false ∧
        st.pollFrame m = (mem, { st with inFlight := none }, .pending))) := by
  unfold Stream.pollFrame
  cases he : st.ended with
  | true => exact Or.inl ⟨rfl, if_pos rfl⟩
  | false =>
    refine Or.inr ⟨rfl, m.dropSegments st.inFlight.toList, ?_⟩
    cases hq : st.queue with
    | cons seg queue => exact Or.inl ⟨seg, queue, rfl, rfl⟩
    | nil => cases hf : st.finished with
      | true => exact Or.inr (Or.inl ⟨rfl, rfl, rfl⟩)
      | false => exact Or.inr (Or.inr ⟨rfl, rfl, rfl⟩)

namespace Channel

/-- The call is over. -/
def done (s : Channel) (bytes : Bytes) (result : Except EnqueueError Unit) : Channel :=
  { s with running := none, returned := s.returned ++ [(bytes, result)] }

/-- A move of the stream. -/
def move (s : Channel) (mv : StreamMove) : Option Channel :=
  (s.stream.step s.mem mv).map fun (mem, stream) => { s with mem := mem, stream := stream }

/-- A slice was sent; the call goes on with the next or returns. -/
def sent (s : Channel) (bytes : Bytes) (left : List Bytes) : Channel :=
  if left = [] then s.done bytes (.ok ()) else { s with running := some (bytes, left) }

def step (s : Channel) : Event → Option Channel
  | .call bytes =>
    if s.stream.finished ∨ s.running.isSome then none
    else if bytes = [] then some (s.done bytes (.ok ()))
    else some { s with running := some (bytes, slices s.stream.budget.capacity bytes) }
  | .reserve => match s.running with
    | some (bytes, piece :: _) =>
      if s.stream.reserved ≠ [] then none
      else match (s.mem.reserve s.stream.budget piece).1 with
        | .ok _ => s.move (.reserve piece)
        | .error e => (s.move (.reserve piece)).map (·.done bytes (.error (.budget e)))
    | _ => none
  | .send => match s.running with
    | some (bytes, _ :: left) =>
      -- The error holds the segment, and the caller drops it.
      if s.stream.closed then (s.move (.discard 0)).map (·.done bytes (.error .closed))
      else (s.move (.send 0)).map (·.sent bytes left)
    | _ => none
  | .cancel => match s.running with
    | none => none
    | some (bytes, _) =>
      -- A segment in the future is dropped with it.
      some (((s.move (.discard 0)).getD s).done bytes (.error .capacity))
  | .poll =>
    if s.stream.closed then none
    else
      let (mem, stream, poll) := s.stream.pollFrame s.mem
      some { s with mem := mem, stream := stream, frames := s.frames ++ poll.frame }
  | .dropBody => (s.move .dropBody).map fun s' => { s' with dropped := s.stream.queue.map (·.bytes) }
  | .finish => if s.running.isSome then none else s.move .finish
  | .others mem => some { s with mem := mem }

def run : Channel → List Event → Option Channel := Machine.run step

/-- Every call, with what it returned if it is over. -/
def calls (s : Channel) : List (Bytes × Option (Except EnqueueError Unit)) :=
  s.returned.map (fun c => (c.1, some c.2)) ++ s.running.toList.map fun c => (c.1, none)

/-- The bytes of the segments still queued. -/
def queued (s : Channel) : List Bytes := s.stream.queue.map (·.bytes)

/-! ## The invariant -/

/-- What a call has put on the channel, against what it returned. -/
def Keeps (c : Bytes × Option (Except EnqueueError Unit)) (sent : Bytes) : Prop :=
  sent <+: c.1 ∧ (c.2 = some (.ok ()) → sent = c.1)

/-- Bytes put on the channel, in order: a prefix of each call that is over, then what the running
call has sent. -/
def Content (returned : List (Bytes × Except EnqueueError Unit)) (running : Option (Bytes × List Bytes))
    (out : Bytes) : Prop :=
  ∃ (ps : List Bytes) (p : Bytes), List.Forall₂ (fun c sent => Keeps (c.1, some c.2) sent) returned ps ∧
    (∀ bytes left, running = some (bytes, left) → p ++ left.flatten = bytes) ∧ (running = none → p = []) ∧
    out = ps.flatten ++ p

structure Integrity (budget : ByteBudget) (s : Channel) : Prop where
  budget_eq : s.stream.budget = budget
  /-- A segment is held only by the call that is running, and it is its next slice. -/
  reserved : s.stream.reserved = [] ∨
    ∃ seg bytes left, s.stream.reserved = [seg] ∧ s.running = some (bytes, seg.bytes :: left)
  pieces : ∀ bytes left, s.running = some (bytes, left) →
    left ≠ [] ∧ ∀ piece ∈ left, piece ≠ [] ∧ piece.length ≤ budget.capacity
  content : Content s.returned s.running (s.frames.flatten ++ s.dropped.flatten ++ s.queued.flatten)
  sizes : ∀ f ∈ s.frames ++ s.dropped ++ s.queued, f ≠ [] ∧ f.length ≤ budget.capacity
  closed : s.stream.closed = true → s.stream.queue = []
  opened : s.stream.closed = false → s.dropped = []
  ended : s.stream.ended = true → s.stream.queue = [] ∧ s.stream.finished = true
  finished : s.stream.finished = true → s.running = none

variable {budget : ByteBudget} {s s' : Channel} {returned : List (Bytes × Except EnqueueError Unit)}
  {bytes out piece : Bytes} {left : List Bytes} {seg : BudgetedSegment}

theorem integrity_open (mem : Memory) (tenant : TenantId) (budget : ByteBudget) :
    Integrity budget (.open mem tenant budget) where
  budget_eq := rfl
  reserved := Or.inl rfl
  pieces := by simp [Channel.open]
  content := ⟨[], [], .nil, by simp [Channel.open], by simp, by simp [Channel.open, queued, Stream.open]⟩
  sizes := by simp [Channel.open, queued, Stream.open]
  closed := by simp [Channel.open, Stream.open]
  opened := by simp [Channel.open]
  ended := by simp [Channel.open, Stream.open]
  finished := by simp [Channel.open, Stream.open]

/-! ## What a call adds -/

theorem Content.start (h : Content returned none out) (hl : left.flatten = bytes) :
    Content returned (some (bytes, left)) out := by
  obtain ⟨ps, p, hps, -, hnone, ho⟩ := h
  refine ⟨ps, p, hps, ?_, by simp, ho⟩
  intro b l hbl
  rw [Option.some.injEq, Prod.mk.injEq] at hbl
  rw [hnone rfl, List.nil_append, ← hbl.1, ← hbl.2]
  exact hl

theorem Content.send (h : Content returned (some (bytes, piece :: left)) out) :
    Content returned (some (bytes, left)) (out ++ piece) := by
  obtain ⟨ps, p, hps, hrun, -, ho⟩ := h
  refine ⟨ps, p ++ piece, hps, ?_, by simp, by rw [ho, List.append_assoc]⟩
  intro b l hbl
  rw [Option.some.injEq, Prod.mk.injEq] at hbl
  have hp := hrun bytes (piece :: left) rfl
  rw [List.flatten_cons] at hp
  rw [← hbl.1, ← hbl.2, List.append_assoc]
  exact hp

/-- A call ends; if it returns `Ok`, it has sent everything. -/
theorem Content.over {result : Except EnqueueError Unit} (h : Content returned (some (bytes, left)) out)
    (hok : result = .ok () → left = []) : Content (returned ++ [(bytes, result)]) none out := by
  obtain ⟨ps, p, hps, hrun, -, ho⟩ := h
  have hp := hrun bytes left rfl
  refine ⟨ps ++ [p], [], ?_, by simp, by simp, by simp [ho]⟩
  refine List.rel_append hps (.cons ⟨⟨left.flatten, hp⟩, ?_⟩ .nil)
  intro hr
  have hleft := hok (Option.some.inj hr)
  rw [hleft] at hp
  simpa using hp

theorem Content.empty (h : Content returned none out) : Content (returned ++ [([], .ok ())]) none out := by
  have hstart : Content returned (some ([], [])) out := h.start rfl
  exact hstart.over fun _ => rfl

/-! ## What a move does -/

theorem move_reserve (h : s.move (.reserve piece) = some s') :
    (∃ seg mem, (s.mem.reserve s.stream.budget piece).1 = .ok seg ∧ seg.bytes = piece ∧
      s' = { s with mem := mem, stream := { s.stream with reserved := s.stream.reserved ++ [seg] } }) ∨
    ∃ e mem, (s.mem.reserve s.stream.budget piece).1 = .error e ∧ s' = { s with mem := mem } := by
  obtain ⟨⟨mem, stream⟩, hstep, rfl⟩ := Option.map_eq_some_iff.1 h
  simp only [Stream.step] at hstep
  split at hstep
  · cases hstep
  · rcases s.mem.reserve_cases s.stream.budget piece with ⟨seg, pools₁, pools₂, hr, hb, -⟩ | ⟨e, hr⟩
    · rw [hr] at hstep
      cases hstep
      exact Or.inl ⟨seg, _, by rw [hr], hb, rfl⟩
    · rw [hr] at hstep
      cases hstep
      exact Or.inr ⟨e, _, by rw [hr], rfl⟩

theorem move_discard (h : s.move (.discard 0) = some s') :
    ∃ mem, s' = { s with mem := mem, stream := { s.stream with reserved := s.stream.reserved.eraseIdx 0 } } := by
  obtain ⟨⟨mem, stream⟩, hstep, rfl⟩ := Option.map_eq_some_iff.1 h
  simp only [Stream.step] at hstep
  split at hstep
  · cases hstep
  · cases hstep
    exact ⟨_, rfl⟩

theorem move_send (hc : s.stream.closed = false) (h : s.move (.send 0) = some s') :
    ∃ seg rest, s.stream.reserved = seg :: rest ∧ s.stream.finished = false ∧
      s' = { s with stream := { s.stream with reserved := rest, queue := s.stream.queue ++ [seg] } } := by
  obtain ⟨⟨mem, stream⟩, hstep, rfl⟩ := Option.map_eq_some_iff.1 h
  simp only [Stream.step, hc] at hstep
  split at hstep
  · cases hstep
  · rename_i hfin
    cases hres : s.stream.reserved with
    | nil => simp [hres] at hstep
    | cons seg rest =>
      simp only [hres, List.getElem?_cons_zero, Bool.false_eq_true, if_false, List.eraseIdx_zero,
        List.tail_cons] at hstep
      split at hstep
      · cases hstep
        exact ⟨seg, rest, rfl, by simpa using hfin, by simp only [hc]⟩
      · cases hstep

theorem move_dropBody (h : s.move .dropBody = some s') : s.stream.closed = false ∧
    ∃ mem, s' = { s with
      mem := mem, stream := { s.stream with queue := [], inFlight := none, closed := true } } := by
  obtain ⟨⟨mem, stream⟩, hstep, rfl⟩ := Option.map_eq_some_iff.1 h
  simp only [Stream.step] at hstep
  split at hstep
  · cases hstep
  · rename_i hc
    cases hstep
    exact ⟨by simpa using hc, _, rfl⟩

theorem move_finish (h : s.move .finish = some s') :
    ∃ mem, s' = { s with mem := mem, stream := { s.stream with reserved := [], finished := true } } := by
  obtain ⟨⟨mem, stream⟩, hstep, rfl⟩ := Option.map_eq_some_iff.1 h
  simp only [Stream.step] at hstep
  split at hstep
  · cases hstep
  · cases hstep
    exact ⟨_, rfl⟩

/-! ## One event -/

theorem Integrity.discard (h : Integrity budget s) (hr : s.running = some (bytes, left)) (mem : Memory)
    {reserved : List BudgetedSegment} (hres : reserved = []) {result : Except EnqueueError Unit}
    (hok : result = .ok () → left = []) :
    Integrity budget ({ s with mem := mem, stream := { s.stream with reserved := reserved } }.done bytes result) where
  budget_eq := h.budget_eq
  reserved := Or.inl hres
  pieces := by simp [done]
  content := by
    have hc := h.content
    rw [hr] at hc
    exact hc.over hok
  sizes := h.sizes
  closed := h.closed
  opened := h.opened
  ended := h.ended
  finished := by simp [done]

/-- At most one segment is held. -/
theorem Integrity.erase_reserved (h : Integrity budget s) : s.stream.reserved.eraseIdx 0 = [] := by
  rcases h.reserved with hres | ⟨seg, _, _, hres, -⟩
  · simp [hres]
  · simp [hres]

theorem call_integrity (h : Integrity budget s) (he : s.step (.call bytes) = some s') : Integrity budget s' := by
  simp only [step] at he
  split at he
  · cases he
  · rename_i hidle
    have hrun : s.running = none := by
      cases hr : s.running with
      | none => rfl
      | some c => simp [hr] at hidle
    have hres : s.stream.reserved = [] := by
      rcases h.reserved with hres | ⟨_, _, _, -, hr⟩
      · exact hres
      · rw [hrun] at hr
        cases hr
    have hc := h.content
    rw [hrun] at hc
    split at he
    · rename_i hb
      cases he
      subst hb
      exact ⟨h.budget_eq, Or.inl hres, by simp [done], hc.empty, h.sizes, h.closed, h.opened, h.ended, by simp [done]⟩
    · rename_i hb
      cases he
      obtain ⟨hflat, hpieces⟩ := flatten_slices s.stream.budget.capacity_pos bytes
      refine ⟨h.budget_eq, Or.inl hres, ?_, hc.start hflat, h.sizes, h.closed, h.opened, h.ended, ?_⟩
      · intro b l hbl
        rw [Option.some.injEq, Prod.mk.injEq] at hbl
        rw [← hbl.2, ← h.budget_eq]
        refine ⟨?_, hpieces⟩
        intro hnil
        rw [hnil] at hflat
        exact hb hflat.symm
      · intro hf
        exact absurd (Or.inl hf) hidle

theorem reserve_integrity (h : Integrity budget s) (he : s.step .reserve = some s') : Integrity budget s' := by
  simp only [step] at he
  split at he
  · rename_i bytes piece left hr
    split at he
    · cases he
    · rename_i hres
      push Not at hres
      split at he
      · rename_i seg hok
        rcases move_reserve he with ⟨seg', mem, hok', hseg, rfl⟩ | ⟨e, mem, herr, rfl⟩
        · refine ⟨h.budget_eq, Or.inr ⟨seg', bytes, left, ?_, ?_⟩, h.pieces, h.content, h.sizes, h.closed, h.opened,
            h.ended, h.finished⟩
          · simp [hres]
          · rw [hseg]
            exact hr
        · rw [hok] at herr
          cases herr
      · rename_i e herr
        obtain ⟨s₁, hmove, rfl⟩ := Option.map_eq_some_iff.1 he
        rcases move_reserve hmove with ⟨seg', mem, hok', -, rfl⟩ | ⟨e', mem, -, rfl⟩
        · rw [herr] at hok'
          cases hok'
        · exact h.discard hr mem hres (by simp)
  · cases he

/-- The held slice goes to the end of the queue. -/
theorem Integrity.send (h : Integrity budget s) {rest : List BudgetedSegment} (hr : s.running = some (bytes, piece :: left))
    (hres : s.stream.reserved = seg :: rest) (hclosed : s.stream.closed = false) (hfin : s.stream.finished = false) :
    Integrity budget ({ s with
      stream := { s.stream with reserved := rest, queue := s.stream.queue ++ [seg] } }.sent bytes left) := by
  obtain ⟨hrest, hseg⟩ : rest = [] ∧ seg.bytes = piece := by
    rcases h.reserved with hnil | ⟨seg', b, l, hone, hrun⟩
    · rw [hnil] at hres
      cases hres
    · rw [hone, List.cons.injEq] at hres
      rw [hr, Option.some.injEq, Prod.mk.injEq, List.cons.injEq] at hrun
      exact ⟨hres.2.symm, by rw [← hres.1]; exact hrun.2.1.symm⟩
  have hpieces := (h.pieces bytes _ hr).2
  have hc : Content s.returned (some (bytes, left))
      (s.frames.flatten ++ s.dropped.flatten ++ ((s.stream.queue ++ [seg]).map (·.bytes)).flatten) := by
    have hc := h.content
    rw [hr] at hc
    have hsend := hc.send
    simpa [queued, hseg] using hsend
  have hsizes : ∀ f ∈ s.frames ++ s.dropped ++ (s.stream.queue ++ [seg]).map (·.bytes),
      f ≠ [] ∧ f.length ≤ budget.capacity := by
    intro f hf
    rw [List.map_append, ← List.append_assoc, List.mem_append] at hf
    rcases hf with hf | hf
    · exact h.sizes f hf
    · rw [List.map_singleton, List.mem_singleton, hseg] at hf
      rw [hf]
      exact hpieces piece (by simp)
  unfold sent
  by_cases hl : left = []
  · rw [if_pos hl]
    exact ⟨h.budget_eq, Or.inl hrest, by simp [done], hc.over fun _ => hl, hsizes, by simp [done, hclosed], h.opened,
      fun he => absurd (h.ended he).2 (by simp [hfin]), by simp [done]⟩
  · rw [if_neg hl]
    refine ⟨h.budget_eq, Or.inl hrest, ?_, hc, hsizes, by simp [hclosed], h.opened,
      fun he => absurd (h.ended he).2 (by simp [hfin]), by simp [hfin]⟩
    intro b l hbl
    rw [Option.some.injEq, Prod.mk.injEq] at hbl
    rw [← hbl.2]
    exact ⟨hl, fun x hx => hpieces x (List.mem_cons_of_mem _ hx)⟩

theorem send_integrity (h : Integrity budget s) (he : s.step .send = some s') : Integrity budget s' := by
  simp only [step] at he
  split at he
  · rename_i bytes piece left hr
    split at he
    · obtain ⟨s₁, hmove, rfl⟩ := Option.map_eq_some_iff.1 he
      obtain ⟨mem, rfl⟩ := move_discard hmove
      exact h.discard hr mem h.erase_reserved (by simp)
    · rename_i hclosed
      rw [Bool.not_eq_true] at hclosed
      obtain ⟨s₁, hmove, rfl⟩ := Option.map_eq_some_iff.1 he
      obtain ⟨seg, rest, hres, hfin, rfl⟩ := move_send hclosed hmove
      exact h.send hr hres hclosed hfin
  · cases he

theorem cancel_integrity (h : Integrity budget s) (he : s.step .cancel = some s') : Integrity budget s' := by
  simp only [step] at he
  split at he
  · cases he
  · rename_i bytes left hr
    cases he
    cases hmove : s.move (.discard 0) with
    | none =>
      have hres : s.stream.reserved = [] := by
        rcases h.reserved with hres | ⟨seg, _, _, hres, -⟩
        · exact hres
        · simp [move, Stream.step, hres] at hmove
      rw [Option.getD_none]
      exact h.discard hr s.mem hres (by simp)
    | some s₁ =>
      obtain ⟨mem, rfl⟩ := move_discard hmove
      exact h.discard hr mem h.erase_reserved (by simp)

theorem poll_integrity (h : Integrity budget s) (he : s.step .poll = some s') : Integrity budget s' := by
  simp only [step] at he
  split at he
  · cases he
  · rename_i hclosed
    rw [Bool.not_eq_true] at hclosed
    cases he
    have hdropped := h.opened hclosed
    rcases s.stream.pollFrame_eq s.mem with ⟨-, hp⟩ | ⟨hend, mem, ⟨seg, queue, hq, hp⟩ | ⟨hq, hfin, hp⟩ | ⟨hq, hfin, hp⟩⟩
    · rw [hp]
      exact ⟨h.budget_eq, h.reserved, h.pieces, by simpa [Poll.frame, queued] using h.content,
        by simpa [Poll.frame, queued] using h.sizes, h.closed, h.opened, h.ended, h.finished⟩
    · rw [hp]
      have hc := h.content
      have hs := h.sizes
      simp only [queued, hq, hdropped, List.flatten_nil, List.append_nil, List.map_cons, List.flatten_cons] at hc hs
      refine ⟨h.budget_eq, h.reserved, h.pieces, ?_, ?_, by simp [hclosed], h.opened, by simp [hend], h.finished⟩
      · simpa [Poll.frame, queued, hdropped] using hc
      · simpa [Poll.frame, queued, hdropped] using hs
    · rw [hp]
      exact ⟨h.budget_eq, h.reserved, h.pieces, by simpa [Poll.frame, queued] using h.content,
        by simpa [Poll.frame, queued] using h.sizes, h.closed, h.opened, fun _ => ⟨hq, hfin⟩, h.finished⟩
    · rw [hp]
      exact ⟨h.budget_eq, h.reserved, h.pieces, by simpa [Poll.frame, queued] using h.content,
        by simpa [Poll.frame, queued] using h.sizes, h.closed, h.opened, h.ended, h.finished⟩

theorem dropBody_integrity (h : Integrity budget s) (he : s.step .dropBody = some s') : Integrity budget s' := by
  obtain ⟨s₁, hmove, rfl⟩ := Option.map_eq_some_iff.1 he
  obtain ⟨hclosed, mem, rfl⟩ := move_dropBody hmove
  have hdropped := h.opened hclosed
  have hc := h.content
  have hs := h.sizes
  simp only [queued, hdropped, List.flatten_nil, List.append_nil] at hc hs
  refine ⟨h.budget_eq, h.reserved, h.pieces, ?_, ?_, by simp, by simp, ?_, h.finished⟩
  · simpa [queued] using hc
  · simpa [queued] using hs
  · intro hend
    exact ⟨rfl, (h.ended hend).2⟩

theorem finish_integrity (h : Integrity budget s) (he : s.step .finish = some s') : Integrity budget s' := by
  simp only [step] at he
  split at he
  · cases he
  · rename_i hrun
    rw [Bool.not_eq_true, Option.isSome_eq_false_iff, Option.isNone_iff_eq_none] at hrun
    obtain ⟨mem, rfl⟩ := move_finish he
    exact ⟨h.budget_eq, Or.inl rfl, h.pieces, h.content, h.sizes, h.closed, h.opened,
      fun hend => ⟨(h.ended hend).1, rfl⟩, fun _ => hrun⟩

/-- **One event keeps the invariant.** -/
theorem step_integrity (h : Integrity budget s) : ∀ {e : Event}, s.step e = some s' → Integrity budget s'
  | .call _, he => call_integrity h he
  | .reserve, he => reserve_integrity h he
  | .send, he => send_integrity h he
  | .cancel, he => cancel_integrity h he
  | .poll, he => poll_integrity h he
  | .dropBody, he => dropBody_integrity h he
  | .finish, he => finish_integrity h he
  | .others mem, he => by
    cases he
    exact ⟨h.budget_eq, h.reserved, h.pieces, h.content, h.sizes, h.closed, h.opened, h.ended, h.finished⟩

theorem run_integrity {es : List Event} (h : Integrity budget s) (hr : run s es = some s') : Integrity budget s' :=
  Machine.run_keeps (fun _ _ _ h hs => step_integrity h hs) h hr

/-- The prefixes of all calls, the running one last. -/
theorem Integrity.prefixes (h : Integrity budget s) : ∃ ps : List Bytes, List.Forall₂ Keeps s.calls ps ∧
    s.frames.flatten ++ s.dropped.flatten ++ s.queued.flatten = ps.flatten := by
  obtain ⟨ps, p, hps, hrun, hnone, hout⟩ := h.content
  have hret : List.Forall₂ Keeps (s.returned.map fun c => (c.1, some c.2)) ps := List.forall₂_map_left_iff.2 hps
  cases hr : s.running with
  | none =>
    refine ⟨ps, ?_, ?_⟩
    · simpa [calls, hr] using hret
    · rw [hout, hnone hr, List.append_nil]
  | some c =>
    obtain ⟨bytes, left⟩ := c
    refine ⟨ps ++ [p], ?_, ?_⟩
    · simp only [calls, hr, Option.toList_some, List.map_singleton]
      exact List.rel_append hret (.cons ⟨⟨left.flatten, hrun bytes left hr⟩, by simp⟩ .nil)
    · rw [hout, List.flatten_append, List.flatten_singleton]

end Channel

/-! ## The end of the stream -/

/-- One poll after another, with the budgets as each finds them. -/
def Stream.polls : List Memory → Stream → List (Poll (Option Bytes))
  | [], _ => []
  | m :: ms, st => (st.pollFrame m).2.2 :: Stream.polls ms (st.pollFrame m).2.1

theorem polls_ended : ∀ {ms : List Memory} {st : Stream}, st.ended = true →
    st.polls ms = List.replicate ms.length (.ready none)
  | [], _, _ => rfl
  | m :: ms, st, h => by
    have hp : st.pollFrame m = (m, st, .ready none) := if_pos h
    rw [Stream.polls, hp, polls_ended h]
    rfl

/-- **After the last sender**: the queued segments, then the end at every later poll. -/
theorem polls_finished : ∀ {ms : List Memory} {st : Stream}, st.finished = true →
    (st.ended = true → st.queue = []) →
    st.polls ms = (st.queue.map fun seg => Poll.ready (some seg.bytes)).take ms.length ++
      List.replicate (ms.length - st.queue.length) (.ready none)
  | [], _, _, _ => by simp [Stream.polls]
  | m :: ms, st, hf, he => by
    rcases st.pollFrame_eq m with ⟨hend, -⟩ | ⟨hend, mem, ⟨seg, queue, hq, hp⟩ | ⟨hq, -, hp⟩ | ⟨-, hno, -⟩⟩
    · rw [polls_ended hend, he hend]
      simp
    · have ih := @polls_finished ms { st with inFlight := some seg, queue := queue } hf (by simp [hend])
      rw [Stream.polls, hp, ih, hq]
      simp
    · rw [Stream.polls, hp, polls_ended rfl, hq]
      simp [List.replicate_succ]
    · rw [hf] at hno
      cases hno

/-- **Queue integrity.** After any events on a fresh channel: the frames delivered, then what is still
queued or was dropped with the body, are in call order a prefix of each call's bytes, all of
them for a call that returned `Ok`; every frame is non-empty and within the capacity; and
once the last sender is gone, a body that is still there gives what is queued and then the
end, at every poll. -/
theorem queue_integrity (mem : Memory) (tenant : TenantId) (budget : ByteBudget) (events : List Event) (s : Channel)
    (h : (Channel.open mem tenant budget).run events = some s) :
    (∃ ps : List Bytes, List.Forall₂ Channel.Keeps s.calls ps ∧
      s.frames.flatten ++ (if s.stream.closed then s.dropped else s.queued).flatten = ps.flatten) ∧
    (∀ f ∈ s.frames, f ≠ [] ∧ f.length ≤ budget.capacity) ∧
    (s.stream.finished = true → s.stream.closed = false → ∀ ms : List Memory,
      s.stream.polls ms = (s.queued.map fun bytes => Poll.ready (some bytes)).take ms.length ++
        List.replicate (ms.length - s.queued.length) (.ready none)) := by
  have hs := Channel.run_integrity (Channel.integrity_open mem tenant budget) h
  refine ⟨?_, ?_, ?_⟩
  · obtain ⟨ps, hps, hout⟩ := hs.prefixes
    refine ⟨ps, hps, ?_⟩
    rw [← hout]
    cases hc : s.stream.closed with
    | true =>
      have hq : s.queued = [] := by simp [Channel.queued, hs.closed hc]
      simp [hq]
    | false => simp [hs.opened hc]
  · intro f hf
    exact hs.sizes f (by simp [hf])
  · intro hf hc ms
    rw [polls_finished hf fun he => (hs.ended he).1]
    simp [Channel.queued, Function.comp_def]

/-! ### Slices of four bytes -/

def sixteenBytes : Memory := ((Memory.newSemaphore ⟨⟨fun _ => 0, fun _ => 0⟩, 0, 0⟩ 16).2.newSemaphore 16).2

def fourBytes : Channel := .open sixteenBytes (Vector.replicate 32 0) ⟨1, 0, 4, by decide⟩

/-- Ten bytes are cancelled before their last slice, and two more bytes follow. -/
def cancelledEvents : List Event :=
  [.call (Utf8.encode "abcdefghij"), .reserve, .send, .poll, .reserve, .send, .reserve, .cancel,
    .call (Utf8.encode "xy"), .reserve, .send, .poll, .finish]

theorem queue_integrity_cancelled : ∃ s, fourBytes.run cancelledEvents = some s ∧
    s.frames = [Utf8.encode "abcd", Utf8.encode "efgh"] ∧ s.queued = [Utf8.encode "xy"] ∧
    s.stream.polls [s.mem, s.mem] = [.ready (some (Utf8.encode "xy")), .ready none] := by
  have hrun : (fourBytes.run cancelledEvents).map (fun s => (s.frames, s.queued, s.stream.finished, s.stream.closed)) =
      some ([Utf8.encode "abcd", Utf8.encode "efgh"], [Utf8.encode "xy"], true, false) := by decide +kernel
  obtain ⟨s, hs, he⟩ := Option.map_eq_some_iff.1 hrun
  simp only [Prod.mk.injEq] at he
  obtain ⟨hframes, hqueued, hf, hc⟩ := he
  have h := (queue_integrity _ _ _ _ s hs).2.2 hf hc [s.mem, s.mem]
  rw [hqueued] at h
  exact ⟨s, hs, hframes, hqueued, h⟩

/-- The body is dropped with the bytes of a call that returned `Ok` still queued, and the next call finds the
receiver gone. -/
def closedEvents : List Event :=
  [.call (Utf8.encode "abcd"), .reserve, .send, .dropBody, .call (Utf8.encode "xy"), .reserve, .send]

theorem queued_lost_with_body :
    ¬ ∀ (mem : Memory) (tenant : TenantId) (budget : ByteBudget) (events : List Event) (s : Channel),
      (Channel.open mem tenant budget).run events = some s →
      ∃ ps : List Bytes, List.Forall₂ Channel.Keeps s.calls ps ∧ s.frames.flatten ++ s.queued.flatten = ps.flatten := by
  intro h
  have hrun : (fourBytes.run closedEvents).map (fun s => (s.calls, s.frames, s.queued)) =
      some ([(Utf8.encode "abcd", some (.ok ())), (Utf8.encode "xy", some (.error .closed))], [], []) := rfl
  obtain ⟨s, hs, he⟩ := Option.map_eq_some_iff.1 hrun
  simp only [Prod.mk.injEq] at he
  obtain ⟨hcalls, hframes, hqueued⟩ := he
  obtain ⟨ps, hps, hout⟩ := h _ _ _ _ s hs
  rw [hcalls, List.forall₂_cons_left_iff] at hps
  obtain ⟨p, ps', hp, -, rfl⟩ := hps
  rw [hframes, hqueued, hp.2 rfl] at hout
  cases hout

end PiiProxy.BudgetQueue
