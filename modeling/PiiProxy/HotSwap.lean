import PiiProxy.Lib.Machine
import PiiProxy.StreamTask

/-!
# A proxied request while the policy is swapped

`proxy_with_upstream` (lib.rs:499) loads `engine_state` twice: for the digest its
receipts carry (lib.rs:531), and for the engine its redactor uses (lib.rs:684). In
between it waits for a stream permit, for memory and for the upstream's answer, and
`update_rules` or `watch_pii_config` may store another policy at any of these.

| here | there |
| --- | --- |
| `EngineState.policyDigest` | `EngineState::policy_digest` (engine.rs:64) |
| `Phase`, `Sys.step`        | the steps of `proxy_with_upstream`, interleaved with installs |
| `Move.updateRules`         | `update_rules` (lib.rs:289) |
| `Move.watchPiiConfig`      | the reload in `watch_pii_config` (main.rs:542-555), given what `parse_pii_config` read |

`receipts_name_engine` is for every interleaving: receipts of the stream name the
redactor's policy if, when the engine is loaded, the policy in force has the digest
loaded before; and if not, no receipt does.
-/

namespace PiiProxy

open Utf8 (encode)

def EngineState.policyDigest (P : Primitives) (state : EngineState) : String :=
  toHex (P.blake3 (encode (P.policyJson state.patterns state.replacementStrings)))

/-- What the receipts of a request are made of besides the policy. -/
structure Request where
  requestId : String
  tenantId : String
  upstreamUrl : String
  pcr0 : String
  key : Bytes

/-- How the upstream answers. -/
inductive Upstream where
  | success (isSse : Bool)
  /-- Any other status; its receipt is built at once. -/
  | status (code : Nat) (amb : Ambient)
  | bodyLimit
  | failed
  | timeout

inductive Phase where
  | received
  /-- The digest is loaded; waits for a stream permit. -/
  | digested (policyDigest : String)
  /-- Waits for stream memory. -/
  | permitted (policyDigest : String)
  /-- Waits for the upstream. -/
  | sent (policyDigest : String)
  | responded (policyDigest : String) (isSse : Bool)
  | streaming (task : StreamTask)
  /-- Answered without a stream; a refused upstream request has a receipt. -/
  | answered (status : Nat) (receipt : Option AuditFrame)

structure Sys where
  active : EngineState
  phase : Phase

inductive Move where
  | updateRules (patterns : List String)
  | watchPiiConfig (patterns replacements : List String)
  | loadDigest
  | streamPermit (granted : Bool)
  | memoryPermit (granted : Bool)
  | upstream (answer : Upstream)
  | loadEngine
  | task (label : StreamTask.Label)

/-- The detector of a request, with the digest loaded for it. -/
def Request.detector (q : Request) (policyDigest : String) : DoneDetector :=
  .new q.requestId q.tenantId q.upstreamUrl policyDigest q.pcr0

/-- The upstream's answer: a stream to come, or a response (lib.rs:575-660). -/
def answer (P : Primitives) (q : Request) (policyDigest : String) : Upstream → Phase
  | .success isSse => .responded policyDigest isSse
  | .status code amb =>
    .answered code (some ((q.detector policyDigest).auditFrame P q.key amb (encode "TERMINAL_ERROR")))
  | .bodyLimit => .answered 413 none
  | .failed => .answered 502 none
  | .timeout => .answered 502 none

/-- The task as it is spawned (lib.rs:699-710). -/
def spawn (q : Request) (policyDigest : String) (isSse : Bool) (engine : EngineState) : Except Panic StreamTask := do
  let redactor ← StreamRedactor.fromState engine
  return { isSse, redactor, detector := q.detector policyDigest, hasher := [], pc := .select, sent := [] }

/-- One step of the request. -/
def advance (P : Primitives) (q : Request) (active : EngineState) : Phase → Move → Option Phase
  | .received, .loadDigest => some (.digested (active.policyDigest P))
  | .digested d, .streamPermit granted => some (if granted then .permitted d else .answered 503 none)
  | .permitted d, .memoryPermit granted => some (if granted then .sent d else .answered 503 none)
  | .sent d, .upstream a => some (answer P q d a)
  | .responded d isSse, .loadEngine => match spawn q d isSse active with
    | .ok task => some (.streaming task)
    | .error _ => none
  | .streaming task, .task label => (task.step P q.key label).map .streaming
  | _, _ => none

def Sys.step (P : Primitives) (q : Request) (build : Builder) (s : Sys) : Move → Option Sys
  | .updateRules patterns =>
    if patterns = [] then some s
    else some { s with active := .new build patterns (patterns.map fun _ => "[REDACTED]") }
  | .watchPiiConfig patterns replacements =>
    -- `PiiVault::new` asserts the lengths before anything is stored
    if patterns.length = replacements.length then some { s with active := .new build patterns replacements }
    else some s
  | move => (advance P q s.active s.phase move).map fun phase => { s with phase := phase }

def Sys.run (P : Primitives) (q : Request) (build : Builder) : Sys → List Move → Option Sys := Machine.run (Sys.step P q build)

/-- The receipts in the stream name the policy of the redactor. -/
def Sys.Attested (P : Primitives) (s : Sys) : Prop :=
  ∀ task, s.phase = .streaming task → ∀ frame, .event (.auditReceipt frame) ∈ task.sent →
    frame.receipt.policyDigest = task.redactor.state.policyDigest P

/-- The policy in force is still the one whose digest was loaded, as far as the digest tells. -/
def Sys.Unswapped (P : Primitives) (s : Sys) : Prop :=
  ∀ d isSse, s.phase = .responded d isSse → s.active.policyDigest P = d

/-- Every `loadEngine` of the run finds the policy unswapped. -/
def LoadsAgree (P : Primitives) (q : Request) (build : Builder) (s : Sys) (moves : List Move) : Prop :=
  ∀ pre post s', moves = pre ++ .loadEngine :: post → s.run P q build pre = some s' → s'.Unswapped P

/-- No receipt in the stream names the policy of the redactor. -/
def Sys.Disowned (P : Primitives) (s : Sys) : Prop :=
  ∀ task, s.phase = .streaming task → ∀ frame, .event (.auditReceipt frame) ∈ task.sent →
    frame.receipt.policyDigest ≠ task.redactor.state.policyDigest P

section

variable {P : Primitives} {q : Request} {build : Builder} {s s' : Sys} {move : Move} {moves : List Move}

/-- What a step can do: install a policy, or move the request on under the policy in force. -/
theorem step_cases (h : s.step P q build move = some s') :
    (s'.phase = s.phase ∧ move ≠ .loadEngine) ∨
    (s'.active = s.active ∧ advance P q s.active s.phase move = some s'.phase) := by
  cases move with
  | updateRules patterns =>
    simp only [Sys.step] at h
    split at h <;> simp only [Option.some.injEq] at h <;> subst h <;> exact Or.inl ⟨rfl, by simp⟩
  | watchPiiConfig patterns replacements =>
    simp only [Sys.step] at h
    split at h <;> simp only [Option.some.injEq] at h <;> subst h <;> exact Or.inl ⟨rfl, by simp⟩
  | loadDigest | streamPermit _ | memoryPermit _ | upstream _ | loadEngine | task _ =>
    simp only [Sys.step, Option.map_eq_some_iff] at h
    obtain ⟨phase, hp, rfl⟩ := h
    exact Or.inr ⟨rfl, hp⟩

/-- A task that names `digest`, on the engine `engine`. -/
def Sys.Runs (digest : String) (engine : EngineState) (s : Sys) : Prop :=
  ∃ task, s.phase = .streaming task ∧ StreamTask.Stamped digest task ∧ task.redactor.state = engine

theorem step_runs {digest : String} {engine : EngineState} (hs : s.Runs digest engine)
    (h : s.step P q build move = some s') : s'.Runs digest engine := by
  obtain ⟨task, hp, hstamp, heng⟩ := hs
  rcases step_cases h with ⟨h1, _⟩ | ⟨_, h1⟩
  · exact ⟨task, h1.trans hp, hstamp, heng⟩
  · rw [hp] at h1
    cases move with
    | task label =>
      simp only [advance, Option.map_eq_some_iff] at h1
      obtain ⟨task', ht, hp'⟩ := h1
      obtain ⟨k1, k2⟩ := StreamTask.step_keeps ht hstamp
      exact ⟨task', hp'.symm, k1, k2.trans heng⟩
    | updateRules _ | watchPiiConfig _ _ | loadDigest | streamPermit _ | memoryPermit _ | upstream _ | loadEngine =>
      simp [advance] at h1

/-- Once the stream runs, its engine and the digest it names are fixed. -/
theorem run_runs {digest : String} {engine : EngineState} (hs : s.Runs digest engine) (h : s.run P q build moves = some s') :
    s'.Runs digest engine :=
  Machine.run_keeps (fun _ _ _ hs h => step_runs hs h) hs h

theorem loadsAgree_cons (h : s.step P q build move = some s') :
    LoadsAgree P q build s (move :: moves) ↔ (move = .loadEngine → s.Unswapped P) ∧ LoadsAgree P q build s' moves := by
  constructor
  · intro hl
    refine ⟨fun hm => hl [] moves s (by simp [hm]) rfl, ?_⟩
    intro pre post s1 he hr
    exact hl (move :: pre) post s1 (by simp [he]) (Machine.run_cons_some.2 ⟨s', h, hr⟩)
  · rintro ⟨h1, h2⟩ pre post s1 he hr
    cases pre with
    | nil =>
      simp only [List.nil_append, List.cons.injEq] at he
      cases hr
      exact h1 he.1
    | cons m pre =>
      simp only [List.cons_append, List.cons.injEq] at he
      obtain ⟨s2, hm, hr⟩ := Machine.run_cons_some.1 hr
      rw [← he.1, h, Option.some.injEq] at hm
      exact h2 pre post s1 he.2 (hm ▸ hr)

/-- While the stream runs there is no load left to disagree. -/
theorem loadsAgree_of_runs {digest : String} {engine : EngineState} (hs : s.Runs digest engine) :
    LoadsAgree P q build s moves := by
  rintro pre post s1 - hr d isSse hp
  obtain ⟨task, ht, _⟩ := run_runs hs hr
  rw [ht] at hp
  cases hp

/-- A task as it is spawned. -/
theorem spawn_eq {policyDigest : String} {isSse : Bool} {engine : EngineState} {task : StreamTask}
    (h : spawn q policyDigest isSse engine = .ok task) :
    StreamTask.Stamped policyDigest task ∧ task.redactor.state = engine ∧ task.isSse = isSse := by
  simp only [spawn, StreamRedactor.fromState, StreamRedactor.withStateMaxCapacity, bind_eq_ok, pure_eq_ok,
    Except.ok.injEq] at h
  obtain ⟨r, hr, rfl⟩ := h
  rw [dif_pos (by decide), Except.ok.injEq] at hr
  exact ⟨⟨rfl, by simp, StreamTask.named_nil _⟩, by rw [← hr], rfl⟩

/-- The load starts a task that names the digest loaded before, on the engine in force. -/
theorem loadEngine_runs {d : String} {isSse : Bool} (hp : s.phase = .responded d isSse)
    (h : s.step P q build .loadEngine = some s') : s'.Runs d s.active := by
  rcases step_cases h with ⟨_, h1⟩ | ⟨_, h1⟩
  · exact absurd rfl h1
  · rw [hp] at h1
    simp only [advance] at h1
    split at h1
    · rename_i task hspawn
      simp only [Option.some.injEq] at h1
      obtain ⟨hstamp, heng, -⟩ := spawn_eq hspawn
      exact ⟨task, h1.symm, hstamp, heng⟩
    · cases h1

/-- A request that is not streaming starts to by the load. -/
theorem step_responded (hn : ∀ task, s.phase ≠ .streaming task) (h : s.step P q build move = some s')
    (hm : move ≠ .loadEngine) : ∀ task, s'.phase ≠ .streaming task := by
  intro task ht
  rcases step_cases h with ⟨h1, _⟩ | ⟨_, h1⟩
  · exact hn task (h1 ▸ ht)
  · rw [ht] at h1
    unfold advance at h1
    split at h1
    · simp at h1
    · split at h1 <;> simp at h1
    · split at h1 <;> simp at h1
    · rename_i d a _
      cases a <;> simp [answer] at h1
    · exact absurd rfl hm
    · rename_i task' label hp
      exact hn task' hp
    · cases h1

/-- The request before the stream: the run lemma, by induction on the moves. -/
theorem run_attested : ∀ {moves : List Move} {s s' : Sys}, (∀ task, s.phase ≠ .streaming task) →
    s.run P q build moves = some s' →
    (LoadsAgree P q build s moves → s'.Attested P) ∧ (¬ LoadsAgree P q build s moves → s'.Disowned P)
  | [], s, s', hn, h => by
    cases h
    exact ⟨fun _ task ht => absurd ht (hn task), fun _ task ht => absurd ht (hn task)⟩
  | move :: moves, s, s', hn, h => by
    obtain ⟨s1, h1, hrest⟩ := Machine.run_cons_some.1 h
    rw [loadsAgree_cons h1]
    by_cases hm : move = .loadEngine
    · subst hm
      -- the load: what it finds decides for the rest of the run
      rcases step_cases h1 with ⟨_, hne⟩ | ⟨_, hadv⟩
      · exact absurd rfl hne
      obtain ⟨d, isSse, hp⟩ : ∃ d isSse, s.phase = .responded d isSse := by
        cases hphase : s.phase with
        | responded d isSse => exact ⟨d, isSse, rfl⟩
        | _ => simp [hphase, advance] at hadv
      have hruns := loadEngine_runs hp h1
      have hagree : LoadsAgree P q build s1 moves := loadsAgree_of_runs hruns
      have hun : s.Unswapped P ↔ s.active.policyDigest P = d := by
        constructor
        · exact fun hu => hu d isSse hp
        · intro hd d' isSse' hp'
          rw [hp, Phase.responded.injEq] at hp'
          exact hp'.1 ▸ hd
      obtain ⟨task, ht, hstamp, heng⟩ := run_runs hruns hrest
      have hnames : ∀ task', s'.phase = .streaming task' → ∀ frame, .event (.auditReceipt frame) ∈ task'.sent →
          frame.receipt.policyDigest = d ∧ task'.redactor.state = s.active := by
        intro task' ht' frame hf
        rw [ht, Phase.streaming.injEq] at ht'
        subst ht'
        exact ⟨hstamp.sent frame hf, heng⟩
      constructor
      · rintro ⟨hu, -⟩ task' ht' frame hf
        obtain ⟨k1, k2⟩ := hnames task' ht' frame hf
        rw [k1, k2, hun.1 (hu rfl)]
      · intro hnot task' ht' frame hf heq
        obtain ⟨k1, k2⟩ := hnames task' ht' frame hf
        rw [k1, k2] at heq
        exact hnot ⟨fun _ => hun.2 heq.symm, hagree⟩
    · have ih := run_attested (step_responded hn h1 hm) hrest
      simpa [hm] using ih

end

/-- **The policy a receipt names**, over every interleaving of a request with installs. If the
load of the engine finds the digest loaded before still in force, every receipt of the
stream names the policy of its redactor; if not, none does. -/
theorem receipts_name_engine (P : Primitives) (q : Request) (build : Builder) (policy : EngineState)
    (moves : List Move) (s : Sys) (hrun : Sys.run P q build ⟨policy, .received⟩ moves = some s) :
    (LoadsAgree P q build ⟨policy, .received⟩ moves → s.Attested P) ∧
      (¬ LoadsAgree P q build ⟨policy, .received⟩ moves → s.Disowned P) :=
  run_attested (by simp) hrun

/-! ### A swap while the upstream is waited for

The digest of `alpha` is loaded, `update_rules` installs `beta`, the upstream answers and
sends `data: [DONE]`. Digests and the signature are those of the crates. -/

def swapPrimitives : Primitives := Primitives.ofTables
  [(encode "[[\"alpha\"],[\"[REDACTED]\"]]",
      ofHex "71041655d86767860ed41e2ea3b0ddd8479a1402253132fed689653cf8e551be"),
    (encode "[[\"beta\"],[\"[REDACTED]\"]]",
      ofHex "6e26a8e747615dff20518d974d1e3e4f15c7f97f36611804353c51747fbf59ba"),
    ([], ofHex "af1349b9f5f9a1a6a0404dea36dcc9499bcb25c9adc112b7cc9a93cae41f3262"),
    (canonicalTuple ["request-1", "tenant-1", "https://upstream.example/v1/chat/completions",
        "af1349b9f5f9a1a6a0404dea36dcc9499bcb25c9adc112b7cc9a93cae41f3262",
        "71041655d86767860ed41e2ea3b0ddd8479a1402253132fed689653cf8e551be", "pcr0-1",
        "af1349b9f5f9a1a6a0404dea36dcc9499bcb25c9adc112b7cc9a93cae41f3262"],
      ofHex "e35f2ae4c83f74814e54cd3efadbd77242385c3de42d9338f817f43f5a23fbfd")]
  [(ofHex "e35f2ae4c83f74814e54cd3efadbd77242385c3de42d9338f817f43f5a23fbfd",
    ofHex ("cd29d744b0c8fe69f7af78d5dd251759b8644a58ff288c376dc3fc9e2f265b3b" ++
      "40442b19dda2d77ba6f3c852cb5059469d3d339616c39598f2dc3f5ebb9bf20c"))]
  [(ofHex ("cd29d744b0c8fe69f7af78d5dd251759b8644a58ff288c376dc3fc9e2f265b3b" ++
      "40442b19dda2d77ba6f3c852cb5059469d3d339616c39598f2dc3f5ebb9bf20c"),
    "zSnXRLDI/mn3r3jV3SUXWbhkSlj/KIw3bcP8ni8mWztARCsZ3aLXe6bzyFLLUFlGnT0zlhbDlZjy3D9eu5vyDA==")]

def swapRequest : Request :=
  ⟨"request-1", "tenant-1", "https://upstream.example/v1/chat/completions", "pcr0-1", List.replicate 32 7⟩

def alphaPolicy : EngineState := .new (Search.AhoCorasick.scan asciiLower) ["alpha"] ["[REDACTED]"]

/-- From the upstream's answer to the receipt on the channel. -/
def doneMoves : List Move :=
  [.upstream (.success true), .loadEngine, .task (.chunk (encode "data: [DONE]\n\n")),
    .task (.segment ⟨[], 1700000000⟩), .task (.enqueued .ok), .task (.enqueued .ok)]

def plainMoves : List Move := [.loadDigest, .streamPermit true, .memoryPermit true] ++ doneMoves

def swapMoves : List Move :=
  [.loadDigest, .streamPermit true, .memoryPermit true, .updateRules ["beta"]] ++ doneMoves

/-- The digests the receipts of the stream name, and that of the redactor's policy. -/
def Sys.digests (P : Primitives) (s : Sys) : Option (List String × String) :=
  match s.phase with
  | .streaming task => some (task.sent.filterMap fun
      | .event (.auditReceipt frame) => some frame.receipt.policyDigest
      | _ => none, task.redactor.state.policyDigest P)
  | _ => none

/-- A digest listed is that of a receipt in the stream. -/
theorem exists_of_digests {P : Primitives} {s : Sys} {named : List String} {used d : String}
    (h : s.digests P = some (named, used)) (hd : d ∈ named) :
    ∃ task frame, s.phase = .streaming task ∧ .event (.auditReceipt frame) ∈ task.sent ∧
      frame.receipt.policyDigest = d ∧ task.redactor.state.policyDigest P = used := by
  unfold Sys.digests at h
  split at h
  · rename_i task hp
    simp only [Option.some.injEq, Prod.mk.injEq] at h
    rw [← h.1, List.mem_filterMap] at hd
    obtain ⟨item, hmem, hitem⟩ := hd
    split at hitem
    · rename_i frame
      simp only [Option.some.injEq] at hitem
      exact ⟨task, frame, hp, hmem, hitem, h.2⟩
    · cases hitem
  · cases h

theorem receipts_name_engine_alpha : ∃ s,
    Sys.run swapPrimitives swapRequest (Search.AhoCorasick.scan asciiLower) ⟨alphaPolicy, .received⟩ plainMoves =
      some s ∧
    LoadsAgree swapPrimitives swapRequest (Search.AhoCorasick.scan asciiLower) ⟨alphaPolicy, .received⟩ plainMoves ∧
    s.Attested swapPrimitives := by
  have hrun : (Sys.run swapPrimitives swapRequest (Search.AhoCorasick.scan asciiLower) ⟨alphaPolicy, .received⟩
      plainMoves).bind (Sys.digests swapPrimitives) =
      some (["71041655d86767860ed41e2ea3b0ddd8479a1402253132fed689653cf8e551be"],
        "71041655d86767860ed41e2ea3b0ddd8479a1402253132fed689653cf8e551be") := rfl
  obtain ⟨s, hs, hd⟩ := Option.bind_eq_some_iff.1 hrun
  obtain ⟨task, frame, hp, hmem, h1, h2⟩ := exists_of_digests hd (List.mem_singleton.2 rfl)
  obtain ⟨hatt, hdis⟩ := receipts_name_engine _ _ _ _ _ _ hs
  have hagree : LoadsAgree swapPrimitives swapRequest (Search.AhoCorasick.scan asciiLower)
      ⟨alphaPolicy, .received⟩ plainMoves := by
    by_contra hno
    exact hdis hno task hp frame hmem (h1.trans h2.symm)
  exact ⟨s, hs, hagree, hatt hagree⟩

theorem swapped_policy_not_named :
    ¬ ∀ (P : Primitives) (q : Request) (build : Builder) (policy : EngineState) (moves : List Move) (s : Sys),
      Sys.run P q build ⟨policy, .received⟩ moves = some s → s.Attested P := by
  intro h
  have hrun : (Sys.run swapPrimitives swapRequest (Search.AhoCorasick.scan asciiLower) ⟨alphaPolicy, .received⟩
      swapMoves).bind (Sys.digests swapPrimitives) =
      some (["71041655d86767860ed41e2ea3b0ddd8479a1402253132fed689653cf8e551be"],
        "6e26a8e747615dff20518d974d1e3e4f15c7f97f36611804353c51747fbf59ba") := rfl
  obtain ⟨s, hs, hd⟩ := Option.bind_eq_some_iff.1 hrun
  obtain ⟨task, frame, hp, hmem, h1, h2⟩ := exists_of_digests hd (List.mem_singleton.2 rfl)
  have heq := h _ _ _ _ _ s hs task hp frame hmem
  rw [h1, h2] at heq
  exact absurd heq (by decide)

end PiiProxy
