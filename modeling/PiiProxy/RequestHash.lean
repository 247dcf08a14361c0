import PiiProxy.DetectorReceipt
import PiiProxy.TaskRuns

/-!
# The request hash, while the body is still sent

The hasher of the request body is fed as reqwest pulls chunks (lib.rs:519-529), and read
whenever a receipt is built: for a refused request (lib.rs:606), at the end marker and at a
shutdown (lib.rs:1118). Nothing makes the second wait for the first.

| here | there |
| --- | --- |
| `Exchange`, `Exchange.step` | a proxied request and its body, pulled by the client in order |
| `Move.reads`                | `request_hasher.lock()` and `finalize` |
| `Sys.receipts`              | the receipts of the response: terminal error, end marker, shutdown |

`receipts_hash_body` is for every interleaving: receipts carry the hash of the whole body
if it is all pulled whenever one is built.
-/

namespace PiiProxy

/-! ## The task -/

namespace StreamTask

variable {P : Primitives} {key : Bytes} {t t' : StreamTask} {label : Label} {p : AttestedReceipt → Prop}

/-- What the step reads of the clock and the request hasher. -/
def Label.ambient : Label → Option Ambient
  | .shutdown amb => some amb
  | .segment amb => some amb
  | _ => none

/-- The step builds a receipt: the end marker is found, or the stream is shut down before it. -/
def Builds (t : StreamTask) : Label → Prop
  | .shutdown _ => t.pc = .select ∧ t.detector.completed = false
  | .segment _ => ∃ stage out outs, t.pc = .outputs stage (out :: outs) ∧ t.isSse = true ∧
      t.detector.completed = false ∧ Find.Has sseDoneMarker (t.detector.trailing ++ out.bytes)
  | _ => False

/-- Every receipt sent, or about to be, is one that `p` holds of. -/
structure Receipts (p : AttestedReceipt → Prop) (t : StreamTask) : Prop where
  held : t.detector.trailing.length ≤ 11
  sent : ∀ frame, .event (.auditReceipt frame) ∈ t.sent → p frame.receipt
  coming : ∀ frame, .auditReceipt frame ∈ Pc.events t.pc → p frame.receipt

theorem receipts_shutdownEvents {d : DoneDetector} {amb : Ambient} {hasher : Bytes} {frame : AuditFrame}
    (h : .auditReceipt frame ∈ (d.shutdownEvents P key amb hasher).1) :
    d.completed = false ∧ ∃ fed, frame = d.auditFrame P key amb fed := by
  unfold DoneDetector.shutdownEvents at h
  split at h
  · simp at h
  · rename_i hc
    refine ⟨by simpa using hc, ?_⟩
    rcases List.mem_append.1 h with h | h
    · unfold dataEvents at h
      split at h <;> simp at h
    · simp only [DoneDetector.receiptEvents, List.mem_cons, StreamEvent.auditReceipt.injEq, reduceCtorEq,
        List.not_mem_nil, or_false] at h
      exact ⟨_, h⟩

/-- **The step lemma**: what holds of the receipts so far and of the one that the step builds, if it does. -/
theorem step_receipts (hr : Receipts p t)
    (hnew : ∀ amb, label.ambient = some amb → t.Builds label → ∀ fed, p (t.detector.receipt P amb fed))
    (h : t.step P key label = some t') : Receipts p t' := by
  have hheld := step_trailing_le hr.held h
  cases step_effect h with
  | goes pc quiet => exact ⟨hheld, hr.sent, by simp [quiet]⟩
  | redacts redactor stage outs state => exact ⟨hheld, hr.sent, by simp [Pc.events]⟩
  | hashes stage bytes outs => exact ⟨hheld, hr.sent, by simp [Pc.events]⟩
  | inspects amb stage out outs events detector hasher place sse found =>
    refine ⟨hheld, hr.sent, fun frame hf => ?_⟩
    obtain ⟨hc, hm, fed, rfl⟩ := (inspect_ok P key amb t.hasher hr.held found).2 frame hf
    exact hnew amb rfl ⟨stage, out, outs, place, sse, hc, hm⟩ fed
  | finishes =>
    refine ⟨hheld, hr.sent, fun frame hf => ?_⟩
    have := finish_onlyData t.detector t.hasher _ hf
    simp [StreamEvent.isData] at this
  | shuts amb place =>
    refine ⟨hheld, hr.sent, fun frame hf => ?_⟩
    obtain ⟨hc, fed, rfl⟩ := receipts_shutdownEvents hf
    exact hnew amb rfl ⟨place, hc⟩ fed
  | enqueues outcome item pc place rest =>
    refine ⟨hheld, fun frame hf => ?_, fun frame hf => hr.coming frame (rest hf)⟩
    rcases mem_enqueue hf with hf | rfl
    · exact hr.sent frame hf
    · exact hr.coming frame (item_event place)

end StreamTask

/-! ## The request -/

/-- A proxied request and the upload of its body. -/
structure Exchange where
  sys : Sys
  /-- What the request hasher has been fed. -/
  pulled : Bytes
  /-- The chunks of the body still to be pulled. -/
  rest : List Bytes

inductive ExchangeMove where
  | pull
  | request (move : Move)

/-- What a move reads of the request hasher. -/
def Move.reads : Move → Option Bytes
  | .upstream (.status _ amb) => some amb.requestHashed
  | .task label => label.ambient.map Ambient.requestHashed
  | _ => none

/-- reqwest has the body from `send` on. -/
def Phase.uploads : Phase → Bool
  | .sent _ => true
  | .responded _ _ => true
  | .streaming _ => true
  | _ => false

/-- The receipts in the response. -/
def Sys.receipts (s : Sys) : List AttestedReceipt :=
  match s.phase with
  | .answered _ (some frame) => [frame.receipt]
  | .streaming task => task.sent.filterMap fun
    | .event (.auditReceipt frame) => some frame.receipt
    | _ => none
  | _ => []

namespace Exchange

open Utf8 (encode)

variable {P : Primitives} {q : Request} {build : Builder} {x x' : Exchange} {move : ExchangeMove}

def start (policy : EngineState) (body : List Bytes) : Exchange := ⟨⟨policy, .received⟩, [], body⟩

def step (P : Primitives) (q : Request) (build : Builder) (x : Exchange) : ExchangeMove → Option Exchange
  | .pull =>
    if x.sys.phase.uploads then
      match x.rest with
      | [] => none
      | chunk :: rest => some { x with pulled := x.pulled ++ chunk, rest := rest }
    else none
  | .request move =>
    if move.reads.all (· = x.pulled) then (x.sys.step P q build move).map fun sys => { x with sys := sys } else none

def run (P : Primitives) (q : Request) (build : Builder) : Exchange → List ExchangeMove → Option Exchange :=
  Machine.run (step P q build)

/-- The move builds a receipt. -/
def Builds (x : Exchange) : ExchangeMove → Prop
  | .request (.upstream (.status _ _)) => True
  | .request (.task label) => ∃ task, x.sys.phase = .streaming task ∧ task.Builds label
  | _ => False

/-- Whenever a move of the run builds a receipt, no byte of the body is still to be pulled. -/
def OnTime (P : Primitives) (q : Request) (build : Builder) : Exchange → List ExchangeMove → Prop
  | _, [] => True
  | x, move :: moves => (x.Builds move → x.rest.flatten = []) ∧
    ∀ x', x.step P q build move = some x' → OnTime P q build x' moves

/-- The receipts so far, and those about to be sent. -/
def Hashed (hash : String) (x : Exchange) : Prop :=
  match x.sys.phase with
  | .answered _ (some frame) => frame.receipt.requestHash = hash
  | .streaming task => task.Receipts fun r => r.requestHash = hash
  | _ => True

/-- The body is what was pulled and what is left. -/
theorem step_body (h : x.step P q build move = some x') : x'.pulled ++ x'.rest.flatten = x.pulled ++ x.rest.flatten := by
  cases move with
  | pull =>
    simp only [step] at h
    split at h
    · split at h
      · cases h
      · rename_i chunk rest hrest
        cases h
        simp [hrest]
    · cases h
  | request move =>
    simp only [step] at h
    split at h
    · obtain ⟨sys, -, rfl⟩ := Option.map_eq_some_iff.1 h
      rfl
    · cases h

theorem spawn_receipts {digest : String} {isSse : Bool} {engine : EngineState} {task : StreamTask}
    {p : AttestedReceipt → Prop} (h : spawn q digest isSse engine = .ok task) : task.Receipts p := by
  simp only [spawn, bind_eq_ok, pure_eq_ok, Except.ok.injEq] at h
  obtain ⟨r, -, rfl⟩ := h
  exact ⟨Nat.zero_le _, by simp, by simp [StreamTask.Pc.events]⟩

/-- What a move reads is what was pulled, so what it builds late enough carries the hash of the body. -/
theorem advance_hashed {hash : String} {active : EngineState} {phase phase' : Phase} {move : Move}
    (hh : Hashed hash ⟨⟨active, phase⟩, x.pulled, x.rest⟩) (hread : move.reads.all (· = x.pulled) = true)
    (hbuilt : Builds ⟨⟨active, phase⟩, x.pulled, x.rest⟩ (.request move) → toHex (P.blake3 x.pulled) = hash)
    (h : advance P q active phase move = some phase') : Hashed hash ⟨⟨active, phase'⟩, x.pulled, x.rest⟩ := by
  unfold advance at h
  split at h
  · cases h
    trivial
  · simp only [Option.some.injEq] at h
    subst h
    split <;> trivial
  · simp only [Option.some.injEq] at h
    subst h
    split <;> trivial
  · rename_i d a
    simp only [Option.some.injEq] at h
    subst h
    cases a with
    | status code amb =>
      have hpulled : amb.requestHashed = x.pulled := by simpa [Move.reads] using hread
      have hhash := hbuilt trivial
      rw [← hpulled] at hhash
      exact hhash
    | success isSse | bodyLimit | failed | timeout => trivial
  · rename_i d isSse
    split at h
    · rename_i task hspawn
      cases h
      exact spawn_receipts hspawn
    · cases h
  · rename_i task label
    obtain ⟨task', hstep, rfl⟩ := Option.map_eq_some_iff.1 h
    refine StreamTask.step_receipts hh (fun amb hamb hb fed => ?_) hstep
    have hpulled : amb.requestHashed = x.pulled := by simpa [Move.reads, hamb] using hread
    have hhash := hbuilt ⟨task, rfl, hb⟩
    rw [← hpulled] at hhash
    exact hhash
  · cases h

theorem step_hashed {body : Bytes} (hbody : x.pulled ++ x.rest.flatten = body)
    (hh : Hashed (toHex (P.blake3 body)) x) (hon : x.Builds move → x.rest.flatten = [])
    (h : x.step P q build move = some x') : Hashed (toHex (P.blake3 body)) x' := by
  cases move with
  | pull =>
    simp only [step] at h
    split at h
    · split at h <;> cases h
      exact hh
    · cases h
  | request move =>
    simp only [step] at h
    split at h
    · rename_i hread
      obtain ⟨sys, hsys, rfl⟩ := Option.map_eq_some_iff.1 h
      rcases PiiProxy.step_cases hsys with ⟨hphase, -⟩ | ⟨hactive, hadv⟩
      · unfold Hashed at hh ⊢
        rw [hphase]
        exact hh
      · rw [← hactive] at hadv
        refine advance_hashed (x := x) hh hread (fun hb => ?_) hadv
        rw [← hbody, hon hb, List.append_nil]
    · cases h

theorem run_hashed {body : Bytes} : ∀ {moves : List ExchangeMove} {x x' : Exchange}, x.pulled ++ x.rest.flatten = body →
    Hashed (toHex (P.blake3 body)) x → x.OnTime P q build moves → x.run P q build moves = some x' →
    Hashed (toHex (P.blake3 body)) x'
  | [], _, _, _, hh, _, h => by
    cases h
    exact hh
  | _ :: _, _, _, hbody, hh, ⟨hon, hrest⟩, h => by
    obtain ⟨x₁, h₁, h⟩ := Machine.run_cons_some.1 h
    exact run_hashed ((step_body h₁).trans hbody) (step_hashed hbody hh hon h₁) (hrest x₁ h₁) h

theorem Hashed.receipts {hash : String} (hh : Hashed hash x) : ∀ r ∈ x.sys.receipts, r.requestHash = hash := by
  intro r hr
  unfold Sys.receipts at hr
  unfold Hashed at hh
  split at hr
  · rename_i code frame hphase
    rw [hphase] at hh
    rw [List.mem_singleton.1 hr]
    exact hh
  · rename_i task hphase
    rw [hphase] at hh
    obtain ⟨item, hmem, hitem⟩ := List.mem_filterMap.1 hr
    split at hitem
    · rename_i frame
      cases hitem
      exact hh.sent frame hmem
    · cases hitem
  · cases hr

/-- **Receipts carry the hash of the whole body** in every interleaving of the upload with the response
where the body is all pulled whenever a receipt is built. -/
theorem receipts_hash_body (policy : EngineState) (body : List Bytes) (moves : List ExchangeMove)
    (hrun : (start policy body).run P q build moves = some x) (hon : (start policy body).OnTime P q build moves) :
    ∀ r ∈ x.sys.receipts, r.requestHash = toHex (P.blake3 body.flatten) := by
  have hh : Hashed (toHex (P.blake3 body.flatten)) (start policy body) := trivial
  exact (run_hashed rfl hh hon hrun).receipts

/-! ### A refusal while the body is sent

The body is `hi` and `!`; the upstream refuses with 429. Digests and signatures are those
of the crates. -/

def uploadPrimitives : Primitives := Primitives.ofTables
  [(encode "[[\"alpha\"],[\"[REDACTED]\"]]",
      ofHex "71041655d86767860ed41e2ea3b0ddd8479a1402253132fed689653cf8e551be"),
    (encode "TERMINAL_ERROR", ofHex "0fc4ff7b84399fcbf9a7b2835a5e2a5faa65eb4ce17e0f5bb7174892b0b68fd8"),
    (encode "hi", ofHex "85052e9aab1b67b6622d94a08441b09fd5b7aca61ee360416d70de5da67d86ca"),
    (encode "hi!", ofHex "2a66e9faaa543ba88df1ca12549f1acd7d8b9325ae04ee24392d85782e9c4bc8"),
    (canonicalTuple ["request-1", "tenant-1", "https://upstream.example/v1/chat/completions",
        "85052e9aab1b67b6622d94a08441b09fd5b7aca61ee360416d70de5da67d86ca",
        "71041655d86767860ed41e2ea3b0ddd8479a1402253132fed689653cf8e551be", "pcr0-1",
        "0fc4ff7b84399fcbf9a7b2835a5e2a5faa65eb4ce17e0f5bb7174892b0b68fd8"],
      ofHex "2c825703353e32540b3092e7384c8180a60be765737d7217584048b2b567dc59"),
    (canonicalTuple ["request-1", "tenant-1", "https://upstream.example/v1/chat/completions",
        "2a66e9faaa543ba88df1ca12549f1acd7d8b9325ae04ee24392d85782e9c4bc8",
        "71041655d86767860ed41e2ea3b0ddd8479a1402253132fed689653cf8e551be", "pcr0-1",
        "0fc4ff7b84399fcbf9a7b2835a5e2a5faa65eb4ce17e0f5bb7174892b0b68fd8"],
      ofHex "dd1aa4c143e519472d2f5ee27d268a283b7471e66c71d637a75908c2481d05f1")]
  [(ofHex "2c825703353e32540b3092e7384c8180a60be765737d7217584048b2b567dc59",
      ofHex ("c6633d6a0cf3b5d68f1ec1e5db2b77fea755282a515816dc9520049bc6fea57b" ++
        "a60de6ea2154e5b01188e8f98c1217dcf7411f2fb88dafbd26412b227fb8eb0a")),
    (ofHex "dd1aa4c143e519472d2f5ee27d268a283b7471e66c71d637a75908c2481d05f1",
      ofHex ("e43d8e76c52828b32a94a03752dba404fbd931b352668bfbe6fab26f87bbbf08" ++
        "55f9158ae8ce5b156e2b16a98f49a8cab3148dc54d4b2631cf33bc2249e4e80d"))]
  [(ofHex ("c6633d6a0cf3b5d68f1ec1e5db2b77fea755282a515816dc9520049bc6fea57b" ++
        "a60de6ea2154e5b01188e8f98c1217dcf7411f2fb88dafbd26412b227fb8eb0a"),
      "xmM9agzztdaPHsHl2yt3/qdVKCpRWBbclSAEm8b+pXumDebqIVTlsBGI6PmMEhfc90EfL7iNr70mQSsif7jrCg=="),
    (ofHex ("e43d8e76c52828b32a94a03752dba404fbd931b352668bfbe6fab26f87bbbf08" ++
        "55f9158ae8ce5b156e2b16a98f49a8cab3148dc54d4b2631cf33bc2249e4e80d"),
      "5D2OdsUoKLMqlKA3UtukBPvZMbNSZov75vqyb4e7vwhV+RWK6M5bFW4rFqmPSajKsxSNxU1LJjHPM7wiSeToDQ==")]

/-- Up to the wait for the upstream. -/
def sendMoves : List ExchangeMove := [.request .loadDigest, .request (.streamPermit true), .request (.memoryPermit true)]

def bodyChunks : List Bytes := [encode "hi", encode "!"]

def wholeMoves : List ExchangeMove :=
  sendMoves ++ [.pull, .pull, .request (.upstream (.status 429 ⟨encode "hi!", 1700000000⟩))]

def earlyMoves : List ExchangeMove :=
  sendMoves ++ [.pull, .request (.upstream (.status 429 ⟨encode "hi", 1700000000⟩))]

theorem wholeMoves_onTime : (start alphaPolicy bodyChunks).OnTime uploadPrimitives swapRequest
    (Search.AhoCorasick.scan asciiLower) wholeMoves := by
  have hquiet {x x₁ : Exchange} {move : ExchangeMove} {moves : List ExchangeMove}
      (h : x.step uploadPrimitives swapRequest (Search.AhoCorasick.scan asciiLower) move = some x₁) (hb : ¬ x.Builds move)
      (hrest : x₁.OnTime uploadPrimitives swapRequest (Search.AhoCorasick.scan asciiLower) moves) :
      x.OnTime uploadPrimitives swapRequest (Search.AhoCorasick.scan asciiLower) (move :: moves) :=
    ⟨fun h' => absurd h' hb, fun x' h' => Option.some.inj (h.symm.trans h') ▸ hrest⟩
  refine hquiet rfl id (hquiet rfl id (hquiet rfl id (hquiet rfl id (hquiet rfl id ?_))))
  exact ⟨fun _ => rfl, fun _ _ => trivial⟩

theorem receipts_hash_body_hi : ∃ x,
    (start alphaPolicy bodyChunks).run uploadPrimitives swapRequest (Search.AhoCorasick.scan asciiLower) wholeMoves = some x ∧
    x.sys.receipts.length = 1 ∧
    ∀ r ∈ x.sys.receipts, r.requestHash = toHex (uploadPrimitives.blake3 bodyChunks.flatten) := by
  have hrun : ((start alphaPolicy bodyChunks).run uploadPrimitives swapRequest (Search.AhoCorasick.scan asciiLower)
      wholeMoves).map (fun x => x.sys.receipts.length) = some 1 := rfl
  obtain ⟨x, hx, hlen⟩ := Option.map_eq_some_iff.1 hrun
  exact ⟨x, hx, hlen, receipts_hash_body _ _ _ hx wholeMoves_onTime⟩

/-- The refusal comes after the first chunk: its receipt carries the hash of that chunk. -/
theorem early_refusal_hashes_part : ∃ x r,
    (start alphaPolicy bodyChunks).run uploadPrimitives swapRequest (Search.AhoCorasick.scan asciiLower) earlyMoves = some x ∧
    r ∈ x.sys.receipts ∧ r.requestHash = "85052e9aab1b67b6622d94a08441b09fd5b7aca61ee360416d70de5da67d86ca" ∧
    toHex (uploadPrimitives.blake3 bodyChunks.flatten) =
      "2a66e9faaa543ba88df1ca12549f1acd7d8b9325ae04ee24392d85782e9c4bc8" := by
  have hrun : ((start alphaPolicy bodyChunks).run uploadPrimitives swapRequest (Search.AhoCorasick.scan asciiLower)
      earlyMoves).map (fun x => x.sys.receipts.map AttestedReceipt.requestHash) =
      some ["85052e9aab1b67b6622d94a08441b09fd5b7aca61ee360416d70de5da67d86ca"] := rfl
  obtain ⟨x, hx, hhash⟩ := Option.map_eq_some_iff.1 hrun
  obtain ⟨r, hr, hrhash⟩ := List.mem_map.1 (hhash.symm ▸ List.mem_singleton.2 rfl)
  exact ⟨x, r, hx, hr, hrhash, rfl⟩

end Exchange

end PiiProxy
