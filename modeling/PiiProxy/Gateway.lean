import Mathlib.Algebra.Group.Nat.Defs
import PiiProxy.Engine
import PiiProxy.Policy
import PiiProxy.Receipt
import PiiProxy.Text

/-!
# The router: who may do what

| here | there |
| --- | --- |
| `limitedStream`, `enforceBodyLimit` | `enforce_body_limit` (lib.rs:331) |
| `requireAuth`            | `require_auth` (lib.rs:380) |
| `authMiddleware`         | `auth_middleware` (lib.rs:406) |
| `allowedOrigin`, `gateway` | `cors_middleware` (lib.rs:441), around the rest of `make_router` (lib.rs:204) |
| `updateRules`            | the extractor of `update_rules` (lib.rs:289), around `Policy.updateRules` |
| `watchAuthFile`          | one event of `watch_auth_file` (main.rs:437) |
| `watchPiiConfig`         | one event of `watch_pii_config` (main.rs:503), its attempts to read included |

A request passes the origin check, the body limit and the route's own check, in this order, and
meets the keys and the policy that are in force at that moment; the watchers replace both
between requests. The checks of a route are layers around all its methods, so they come before
the 405 of a method that it does not have. `axum`'s `Json` extractor is a parameter, with the
statuses it refuses with.

* `limitedStream_spec` — what is let through of a body is the chunks before the limit, and no chunk after
* `forwarded_iff` — after any run, who is forwarded: the holders of the last keys that were loaded
* `policy_from_operator` — the policy is the operator's: no request of a tenant changes it
-/

namespace PiiProxy.Gateway

open Utf8 (encode)

/-! ## Headers -/

/-- What `HeaderValue::to_str` takes. -/
def isVisible (b : UInt8) : Bool := (32 ≤ b && b < 127) || b == 9

def toStr (value : Bytes) : Option Bytes := if value.all isVisible then some value else none

def stripPrefix (pre value : Bytes) : Option Bytes := if pre <+: value then some (value.drop pre.length) else none

def bearer : Bytes := encode "Bearer "

/-- The digits of `str::parse::<usize>`. -/
def parseDigits : Bytes → Option Nat
  | [] => none
  | ds => if ds.all (fun d => 48 ≤ d && d ≤ 57) then some (ds.foldl (fun n d => 10 * n + (d.toNat - 48)) 0) else none

/-- `str::parse::<usize>`; a number of more than 64 bits is an error like any other. -/
def parseUsize (value : Bytes) : Option Nat :=
  (parseDigits ((stripPrefix [43] value).getD value)).filter (· < 2 ^ 64)

inductive Method where
  | get
  | head
  | post
  | options
  | other
deriving DecidableEq, Repr

structure Request where
  method : Method
  path : String
  authorization : Option Bytes
  origin : Option Bytes
  contentLength : Option Bytes
  contentType : Option Bytes
  /-- The chunks of the body, as they come. -/
  body : List (Except String Bytes)

/-! ## The body limit -/

inductive RequestBodyError where
  | limitExceeded (limit : Nat)
  | upstream (error : String)
deriving DecidableEq, Repr

def maxBodySize : Nat := 2 * 1024 * 1024

/-- The stream `enforce_body_limit` puts in the body's place; `total` is what has come so far. -/
def limitedStream (total : Nat) : List (Except String Bytes) → List (Except RequestBodyError Bytes)
  | [] => []
  | .ok bytes :: rest =>
    let nextTotal := min (total + bytes.length) (2 ^ 64 - 1)
    (if nextTotal > maxBodySize then .error (.limitExceeded maxBodySize) else .ok bytes) :: limitedStream nextTotal rest
  | .error error :: rest => .error (.upstream error) :: limitedStream total rest

/-- Refused for its `content-length`; a length that does not parse is none. -/
def enforceBodyLimit (contentLength : Option Bytes) : Bool :=
  ((contentLength.bind toStr).bind parseUsize).any (· > maxBodySize)

/-! ## Keys -/

section Router

variable (blake3 : Bytes → Bytes) (build : Builder)

structure State where
  keyring : List Bytes
  adminBearerTokenHash : Bytes
  allowedOrigins : List String
  policy : Policy

/-- The bearer token of an `authorization` header. -/
def token (authorization : Option Bytes) : Option Bytes := (authorization.bind toStr).bind (stripPrefix bearer)

/-- The tenant of a request that is let in; every key of the ring is compared. -/
def requireAuth (keyring : List Bytes) (authorization : Option Bytes) : Option Bytes :=
  match token authorization with
  | some token => if keyring.foldl (fun found valid => found || blake3 token == valid) false then some (blake3 token) else none
  | none => none

def authMiddleware (s : State) (authorization : Option Bytes) : Except Nat Unit :=
  match token authorization with
  | none => .error 401
  | some token =>
    if blake3 token = s.adminBearerTokenHash then .ok ()
    else if s.keyring.any fun valid => blake3 token == valid then .error 403
    else .error 401

/-! ## Routes -/

inductive Endpoint where
  | attestation
  | completions
  | rules
  | metrics
deriving DecidableEq, Repr

def Endpoint.path : Endpoint → String
  | .attestation => "/_attestation"
  | .completions => "/v1/chat/completions"
  | .rules => "/_admin/rules"
  | .metrics => "/_admin/metrics"

/-- `get` takes `HEAD` too. -/
def Endpoint.takes : Endpoint → Method → Bool
  | .attestation, method | .metrics, method => method == .get || method == .head
  | .completions, method | .rules, method => method == .post

def endpoint (path : String) : Option Endpoint :=
  [Endpoint.attestation, .completions, .rules, .metrics].find? fun e => e.path == path

/-- What a request comes to. -/
inductive Action where
  /-- `proxy_with_upstream`, for a tenant and with the limited body. -/
  | forwarded (tenant : Bytes) (body : List (Except RequestBodyError Bytes))
  | attestation
  | rendered
  | swapped
  | refused (status : Nat)
  /-- An answer to `OPTIONS`. -/
  | preflight
deriving DecidableEq, Repr

structure Response where
  /-- The value of `access-control-allow-origin`. -/
  allowOrigin : Option Bytes
  action : Action

/-- `axum::Json<RulesUpdate>`, of the content type and the body: the patterns, or the status of its refusal. -/
abbrev JsonExtractor := Option Bytes → List (Except RequestBodyError Bytes) → Except Nat (List String)

variable (json : JsonExtractor)

/-- The extractor's refusal, or what the handler makes of the patterns; `joined` tells whether its blocking task came
back. -/
def updateRules (s : State) (r : Request) (joined : Bool) : State × Action :=
  match json r.contentType (limitedStream 0 r.body) with
  | .error status => (s, .refused status)
  | .ok patterns =>
    let (status, policy) := s.policy.updateRules build patterns joined
    ({ s with policy }, if status = 200 then .swapped else .refused status)

def handler (s : State) (r : Request) (joined : Bool) : State × Action :=
  match endpoint r.path with
  | none => (s, .refused 404)
  | some e => match e with
    | .attestation => if e.takes r.method then (s, .attestation) else (s, .refused 405)
    | .completions => match requireAuth blake3 s.keyring r.authorization with
      | none => (s, .refused 401)
      | some tenant => if e.takes r.method then (s, .forwarded tenant (limitedStream 0 r.body)) else (s, .refused 405)
    | .rules => match authMiddleware blake3 s r.authorization with
      | .error status => (s, .refused status)
      | .ok () => if e.takes r.method then updateRules build json s r joined else (s, .refused 405)
    | .metrics => match authMiddleware blake3 s r.authorization with
      | .error status => (s, .refused status)
      | .ok () => if e.takes r.method then (s, .rendered) else (s, .refused 405)

/-- An origin that is on the list. -/
def allowedOrigin (s : State) (origin : Bytes) : Bool := s.allowedOrigins.any fun allowed => encode allowed == origin

/-- The layers, from the outside in. An origin that is no `str` counts as none. -/
def gateway (s : State) (r : Request) (joined : Bool) : State × Response :=
  let origin := r.origin.bind toStr
  let allowed := origin.filter (allowedOrigin s)
  if origin.isSome ∧ allowed.isNone then (s, ⟨none, .refused 403⟩)
  else if r.method = .options then (s, ⟨allowed, .preflight⟩)
  else if enforceBodyLimit r.contentLength then (s, ⟨allowed, .refused 413⟩)
  else
    let (s, action) := handler blake3 build json s r joined
    (s, ⟨allowed, action⟩)

/-! ## Runs -/

/-- The first of the four attempts to read a file that succeeds. -/
def readRetrying (attempts : List (Option String)) : Option String := (attempts.take 4).findSome? id

/-- An auth file that cannot be read, or that holds no token, changes nothing. -/
def watchAuthFile (s : State) (attempts : List (Option String)) : State :=
  match readRetrying attempts with
  | none => s
  | some contents =>
    let nextKeyring := hashKeyring blake3 contents
    if nextKeyring = [] then s else { s with keyring := nextKeyring }

def watchPiiConfig (s : State) (attempts : List (Option String)) : State :=
  { s with policy := s.policy.step build (.reload (readRetrying attempts)) }

inductive Event where
  | request (r : Request) (joined : Bool)
  | authFile (attempts : List (Option String))
  | piiConfig (attempts : List (Option String))

def step (s : State) : Event → State
  | .request r joined => (gateway blake3 build json s r joined).1
  | .authFile attempts => watchAuthFile blake3 s attempts
  | .piiConfig attempts => watchPiiConfig build s attempts

def run (s : State) (events : List Event) : State := events.foldl (step blake3 build json) s

end Router

/-! ## What the limit lets through -/

section Limit

/-- The chunks of a stream that are no errors. -/
def chunksOf {ε : Type} (stream : List (Except ε Bytes)) : List Bytes := stream.filterMap Except.toOption

variable {total : Nat}

/-- Once the limit is passed, every chunk is an error, however short. -/
theorem limitedStream_over (body : List (Except String Bytes)) : ∀ {total : Nat}, maxBodySize < total →
    chunksOf (limitedStream total body) = [] := by
  induction body with
  | nil => intros; rfl
  | cons chunk body ih =>
    intro total h
    cases chunk with
    | error e => exact ih h
    | ok bytes =>
      have hover : min (total + bytes.length) (2 ^ 64 - 1) > maxBodySize := by
        simp only [maxBodySize] at h ⊢
        omega
      simp only [limitedStream, hover, if_true]
      exact ih hover

theorem limitedStream_take (body : List (Except String Bytes)) : ∀ {total : Nat}, total ≤ maxBodySize →
    ∃ k, chunksOf (limitedStream total body) = (chunksOf body).take k ∧
      total + ((chunksOf body).take k).flatten.length ≤ maxBodySize ∧
      (k < (chunksOf body).length → maxBodySize < total + ((chunksOf body).take (k + 1)).flatten.length) := by
  induction body with
  | nil =>
    intro total h
    exact ⟨0, rfl, by simpa using h, by simp [chunksOf]⟩
  | cons chunk body ih =>
    intro total h
    cases chunk with
    | error e => exact ih h
    | ok bytes =>
      have hchunks : chunksOf (.ok bytes :: body : List (Except String Bytes)) = bytes :: chunksOf body := rfl
      rw [hchunks]
      by_cases hover : min (total + bytes.length) (2 ^ 64 - 1) > maxBodySize
      · refine ⟨0, ?_, by simpa using h, ?_⟩
        · simp only [limitedStream, hover, if_true]
          exact limitedStream_over body hover
        · intro _
          rw [List.take_succ_cons, List.take_zero, List.flatten_cons, List.flatten_nil, List.append_nil]
          omega
      · have hnext : min (total + bytes.length) (2 ^ 64 - 1) = total + bytes.length := by
          simp only [maxBodySize] at hover
          omega
        rw [hnext] at hover
        obtain ⟨k, htake, hle, hmax⟩ := @ih (total + bytes.length) (by omega)
        refine ⟨k + 1, ?_, ?_, fun hk => ?_⟩
        · simp only [limitedStream, hnext, hover, if_false, List.take_succ_cons, ← htake]
          rfl
        · rw [List.take_succ_cons, List.flatten_cons, List.length_append]
          omega
        · rw [List.length_cons] at hk
          have := hmax (by omega)
          rw [List.take_succ_cons, List.flatten_cons, List.length_append]
          omega

/-- **What the limit lets through.** The handler gets as many items as the body has; the chunks among them are those
from the front of the body that fit together in the limit, and no chunk after the first that does not. -/
theorem limitedStream_spec (body : List (Except String Bytes)) :
    (limitedStream 0 body).length = body.length ∧
    ∃ k, chunksOf (limitedStream 0 body) = (chunksOf body).take k ∧
      (chunksOf (limitedStream 0 body)).flatten.length ≤ maxBodySize ∧
      (k < (chunksOf body).length → maxBodySize < ((chunksOf body).take (k + 1)).flatten.length) := by
  have hlen : ∀ (body : List (Except String Bytes)) (total : Nat), (limitedStream total body).length = body.length := by
    intro body
    induction body with
    | nil => intro; rfl
    | cons chunk body ih =>
      intro total
      cases chunk with
      | error e => simp [limitedStream, ih]
      | ok bytes => simp [limitedStream, ih]
  obtain ⟨k, htake, hle, hmax⟩ := @limitedStream_take body 0 (Nat.zero_le _)
  rw [Nat.zero_add] at hle hmax
  exact ⟨hlen body 0, k, htake, by rwa [htake], hmax⟩

end Limit

/-! ## Who is forwarded -/

section Keys

variable {blake3 : Bytes → Bytes} {build : Builder} {json : JsonExtractor} {s : State} {contents : String} {r : Request}
  {joined : Bool}

/-- The tokens of an auth file. -/
def tokens (contents : String) : List String :=
  (((Text.lines contents.toList).map Text.trim).filter (· ≠ [])).map String.ofList

theorem hashKeyring_eq (contents : String) :
    hashKeyring blake3 contents = (tokens contents).map fun token => blake3 (encode token) := by
  rw [hashKeyring, tokens, List.map_map]
  rfl

/-- The auth file whose keys are in force: the last one that could be read and held a token. -/
def authFileAfter (contents : String) : List Event → String
  | [] => contents
  | .authFile attempts :: events => match readRetrying attempts with
    | some next => if tokens next = [] then authFileAfter contents events else authFileAfter next events
    | none => authFileAfter contents events
  | _ :: events => authFileAfter contents events

/-- What a request can change: the policy. -/
theorem gateway_eq (s : State) (r : Request) (joined : Bool) :
    ∃ policy, (gateway blake3 build json s r joined).1 = { s with policy } := by
  have hrules : ∃ policy, (updateRules build json s r joined).1 = { s with policy } := by
    unfold updateRules
    split
    · exact ⟨s.policy, rfl⟩
    · exact ⟨_, rfl⟩
  unfold gateway handler
  simp only
  split_ifs
  · exact ⟨s.policy, rfl⟩
  · exact ⟨s.policy, rfl⟩
  · exact ⟨s.policy, rfl⟩
  · split
    · exact ⟨s.policy, rfl⟩
    · split
      · split <;> exact ⟨s.policy, rfl⟩
      · split
        · exact ⟨s.policy, rfl⟩
        · split <;> exact ⟨s.policy, rfl⟩
      · split
        · exact ⟨s.policy, rfl⟩
        · split
          · exact hrules
          · exact ⟨s.policy, rfl⟩
      · split
        · exact ⟨s.policy, rfl⟩
        · split <;> exact ⟨s.policy, rfl⟩

/-- A request changes no key, and no event the operator's token or the origins. -/
theorem gateway_keeps (s : State) (r : Request) (joined : Bool) :
    (gateway blake3 build json s r joined).1.keyring = s.keyring ∧
    (gateway blake3 build json s r joined).1.adminBearerTokenHash = s.adminBearerTokenHash ∧
    (gateway blake3 build json s r joined).1.allowedOrigins = s.allowedOrigins := by
  obtain ⟨policy, h⟩ := @gateway_eq blake3 build json s r joined
  rw [h]
  exact ⟨rfl, rfl, rfl⟩

theorem step_keeps (s : State) (e : Event) : (step blake3 build json s e).adminBearerTokenHash = s.adminBearerTokenHash ∧
    (step blake3 build json s e).allowedOrigins = s.allowedOrigins := by
  cases e with
  | request r joined => exact (gateway_keeps s r joined).2
  | authFile attempts =>
    simp only [step, watchAuthFile]
    split
    · exact ⟨rfl, rfl⟩
    · split <;> exact ⟨rfl, rfl⟩
  | piiConfig attempts => exact ⟨rfl, rfl⟩

theorem run_keeps (s : State) (events : List Event) :
    (run blake3 build json s events).adminBearerTokenHash = s.adminBearerTokenHash ∧
    (run blake3 build json s events).allowedOrigins = s.allowedOrigins := by
  induction events generalizing s with
  | nil => exact ⟨rfl, rfl⟩
  | cons e events ih =>
    have hstep := @step_keeps blake3 build json s e
    have hrest := ih (step blake3 build json s e)
    exact ⟨hrest.1.trans hstep.1, hrest.2.trans hstep.2⟩

/-- **The keys in force** are those of the last auth file with tokens. -/
theorem run_keyring (events : List Event) : ∀ {s : State} {contents : String}, s.keyring = hashKeyring blake3 contents →
    (run blake3 build json s events).keyring = hashKeyring blake3 (authFileAfter contents events) := by
  induction events with
  | nil => exact fun h => h
  | cons e events ih =>
    intro s contents hs
    cases e with
    | request r joined => exact ih ((gateway_keeps s r joined).1.trans hs)
    | piiConfig attempts =>
      have hs' : (watchPiiConfig build s attempts).keyring = hashKeyring blake3 contents := hs
      exact ih hs'
    | authFile attempts =>
      have hnil : ∀ next, hashKeyring blake3 next = [] ↔ tokens next = [] := fun next => by
        rw [hashKeyring_eq, List.map_eq_nil_iff]
      rw [run, List.foldl_cons, ← run, step, watchAuthFile, authFileAfter]
      cases hread : readRetrying attempts with
      | none => exact ih hs
      | some next =>
        by_cases hempty : tokens next = []
        · simp only [(hnil next).2 hempty, hempty, if_true]
          exact ih hs
        · simp only [mt (hnil next).1 hempty, hempty, if_false]
          exact ih rfl

theorem toStr_eq_some {value v : Bytes} : toStr value = some v ↔ value = v ∧ ∀ b ∈ v, isVisible b = true := by
  unfold toStr
  split
  · rename_i h
    rw [List.all_eq_true] at h
    simp only [Option.some.injEq]
    exact ⟨fun he => ⟨he, he ▸ h⟩, fun he => he.1⟩
  · rename_i h
    rw [List.all_eq_true] at h
    simp only [reduceCtorEq, false_iff, not_and]
    rintro rfl
    exact h

theorem token_eq_some {authorization : Option Bytes} {x : Bytes} : token authorization = some x ↔
    authorization = some (bearer ++ x) ∧ ∀ b ∈ x, isVisible b = true := by
  have hbearer : ∀ b ∈ bearer, isVisible b = true := by decide +kernel
  simp only [token, Option.bind_eq_some_iff, toStr_eq_some]
  constructor
  · rintro ⟨v, ⟨value, hvalue, rfl, hv⟩, hstrip⟩
    unfold stripPrefix at hstrip
    split at hstrip
    · rename_i hpre
      obtain ⟨t, rfl⟩ := hpre
      rw [List.drop_left, Option.some.injEq] at hstrip
      subst hstrip
      exact ⟨hvalue, fun b hb => hv b (List.mem_append_right _ hb)⟩
    · cases hstrip
  · rintro ⟨rfl, hx⟩
    refine ⟨bearer ++ x, ⟨_, rfl, rfl, ?_⟩, ?_⟩
    · intro b hb
      rcases List.mem_append.1 hb with hb | hb
      · exact hbearer b hb
      · exact hx b hb
    · rw [stripPrefix, if_pos (List.prefix_append _ _), List.drop_left]

/-- The loop over the ring finds what is in it. -/
theorem foldl_or_eq (h : Bytes) (keyring : List Bytes) (found : Bool) :
    keyring.foldl (fun found valid => found || h == valid) found = true ↔ found = true ∨ h ∈ keyring := by
  induction keyring generalizing found with
  | nil => simp
  | cons valid keyring ih => rw [List.foldl_cons, ih, Bool.or_eq_true, beq_iff_eq, List.mem_cons, or_assoc]

theorem requireAuth_eq_some {keyring : List Bytes} {authorization : Option Bytes} {tenant : Bytes} :
    requireAuth blake3 keyring authorization = some tenant ↔
      ∃ x, token authorization = some x ∧ blake3 x ∈ keyring ∧ tenant = blake3 x := by
  unfold requireAuth
  cases token authorization with
  | none => simp
  | some x =>
    have hmem := foldl_or_eq (blake3 x) keyring false
    simp only [Bool.false_eq_true, false_or] at hmem
    simp only [Option.some.injEq, exists_eq_left', hmem]
    by_cases h : blake3 x ∈ keyring
    · simp only [h, if_true, true_and, Option.some.injEq]
      exact eq_comm
    · simp [h]

/-- The layers let the request through to its route. -/
structure Passes (s : State) (r : Request) : Prop where
  origin : ∀ o, r.origin.bind toStr = some o → ∃ allowed ∈ s.allowedOrigins, encode allowed = o
  length : enforceBodyLimit r.contentLength = false

theorem allowed_iff (s : State) (r : Request) :
    (¬ ((r.origin.bind toStr).isSome ∧ ((r.origin.bind toStr).filter (allowedOrigin s)).isNone)) ↔
      ∀ o, r.origin.bind toStr = some o → ∃ allowed ∈ s.allowedOrigins, encode allowed = o := by
  cases r.origin.bind toStr with
  | none => simp
  | some o =>
    by_cases h : allowedOrigin s o = true <;> simp [Option.filter, h] <;> simpa [allowedOrigin] using h

/-- What passes, and is no `OPTIONS`, is handled. -/
theorem gateway_passes (hp : Passes s r) (hm : r.method ≠ .options) :
    (gateway blake3 build json s r joined).1 = (handler blake3 build json s r joined).1 ∧
    (gateway blake3 build json s r joined).2.action = (handler blake3 build json s r joined).2 := by
  unfold gateway
  simp only [if_neg ((allowed_iff s r).2 hp.origin), if_neg hm, hp.length, Bool.false_eq_true, if_false, and_self]

theorem gateway_not_passes (hp : ¬ (Passes s r ∧ r.method ≠ .options)) :
    (gateway blake3 build json s r joined).1 = s ∧
    ((gateway blake3 build json s r joined).2.action = .refused 403 ∨
      (gateway blake3 build json s r joined).2.action = .refused 413 ∨
      (gateway blake3 build json s r joined).2.action = .preflight) := by
  unfold gateway
  simp only
  split_ifs with h1 h2 h3
  · exact ⟨rfl, .inl rfl⟩
  · exact ⟨rfl, .inr (.inr rfl)⟩
  · exact ⟨rfl, .inr (.inl rfl)⟩
  · exact absurd ⟨⟨(allowed_iff s r).1 h1, by simpa using h3⟩, h2⟩ hp

theorem endpoint_eq_some {path : String} {e : Endpoint} : endpoint path = some e ↔ path = e.path := by
  constructor
  · intro h
    have he := List.find?_some h
    exact (beq_iff_eq.1 he).symm
  · rintro rfl
    cases e <;> decide

/-- The rules route installs or refuses. -/
theorem updateRules_action (s : State) (r : Request) (joined : Bool) :
    (updateRules build json s r joined).2 = .swapped ∨ ∃ status, (updateRules build json s r joined).2 = .refused status := by
  unfold updateRules
  split
  · exact .inr ⟨_, rfl⟩
  · by_cases h : (s.policy.updateRules build ‹_› joined).1 = 200
    · exact .inl (if_pos h)
    · exact .inr ⟨_, if_neg h⟩

theorem handler_forwarded {tenant : Bytes} {body : List (Except RequestBodyError Bytes)} :
    (handler blake3 build json s r joined).2 = .forwarded tenant body ↔
      (r.method = .post ∧ r.path = "/v1/chat/completions") ∧
      requireAuth blake3 s.keyring r.authorization = some tenant ∧ body = limitedStream 0 r.body := by
  have hpath : r.path = "/v1/chat/completions" ↔ endpoint r.path = some .completions :=
    (@endpoint_eq_some r.path .completions).symm
  unfold handler
  rw [hpath]
  cases endpoint r.path with
  | none => simp
  | some e =>
    cases e with
    | attestation => by_cases hm : Endpoint.takes .attestation r.method = true <;> simp [hm]
    | completions =>
      cases hauth : requireAuth blake3 s.keyring r.authorization with
      | none => simp
      | some x =>
        by_cases hm : r.method = .post
        · simp only [Endpoint.takes, hm, beq_self_eq_true, if_true, Action.forwarded.injEq, Option.some.injEq, true_and]
          exact and_congr_right fun _ => eq_comm
        · simp [Endpoint.takes, hm]
    | rules =>
      simp only [Option.some.injEq, reduceCtorEq, and_false, false_and, iff_false]
      split
      · simp
      · split
        · rcases @updateRules_action build json s r joined with h | ⟨status, h⟩ <;> simp [h]
        · simp
    | metrics =>
      simp only [Option.some.injEq, reduceCtorEq, and_false, false_and, iff_false]
      split
      · simp
      · split <;> simp

/-- A second auth file without tokens, then a third. -/
def reloads : List Event := [.authFile [none, some " \n\n"], .authFile [some "beta-key\r\n  \ngamma-key "]]

def keyDigests : Bytes → Bytes := tabled
  [(encode "alpha-key", ofHex "fc9e9c371008338d7b13714420a5baf36c9e43ac7320e63579b6d849168c64e7"),
    (encode "beta-key", ofHex "1fbc57cf2f24759f54e6ba703ea71767b1757866e67fa0a0811cb214ef5a61f9"),
    (encode "gamma-key", ofHex "d091ca6375b043d492578f14f288f1d630231b3d705fa9c5140f96103421e469"),
    (encode "root-key", ofHex "01e55d7b53f71f995d238c63197e671bfc1beec188a71a8f869d79f03f1a03af")]

/-- A proxy with one tenant's token and the operator's. -/
def keyState : State where
  keyring := hashKeyring keyDigests "alpha-key\n"
  adminBearerTokenHash := keyDigests (encode "root-key")
  allowedOrigins := ["https://app.example"]
  policy := Policy.initial (Search.AhoCorasick.scan asciiLower)

def gammaRequest : Request where
  method := .post
  path := "/v1/chat/completions"
  authorization := some (encode "Bearer gamma-key")
  origin := some (encode "https://app.example")
  contentLength := some (encode "2")
  contentType := some (encode "application/json")
  body := [.ok (encode "\x7b\x7d")]

end Keys

/-! ## Whose the policy is -/

section Policy

variable {blake3 : Bytes → Bytes} {build : Builder} {json : JsonExtractor} {s : State} {r : Request}

/-- A rules request with the operator's token, or a change of the configuration file. -/
def FromOperator (blake3 : Bytes → Bytes) (s : State) : Event → Prop
  | .request r _ => (r.method = .post ∧ r.path = "/_admin/rules") ∧ Passes s r ∧
      ∃ x, token r.authorization = some x ∧ blake3 x = s.adminBearerTokenHash
  | .piiConfig _ => True
  | .authFile _ => False

theorem authMiddleware_eq_ok {authorization : Option Bytes} (h : authMiddleware blake3 s authorization = .ok ()) :
    ∃ x, token authorization = some x ∧ blake3 x = s.adminBearerTokenHash := by
  unfold authMiddleware at h
  cases ht : token authorization with
  | none => simp [ht] at h
  | some x =>
    simp only [ht] at h
    split_ifs at h with h1 h2
    exact ⟨x, rfl, h1⟩

/-- What is not the operator's leaves the policy. -/
theorem step_policy {e : Event} (h : ¬ FromOperator blake3 s e) : (step blake3 build json s e).policy = s.policy := by
  cases e with
  | piiConfig attempts => exact absurd trivial h
  | authFile attempts =>
    simp only [step, watchAuthFile]
    split
    · rfl
    · split <;> rfl
  | request r joined =>
    simp only [step]
    by_cases hp : Passes s r ∧ r.method ≠ .options
    · rw [(gateway_passes hp.1 hp.2).1]
      unfold handler
      cases hpath : endpoint r.path with
      | none => rfl
      | some e =>
        cases e with
        | attestation => simp only [apply_ite Prod.fst, ite_self]
        | completions => cases requireAuth blake3 s.keyring r.authorization <;> simp only [apply_ite Prod.fst, ite_self]
        | metrics => cases authMiddleware blake3 s r.authorization <;> simp only [apply_ite Prod.fst, ite_self]
        | rules =>
          cases hauth : authMiddleware blake3 s r.authorization with
          | error status => rfl
          | ok u =>
            by_cases hm : Endpoint.takes .rules r.method = true
            · exact absurd ⟨⟨beq_iff_eq.1 hm, endpoint_eq_some.1 hpath⟩, hp.1, authMiddleware_eq_ok hauth⟩ h
            · simp only [hm, Bool.false_eq_true, if_false]
    · rw [(@gateway_not_passes blake3 build json _ _ joined hp).1]

/-- Neither the token nor the origins change in a run, so who is the operator does not. -/
theorem fromOperator_run (events : List Event) (e : Event) :
    FromOperator blake3 (run blake3 build json s events) e ↔ FromOperator blake3 s e := by
  obtain ⟨hadmin, horigins⟩ := @run_keeps blake3 build json s events
  cases e with
  | piiConfig attempts => exact Iff.rfl
  | authFile attempts => exact Iff.rfl
  | request r joined =>
    have hpass : Passes (run blake3 build json s events) r ↔ Passes s r :=
      ⟨fun h => ⟨horigins ▸ h.origin, h.length⟩, fun h => ⟨horigins ▸ h.origin, h.length⟩⟩
    simp only [FromOperator, hpass, hadmin]

/-- **The policy is the operator's.** In every run of requests and reloads, the policy at the end is the one that was
left by the last rules request with the operator's token or by the last change of the configuration file, or the one
at the start if there was neither: no key of a tenant changes it. -/
theorem policy_from_operator (s : State) (events : List Event) :
    ((∀ e ∈ events, ¬ FromOperator blake3 s e) ∧ (run blake3 build json s events).policy = s.policy) ∨
    ∃ pre e post, events = pre ++ e :: post ∧ FromOperator blake3 s e ∧ (∀ e' ∈ post, ¬ FromOperator blake3 s e') ∧
      (run blake3 build json s events).policy = (step blake3 build json (run blake3 build json s pre) e).policy := by
  induction events using List.reverseRecOn with
  | nil => exact .inl ⟨by simp, rfl⟩
  | append_singleton events e ih =>
    have hrun : run blake3 build json s (events ++ [e]) = step blake3 build json (run blake3 build json s events) e := by
      rw [run, List.foldl_append]
      rfl
    by_cases he : FromOperator blake3 s e
    · exact .inr ⟨events, e, [], rfl, he, by simp, by rw [hrun]⟩
    · have he' : ¬ FromOperator blake3 (run blake3 build json s events) e := by
        rw [fromOperator_run]
        exact he
      have hkeep := @step_policy blake3 build json _ e he'
      rcases ih with ⟨hno, hsame⟩ | ⟨pre, e', post, rfl, he', hpost, hsame⟩
      · refine .inl ⟨?_, by rw [hrun, hkeep, hsame]⟩
        intro x hx
        rcases List.mem_append.1 hx with hx | hx
        · exact hno x hx
        · rwa [List.mem_singleton.1 hx]
      · refine .inr ⟨pre, e', post ++ [e], by simp, he', ?_, by rw [hrun, hkeep, hsame]⟩
        intro x hx
        rcases List.mem_append.1 hx with hx | hx
        · exact hpost x hx
        · rwa [List.mem_singleton.1 hx]

end Policy

end PiiProxy.Gateway
