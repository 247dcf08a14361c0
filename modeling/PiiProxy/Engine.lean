import PiiProxy.Base
import PiiProxy.Lib.Search

/-!
# The redaction engine

| here | there |
| --- | --- |
| `AhoCorasick asciiLower`     | `AhoCorasick` built with `ascii_case_insensitive(true)` |
| `buildRedactionDfa`          | `build_redaction_dfa` (engine.rs:17) |
| `EngineState`, `OutputSegment` | the types of that name (engine.rs:35, 41) |
| `PiiVault.new`               | `PiiVault::new` (engine.rs:204) |
| `redactText`                 | `redact_text` (engine.rs:260) |
| `determineSafeBoundaryState` | `determine_safe_boundary_state` (engine.rs:283) |
| `StreamRedactor`             | `StreamRedactor` (engine.rs:88) |

A `str` is its bytes. The searcher comes from a crate: `Builder` is any function that
gives one for the patterns, and its contract is in its type. Where the source indexes
or slices, so does the model, with the panic that can raise.
-/

namespace PiiProxy

open Utf8 (encode)
open Search (Match AhoCorasick)

def asciiLower (b : UInt8) : UInt8 := if 65 ≤ b ∧ b ≤ 90 then b + 32 else b

/-- `AhoCorasick::builder().ascii_case_insensitive(true).build(..)`. -/
abbrev Builder := ∀ ps : List Bytes, AhoCorasick asciiLower ps

def defaultPatterns : List String := ["password", "secret", "ssn"]

/-- The shared automaton of the default patterns is built by the same call, so the
source's two branches are one. -/
def buildRedactionDfa (build : Builder) (patterns : List String) :
    AhoCorasick asciiLower (patterns.map encode) := build (patterns.map encode)

inductive OutputSegment where
  | input (bytes : Bytes)
  | replacement (bytes : Bytes)
deriving DecidableEq, Repr

/-- `patterns.iter().map(String::len).max().unwrap_or(0)`. -/
def maxLen (patterns : List String) : Nat :=
  patterns.foldl (fun n p => max n (encode p).length) 0

structure EngineState where
  patterns : List String
  ac : AhoCorasick asciiLower (patterns.map encode)
  maxPatternLen : Nat
  replacements : List Bytes
  replacementStrings : List String
  maxPatternLen_eq : maxPatternLen = maxLen patterns
  replacements_eq : replacements = replacementStrings.map encode

def EngineState.new (build : Builder) (patterns replacements : List String) : EngineState where
  patterns := patterns
  ac := buildRedactionDfa build patterns
  maxPatternLen := maxLen patterns
  replacements := replacements.map encode
  replacementStrings := replacements
  maxPatternLen_eq := rfl
  replacements_eq := rfl

/-- The policy of the default patterns. -/
def defaultEngine (build : Builder) : EngineState :=
  .new build defaultPatterns (defaultPatterns.map fun _ => "[REDACTED]")

structure PiiVault where
  patterns : List String
  searcher : AhoCorasick asciiLower (patterns.map encode)
  replacementStrings : List String
  engineState : EngineState

/-- `assert_eq!` on the two lengths, then everything is built from the arguments. -/
def PiiVault.new (build : Builder) (patterns replacements : List String) : Except Panic PiiVault :=
  if patterns.length = replacements.length then
    .ok ⟨patterns, buildRedactionDfa build patterns, replacements, .new build patterns replacements⟩
  else .error .assertion

/-- `&text[lo..hi]` on a `str`. -/
def strSlice (text : Bytes) (lo hi : Nat) : Except Panic Bytes :=
  if lo ≤ hi ∧ hi ≤ text.length ∧ Utf8.isCharBoundary text lo = true ∧ Utf8.isCharBoundary text hi = true then
    .ok ((text.take hi).drop lo)
  else .error .charBoundary

/-- `v[i]`. -/
def index {α : Type} (v : List α) (i : Nat) : Except Panic α :=
  match v[i]? with
  | some x => .ok x
  | none => .error .slice

/-! ## `redact_text` -/

/-- The loop over the matches, from `last`. -/
def redactTextLoop (vault : PiiVault) (text : Bytes) : Nat → List Match → Except Panic Bytes
  | last, [] => strSlice text last text.length
  | last, mat :: ms =>
    if last ≤ mat.start then do
      let before ← strSlice text last mat.start
      let replacement ← index vault.replacementStrings mat.pattern
      let rest ← redactTextLoop vault text mat.stop ms
      return before ++ encode replacement ++ rest
    else redactTextLoop vault text last ms

def redactText (vault : PiiVault) (text : Bytes) : Except Panic Bytes :=
  match vault.searcher.find text with
  | none => .ok text
  | some _ => redactTextLoop vault text 0 (vault.searcher.findIter text)

/-! ## The safe boundary -/

/-- The longest proper prefix of a pattern that ends the text, from `1..min(len)` each. -/
def retainLen (patterns : List String) (text : Bytes) : Nat :=
  patterns.foldl (fun retain pattern =>
    (List.range' 1 (min (encode pattern).length text.length - 1)).foldl (fun retain prefixLen =>
      if (encode pattern).take prefixLen <:+ text then max retain prefixLen else retain) retain) 0

/-- `while split_at > 0 && !text.is_char_boundary(split_at) { split_at -= 1 }`. -/
def walkBack (text : Bytes) : Nat → Nat
  | 0 => 0
  | n + 1 => if Utf8.isCharBoundary text (n + 1) then n + 1 else walkBack text n

def determineSafeBoundaryState (text : Bytes) (state : EngineState) : Except Panic (Bytes × Bytes) :=
  if text = [] then .ok ([], [])
  else if text.length ≤ state.maxPatternLen then .ok ([], text)
  else if state.patterns.any fun pattern => decide (encode pattern <:+ text) then .ok (text, [])
  else
    let retain := retainLen state.patterns text
    if retain = 0 then .ok (text, [])
    else
      let splitAt := walkBack text (text.length - retain)
      if splitAt = 0 then .ok ([], text)
      else do
        let safe ← strSlice text 0 splitAt
        let held ← strSlice text splitAt text.length
        return (safe, held)

/-! ## The stream redactor -/

inductive StreamRedactionError where
  | bufferLimitExceeded
  | invalidUtf8
deriving DecidableEq, Repr

/-- What a call can end with instead of a result. -/
inductive Fault where
  | err (e : StreamRedactionError)
  | panic (p : Panic)
deriving DecidableEq, Repr

def orPanic {α : Type} : Except Panic α → Except Fault α
  | .ok a => .ok a
  | .error p => .error (.panic p)

@[simp] theorem orPanic_ok {α : Type} (a : α) : orPanic (.ok a) = .ok a := rfl

def orErr {α : Type} : Except StreamRedactionError α → Except Fault α
  | .ok a => .ok a
  | .error e => .error (.err e)

@[simp] theorem orErr_ok {α : Type} (a : α) : orErr (.ok a) = .ok a := rfl

@[simp] theorem orErr_error {α : Type} (e : StreamRedactionError) :
    orErr (.error e : Except StreamRedactionError α) = .error (.err e) := rfl

structure StreamRedactor where
  state : EngineState
  pending : Bytes
  maxCapacity : Nat
  capacity_pos : 0 < maxCapacity

namespace StreamRedactor

def withStateMaxCapacity (state : EngineState) (maxCapacity : Nat) : Except Panic StreamRedactor :=
  if h : 0 < maxCapacity then .ok ⟨state, [], maxCapacity, h⟩ else .error .assertion

def withMaxCapacity (vault : PiiVault) (maxCapacity : Nat) : Except Panic StreamRedactor :=
  withStateMaxCapacity vault.engineState maxCapacity

/-- `DEFAULT_MAX_BUFFER_CAPACITY` (engine.rs:8). -/
def fromState (state : EngineState) : Except Panic StreamRedactor := withStateMaxCapacity state (64 * 1024)

def new (vault : PiiVault) : Except Panic StreamRedactor := fromState vault.engineState

/-- The loop of `redact_source` over the matches, from `last`; the last end comes back. -/
def redactLoop (state : EngineState) (source : Bytes) :
    Nat → List Match → Except Panic (List OutputSegment × Nat)
  | last, [] => .ok ([], last)
  | last, mat :: ms => do
    let before ← if last < mat.start then do
        let b ← slice source last mat.start
        pure [.input b]
      else pure []
    let replacement ← index state.replacements mat.pattern
    let (rest, last) ← redactLoop state source mat.stop ms
    return (before ++ .replacement replacement :: rest, last)

def redactSource (r : StreamRedactor) (source : Bytes) (safeLen : Nat) : Except Panic (List OutputSegment) := do
  let hay ← slice source 0 safeLen
  let (output, last) ← redactLoop r.state source 0 (r.state.ac.findIter hay)
  if last < safeLen then do
    let tail ← slice source last safeLen
    return output ++ [.input tail]
  else return output

/-- `valid_len` (engine.rs:149). -/
def validLen (source : Bytes) : Except StreamRedactionError Nat :=
  match Utf8.fromUtf8 source with
  | .ok () => .ok source.length
  | .error ⟨validUpTo, none⟩ => .ok validUpTo
  | .error ⟨_, some _⟩ => .error .invalidUtf8

/-- `if lo < hi { self.pending.extend_from_slice(&source[lo..hi]) }`: what that adds. -/
def extension (source : Bytes) (lo hi : Nat) : Except Panic Bytes :=
  if lo < hi then slice source lo hi else .ok []

/-- `safe_len` (engine.rs:159). -/
def safeLength (r : StreamRedactor) (text : Bytes) (flushAll : Bool) : Except Panic Nat :=
  if flushAll then .ok text.length
  else do
    let boundary ← determineSafeBoundaryState text r.state
    return boundary.1.length

def processSource (r : StreamRedactor) (source : Bytes) (flushAll : Bool) :
    Except Fault (List OutputSegment × StreamRedactor) := do
  let validLen ← orErr (validLen source)
  if flushAll ∧ validLen ≠ source.length then throw (.err .invalidUtf8)
  let text ← orPanic (slice source 0 validLen)
  match Utf8.fromUtf8 text with
  | .error _ => throw (.err .invalidUtf8)
  | .ok () =>
    let safeLen ← orPanic (r.safeLength text flushAll)
    let output ← orPanic (r.redactSource source safeLen)
    let held ← orPanic (extension source safeLen (if flushAll then source.length else validLen))
    let partialChar ← orPanic (if flushAll then .ok [] else extension source validLen source.length)
    let pending := r.pending ++ held ++ partialChar
    if r.maxCapacity < pending.length then .error (.err .bufferLimitExceeded)
    else .ok (output, { r with pending := pending })

def push (r : StreamRedactor) (chunk : Bytes) : Except Fault (List OutputSegment × StreamRedactor) :=
  if chunk = [] then .ok ([], r)
  else if r.pending = [] then r.processSource chunk false
  else { r with pending := [] }.processSource (r.pending ++ chunk) false

def finish (r : StreamRedactor) : Except Fault (List OutputSegment × StreamRedactor) :=
  if r.pending = [] then .ok ([], r)
  else { r with pending := [] }.processSource r.pending true

/-- The chunks pushed one by one: the segments of each push. -/
def pushAll : StreamRedactor → List Bytes → Except Fault (List (List OutputSegment) × StreamRedactor)
  | r, [] => .ok ([], r)
  | r, chunk :: chunks => do
    let (out, r) ← r.push chunk
    let (outs, r) ← pushAll r chunks
    return (out :: outs, r)

/-- All segments of the pushes and of `finish`. -/
def redactChunks (r : StreamRedactor) (chunks : List Bytes) : Except Fault (List OutputSegment) := do
  let (outs, r) ← r.pushAll chunks
  let (out, _) ← r.finish
  return outs.flatten ++ out

end StreamRedactor

end PiiProxy
