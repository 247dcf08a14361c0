import PiiProxy.HotSwap
import PiiProxy.Text

/-!
# The three installers of the policy

| here | there |
| --- | --- |
| `parseEntry`, `parsePiiConfig` | the loop of `parse_pii_config` (main.rs:479) |
| `Active`, `boot`               | the two `ArcSwap`s of `AppState`, as `main` fills them (main.rs:85-94) |
| `watchPiiConfig`               | one event of `watch_pii_config` (main.rs:531-556) |
| `updateRules`                  | `update_rules` (lib.rs:289), with its status |

`update_rules` refuses an empty list and lets an empty pattern through; a reload takes
whatever the file parses to, and a blank file parses to no pattern.

* `patterns_parsePiiConfig` — what a configuration file parses to
* `policy_holds_iff` — a run keeps the policy well formed exactly when every install does
-/

namespace PiiProxy

open Utf8 (encode)

/-! ## The configuration file -/

/-- One entry, cut out at newlines and commas: a pattern and its replacement, or neither. -/
def parseEntry (raw : List Char) : Option (String × String) :=
  let entry := Text.trim raw
  if entry = [] then none
  else match Text.splitOnce ':' entry with
    | some (pattern, replacement) =>
      if Text.trim pattern ≠ [] ∧ Text.trim replacement ≠ [] then
        some (String.ofList (Text.trim pattern), String.ofList (Text.trim replacement))
      else some (String.ofList entry, "[REDACTED]")
    | none => some (String.ofList entry, "[REDACTED]")

/-- `['\n', ',']`. -/
def isSeparator (c : Char) : Bool := c == '\n' || c == ','

def parsePiiConfig (source : String) : List String × List String :=
  let entries := (source.toList.splitOnP isSeparator).filterMap parseEntry
  (entries.map Prod.fst, entries.map Prod.snd)

theorem parseEntry_eq_none {raw : List Char} : parseEntry raw = none ↔ ∀ c ∈ raw, Text.isWhitespace c = true := by
  rw [← Text.trim_eq_nil]
  unfold parseEntry
  simp only
  split
  · rename_i h
    exact ⟨fun _ => h, fun _ => rfl⟩
  · rename_i h
    constructor
    · intro hnone
      split at hnone
      · split at hnone <;> cases hnone
      · cases hnone
    · intro hnil
      exact absurd hnil h

/-- No entry gives an empty pattern. -/
theorem parseEntry_ne {raw : List Char} {pattern replacement : String} (h : parseEntry raw = some (pattern, replacement)) :
    pattern ≠ "" := by
  have hne {s : List Char} (hs : s ≠ []) : String.ofList s ≠ "" := fun he => hs (String.ofList_injective he)
  unfold parseEntry at h
  simp only at h
  split at h
  · cases h
  · rename_i hentry
    split at h
    · split at h
      · rename_i htrim
        cases h
        exact hne htrim.1
      · cases h
        exact hne hentry
    · cases h
      exact hne hentry

theorem length_parsePiiConfig (source : String) : (parsePiiConfig source).1.length = (parsePiiConfig source).2.length := by
  simp [parsePiiConfig]

theorem mem_parsePiiConfig {source pattern : String} (h : pattern ∈ (parsePiiConfig source).1) : pattern ≠ "" := by
  simp only [parsePiiConfig, List.mem_map, List.mem_filterMap] at h
  obtain ⟨⟨_, replacement⟩, ⟨raw, -, hraw⟩, rfl⟩ := h
  exact parseEntry_ne hraw

/-- A file has a pattern iff it has a character besides commas and white space. -/
theorem parsePiiConfig_ne_nil {source : String} :
    (parsePiiConfig source).1 ≠ [] ↔ ∃ c ∈ source.toList, Text.isWhitespace c = false ∧ c ≠ ',' := by
  have hnl : Text.isWhitespace '\n' = true := by decide
  have hblank : (parsePiiConfig source).1 = [] ↔
      ∀ raw ∈ source.toList.splitOnP isSeparator, ∀ c ∈ raw, Text.isWhitespace c = true := by
    simp only [parsePiiConfig, List.map_eq_nil_iff, List.filterMap_eq_nil_iff, parseEntry_eq_none]
  rw [Ne, hblank]
  constructor
  · intro h
    by_contra hnone
    refine h fun raw hraw c hc => ?_
    obtain ⟨hmem, hsep⟩ := Text.mem_splitOnP.1 ⟨raw, hraw, hc⟩
    simp only [isSeparator, Bool.or_eq_false_iff, beq_eq_false_iff_ne] at hsep
    by_contra hws
    exact hnone ⟨c, hmem, by simpa using hws, hsep.2⟩
  · rintro ⟨c, hmem, hws, hcomma⟩ h
    have hsep : isSeparator c = false := by
      simp only [isSeparator, Bool.or_eq_false_iff, beq_eq_false_iff_ne]
      refine ⟨?_, hcomma⟩
      rintro rfl
      rw [hnl] at hws
      cases hws
    obtain ⟨raw, hraw, hc⟩ := Text.mem_splitOnP.2 ⟨hmem, hsep⟩
    rw [h raw hraw c hc] at hws
    cases hws

/-! ## The installers -/

/-- What `AppState` holds of the policy; redaction reads the first. -/
structure Policy where
  engineState : EngineState
  vault : PiiVault

namespace Policy

def boot (build : Builder) (source : String) : Except Panic Policy := do
  let parsed := parsePiiConfig source
  let vault ← PiiVault.new build parsed.1 parsed.2
  return ⟨vault.engineState, vault⟩

/-- Where no setting names another. -/
def defaultSource : String := "password,secret,ssn"

/-- One file event; `none` when the file could not be read after all retries. -/
def watchPiiConfig (build : Builder) (policy : Policy) : Option String → Except Panic Policy
  | none => .ok policy
  | some contents => do
    let parsed := parsePiiConfig contents
    let vault ← PiiVault.new build parsed.1 parsed.2
    return ⟨.new build parsed.1 parsed.2, vault⟩

/-- The status, and the policy after it; `joined` tells whether the blocking task came back. -/
def updateRules (build : Builder) (policy : Policy) (patterns : List String) (joined : Bool) : Nat × Policy :=
  if patterns = [] then (400, policy)
  else if joined then (200, { policy with engineState := .new build patterns (patterns.map fun _ => "[REDACTED]") })
  else (500, policy)

inductive Install where
  | reload (contents : Option String)
  | update (patterns : List String) (joined : Bool)

/-- A reload that panics ends the watcher and stores nothing. -/
def step (build : Builder) (policy : Policy) : Install → Policy
  | .reload contents => match policy.watchPiiConfig build contents with
    | .ok policy => policy
    | .error _ => policy
  | .update patterns joined => (policy.updateRules build patterns joined).2

def run (build : Builder) (policy : Policy) (installs : List Install) : Policy := installs.foldl (step build) policy

/-- At least one pattern, none of them empty, a replacement for each, and the length of the longest. -/
structure WellFormed (e : EngineState) : Prop where
  patterns_ne_nil : e.patterns ≠ []
  empty_not_mem : "" ∉ e.patterns
  length_replacements : e.replacements.length = e.patterns.length
  le_maxPatternLen : ∀ p ∈ e.patterns, (encode p).length ≤ e.maxPatternLen
  exists_maxPatternLen : ∃ p ∈ e.patterns, (encode p).length = e.maxPatternLen

variable {build : Builder} {policy : Policy} {patterns replacements : List String} {install : Install}

theorem exists_maxLen (h : patterns ≠ []) : ∃ p ∈ patterns, (encode p).length = maxLen patterns := by
  suffices hf : ∀ (ps : List String) (n : Nat), ps.foldl (fun n p => max n (encode p).length) n = n ∨
      ∃ p ∈ ps, (encode p).length = ps.foldl (fun n p => max n (encode p).length) n by
    obtain ⟨p, ps, rfl⟩ := List.exists_cons_of_ne_nil h
    rcases hf ps (max 0 (encode p).length) with h0 | ⟨q, hq, hlen⟩
    · exact ⟨p, List.mem_cons_self, by rw [maxLen, List.foldl_cons, h0, Nat.zero_max]⟩
    · exact ⟨q, List.mem_cons_of_mem _ hq, hlen⟩
  intro ps
  induction ps with
  | nil => exact fun n => .inl rfl
  | cons q ps ih =>
    intro n
    rw [List.foldl_cons]
    rcases ih (max n (encode q).length) with h0 | ⟨p, hp, hlen⟩
    · rw [h0]
      rcases Nat.le_total n (encode q).length with hle | hle
      · exact .inr ⟨q, List.mem_cons_self, by rw [Nat.max_eq_right hle]⟩
      · exact .inl (Nat.max_eq_left hle)
    · exact .inr ⟨p, List.mem_cons_of_mem _ hp, hlen⟩

/-- An engine is built with its lengths in order, whatever the patterns are. -/
theorem wellFormed_new (hlen : patterns.length = replacements.length) :
    WellFormed (.new build patterns replacements) ↔ patterns ≠ [] ∧ "" ∉ patterns := by
  constructor
  · intro h
    exact ⟨h.patterns_ne_nil, h.empty_not_mem⟩
  · rintro ⟨hne, hempty⟩
    exact {
      patterns_ne_nil := hne
      empty_not_mem := hempty
      length_replacements := (List.length_map _).trans hlen.symm
      le_maxPatternLen := fun p hp => le_maxLen hp
      exists_maxPatternLen := exists_maxLen hne }

/-- What an install must bring: a file with something other than commas and white space, a list without
the empty pattern. -/
def Install.Sound : Install → Prop
  | .reload none => True
  | .reload (some contents) => ∃ c ∈ contents.toList, Text.isWhitespace c = false ∧ c ≠ ','
  | .update patterns joined => joined = true → "" ∉ patterns

theorem watchPiiConfig_ok (build : Builder) (policy : Policy) (contents : String) :
    ∃ vault, policy.watchPiiConfig build (some contents) =
      .ok ⟨.new build (parsePiiConfig contents).1 (parsePiiConfig contents).2, vault⟩ := by
  simp only [watchPiiConfig, PiiVault.new, if_pos (length_parsePiiConfig contents), bind_ok]
  exact ⟨_, rfl⟩

/-- One install. -/
theorem wellFormed_step (h : WellFormed policy.engineState) :
    WellFormed (policy.step build install).engineState ↔ install.Sound := by
  cases install with
  | reload contents =>
    cases contents with
    | none => exact ⟨fun _ => trivial, fun _ => h⟩
    | some contents =>
      obtain ⟨vault, hok⟩ := watchPiiConfig_ok build policy contents
      simp only [step, hok, Install.Sound]
      rw [wellFormed_new (length_parsePiiConfig contents), parsePiiConfig_ne_nil]
      exact and_iff_left fun hmem => mem_parsePiiConfig hmem rfl
  | update patterns joined =>
    simp only [step, updateRules, Install.Sound]
    by_cases hnil : patterns = []
    · rw [if_pos hnil, hnil]
      exact ⟨fun _ _ => List.not_mem_nil, fun _ => h⟩
    · rw [if_neg hnil]
      cases joined with
      | false => exact ⟨fun _ hj => absurd hj (by decide), fun _ => h⟩
      | true =>
        rw [if_pos rfl, wellFormed_new (List.length_map _).symm]
        exact ⟨fun hw _ => hw.2, fun hs => ⟨hnil, hs rfl⟩⟩

/-- The policy of a process that nothing configures. -/
def initial (build : Builder) : Policy :=
  ⟨defaultEngine build, ⟨defaultPatterns, buildRedactionDfa build defaultPatterns, defaultPatterns.map fun _ => "[REDACTED]",
    defaultEngine build⟩⟩

theorem boot_defaultSource (build : Builder) : boot build defaultSource = .ok (initial build) := by
  have hparse : parsePiiConfig defaultSource = (defaultPatterns, defaultPatterns.map fun _ => "[REDACTED]") := by
    decide +kernel
  simp only [boot, hparse]
  rfl

/-- The installs of a proxied request are these. -/
theorem install_active {P : Primitives} {q : Request} {s : Sys} (h : s.active = policy.engineState) :
    (∀ patterns, (s.step P q build (.updateRules patterns)).map Sys.active =
      some (policy.step build (.update patterns true)).engineState) ∧
    ∀ contents, (s.step P q build (.watchPiiConfig (parsePiiConfig contents).1 (parsePiiConfig contents).2)).map
      Sys.active = some (policy.step build (.reload (some contents))).engineState := by
  constructor
  · intro patterns
    simp only [Sys.step, step, updateRules]
    split
    · rw [Option.map_some, h]
    · rfl
  · intro contents
    obtain ⟨vault, hok⟩ := watchPiiConfig_ok build policy contents
    simp only [Sys.step, if_pos (length_parsePiiConfig contents), step, hok]
    rfl

/-! ## A replacement for each pattern -/

theorem boot_ok (build : Builder) (source : String) : ∃ vault,
    boot build source = .ok ⟨.new build (parsePiiConfig source).1 (parsePiiConfig source).2, vault⟩ := by
  simp only [boot, PiiVault.new, if_pos (length_parsePiiConfig source), bind_ok]
  exact ⟨_, rfl⟩

theorem step_aligned (install : Install) (h : policy.engineState.Aligned) :
    (policy.step build install).engineState.Aligned := by
  cases install with
  | reload contents =>
    cases contents with
    | none => exact h
    | some contents =>
      obtain ⟨vault, hok⟩ := watchPiiConfig_ok build policy contents
      simp only [step, hok]
      exact EngineState.aligned_new build (length_parsePiiConfig contents)
  | update patterns joined =>
    simp only [step, updateRules]
    split
    · exact h
    · split
      · exact EngineState.aligned_new build (List.length_map _).symm
      · exact h

/-- Whatever is installed, sound or not. -/
theorem run_aligned : ∀ (installs : List Install) {policy : Policy}, policy.engineState.Aligned →
    (policy.run build installs).engineState.Aligned
  | [], _, h => h
  | install :: installs, _, h => run_aligned installs (step_aligned install h)

/-! ## Well-formed policies -/

theorem run_wellFormed (build : Builder) : ∀ (installs : List Install) {policy : Policy}, WellFormed policy.engineState →
    ((∀ pre, pre <+: installs → WellFormed (policy.run build pre).engineState) ↔ ∀ install ∈ installs, install.Sound)
  | [], policy, h => by
    simp only [List.prefix_nil, forall_eq]
    exact ⟨fun _ => by simp, fun _ => h⟩
  | install :: installs, policy, h => by
    rw [List.forall_mem_cons]
    constructor
    · intro hall
      have hstep : WellFormed (policy.step build install).engineState := hall [install] (by simp)
      refine ⟨(wellFormed_step h).1 hstep, (run_wellFormed build installs hstep).1 fun pre hpre => ?_⟩
      exact hall (install :: pre) ((List.prefix_cons_inj install).2 hpre)
    · rintro ⟨hsound, hall⟩ pre hpre
      cases pre with
      | nil => exact h
      | cons first pre =>
        obtain ⟨rfl, hrest⟩ := List.cons_prefix_cons.1 hpre
        exact (run_wellFormed build installs ((wellFormed_step h).2 hsound)).2 hall pre hrest

/-- **When the policy stays well formed.** From the default policy, every state of a run of installs has a
pattern, no empty one, a replacement for each and the longest length, iff every file reloaded has
something besides commas and white space and no list that compiles has the empty pattern. -/
theorem policy_holds_iff (build : Builder) (installs : List Install) :
    (∀ pre, pre <+: installs → WellFormed ((initial build).run build pre).engineState) ↔
      ∀ install ∈ installs, install.Sound := by
  have hinit : WellFormed (initial build).engineState := by
    refine (wellFormed_new (List.length_map _).symm).2 ⟨?_, ?_⟩
    · exact List.cons_ne_nil _ _
    · decide
  exact run_wellFormed build installs hinit

/-- A file cut to nothing leaves no pattern, and a list of the empty pattern is accepted. -/
theorem blank_installs_accepted :
    ¬ WellFormed ((initial (Search.AhoCorasick.scan asciiLower)).run (Search.AhoCorasick.scan asciiLower)
      [.reload (some "")]).engineState ∧
    ((initial (Search.AhoCorasick.scan asciiLower)).updateRules (Search.AhoCorasick.scan asciiLower) [""] true).1 = 200 ∧
    ¬ WellFormed ((initial (Search.AhoCorasick.scan asciiLower)).run (Search.AhoCorasick.scan asciiLower)
      [.update [""] true]).engineState := by
  refine ⟨fun h => ?_, rfl, fun h => ?_⟩
  · exact h.patterns_ne_nil rfl
  · exact h.empty_not_mem List.mem_cons_self

end Policy

end PiiProxy
