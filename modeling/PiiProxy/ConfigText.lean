import PiiProxy.Policy

/-!
# Writing a policy down, and `parse_pii_config` (main.rs:479)

A configuration file is entries between commas and newlines. `Writes rules text` says
which texts write `rules` down: one entry a rule, in order, blank entries anywhere,
white space around every pattern and replacement, a rule whose replacement is
`[REDACTED]` as `pattern:[REDACTED]` or as the pattern alone.

The fallback arm of the `match` (main.rs:494) also takes `:mask` and `card:`, each as a
pattern with its colon. A `Rule` has no colon in its pattern, so these write no rule, and
what parses to rules is what writes them.

* `parsePiiConfig_written`, `writes_of_parsePiiConfig` — a file parses to rules iff it writes them
* `install_written` — the engine that a boot or a reload builds from it
-/

namespace PiiProxy

/-- What an entry can hold as a pattern or a replacement. -/
structure RuleText (s : String) : Prop where
  ne : s ≠ ""
  trimmed : Text.Trimmed s.toList
  comma : ',' ∉ s.toList
  newline : '\n' ∉ s.toList

structure Rule where
  pattern : String
  replacement : String
  pattern_text : RuleText pattern
  replacement_text : RuleText replacement
  colon : ':' ∉ pattern.toList

def Rule.pair (rule : Rule) : String × String := (rule.pattern, rule.replacement)

/-- White space that ends no entry. -/
def Blank (s : List Char) : Prop := ∀ c ∈ s, Text.isWhitespace c = true ∧ c ≠ '\n'

instance (s : List Char) : Decidable (Blank s) := List.decidableBAll _ s

/-- The texts of an entry: no rule, or one. -/
inductive WritesEntry : Option Rule → List Char → Prop where
  | blank {text : List Char} : Blank text → WritesEntry none text
  | pair {before mid mid' after : List Char} (rule : Rule) : Blank before → Blank mid → Blank mid' → Blank after →
      WritesEntry (some rule)
        ((before ++ rule.pattern.toList ++ mid) ++ ':' :: (mid' ++ rule.replacement.toList ++ after))
  | bare {before after : List Char} (rule : Rule) : rule.replacement = "[REDACTED]" → Blank before → Blank after →
      WritesEntry (some rule) (before ++ rule.pattern.toList ++ after)

/-- The texts of a file: the entries of `rules`, a comma or a newline between two. -/
inductive Writes : List Rule → List Char → Prop where
  | last {rule : Option Rule} {text : List Char} : WritesEntry rule text → Writes rule.toList text
  | cons {rule : Option Rule} {rules : List Rule} {text rest : List Char} {sep : Char} : WritesEntry rule text →
      sep = ',' ∨ sep = '\n' → Writes rules rest → Writes (rule.toList ++ rules) (text ++ sep :: rest)

instance (s : String) : Decidable (RuleText s) :=
  decidable_of_iff (s ≠ "" ∧ Text.Trimmed s.toList ∧ ',' ∉ s.toList ∧ '\n' ∉ s.toList)
    ⟨fun ⟨hne, ht, hc, hn⟩ => ⟨hne, ht, hc, hn⟩, fun h => ⟨h.ne, h.trimmed, h.comma, h.newline⟩⟩

/-! ## One entry -/

section

variable {s : String} {text before after raw : List Char} {rule : Rule} {entry : Option Rule}

theorem RuleText.toList_ne (h : RuleText s) : s.toList ≠ [] := fun he => h.ne (String.toList_inj.1 he)

theorem RuleText.not_separator (h : RuleText s) : ∀ c ∈ s.toList, isSeparator c = false := by
  intro c hc
  simp only [isSeparator, Bool.or_eq_false_iff, beq_eq_false_iff_ne]
  exact ⟨fun he => h.newline (he ▸ hc), fun he => h.comma (he ▸ hc)⟩

theorem blank_nil : Blank [] := by simp [Blank]

theorem Blank.whitespace (h : Blank text) : ∀ c ∈ text, Text.isWhitespace c = true := fun c hc => (h c hc).1

theorem Blank.not_separator (h : Blank text) : ∀ c ∈ text, isSeparator c = false := by
  intro c hc
  simp only [isSeparator, Bool.or_eq_false_iff, beq_eq_false_iff_ne]
  refine ⟨(h c hc).2, ?_⟩
  rintro rfl
  exact absurd (h _ hc).1 (by decide)

theorem Blank.colon (h : Blank text) : ':' ∉ text := fun hc => absurd (h _ hc).1 (by decide)

theorem blank_of_whitespace (hw : ∀ c ∈ text, Text.isWhitespace c = true) (hs : ∀ c ∈ text, isSeparator c = false) :
    Blank text := by
  intro c hc
  refine ⟨hw c hc, ?_⟩
  rintro rfl
  exact absurd (hs _ hc) (by decide)

theorem RuleText.trim_surrounded (h : RuleText s) (hb : Blank before) (ha : Blank after) :
    Text.trim (before ++ s.toList ++ after) = s.toList :=
  Text.trim_surrounded h.trimmed hb.whitespace ha.whitespace

/-- An entry holds no separator, so it is one piece of the file. -/
theorem WritesEntry.not_separator (h : WritesEntry entry text) : ∀ c ∈ text, isSeparator c = false := by
  have htext {before after : List Char} {s : String} (hs : RuleText s) (hb : Blank before) (ha : Blank after) :
      ∀ c ∈ before ++ s.toList ++ after, isSeparator c = false := by
    intro c hc
    rcases List.mem_append.1 hc with hc | hc
    · exact (List.mem_append.1 hc).elim (hb.not_separator c) (hs.not_separator c)
    · exact ha.not_separator c hc
  cases h with
  | blank h => exact h.not_separator
  | pair rule hb hm hm' ha =>
    intro c hc
    rcases List.mem_append.1 hc with hc | hc
    · exact htext rule.pattern_text hb hm c hc
    · rcases List.mem_cons.1 hc with rfl | hc
      · decide
      · exact htext rule.replacement_text hm' ha c hc
  | bare rule _ hb ha => exact htext rule.pattern_text hb ha

/-- What is left of a pair once it is trimmed as a whole: the white space around the colon. -/
theorem trim_pair {mid mid' : List Char} (hb : Blank before) (ha : Blank after) :
    Text.trim ((before ++ rule.pattern.toList ++ mid) ++ ':' :: (mid' ++ rule.replacement.toList ++ after)) =
      (rule.pattern.toList ++ mid) ++ ':' :: (mid' ++ rule.replacement.toList) := by
  have htrim : Text.Trimmed ((rule.pattern.toList ++ mid) ++ ':' :: (mid' ++ rule.replacement.toList)) := by
    constructor
    · rw [List.append_assoc, List.head?_append_of_ne_nil _ rule.pattern_text.toList_ne]
      exact rule.pattern_text.trimmed.head
    · rw [← List.cons_append, ← List.append_assoc, List.getLast?_append_of_ne_nil _ rule.replacement_text.toList_ne]
      exact rule.replacement_text.trimmed.last
  have hsplit : (before ++ rule.pattern.toList ++ mid) ++ ':' :: (mid' ++ rule.replacement.toList ++ after) =
      before ++ ((rule.pattern.toList ++ mid) ++ ':' :: (mid' ++ rule.replacement.toList)) ++ after := by
    simp only [List.append_assoc, List.cons_append]
  rw [hsplit]
  exact Text.trim_surrounded htrim hb.whitespace ha.whitespace

theorem parseEntry_of_writes (h : WritesEntry entry text) :
    parseEntry text = entry.map Rule.pair := by
  cases h with
  | blank h => exact parseEntry_eq_none.2 h.whitespace
  | @pair before mid mid' after rule hb hm hm' ha =>
    have hcolon : ':' ∉ rule.pattern.toList ++ mid := by
      rw [List.mem_append, not_or]
      exact ⟨rule.colon, hm.colon⟩
    have hpattern : Text.trim (rule.pattern.toList ++ mid) = rule.pattern.toList :=
      rule.pattern_text.trim_surrounded blank_nil hm
    have hreplacement : Text.trim (mid' ++ rule.replacement.toList) = rule.replacement.toList := by
      have := rule.replacement_text.trim_surrounded hm' blank_nil
      rwa [List.append_nil] at this
    simp only [parseEntry, trim_pair hb ha, Text.splitOnce_eq_some.2 ⟨rfl, hcolon⟩, hpattern, hreplacement]
    rw [if_neg (by simp), if_pos ⟨rule.pattern_text.toList_ne, rule.replacement_text.toList_ne⟩]
    simp [Rule.pair]
  | @bare before after rule hr hb ha =>
    have hnone : Text.splitOnce ':' rule.pattern.toList = none := by
      rw [Option.eq_none_iff_forall_ne_some]
      rintro ⟨p, r⟩ hs
      have := (Text.splitOnce_eq_some.1 hs).1
      exact rule.colon (this ▸ by simp)
    simp only [parseEntry, rule.pattern_text.trim_surrounded hb ha, hnone, if_neg rule.pattern_text.toList_ne]
    simp [Rule.pair, hr]

/-- What an entry gives: the two sides of its first colon, or all of it. -/
theorem parseEntry_cases {p r : String} (h : parseEntry raw = some (p, r)) :
    (∃ a b, Text.trim raw = a ++ ':' :: b ∧ p.toList = Text.trim a ∧ r.toList = Text.trim b) ∨
    (p.toList = Text.trim raw ∧ r = "[REDACTED]") := by
  unfold parseEntry at h
  simp only at h
  split at h
  · cases h
  split at h
  · rename_i a b hsplit
    split at h
    · cases h
      exact .inl ⟨a, b, (Text.splitOnce_eq_some.1 hsplit).1, String.toList_ofList, String.toList_ofList⟩
    · cases h
      exact .inr ⟨String.toList_ofList, rfl⟩
  · cases h
    exact .inr ⟨String.toList_ofList, rfl⟩

theorem Blank.append (hb : Blank before) (ha : Blank after) : Blank (before ++ after) := by
  intro c hc
  exact (List.mem_append.1 hc).elim (hb c) (ha c)

/-- A text without separators, around its trimmed middle. -/
theorem exists_blanks (hs : ∀ c ∈ text, isSeparator c = false) :
    ∃ before after, text = before ++ Text.trim text ++ after ∧ Blank before ∧ Blank after := by
  obtain ⟨before, after, htext, hb, ha⟩ := Text.exists_surround text
  refine ⟨before, after, htext, blank_of_whitespace hb fun c hc => hs c ?_, blank_of_whitespace ha fun c hc => hs c ?_⟩
  · rw [htext, List.append_assoc]
    exact List.mem_append_left _ hc
  · rw [htext]
    exact List.mem_append_right _ hc

theorem writesEntry_of_parse (hs : ∀ c ∈ raw, isSeparator c = false)
    (h : parseEntry raw = some rule.pair) : WritesEntry (some rule) raw := by
  obtain ⟨before, after, hraw, hb, ha⟩ := exists_blanks hs
  rcases parseEntry_cases h with ⟨a, b, htrim, hp, hr⟩ | ⟨hp, hr⟩
  · rw [htrim] at hraw
    have hsa : ∀ c ∈ a, isSeparator c = false := fun c hc => hs c (by rw [hraw]; simp [hc])
    have hsb : ∀ c ∈ b, isSeparator c = false := fun c hc => hs c (by rw [hraw]; simp [hc])
    obtain ⟨a1, a2, hsplit, ha1, ha2⟩ := exists_blanks hsa
    obtain ⟨b1, b2, hsplit', hb1, hb2⟩ := exists_blanks hsb
    rw [← hp] at hsplit
    rw [← hr] at hsplit'
    have htext : raw = ((before ++ a1) ++ rule.pattern.toList ++ a2) ++
        ':' :: (b1 ++ rule.replacement.toList ++ (b2 ++ after)) := by
      rw [hraw, hsplit, hsplit']
      simp only [List.append_assoc, List.cons_append]
    rw [htext]
    exact .pair rule (hb.append ha1) ha2 hb1 (hb2.append ha)
  · rw [← hp] at hraw
    rw [hraw]
    exact .bare rule hr hb ha

end

/-! ## The file -/

section

variable {rules : List Rule} {text raw : List Char} {pieces : List (List Char)}

theorem Writes.entries (h : Writes rules text) :
    (text.splitOnP isSeparator).filterMap parseEntry = rules.map Rule.pair := by
  induction h with
  | @last entry text h =>
    rw [List.splitOnP_eq_singleton h.not_separator, List.filterMap_cons, parseEntry_of_writes h]
    cases entry <;> rfl
  | @cons entry rules text rest sep h hsep _ ih =>
    have hsep : isSeparator sep = true := by
      rcases hsep with rfl | rfl <;> rfl
    rw [List.splitOnP_append_cons_of_forall_mem h.not_separator sep hsep, List.filterMap_cons, parseEntry_of_writes h, ih]
    cases entry <;> rfl

/-- The first piece of a file that parses to rules. -/
theorem writesEntry_of_cons (hs : ∀ c ∈ raw, isSeparator c = false)
    (h : (raw :: pieces).filterMap parseEntry = rules.map Rule.pair) :
    ∃ entry rest, rules = entry.toList ++ rest ∧ WritesEntry entry raw ∧ pieces.filterMap parseEntry = rest.map Rule.pair := by
  rw [List.filterMap_cons] at h
  cases hentry : parseEntry raw with
  | none =>
    rw [hentry] at h
    exact ⟨none, rules, rfl, .blank (blank_of_whitespace (parseEntry_eq_none.1 hentry) hs), h⟩
  | some entry =>
    rw [hentry] at h
    cases rules with
    | nil => cases h
    | cons rule rules =>
      obtain ⟨rfl, hrest⟩ := List.cons.inj h
      exact ⟨some rule, rules, rfl, writesEntry_of_parse hs hentry, hrest⟩

/-- Nothing else parses to rules. The induction carries what was read of the entry in hand. -/
theorem writes_of_entries (hs : ∀ c ∈ raw, isSeparator c = false)
    (h : ((raw ++ text).splitOnP isSeparator).filterMap parseEntry = rules.map Rule.pair) : Writes rules (raw ++ text) := by
  induction text generalizing raw rules with
  | nil =>
    rw [List.append_nil] at h ⊢
    rw [List.splitOnP_eq_singleton hs] at h
    obtain ⟨entry, rest, rfl, hentry, hrest⟩ := writesEntry_of_cons hs h
    obtain rfl : rest = [] := List.map_eq_nil_iff.1 hrest.symm
    rw [List.append_nil]
    exact .last hentry
  | cons c text ih =>
    by_cases hc : isSeparator c = true
    · rw [List.splitOnP_append_cons_of_forall_mem hs c hc] at h
      obtain ⟨entry, rest, rfl, hentry, hrest⟩ := writesEntry_of_cons hs h
      have hwrites : Writes rest ([] ++ text) := ih (by simp) hrest
      refine .cons hentry ?_ hwrites
      simpa [isSeparator, or_comm] using hc
    · rw [List.append_cons] at h ⊢
      refine ih ?_ h
      intro x hx
      rcases List.mem_append.1 hx with hx | hx
      · exact hs x hx
      · rw [List.mem_singleton.1 hx]
        simpa using hc

/-- The two lists are the entries taken apart. -/
theorem parsePiiConfig_eq_iff {source : String} :
    parsePiiConfig source = (rules.map Rule.pattern, rules.map Rule.replacement) ↔
      (source.toList.splitOnP isSeparator).filterMap parseEntry = rules.map Rule.pair := by
  unfold parsePiiConfig
  simp only [Prod.mk.injEq]
  constructor
  · rintro ⟨hp, hr⟩
    rw [List.zip_of_prod hp hr, List.zip_map']
    rfl
  · intro h
    rw [h, List.map_map, List.map_map]
    exact ⟨rfl, rfl⟩

/-- One rule a line. -/
def writeLines (rules : List Rule) : List Char :=
  rules.flatMap fun rule => rule.pattern.toList ++ ':' :: (rule.replacement.toList ++ ['\n'])

/-- There is a file for every list of rules. -/
theorem writes_writeLines (rules : List Rule) : Writes rules (writeLines rules) := by
  induction rules with
  | nil => exact .last (.blank blank_nil)
  | cons rule rules ih =>
    have hline := Writes.cons (.pair rule blank_nil blank_nil blank_nil blank_nil) (.inr rfl) ih
    simpa [writeLines] using hline

end

/-- **What was written down is read back.** The patterns and the replacements of the rules, in their
order, whichever way the file writes them. -/
theorem parsePiiConfig_written (rules : List Rule) (source : String) (h : Writes rules source.toList) :
    parsePiiConfig source = (rules.map Rule.pattern, rules.map Rule.replacement) :=
  parsePiiConfig_eq_iff.2 h.entries

def ssnRule : Rule := ⟨"ssn", "***:**", by decide, by decide, by decide⟩

def passwordRule : Rule := ⟨"pass word", "[REDACTED]", by decide, by decide, by decide⟩

/-- A pair with spaces about its colon, a blank entry, a bare pattern on a line of its own. -/
theorem parsePiiConfig_written_mixed : Writes [ssnRule, passwordRule] " ssn : ***:**,,\n\tpass word\r\n".toList ∧
    parsePiiConfig " ssn : ***:**,,\n\tpass word\r\n" = (["ssn", "pass word"], ["***:**", "[REDACTED]"]) := by
  have hspace : Blank " ".toList := by decide
  have htext : " ssn : ***:**,,\n\tpass word\r\n".toList =
      (" ".toList ++ ssnRule.pattern.toList ++ " ".toList ++ ':' :: (" ".toList ++ ssnRule.replacement.toList ++ [])) ++
        ',' :: ([] ++ ',' :: ([] ++ '\n' :: (("\t".toList ++ passwordRule.pattern.toList ++ "\r".toList) ++ '\n' :: []))) := by
    decide
  have hwrites : Writes [ssnRule, passwordRule] " ssn : ***:**,,\n\tpass word\r\n".toList := by
    rw [htext]
    exact .cons (.pair ssnRule hspace hspace hspace blank_nil) (.inl rfl) <|
      .cons (.blank blank_nil) (.inl rfl) <| .cons (.blank blank_nil) (.inr rfl) <|
      .cons (.bare passwordRule rfl (by decide) (by decide)) (.inr rfl) <| .last (.blank blank_nil)
  exact ⟨hwrites, parsePiiConfig_written _ _ hwrites⟩

/-- And only what writes the rules down is read so. -/
theorem writes_of_parsePiiConfig {rules : List Rule} {source : String}
    (h : parsePiiConfig source = (rules.map Rule.pattern, rules.map Rule.replacement)) : Writes rules source.toList :=
  writes_of_entries (List.forall_mem_nil _) (parsePiiConfig_eq_iff.1 h)

/-- A written policy is the one that is installed, at boot and by a reload. -/
theorem install_written (build : Builder) (policy : Policy) {rules : List Rule} {source : String}
    (h : Writes rules source.toList) :
    (∃ vault, Policy.boot build source = .ok ⟨.new build (rules.map Rule.pattern) (rules.map Rule.replacement), vault⟩) ∧
    (policy.step build (.reload (some source))).engineState =
      .new build (rules.map Rule.pattern) (rules.map Rule.replacement) ∧
    (rules ≠ [] → Policy.Install.Sound (.reload (some source))) := by
  have hparse := parsePiiConfig_eq_iff.2 h.entries
  refine ⟨?_, ?_, ?_⟩
  · have hboot := Policy.boot_ok build source
    rwa [hparse] at hboot
  · obtain ⟨vault, hok⟩ := Policy.watchPiiConfig_ok build policy source
    simp only [Policy.step, hok, hparse]
  · intro hne
    refine parsePiiConfig_ne_nil.1 ?_
    rw [hparse]
    simpa using hne

/-- Every list of rules but the empty one can be brought in by a reload that keeps the policy well formed. -/
theorem exists_reload (build : Builder) (policy : Policy) {rules : List Rule} (hne : rules ≠ []) : ∃ source,
    Policy.Install.Sound (.reload (some source)) ∧
    (policy.step build (.reload (some source))).engineState =
      .new build (rules.map Rule.pattern) (rules.map Rule.replacement) := by
  have hwrites : Writes rules (String.ofList (writeLines rules)).toList := by
    rw [String.toList_ofList]
    exact writes_writeLines rules
  obtain ⟨-, hstep, hsound⟩ := install_written build policy hwrites
  exact ⟨_, hsound hne, hstep⟩

end PiiProxy
