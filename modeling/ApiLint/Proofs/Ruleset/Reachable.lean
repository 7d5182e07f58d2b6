import ApiLint.Proofs.Table
import ApiLint.Proofs.Yaml.Reading
import ApiLint.Ruleset.File
import ApiLint.Ruleset.Recommended

/-!
# Rulesets that come about

Rulesets are read from texts, files and values, and then changed by overrides.  The options of their
rules are values that a reader gives, or null, so they repeat no key.
-/

namespace ApiLint

/-- Whether what the rules pass to their functions passes a test. -/
def Ruleset.AllOptions (p : Json → Prop) (ruleset : Ruleset) : Prop :=
  ∀ entry ∈ ruleset.rules.entries, p entry.2.action.options

theorem Ruleset.allOptions_empty (p : Json → Prop) : Ruleset.empty.AllOptions p :=
  fun _ hentry => absurd hentry List.not_mem_nil

theorem Ruleset.allOptions_ofList {p : Json → Prop} {rules : List (String × RuleDefinition)}
    (h : ∀ entry ∈ rules, p entry.2.action.options) : (Ruleset.ofList rules).AllOptions p :=
  fun entry hentry => h entry (Table.mem_of_mem_ofList hentry)

theorem Ruleset.allOptions_override {p : Json → Prop} {ruleset : Ruleset}
    (h : ruleset.AllOptions p) (ruleId : String) (severity : RuleSeverity) :
    (ruleset.override ruleId severity).AllOptions p := by
  intro entry hentry
  obtain ⟨⟨id, rule⟩, hrule, rfl⟩ := List.mem_map.1 hentry
  have options := h _ hrule
  dsimp only at options ⊢
  split <;> exact options

/-! ## Options of decoded rules -/

section Decode

variable {ν : Type} {m : Type → Type} [Monad m] [LawfulMonad m] {r : Reader ν m} {p : Json → Prop}

theorem RuleAction.everyResult_decode (hr : r.GivesOnly p) (hnull : p .null) (value : ν) :
    EveryResult (fun action => p action.options) (RuleAction.decode r value) := by
  refine hr.fields (q := fun fields => ∀ options ∈ fields.options, p options)
    (fun fields name value h => ?_) (by simp) (fun fields action h hfinish => ?_) value
  · unfold ActionFields.read
    split
    · exact .bind_of_forall fun function => .pure h
    · exact (hr.any value).bind fun options hoptions => .pure (by simpa using hoptions)
  · obtain ⟨_ | function, options⟩ := fields
    · cases hfinish
    · cases hfinish
      cases options with
      | none => exact hnull
      | some options => exact h options rfl

theorem RuleDefinition.everyResult_decode (hr : r.GivesOnly p) (hnull : p .null) (value : ν) :
    EveryResult (fun rule => p rule.action.options) (RuleDefinition.decode r value) := by
  refine hr.fields (q := fun fields => ∀ action ∈ fields.action, p action.options)
    (fun fields name value h => ?_) (by simp) (fun fields rule h hfinish => ?_) value
  · unfold RuleFields.read
    -- no field but the action brings options with it
    split
    · exact .bind_of_forall fun _ => .pure h
    · exact .bind_of_forall fun _ => .pure h
    · exact .bind_of_forall fun _ => .pure h
    · exact .bind_of_forall fun _ => .pure h
    · exact (RuleAction.everyResult_decode hr hnull value).bind fun action haction =>
        .pure (by simpa using haction)
  · unfold RuleFields.finish at hfinish
    split at hfinish
    · cases hfinish
    · next action haction =>
      cases hfinish
      exact h action haction

theorem Ruleset.everyResult_decode (hr : r.GivesOnly p) (hnull : p .null) (value : ν) :
    EveryResult (AllOptions p) (Ruleset.decode r value) := by
  refine hr.fields (fun _ _ value _ => ?_) (allOptions_empty p) (fun ruleset _ h hfinish => ?_)
    value
  · exact (hr.entries (RuleDefinition.everyResult_decode hr hnull) value).map
      fun _ hentries => allOptions_ofList hentries
  · cases hfinish
    exact h

end Decode

theorem Json.Draft.givesOnly_reader : reader.GivesOnly fun value => value.hasDistinctKeys where
  fail _ _ _ := .of_error _
  any draft := by
    change EveryResult _ draft.readAny
    unfold readAny
    split
    · next value hvalue => exact .pure (hasDistinctKeys_of_toJson? hvalue)
    · exact .of_error _

namespace Ruleset

/-- The rulesets that loading and overriding lead to. -/
inductive Reachable : Ruleset → Prop where
  | empty : Reachable .empty
  | recommended : Reachable .recommended
  | ofJson {value : Json} {ruleset : Ruleset} (h : ofJson value = .ok ruleset) : Reachable ruleset
  | ofJsonText {text : String} {ruleset : Ruleset} (h : ofJsonText text = .ok ruleset) :
      Reachable ruleset
  | ofYamlText {text : String} {ruleset : Ruleset} (h : ofYamlText text = .ok ruleset) :
      Reachable ruleset
  | ofFile {path : String} {bytes : Option ByteArray} {ruleset : Ruleset}
      (h : ofFile path bytes = .ok ruleset) : Reachable ruleset
  | override {ruleset : Ruleset} (h : Reachable ruleset) (ruleId : String)
      (severity : RuleSeverity) : Reachable (ruleset.override ruleId severity)

/-- Whether the options of all rules repeat no key. -/
def HasDistinctKeys (ruleset : Ruleset) : Prop :=
  ruleset.AllOptions fun options => options.hasDistinctKeys

variable {ruleset : Ruleset}

theorem hasDistinctKeys_of_decode {draft : Json.Draft}
    (h : Ruleset.decode Json.Draft.reader draft = .ok ruleset) : ruleset.HasDistinctKeys :=
  (everyResult_decode Json.Draft.givesOnly_reader rfl draft).of_eq_ok h

theorem hasDistinctKeys_of_ofJsonText {text : String} (h : ofJsonText text = .ok ruleset) :
    ruleset.HasDistinctKeys := by
  dsimp only [ofJsonText] at h
  split at h
  · next hdecode =>
    split at h
    · cases h
      exact hasDistinctKeys_of_decode hdecode
    · cases h
  · cases h

theorem hasDistinctKeys_of_ofYamlText {text : String} (h : ofYamlText text = .ok ruleset) :
    ruleset.HasDistinctKeys := by
  dsimp only [ofYamlText] at h
  split at h
  · next hdecode =>
    split at h
    · cases h
      exact (everyResult_decode (Yaml.givesOnly_reader _) rfl _).of_run_eq_ok hdecode
    · cases h
  · cases h

theorem hasDistinctKeys_of_ofFile {path : String} {bytes : Option ByteArray}
    (h : ofFile path bytes = .ok ruleset) : ruleset.HasDistinctKeys := by
  unfold ofFile at h
  split at h
  · cases h
  · split at h
    · cases h
    · split at h
      · exact hasDistinctKeys_of_ofJsonText h
      · exact hasDistinctKeys_of_ofYamlText h

theorem Reachable.hasDistinctKeys (h : ruleset.Reachable) : ruleset.HasDistinctKeys := by
  induction h with
  | empty => exact allOptions_empty _
  | recommended => exact allOptions_ofList (by decide)
  | ofJson h => exact hasDistinctKeys_of_decode h
  | ofJsonText h => exact hasDistinctKeys_of_ofJsonText h
  | ofYamlText h => exact hasDistinctKeys_of_ofYamlText h
  | ofFile h => exact hasDistinctKeys_of_ofFile h
  | override _ ruleId severity ih => exact allOptions_override ih ruleId severity

end Ruleset

end ApiLint
