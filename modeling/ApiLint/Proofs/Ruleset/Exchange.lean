import ApiLint.Proofs.Except
import ApiLint.Proofs.Json.Draft
import ApiLint.Proofs.Ruleset.Reachable

/-!
# Rulesets that are written and read

Reading a ruleset that was written gives the ruleset back, with the options of its rules as they
were.  An absent description is not written, a severity is written with its short name, and null
options are written like others.
-/

namespace ApiLint

namespace Json.Draft

/-! ## Reading what was written -/

theorem ofMembers_eq_map (members : List (String × Json)) :
    ofMembers members = members.map fun (key, value) => (some key, ofJson value) := by
  induction members with
  | nil => rfl
  | cons m rest ih => rw [ofMembers, ih, List.map_cons]

/-- An object is read as a record that names its members. -/
theorem reader_record_obj (members : List (String × Json)) :
    reader.record (ofJson (.obj members)) =
      pure (.named (members.map fun (key, value) => (.string key, ofJson value)) true) := by
  show readRecord (.record (ofMembers members) true) = _
  rw [ofMembers_eq_map, readRecord, List.map_map]
  rfl

@[simp]
theorem ofJson_str (text : String) : ofJson (.str text) = .string text := rfl

@[simp]
theorem ofJson_bool (value : Bool) : ofJson (.bool value) = .bool value := rfl

@[simp]
theorem reader_text_string (text : String) : reader.text (.string text) = pure text := rfl

@[simp]
theorem reader_optionalText_string (text : String) :
    reader.optionalText (.string text) = pure (some text) := rfl

@[simp]
theorem reader_flag_bool (value : Bool) : reader.flag (.bool value) = pure value := rfl

@[simp]
theorem reader_choice_severity (severity : RuleSeverity) :
    reader.choice RuleSeverity.choices (.string severity.text) = pure severity := by
  cases severity with
  | off => rfl
  | on severity => cases severity <;> rfl

@[simp]
theorem reader_choice_given (given : Document.TargetClass) :
    reader.choice Document.TargetClass.choices (.string given.text) = pure given := by
  cases given <;> rfl

theorem reader_any_ofJson {value : Json} (h : value.hasDistinctKeys) :
    reader.any (ofJson value) = pure value := by
  show readAny (ofJson value) = _
  rw [readAny, toJson?_ofJson h]

variable {σ α : Type} {shape : Shape} {read : σ → String → Draft → Except Fault σ}

/-- A member of a written object is read as the field that its key names. -/
theorem members_reader_cons {whole : Draft} {key : String} {seen : List String}
    (declared : key ∈ shape.declared) (new : key ∉ seen) (fields : σ) (value : Draft)
    (rest : List (Draft × Draft)) :
    reader.members shape read whole true seen fields ((.string key, value) :: rest) =
      read fields key value >>= fun fields =>
        reader.members shape read whole true (key :: seen) fields rest := by
  rw [Reader.members]
  show (if key ∈ shape.declared then _ else _) = _
  rw [if_pos declared, if_neg new]

theorem members_reader_nil (whole : Draft) (seen : List String) (fields : σ) :
    reader.members shape read whole true seen fields [] = pure fields := rfl

/-- A written object is read as what its members are read as, if no field is missing. -/
theorem fields_reader_obj {start fields : σ} {finish : σ → Except String α} {result : α}
    {members : List (String × Json)}
    (hmembers : reader.members shape read (ofJson (.obj members)) true [] start
      (members.map fun (key, value) => (.string key, ofJson value)) = pure fields)
    (hfinish : finish fields = .ok result) :
    reader.fields shape read start finish (ofJson (.obj members)) = pure result := by
  rw [Reader.fields, reader_record_obj, pure_bind]
  dsimp only
  rw [hmembers, pure_bind, hfinish]

end Json.Draft

open Json.Draft

theorem RuleAction.decode_toJson {action : RuleAction} (h : action.options.hasDistinctKeys) :
    RuleAction.decode reader (ofJson action.toJson) = pure action := by
  have options := reader_any_ofJson h
  refine fields_reader_obj ?_
    (rfl : ActionFields.finish ⟨some action.function, some action.options⟩ = _)
  simp [members_reader_cons, members_reader_nil, ActionFields.shape, ActionFields.read, options]

theorem RuleDefinition.decode_toJson {rule : RuleDefinition}
    (h : rule.action.options.hasDistinctKeys) :
    RuleDefinition.decode reader (ofJson rule.toJson) = pure rule := by
  have action := RuleAction.decode_toJson h
  obtain ⟨description, severity, given, resolved, called⟩ := rule
  have finish : RuleFields.finish
      ⟨description.map some, some severity, some given, some resolved, some called⟩ =
      .ok ⟨description, severity, given, resolved, called⟩ := by
    cases description <;> rfl
  refine fields_reader_obj ?_ finish
  -- a rule without a description is written without that member
  cases description with
  | none =>
    simp [members_reader_cons, members_reader_nil, RuleFields.shape, RuleFields.read, action]
  | some description =>
    simp [members_reader_cons, members_reader_nil, RuleFields.shape, RuleFields.read, action]

namespace Ruleset

theorem entries_reader_rules {ruleset : Ruleset} (h : ruleset.HasDistinctKeys) :
    reader.entries (RuleDefinition.decode reader)
      (Json.Draft.ofJson (.obj (ruleset.rules.entries.map fun (id, rule) => (id, rule.toJson)))) =
      pure ruleset.rules.entries := by
  rw [Reader.entries, reader_record_obj, pure_bind, List.map_map]
  dsimp only
  rw [mapM_map_eq_pure, pure_bind]
  · rfl
  · intro entry hentry
    simp [RuleDefinition.decode_toJson (h entry hentry)]

theorem decode_toJson {ruleset : Ruleset} (h : ruleset.HasDistinctKeys) :
    Ruleset.decode reader (Json.Draft.ofJson ruleset.toJson) = pure ruleset := by
  have entries := entries_reader_rules h
  refine fields_reader_obj ?_ rfl
  simp [members_reader_cons, members_reader_nil, Ruleset.shape, entries, Ruleset.ofList,
    Table.ofList_entries]

/-- A ruleset that was loaded and overridden is read back as it was when it is written, and is
written as before. -/
theorem ofJson_toJson_of_reachable {ruleset : Ruleset} (h : ruleset.Reachable) :
    ofJson ruleset.toJson = .ok ruleset ∧
      (ofJson ruleset.toJson).map toJson = .ok ruleset.toJson := by
  have read : ofJson ruleset.toJson = .ok ruleset := decode_toJson h.hasDistinctKeys
  exact ⟨read, by rw [read]; rfl⟩

/-- A rule that is loaded from a list of its fields, with a long name of its severity and without
options, and is then turned off. -/
theorem ofJson_toJson_of_rule_turned_off :
    let fields : Json := .arr [.null, .str "information", .str "schemas", .bool false,
      .arr [.str "string-boundary"]]
    let loaded : Ruleset := .ofList [("quiet", {
      severity := .on .info
      given := .schemas
      resolved := false
      action := ⟨"string-boundary", .null⟩ })]
    let ruleset : Ruleset := loaded.override "quiet" .off
    let rule : Json := .obj [("severity", .str "off"), ("given", .str "schemas"),
      ("resolved", .bool false),
      ("then", .obj [("function", .str "string-boundary"), ("functionOptions", .null)])]
    let written : Json := .obj [("rules", .obj [("quiet", rule)])]
    ofJson (.obj [("rules", .obj [("quiet", fields)])]) = .ok loaded ∧ ruleset.Reachable ∧
      ruleset.toJson = written ∧ ofJson written = .ok ruleset ∧
      (ofJson written).map toJson = .ok written := by
  intro fields loaded ruleset rule written
  have load : ofJson (.obj [("rules", .obj [("quiet", fields)])]) = .ok loaded := rfl
  have reachable : ruleset.Reachable := (Reachable.ofJson load).override "quiet" .off
  exact ⟨load, reachable, rfl, ofJson_toJson_of_reachable reachable⟩

end Ruleset

end ApiLint
