import ApiLint.Lint
import ApiLint.Proofs.Except
import ApiLint.Proofs.Table
import Mathlib.Data.List.Forall2

/-!
# Running rules

What a run of one rule consists of, and how the report of a linter is put together from the reports
on its enabled rules.
-/

namespace ApiLint

theorem Ruleset.mem_enabled_iff {ruleset : Ruleset} {ruleId : String} {rule : RuleDefinition} :
    (ruleId, rule) ∈ ruleset.enabled ↔ ruleset.get? ruleId = some rule ∧ rule.isEnabled := by
  rw [enabled, List.mem_filter]
  exact and_congr_left' Table.get?_eq_some_iff.symm

theorem Ruleset.get?_of_mem_enabled {ruleset : Ruleset} {ruleId : String} {rule : RuleDefinition}
    (h : (ruleId, rule) ∈ ruleset.enabled) : ruleset.get? ruleId = some rule :=
  (mem_enabled_iff.1 h).1

namespace Linter

variable {registry : Registry} {document : Json} {version : Version} {ruleId : String}
  {rule : RuleDefinition}

/-! ## One rule -/

/-- A function that looks at targets without an error gives the diagnostics of each in turn. -/
theorem checkTargets_eq_ok_iff {function : RuleFunction} {options : Json} {site : Path → Site}
    {targets : List Document.Target} {diagnostics : List Diagnostic} :
    checkTargets function options site targets = .ok diagnostics ↔
      ∃ parts, List.Forall₂ (fun target own =>
        function.check target.node options (site target.path) = .ok own) targets parts ∧
          diagnostics = parts.flatten := by
  induction targets generalizing diagnostics with
  | nil =>
    constructor
    · rintro ⟨⟩
      exact ⟨[], .nil, rfl⟩
    · rintro ⟨_, ⟨⟩, rfl⟩
      rfl
  | cons target rest ih =>
    simp only [checkTargets, bind_eq_ok_iff, ih]
    constructor
    · rintro ⟨own, hown, _, ⟨parts, hparts, rfl⟩, h⟩
      cases h
      exact ⟨own :: parts, .cons hown hparts, rfl⟩
    · rintro ⟨_, _ | ⟨hown, hparts⟩, rfl⟩
      exact ⟨_, hown, _, ⟨_, hparts, rfl⟩, rfl⟩

theorem mem_of_checkTargets {function : RuleFunction} {options : Json} {site : Path → Site}
    {targets : List Document.Target} {diagnostics : List Diagnostic}
    (h : checkTargets function options site targets = .ok diagnostics) {d : Diagnostic}
    (hd : d ∈ diagnostics) :
    ∃ target ∈ targets, ∃ own, function.check target.node options (site target.path) = .ok own ∧
      d ∈ own := by
  obtain ⟨parts, hparts, rfl⟩ := checkTargets_eq_ok_iff.1 h
  obtain ⟨own, hown, hd⟩ := List.mem_flatten.1 hd
  obtain ⟨i, hi, rfl⟩ := List.mem_iff_getElem.1 hown
  have hlength := hparts.length_eq
  exact ⟨targets[i], List.getElem_mem _, parts[i], hparts.get (hlength ▸ hi) hi, hd⟩

/-- The findings of a rule that is not off are the diagnostics of its function, tagged. -/
theorem runRule_eq_ok {findings : List Finding}
    (h : runRule registry ruleId rule document version = .ok findings) :
    (¬rule.isEnabled ∧ findings = []) ∨
      ∃ severity function diagnostics, rule.severity.level? = some severity ∧
      registry.get? rule.action.function = some function ∧
      checkTargets function rule.action.options (fun path => ⟨ruleId, document, path, version⟩)
        (rule.given.targets document version) = .ok diagnostics ∧
      findings = diagnostics.map (Diagnostic.tag ruleId severity) := by
  unfold runRule at h
  split at h
  · next severity hseverity =>
    split at h
    · next function hfunction =>
      obtain ⟨diagnostics, hdiagnostics, h⟩ := bind_eq_ok_iff.1 h
      cases h
      exact .inr ⟨severity, function, diagnostics, hseverity, hfunction, hdiagnostics, rfl⟩
    · cases h
  · next hoff =>
    cases h
    refine .inl ⟨fun henabled => ?_, rfl⟩
    obtain ⟨severity, hseverity⟩ := Option.isSome_iff_exists.1 henabled
    exact hoff severity hseverity

theorem ruleId_of_mem_runRule {findings : List Finding}
    (h : runRule registry ruleId rule document version = .ok findings) :
    ∀ finding ∈ findings, finding.ruleId = ruleId := by
  rcases runRule_eq_ok h with ⟨-, rfl⟩ | ⟨severity, function, diagnostics, -, -, -, rfl⟩
  · simp
  · intro finding hfinding
    obtain ⟨d, -, rfl⟩ := List.mem_map.1 hfinding
    rfl

/-! ## Reports -/

variable {resolved unresolved : Json}

/-- A rule either has findings or fails, and its report is about itself. -/
theorem reportRule_cases (registry : Registry) (resolved unresolved : Json) (version : Version)
    (ruleId : String) (rule : RuleDefinition) :
    (∃ findings, runRule registry ruleId rule (if rule.resolved then resolved else unresolved)
        version = .ok findings ∧
      reportRule registry resolved unresolved version ruleId rule = ⟨findings, []⟩) ∨
      ∃ error, runRule registry ruleId rule (if rule.resolved then resolved else unresolved)
        version = .error error ∧
      reportRule registry resolved unresolved version ruleId rule = ⟨[], [⟨ruleId, error⟩]⟩ := by
  unfold reportRule
  cases runRule registry ruleId rule (if rule.resolved then resolved else unresolved) version with
  | ok findings => exact .inl ⟨findings, rfl, rfl⟩
  | error error => exact .inr ⟨error, rfl, rfl⟩

theorem foldl_append {ι : Type} (part : ι → Report) (parts : List ι) (start : Report) :
    parts.foldl (fun report i => report ++ part i) start =
      ⟨start.results ++ parts.flatMap fun i => (part i).results,
        start.failures ++ parts.flatMap fun i => (part i).failures⟩ := by
  induction parts generalizing start with
  | nil => simp
  | cons i rest ih =>
    rw [List.foldl_cons, ih]
    simp only [List.flatMap_cons, ← List.append_assoc]
    rfl

/-- The report of a linter is put together from the reports on the enabled rules. -/
theorem lint_eq (linter : Linter) (resolved unresolved : Json) :
    linter.lint resolved unresolved =
      let part (entry : String × RuleDefinition) : Report :=
        reportRule linter.registry resolved unresolved (.detect resolved) entry.1 entry.2
      ⟨linter.ruleset.enabled.flatMap fun entry => (part entry).results,
        linter.ruleset.enabled.flatMap fun entry => (part entry).failures⟩ :=
  foldl_append _ _ _

/-- A finding of a linter is one of an enabled rule. -/
theorem mem_results_lint_iff {ruleset : Ruleset} {finding : Finding} :
    finding ∈ (lint ⟨ruleset, registry⟩ resolved unresolved).results ↔
      ∃ ruleId rule, (ruleId, rule) ∈ ruleset.enabled ∧
        ∃ findings, runRule registry ruleId rule (if rule.resolved then resolved else unresolved)
          (.detect resolved) = .ok findings ∧ finding ∈ findings := by
  rw [lint_eq, List.mem_flatMap, Prod.exists]
  refine exists_congr fun ruleId => exists_congr fun rule => and_congr_right' ?_
  dsimp only
  obtain ⟨findings, hrun, hreport⟩ | ⟨error, hrun, hreport⟩ :=
    reportRule_cases registry resolved unresolved (.detect resolved) ruleId rule
  · simp [hrun, hreport]
  · simp [hrun, hreport]

end Linter

end ApiLint
