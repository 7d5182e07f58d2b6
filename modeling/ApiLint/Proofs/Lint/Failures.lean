import ApiLint.Proofs.Descent
import ApiLint.Proofs.Lint.Isolation
import ApiLint.Proofs.Rule.Options
import ApiLint.Proofs.Rule.Registry

/-!
# Rules that fail

A rule fails when its function is not there, or when the function cannot work with the options and
there is something to look at.  Both can be seen without running the rule.  A function that fails on
one target fails on the first, so a rule either fails before it has any diagnostic, or it has the
diagnostics of all its targets.
-/

namespace ApiLint

namespace RuleDefinition

/-- The targets of a rule in the view of the document that it looks at. -/
def targetsIn (rule : RuleDefinition) (resolved unresolved : Json) (version : Version) :
    List Document.Target :=
  rule.given.targets (if rule.resolved then resolved else unresolved) version

/-- Whether a rule with these targets fails with the functions of the library: there is no function
of its name, or there are targets and wrong options. -/
def isMisconfigured (rule : RuleDefinition) (targets : List Document.Target) : Bool :=
  !builtinFunctions.any (·.name == rule.action.function) ||
    (!targets.isEmpty && rule.action.hasWrongOptions)

end RuleDefinition

namespace Linter

variable {rule : RuleDefinition}

/-! ## Runs -/

theorem isOk_checkTargets {function : RuleFunction} (h : function ∈ builtinFunctions)
    (options : Json) (site : Path → Site) (targets : List Document.Target) :
    (checkTargets function options site targets).isOk =
      (targets.isEmpty || !RuleAction.hasWrongOptions ⟨function.name, options⟩) := by
  induction targets with
  | nil => rfl
  | cons target rest ih =>
    have own := isOk_check_of_mem_builtinFunctions h target.node options (site target.path)
    rw [checkTargets]
    cases hcheck : function.check target.node options (site target.path) with
    | error error =>
      rw [hcheck] at own
      exact own
    | ok diagnostics =>
      -- the options are right, so the other targets cannot fail either
      rw [hcheck] at own
      refine (isOk_bind_pure _ _).trans (ih.trans ?_)
      rw [← own]
      exact Bool.or_true _

/-- A rule that is not off runs to its end exactly when it is not misconfigured. -/
theorem isOk_runRule (henabled : rule.isEnabled) (ruleId : String) (document : Json)
    (version : Version) :
    (runRule .builtin ruleId rule document version).isOk =
      !rule.isMisconfigured (rule.given.targets document version) := by
  obtain ⟨severity, hseverity⟩ := Option.isSome_iff_exists.1 henabled
  have found := Registry.isSome_get?_builtin rule.action.function
  rw [RuleDefinition.isMisconfigured, ← found, runRule, hseverity]
  cases hfunction : Registry.builtin.get? rule.action.function with
  | none => rfl
  | some function =>
    obtain ⟨hmem, hname⟩ := Registry.mem_of_get?_builtin hfunction
    refine (isOk_bind_pure _ _).trans ((isOk_checkTargets hmem _ _ _).trans ?_)
    rw [hname]
    simp

/-! ## Reports -/

/-- The report on a rule that is not off has a failure exactly when the rule is misconfigured. -/
theorem failures_reportRule (henabled : rule.isEnabled) (resolved unresolved : Json)
    (version : Version) (ruleId : String) :
    (reportRule .builtin resolved unresolved version ruleId rule).failures.map RuleFailure.ruleId =
      if rule.isMisconfigured (rule.targetsIn resolved unresolved version) then [ruleId]
      else [] := by
  have outcome := isOk_runRule henabled ruleId (if rule.resolved then resolved else unresolved)
    version
  obtain ⟨findings, hrun, hreport⟩ | ⟨error, hrun, hreport⟩ :=
    reportRule_cases .builtin resolved unresolved version ruleId rule
  · rw [hrun, eq_comm, Bool.not_eq_eq_eq_not] at outcome
    rw [hreport, RuleDefinition.targetsIn, outcome]
    rfl
  · rw [hrun, eq_comm, Bool.not_eq_eq_eq_not] at outcome
    rw [hreport, RuleDefinition.targetsIn, outcome]
    rfl

variable {resolved unresolved : Json} {version : Version}

theorem results_of_isMisconfigured (henabled : rule.isEnabled) (ruleId : String)
    (h : rule.isMisconfigured (rule.targetsIn resolved unresolved version)) :
    (reportRule .builtin resolved unresolved version ruleId rule).results = [] := by
  have failures := failures_reportRule henabled resolved unresolved version ruleId
  obtain ⟨findings, -, hreport⟩ | ⟨error, -, hreport⟩ :=
    reportRule_cases .builtin resolved unresolved version ruleId rule
  · rw [hreport, if_pos h] at failures
    cases failures
  · rw [hreport]

/-- A rule that is neither off nor misconfigured has the diagnostics of all its targets. -/
theorem results_of_not_isMisconfigured (henabled : rule.isEnabled) (ruleId : String)
    (h : ¬rule.isMisconfigured (rule.targetsIn resolved unresolved version)) :
    ∃ severity function parts, rule.severity.level? = some severity ∧
      Registry.builtin.get? rule.action.function = some function ∧
      List.Forall₂ (fun target own => function.check target.node rule.action.options
          ⟨ruleId, if rule.resolved then resolved else unresolved, target.path, version⟩ = .ok own)
        (rule.targetsIn resolved unresolved version) parts ∧
      (reportRule .builtin resolved unresolved version ruleId rule).results =
        parts.flatten.map fun d => ⟨ruleId, severity, d.message, d.path⟩ := by
  have failures := failures_reportRule henabled resolved unresolved version ruleId
  obtain ⟨findings, hrun, hreport⟩ | ⟨error, -, hreport⟩ :=
    reportRule_cases .builtin resolved unresolved version ruleId rule
  · obtain ⟨hoff, -⟩ | ⟨severity, function, diagnostics, hseverity, hfunction, hchecked, rfl⟩ :=
      runRule_eq_ok hrun
    · exact absurd henabled hoff
    · obtain ⟨parts, hparts, rfl⟩ := checkTargets_eq_ok_iff.1 hchecked
      refine ⟨severity, function, parts, hseverity, hfunction, hparts, ?_⟩
      rw [hreport]
      rfl
  · rw [hreport, if_neg h] at failures
    cases failures

/-- The rules whose reports have a failure, in the order of their ids. -/
theorem failures_lint (ruleset : Ruleset) (resolved unresolved : Json) :
    (lint ⟨ruleset, .builtin⟩ resolved unresolved).failures.map RuleFailure.ruleId =
      (ruleset.enabled.filter fun (_, rule) =>
        rule.isMisconfigured (rule.targetsIn resolved unresolved (.detect resolved))).map
          Prod.fst := by
  rw [lint_eq, List.map_flatMap, ← List.flatMap_pure_eq_map Prod.fst, Descent.flatMap_filter]
  refine List.flatMap_congr fun entry hentry => ?_
  exact failures_reportRule (Ruleset.mem_enabled_iff.1 hentry).2 resolved unresolved _ entry.1

/-- The rules that fail are the misconfigured ones, each once and in the order of their ids.  A rule
that fails has no findings, and every other rule that is not off has the diagnostics of all its
targets, with their messages and paths. -/
theorem lint_fails_misconfigured_rules (ruleset : Ruleset) (resolved unresolved : Json) :
    let report : Report := lint ⟨ruleset, .builtin⟩ resolved unresolved
    let version : Version := .detect resolved
    let targets (rule : RuleDefinition) : List Document.Target :=
      rule.targetsIn resolved unresolved version
    report.failures.map RuleFailure.ruleId =
        (ruleset.enabled.filter fun (_, rule) => rule.isMisconfigured (targets rule)).map
          Prod.fst ∧
      (report.failures.map RuleFailure.ruleId).Pairwise (· < ·) ∧
      ∀ (ruleId : String) (rule : RuleDefinition), (ruleId, rule) ∈ ruleset.enabled →
        (rule.isMisconfigured (targets rule) → report.forRule ruleId = []) ∧
        (¬rule.isMisconfigured (targets rule) →
          ∃ severity function parts, rule.severity.level? = some severity ∧
            Registry.builtin.get? rule.action.function = some function ∧
            List.Forall₂ (fun target own => function.check target.node rule.action.options
                ⟨ruleId, if rule.resolved then resolved else unresolved, target.path, version⟩ =
                  .ok own)
              (targets rule) parts ∧
            report.forRule ruleId =
              parts.flatten.map fun d => ⟨ruleId, severity, d.message, d.path⟩) := by
  intro report version targets
  have failed := failures_lint ruleset resolved unresolved
  refine ⟨failed, ?_, fun ruleId rule hrule => ?_⟩
  · rw [failed]
    exact ruleset.ascending_enabled.sublist (List.filter_sublist.map Prod.fst)
  · have henabled : rule.isEnabled := (Ruleset.mem_enabled_iff.1 hrule).2
    rw [show report.forRule ruleId = _ from forRule_lint hrule]
    exact ⟨results_of_isMisconfigured henabled ruleId,
      results_of_not_isMisconfigured henabled ruleId⟩

/-- An empty header name is wrong where there are parameters, and no header name is not where there
are no operations.  A rule with a header name has what it finds in all parameters. -/
theorem failures_of_wrong_options :
    let header (name : String) : Json := .obj [("in", .str "header"), ("name", .str name)]
    let document : Json := .obj [("parameters", .obj [("p", header "Accept"),
      ("q", header "Origin"), ("r", header "accept")])]
    let onHeader (name : String) : RuleAction :=
      ⟨"disallowed-header", .obj [("headerName", .str name)]⟩
    let accept : RuleDefinition := { given := .parameters, action := onHeader "Accept" }
    let empty : RuleDefinition := { given := .parameters, action := onHeader "" }
    let idle : RuleDefinition := { given := .operations, action := ⟨"disallowed-header", .null⟩ }
    let siblings : RuleDefinition := { action :=
      ⟨"ref-siblings", .obj [("allowedSiblings", .arr [.str "description", .null])]⟩ }
    let ruleset : Ruleset := .ofList [("siblings", siblings), ("idle", idle), ("empty", empty),
      ("accept", accept), ("absent", { action := ⟨"missing", .null⟩ })]
    let report : Report := lint ⟨ruleset, .builtin⟩ document document
    report.failures.map RuleFailure.ruleId = ["absent", "empty", "siblings"] ∧
      empty.isMisconfigured (empty.targetsIn document document .unknown) ∧
      report.forRule "empty" = [] ∧
      ¬accept.isMisconfigured (accept.targetsIn document document .unknown) ∧
      report.forRule "accept" =
        [⟨"accept", .warn, "Header parameter 'Accept' should not be defined explicitly",
            .ofKeys ["parameters", "p", "name"]⟩,
          ⟨"accept", .warn, "Header parameter 'accept' should not be defined explicitly",
            .ofKeys ["parameters", "r", "name"]⟩] := by
  intro header document onHeader accept empty idle siblings ruleset report
  obtain ⟨failed, -, outcome⟩ := lint_fails_misconfigured_rules ruleset document document
  have wrong : empty.isMisconfigured (empty.targetsIn document document .unknown) := by decide
  have right : ¬accept.isMisconfigured (accept.targetsIn document document .unknown) := by decide
  have hempty : ("empty", empty) ∈ ruleset.enabled := Ruleset.mem_enabled_iff.2 ⟨rfl, rfl⟩
  have haccept : ("accept", accept) ∈ ruleset.enabled := Ruleset.mem_enabled_iff.2 ⟨rfl, rfl⟩
  refine ⟨failed.trans (by decide), wrong, (outcome "empty" empty hempty).1 wrong, right, ?_⟩
  obtain ⟨severity, function, parts, hseverity, hfunction, hparts, hreport⟩ :=
    (outcome "accept" accept haccept).2 right
  obtain rfl : .warn = severity := Option.some.inj hseverity
  obtain rfl : Rule.DisallowedHeader.function = function := Option.some.inj hfunction
  -- each part is what the function answers about its parameter
  obtain _ | ⟨hp, _ | ⟨hq, _ | ⟨hr, _ | _⟩⟩⟩ := hparts
  cases hp
  cases hq
  cases hr
  exact hreport

end Linter

end ApiLint
