import ApiLint.Proofs.Document.Selection
import ApiLint.Proofs.Lint.Isolation
import ApiLint.Proofs.Rule.Distinct
import ApiLint.Proofs.Rule.Registry

/-!
# Findings at different places

A rule runs its function on targets none of which stands inside another one.  The diagnostics of a
target are at different places below it, and nothing is below two targets, so the findings of the
rule are at different places.
-/

namespace ApiLint

namespace Linter

variable {version : Version} {ruleId : String} {rule : RuleDefinition}

/-- On targets that do not stand inside each other, a function that reports the places below one
target once reports every place once. -/
theorem nodup_paths_checkTargets {function : RuleFunction} (apart : function.ReportsApart)
    {options document : Json} {targets : List Document.Target}
    (distinct : ∀ target ∈ targets, target.node.hasDistinctKeys)
    (htargets : targets.Pairwise fun a b => ¬a.path.IsComparable b.path)
    {diagnostics : List Diagnostic}
    (h : checkTargets function options (fun path => ⟨ruleId, document, path, version⟩) targets =
      .ok diagnostics) :
    (diagnostics.map Diagnostic.path).Nodup := by
  induction targets generalizing diagnostics with
  | nil =>
    cases h
    exact .nil
  | cons target rest ih =>
    rw [List.forall_mem_cons] at distinct
    rw [List.pairwise_cons] at htargets
    obtain ⟨own, hown, h⟩ := bind_eq_ok_iff.1 h
    obtain ⟨others, hothers, h⟩ := bind_eq_ok_iff.1 h
    cases h
    have ownApart := apart hown distinct.1
    rw [List.map_append]
    refine List.Nodup.append ownApart.nodup_paths (ih distinct.2 htargets.2 hothers) ?_
    -- a path of both would lead through this target and through a later one
    refine List.disjoint_left.2 fun path hpath hpath' => ?_
    obtain ⟨d, hd, rfl⟩ := List.mem_map.1 hpath
    obtain ⟨d', hd', hsame⟩ := List.mem_map.1 hpath'
    obtain ⟨other, hother, otherOwn, hcheck, hd'⟩ := mem_of_checkTargets hothers hd'
    obtain ⟨steps, hsteps⟩ := ownApart.exists_eq_join hd
    obtain ⟨steps', hsteps'⟩ := (apart hcheck (distinct.2 other hother)).exists_eq_join hd'
    have both : target.path.join steps = other.path.join steps' :=
      hsteps.symm.trans (hsame.symm.trans hsteps')
    exact htargets.1 other hother (Path.isComparable_of_join_eq both)

/-- The findings of one rule are at different places. -/
theorem nodup_paths_runRule {document : Json} (distinct : document.hasDistinctKeys)
    (hfunction : rule.action.function ≠ Rule.PropertyConsistentType.function.name)
    {findings : List Finding} (h : runRule .builtin ruleId rule document version = .ok findings) :
    (findings.map Finding.path).Nodup := by
  obtain ⟨-, rfl⟩ | ⟨severity, function, diagnostics, -, hfound, hchecked, rfl⟩ := runRule_eq_ok h
  · exact .nil
  · obtain ⟨hmem, hname⟩ := Registry.mem_of_get?_builtin hfound
    have apart := reportsApart_of_mem_builtinFunctions hmem (hname ▸ hfunction)
    have nodup := nodup_paths_checkTargets apart
      (fun target htarget => (Document.isIn_of_mem_targets distinct htarget).hasDistinctKeys)
      (Document.pairwise_targets distinct rule.given version) hchecked
    rwa [List.map_map]

theorem nodup_paths_reportRule {resolved unresolved : Json} (hresolved : resolved.hasDistinctKeys)
    (hunresolved : unresolved.hasDistinctKeys)
    (hfunction : rule.action.function ≠ Rule.PropertyConsistentType.function.name) :
    ((reportRule .builtin resolved unresolved version ruleId rule).results.map
      Finding.path).Nodup := by
  have hview : (if rule.resolved then resolved else unresolved).hasDistinctKeys := by
    split
    · exact hresolved
    · exact hunresolved
  obtain ⟨findings, hrun, hreport⟩ | ⟨error, -, hreport⟩ :=
    reportRule_cases .builtin resolved unresolved version ruleId rule
  · rw [hreport]
    exact nodup_paths_runRule hview hfunction hrun
  · rw [hreport]
    exact .nil

/-- No place is reported twice by a rule, unless its function is the one that gives a diagnostic for
each property of a node: no two findings of the rule have the same path.  In particular no target
of a class stands inside another one or at its place, so no node is looked at twice. -/
theorem lint_reports_places_once (ruleset : Ruleset) {resolved unresolved : Json}
    (hresolved : resolved.hasDistinctKeys) (hunresolved : unresolved.hasDistinctKeys) :
    (∀ (ruleId : String) (rule : RuleDefinition), (ruleId, rule) ∈ ruleset.enabled →
        rule.action.function ≠ Rule.PropertyConsistentType.function.name →
        (((lint ⟨ruleset, .builtin⟩ resolved unresolved).forRule ruleId).map
          Finding.path).Nodup) ∧
      ∀ document : Json, document.hasDistinctKeys → ∀ (c : Document.TargetClass)
        (version : Version), (c.targets document version).Pairwise fun a b =>
          ¬a.path.segments <+: b.path.segments ∧ ¬b.path.segments <+: a.path.segments := by
  constructor
  · intro ruleId rule hrule hfunction
    rw [forRule_lint hrule]
    exact nodup_paths_reportRule hresolved hunresolved hfunction
  · intro document distinct c version
    exact (Document.pairwise_targets distinct c version).imp fun hab => not_or.1 hab

/-- Header parameters of a document of unknown version, in three lists that are all looked at. -/
theorem nodup_paths_of_header_findings :
    let header : Json := .obj [("in", .str "header"), ("name", .str "Accept")]
    let operation : Json := .obj [("parameters", .arr [header, header])]
    let document : Json := .obj [("parameters", .obj [("p", header)]),
      ("components", .obj [("parameters", .obj [("p", header)])]),
      ("paths", .obj [("/", .obj [("get", operation)])])]
    let rule : RuleDefinition := { given := .parameters, action :=
      ⟨"disallowed-header", .obj [("headerName", .str "accept")]⟩ }
    let findings := (lint ⟨.ofList [("accept", rule)], .builtin⟩ document document).forRule "accept"
    document.hasDistinctKeys ∧ findings.length = 4 ∧ (findings.map Finding.path).Nodup := by
  intro header operation document rule findings
  have distinct : document.hasDistinctKeys := by decide
  obtain ⟨once, -⟩ := lint_reports_places_once (.ofList [("accept", rule)]) distinct distinct
  have enabled : (Ruleset.ofList [("accept", rule)]).enabled = [("accept", rule)] := by rfl
  have mem : ("accept", rule) ∈ (Ruleset.ofList [("accept", rule)]).enabled :=
    enabled ▸ List.mem_singleton_self _
  exact ⟨distinct, by decide, once "accept" rule mem (by decide)⟩

end Linter

end ApiLint
