import ApiLint.Proofs.Document.Targets
import ApiLint.Proofs.Lint.Run
import ApiLint.Proofs.Rule.Located
import ApiLint.Proofs.Rule.Registry

/-!
# Where findings are

A rule runs its function on targets of the view of the document that it looks at. Targets are
located in the view, and functions of the library place their diagnostics below the target, so
every finding is at a node of the view.
-/

namespace ApiLint.Linter

variable {version : Version} {ruleId : String} {rule : RuleDefinition}

/-- The findings of one rule are at nodes of the document that it runs on. -/
theorem resolve?_of_mem_runRule {document : Json} (distinct : document.hasDistinctKeys)
    {findings : List Finding} (h : runRule .builtin ruleId rule document version = .ok findings)
    {finding : Finding} (hfinding : finding ∈ findings) :
    ∃ node, finding.path.resolve? document = some node := by
  obtain ⟨-, rfl⟩ | ⟨_, function, diagnostics, -, hfunction, hchecked, rfl⟩ := runRule_eq_ok h
  · cases hfinding
  · obtain ⟨d, hd, rfl⟩ := List.mem_map.1 hfinding
    obtain ⟨target, htarget, own, hcheck, hd⟩ := mem_of_checkTargets hchecked hd
    have anchored := isAnchored_of_mem_builtinFunctions (Registry.mem_of_get?_builtin hfunction).1
    obtain ⟨node, hnode⟩ := anchored hcheck (Document.isIn_of_mem_targets distinct htarget) d hd
    exact ⟨node, hnode.found⟩

/-- Every finding of a linter over the functions of the library is at a node of the view of the
document that its rule looks at. -/
theorem lint_paths_resolve (ruleset : Ruleset) {resolved unresolved : Json}
    (hresolved : resolved.hasDistinctKeys) (hunresolved : unresolved.hasDistinctKeys) :
    ∀ finding ∈ (lint ⟨ruleset, .builtin⟩ resolved unresolved).results,
      ∃ rule, ruleset.get? finding.ruleId = some rule ∧
        ∃ node, finding.path.resolve? (if rule.resolved then resolved else unresolved) =
          some node := by
  intro finding hfinding
  obtain ⟨ruleId, rule, hrule, findings, hrun, hmem⟩ := mem_results_lint_iff.1 hfinding
  have hid : finding.ruleId = ruleId := ruleId_of_mem_runRule hrun finding hmem
  have hview : (if rule.resolved then resolved else unresolved).hasDistinctKeys := by
    split
    · exact hresolved
    · exact hunresolved
  exact ⟨rule, hid ▸ Ruleset.get?_of_mem_enabled hrule, resolve?_of_mem_runRule hview hrun hmem⟩

/-- A parameter of the view with references is found by a rule that looks at that view. -/
theorem exists_node_of_header_finding :
    let document : Json := .obj [("parameters", .obj [("p", .obj
      [("in", .str "header"), ("name", .str "Accept")])])]
    let action : RuleAction := ⟨"disallowed-header", .obj [("headerName", .str "accept")]⟩
    let ruleset : Ruleset :=
      .ofList [("accept", { given := .parameters, resolved := false, action })]
    let finding : Finding := ⟨"accept", .warn,
      "Header parameter 'Accept' should not be defined explicitly",
      .ofKeys ["parameters", "p", "name"]⟩
    document.hasDistinctKeys ∧ finding ∈ (lint ⟨ruleset, .builtin⟩ .null document).results ∧
      ∃ rule, ruleset.get? "accept" = some rule ∧
        ∃ node, finding.path.resolve? (if rule.resolved then .null else document) = some node := by
  intro document action ruleset finding
  have distinct : document.hasDistinctKeys := by decide
  have reported : finding ∈ (lint ⟨ruleset, .builtin⟩ .null document).results := by decide
  exact ⟨distinct, reported, lint_paths_resolve ruleset (by decide) distinct finding reported⟩

end ApiLint.Linter
