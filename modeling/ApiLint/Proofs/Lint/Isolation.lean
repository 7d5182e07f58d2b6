import ApiLint.Proofs.Lint.Run

/-!
# Rules do not affect each other

The report of a linter is put together from the reports on its enabled rules, and the report on a
rule mentions that rule only.  So reducing a ruleset to some of its rules reduces the report to
those rules, and two rulesets that agree on a rule report the same about it.
-/

namespace ApiLint

namespace Ruleset

/-- The rules whose ids pass a test. -/
def restrict (ruleset : Ruleset) (keep : String → Bool) : Ruleset := ⟨ruleset.rules.restrict keep⟩

/-- The ruleset reduced to one rule. -/
def only (ruleset : Ruleset) (ruleId : String) : Ruleset := ruleset.restrict (· == ruleId)

theorem enabled_restrict (ruleset : Ruleset) (keep : String → Bool) :
    (ruleset.restrict keep).enabled = ruleset.enabled.filter fun entry => keep entry.1 := by
  simp only [enabled, restrict, Table.restrict, List.filter_filter, Bool.and_comm]

theorem restrict_congr {a b : Ruleset} {keep : String → Bool}
    (h : ∀ ruleId, keep ruleId → a.get? ruleId = b.get? ruleId) :
    a.restrict keep = b.restrict keep :=
  congrArg Ruleset.mk (Table.restrict_congr h)

theorem ascending_enabled (ruleset : Ruleset) : (ruleset.enabled.map Prod.fst).Pairwise (· < ·) :=
  ruleset.rules.ascending.sublist (List.filter_sublist.map Prod.fst)

end Ruleset

namespace Linter

variable {registry : Registry} {resolved unresolved : Json} {version : Version}

/-! ## Whose findings and failures there are -/

theorem ruleId_of_mem_results {ruleId : String} {rule : RuleDefinition} {finding : Finding}
    (h : finding ∈ (reportRule registry resolved unresolved version ruleId rule).results) :
    finding.ruleId = ruleId := by
  obtain ⟨findings, hrun, hreport⟩ | ⟨error, -, hreport⟩ :=
    reportRule_cases registry resolved unresolved version ruleId rule
  · rw [hreport] at h
    exact ruleId_of_mem_runRule hrun finding h
  · simp [hreport] at h

theorem ruleId_of_mem_failures {ruleId : String} {rule : RuleDefinition} {failure : RuleFailure}
    (h : failure ∈ (reportRule registry resolved unresolved version ruleId rule).failures) :
    failure.ruleId = ruleId := by
  obtain ⟨findings, -, hreport⟩ | ⟨error, -, hreport⟩ :=
    reportRule_cases registry resolved unresolved version ruleId rule
  · simp [hreport] at h
  · rw [hreport, List.mem_singleton] at h
    rw [h]

/-! ## Parts of a report -/

/-- The report on some of the rules is the part of the report that is about them. -/
theorem lint_restrict (registry : Registry) (resolved unresolved : Json) (ruleset : Ruleset)
    (keep : String → Bool) :
    lint ⟨ruleset.restrict keep, registry⟩ resolved unresolved =
      let whole := lint ⟨ruleset, registry⟩ resolved unresolved
      ⟨whole.results.filter fun finding => keep finding.ruleId,
        whole.failures.filter fun failure => keep failure.ruleId⟩ := by
  simp only [lint_eq, Ruleset.enabled_restrict]
  rw [Entries.filter_flatMap (fun _ _ => ruleId_of_mem_results),
    Entries.filter_flatMap (fun _ _ => ruleId_of_mem_failures)]

theorem lint_only_of_mem_enabled {ruleset : Ruleset} {entry : String × RuleDefinition}
    (h : entry ∈ ruleset.enabled) :
    lint ⟨ruleset.only entry.1, registry⟩ resolved unresolved =
      reportRule registry resolved unresolved (.detect resolved) entry.1 entry.2 := by
  have nodup : (ruleset.enabled.map Prod.fst).Nodup :=
    ruleset.rules.nodup_keys.sublist (List.filter_sublist.map Prod.fst)
  have alone : (ruleset.only entry.1).enabled = [entry] :=
    (ruleset.enabled_restrict _).trans (Entries.filter_key_eq nodup h)
  simp [lint_eq, alone]

/-- What a report has about a rule is the report on that rule. -/
theorem forRule_lint {ruleset : Ruleset} {ruleId : String} {rule : RuleDefinition}
    (h : (ruleId, rule) ∈ ruleset.enabled) :
    (lint ⟨ruleset, registry⟩ resolved unresolved).forRule ruleId =
      (reportRule registry resolved unresolved (.detect resolved) ruleId rule).results := by
  have alone : lint ⟨ruleset.restrict (· == ruleId), registry⟩ resolved unresolved = _ :=
    lint_only_of_mem_enabled h
  rw [lint_restrict] at alone
  exact congrArg Report.results alone

theorem disjoint_results_failures {ruleset : Ruleset} {finding : Finding} {failure : RuleFailure}
    (hfinding : finding ∈ (lint ⟨ruleset, registry⟩ resolved unresolved).results)
    (hfailure : failure ∈ (lint ⟨ruleset, registry⟩ resolved unresolved).failures) :
    finding.ruleId ≠ failure.ruleId := by
  intro same
  rw [lint_eq] at hfinding hfailure
  obtain ⟨⟨ruleId, rule⟩, hrule, hfinding⟩ := List.mem_flatMap.1 hfinding
  obtain ⟨⟨otherId, other⟩, hother, hfailure⟩ := List.mem_flatMap.1 hfailure
  obtain rfl : ruleId = otherId :=
    (ruleId_of_mem_results hfinding).symm.trans (same.trans (ruleId_of_mem_failures hfailure))
  obtain rfl : rule = other := Option.some.inj
    ((Ruleset.get?_of_mem_enabled hrule).symm.trans (Ruleset.get?_of_mem_enabled hother))
  -- the report on one rule has findings or a failure, never both
  obtain ⟨findings, -, hreport⟩ | ⟨error, -, hreport⟩ :=
    reportRule_cases registry resolved unresolved (.detect resolved) ruleId rule
  · simp [hreport] at hfailure
  · simp [hreport] at hfinding

/-- The report on a ruleset is the reports on its enabled rules alone, one after the other in the
order of their ids; whatever is done to one rule, the report on the others stays the same; and no
rule both has findings and fails. -/
theorem lint_isolates_rules (registry : Registry) (resolved unresolved : Json)
    (ruleset : Ruleset) :
    let report (ruleset : Ruleset) : Report := lint ⟨ruleset, registry⟩ resolved unresolved
    let ids := ruleset.enabled.map Prod.fst
    ids.Pairwise (· < ·) ∧
      (report ruleset).results = ids.flatMap (fun id => (report (ruleset.only id)).results) ∧
      (report ruleset).failures = ids.flatMap (fun id => (report (ruleset.only id)).failures) ∧
      (∀ (edited : String) (other : Ruleset),
        (∀ id, id ≠ edited → other.get? id = ruleset.get? id) →
        (report other).results.filter (·.ruleId ≠ edited) =
            (report ruleset).results.filter (·.ruleId ≠ edited) ∧
          (report other).failures.filter (·.ruleId ≠ edited) =
            (report ruleset).failures.filter (·.ruleId ≠ edited)) ∧
      ∀ finding ∈ (report ruleset).results, ∀ failure ∈ (report ruleset).failures,
        finding.ruleId ≠ failure.ruleId := by
  dsimp only
  refine ⟨ruleset.ascending_enabled, ?_, ?_, fun edited other hother => ?_,
    fun _ hfinding _ hfailure => disjoint_results_failures hfinding hfailure⟩
  · rw [lint_eq, List.flatMap_map]
    exact List.flatMap_congr fun entry hentry => by rw [lint_only_of_mem_enabled hentry]
  · rw [lint_eq, List.flatMap_map]
    exact List.flatMap_congr fun entry hentry => by rw [lint_only_of_mem_enabled hentry]
  · have others : other.restrict (· ≠ edited) = ruleset.restrict (· ≠ edited) :=
      Ruleset.restrict_congr fun id hid => hother id (by simpa using hid)
    have same := congrArg (fun ruleset => lint ⟨ruleset, registry⟩ resolved unresolved) others
    simp only [lint_restrict, Report.mk.injEq] at same
    exact same

/-- A rule whose function is missing fails, and the findings of another rule stay the same. -/
theorem lint_eq_beside_unknownFunction :
    let document : Json := .obj [("parameters", .obj [("p", .obj
      [("in", .str "header"), ("name", .str "Accept")])])]
    let sound : Ruleset := .ofList [("accept", { given := .parameters, action :=
      ⟨"disallowed-header", .obj [("headerName", .str "Accept")]⟩ })]
    let broken : Ruleset := ⟨sound.rules.insert "other" { action := ⟨"missing", .null⟩ }⟩
    let report (ruleset : Ruleset) : Report := lint ⟨ruleset, .builtin⟩ document document
    (report sound).results.length = 1 ∧
      (report broken).failures = [⟨"other", .unknownFunction "missing"⟩] ∧
      (report broken).results.filter (·.ruleId ≠ "other") =
        (report sound).results.filter (·.ruleId ≠ "other") := by
  intro document sound broken report
  have agree : ∀ id, id ≠ "other" → broken.get? id = sound.get? id := fun id hid =>
    (Table.get?_insert _ _ _ id).trans (if_neg hid)
  obtain ⟨-, -, -, same, -⟩ := lint_isolates_rules .builtin document document sound
  exact ⟨by decide, by decide, (same "other" broken agree).1⟩

end Linter

end ApiLint
