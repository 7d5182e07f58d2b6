import ApiLint.Proofs.Lint.Isolation
import Mathlib.Data.List.Induction

/-!
# Overridden severities

An override replaces the severity of one rule.  The severity decides whether the rule is run and
marks its findings, and has no other use: a rule that stays enabled looks at the same targets and
finds the same, and the other rules are not affected.  Of several overrides of a rule the last one
counts.
-/

namespace ApiLint

namespace Ruleset

theorem ext_get? {a b : Ruleset} (h : ∀ ruleId, a.get? ruleId = b.get? ruleId) : a = b := by
  cases a
  cases b
  exact congrArg Ruleset.mk (Table.ext_get? h)

/-! ## Overrides -/

theorem get?_override (ruleset : Ruleset) (ruleId : String) (severity : RuleSeverity)
    (other : String) :
    (ruleset.override ruleId severity).get? other =
      (ruleset.get? other).map fun rule =>
        if other = ruleId then { rule with severity } else rule :=
  Table.get?_adjust ruleset.rules ruleId _ other

theorem get?_override_of_ne {ruleset : Ruleset} {ruleId other : String} (h : other ≠ ruleId)
    (severity : RuleSeverity) :
    (ruleset.override ruleId severity).get? other = ruleset.get? other := by
  simp [get?_override, h]

/-- There is nothing to override in a rule that is not there. -/
theorem override_of_get?_eq_none {ruleset : Ruleset} {ruleId : String}
    (h : ruleset.get? ruleId = none) (severity : RuleSeverity) :
    ruleset.override ruleId severity = ruleset := by
  refine ext_get? fun other => ?_
  by_cases hother : other = ruleId
  · rw [get?_override, hother, h, Option.map_none]
  · exact get?_override_of_ne hother severity

/-- Overrides one after the other. -/
def overrideAll (ruleset : Ruleset) (changes : List (String × RuleSeverity)) : Ruleset :=
  changes.foldl (fun ruleset (ruleId, severity) => ruleset.override ruleId severity) ruleset

/-- The severity that the last override of a rule gives it, if the rule is overridden. -/
def lastOverride? (changes : List (String × RuleSeverity)) (ruleId : String) :
    Option RuleSeverity :=
  changes.reverse.lookup ruleId

theorem get?_overrideAll (ruleset : Ruleset) (changes : List (String × RuleSeverity))
    (ruleId : String) :
    (ruleset.overrideAll changes).get? ruleId =
      (ruleset.get? ruleId).map fun rule =>
        { rule with severity := (lastOverride? changes ruleId).getD rule.severity } := by
  induction changes using List.reverseRecOn with
  | nil => simp [overrideAll, lastOverride?]
  | append_singleton changes change ih =>
    obtain ⟨changed, severity⟩ := change
    have step : ruleset.overrideAll (changes ++ [(changed, severity)]) =
        (ruleset.overrideAll changes).override changed severity := by
      simp [overrideAll]
    have last : lastOverride? (changes ++ [(changed, severity)]) ruleId =
        if ruleId = changed then some severity else lastOverride? changes ruleId := by
      simp [lastOverride?, Entries.lookup_cons]
    rw [step, get?_override, ih, last, Option.map_map]
    refine congrArg (Option.map · (ruleset.get? ruleId)) (funext fun rule => ?_)
    by_cases h : ruleId = changed <;> simp [h]

theorem overrideAll_congr {first second : List (String × RuleSeverity)}
    (h : ∀ ruleId, lastOverride? first ruleId = lastOverride? second ruleId) (ruleset : Ruleset) :
    ruleset.overrideAll first = ruleset.overrideAll second :=
  ext_get? fun ruleId => by rw [get?_overrideAll, get?_overrideAll, h]

theorem override_comm {ruleId other : String} (h : other ≠ ruleId)
    (ruleset : Ruleset) (severity otherSeverity : RuleSeverity) :
    (ruleset.override ruleId severity).override other otherSeverity =
      (ruleset.override other otherSeverity).override ruleId severity := by
  have last (id : String) :
      lastOverride? [(ruleId, severity), (other, otherSeverity)] id =
        lastOverride? [(other, otherSeverity), (ruleId, severity)] id := by
    simp only [lastOverride?, List.reverse_cons, List.reverse_nil, List.nil_append,
      List.singleton_append, Entries.lookup_cons]
    by_cases hid : id = ruleId
    · rw [if_pos hid, if_pos hid, if_neg (hid ▸ Ne.symm h)]
    · rw [if_neg hid, if_neg hid]
  exact overrideAll_congr last ruleset

end Ruleset

namespace Linter

variable {registry : Registry} {resolved unresolved : Json} {ruleset : Ruleset} {ruleId : String}

/-! ## One rule -/

/-- The severity of a rule that runs marks its findings and has no part in what they are. -/
theorem runRule_with_severity {rule : RuleDefinition} (henabled : rule.isEnabled)
    {severity : RuleSeverity} {level : Severity} (hlevel : severity.level? = some level)
    (registry : Registry) (ruleId : String) (document : Json) (version : Version) :
    runRule registry ruleId { rule with severity } document version =
      (runRule registry ruleId rule document version).map
        (List.map fun finding => { finding with severity := level }) := by
  obtain ⟨old, hold⟩ := Option.isSome_iff_exists.1 henabled
  simp only [runRule, hold, hlevel]
  cases registry.get? rule.action.function with
  | none => rfl
  | some function =>
    cases hchecked : checkTargets function rule.action.options
        (fun path => ⟨ruleId, document, path, version⟩) (rule.given.targets document version) with
    | error error => simp [hchecked, Except.map, bind, Except.bind]
    | ok diagnostics =>
      simp [hchecked, Except.map, bind, Except.bind, pure, Except.pure, Diagnostic.tag]

theorem reportRule_with_severity {rule : RuleDefinition} (henabled : rule.isEnabled)
    {severity : RuleSeverity} {level : Severity} (hlevel : severity.level? = some level)
    (registry : Registry) (resolved unresolved : Json) (version : Version) (ruleId : String) :
    reportRule registry resolved unresolved version ruleId { rule with severity } =
      let report : Report := reportRule registry resolved unresolved version ruleId rule
      ⟨report.results.map fun finding => { finding with severity := level }, report.failures⟩ := by
  have run := runRule_with_severity henabled hlevel registry ruleId
    (if rule.resolved then resolved else unresolved) version
  simp only [reportRule, run]
  cases runRule registry ruleId rule (if rule.resolved then resolved else unresolved) version <;>
    rfl

/-! ## What a report has about one rule -/

/-- The part of a report that is about an enabled rule is the report on that rule. -/
theorem about_lint {rule : RuleDefinition} (h : (ruleId, rule) ∈ ruleset.enabled) :
    let report : Report := lint ⟨ruleset, registry⟩ resolved unresolved
    (⟨report.forRule ruleId, report.failures.filter (·.ruleId = ruleId)⟩ : Report) =
      reportRule registry resolved unresolved (.detect resolved) ruleId rule := by
  rw [← lint_only_of_mem_enabled h]
  exact (lint_restrict registry resolved unresolved ruleset (· == ruleId)).symm

/-- A report has nothing about a rule that is not enabled. -/
theorem about_lint_eq_empty (h : ∀ rule, (ruleId, rule) ∉ ruleset.enabled) :
    let report : Report := lint ⟨ruleset, registry⟩ resolved unresolved
    (⟨report.forRule ruleId, report.failures.filter (·.ruleId = ruleId)⟩ : Report) = .empty := by
  have none_enabled : (ruleset.restrict (· == ruleId)).enabled = [] := by
    rw [Ruleset.enabled_restrict, List.filter_eq_nil_iff]
    rintro ⟨other, rule⟩ hrule hother
    exact h rule (eq_of_beq hother ▸ hrule)
  refine (lint_restrict registry resolved unresolved ruleset (· == ruleId)).symm.trans ?_
  rw [lint_eq, none_enabled]
  rfl

/-! ## Overrides -/

/-- The report on the other rules does not depend on the override. -/
theorem others_lint_override (registry : Registry) (resolved unresolved : Json)
    (ruleset : Ruleset) (ruleId : String) (severity : RuleSeverity) :
    let report (ruleset : Ruleset) : Report := lint ⟨ruleset, registry⟩ resolved unresolved
    (⟨(report (ruleset.override ruleId severity)).results.filter (·.ruleId ≠ ruleId),
      (report (ruleset.override ruleId severity)).failures.filter (·.ruleId ≠ ruleId)⟩ : Report) =
      ⟨(report ruleset).results.filter (·.ruleId ≠ ruleId),
        (report ruleset).failures.filter (·.ruleId ≠ ruleId)⟩ := by
  have others : (ruleset.override ruleId severity).restrict (· ≠ ruleId) =
      ruleset.restrict (· ≠ ruleId) :=
    Ruleset.restrict_congr fun id hid =>
      Ruleset.get?_override_of_ne (by simpa using hid) severity
  have same := congrArg (fun ruleset => lint ⟨ruleset, registry⟩ resolved unresolved) others
  simpa only [lint_restrict] using same

/-- A rule that is overridden to be off has nothing in the report. -/
theorem about_lint_override_off (registry : Registry) (resolved unresolved : Json)
    (ruleset : Ruleset) (ruleId : String) :
    let report : Report := lint ⟨ruleset.override ruleId .off, registry⟩ resolved unresolved
    (⟨report.forRule ruleId, report.failures.filter (·.ruleId = ruleId)⟩ : Report) = .empty := by
  refine about_lint_eq_empty fun rule hrule => ?_
  obtain ⟨hget, henabled⟩ := Ruleset.mem_enabled_iff.1 hrule
  rw [Ruleset.get?_override, Option.map_eq_some_iff] at hget
  obtain ⟨old, -, rfl⟩ := hget
  simp [RuleDefinition.isEnabled, RuleSeverity.level?] at henabled

/-- A rule that stays enabled has the same findings, marked with the new severity. -/
theorem about_lint_override {rule : RuleDefinition} (hget : ruleset.get? ruleId = some rule)
    (henabled : rule.isEnabled) {severity : RuleSeverity} {level : Severity}
    (hlevel : severity.level? = some level) :
    let report (ruleset : Ruleset) : Report := lint ⟨ruleset, registry⟩ resolved unresolved
    let changed : Report := report (ruleset.override ruleId severity)
    (⟨changed.forRule ruleId, changed.failures.filter (·.ruleId = ruleId)⟩ : Report) =
      ⟨((report ruleset).forRule ruleId).map fun finding => { finding with severity := level },
        (report ruleset).failures.filter (·.ruleId = ruleId)⟩ := by
  intro report changed
  have before : (ruleId, rule) ∈ ruleset.enabled := Ruleset.mem_enabled_iff.2 ⟨hget, henabled⟩
  have after : (ruleId, { rule with severity }) ∈ (ruleset.override ruleId severity).enabled := by
    refine Ruleset.mem_enabled_iff.2 ⟨?_, by simp [RuleDefinition.isEnabled, hlevel]⟩
    rw [Ruleset.get?_override, hget, Option.map_some, if_pos rfl]
  have old : Report.mk ((report ruleset).forRule ruleId) _ = _ := about_lint before
  have new : Report.mk (changed.forRule ruleId) _ = _ := about_lint after
  rw [new, reportRule_with_severity henabled hlevel, ← old]

/-- An override changes how the findings of its rule are marked, and nothing else: the report on
the other rules stays the same; a rule that is not there stays away; a rule that is turned off has
neither findings nor a failure; and a rule that was enabled and is not turned off has its findings
in their order, with the new severity, and its failure.  Of several overrides the last one of each
rule counts, so overrides of different rules commute. -/
theorem lint_override_retags (registry : Registry) (resolved unresolved : Json)
    (ruleset : Ruleset) (ruleId : String) (severity : RuleSeverity) :
    let report (ruleset : Ruleset) : Report := lint ⟨ruleset, registry⟩ resolved unresolved
    let failures (ruleset : Ruleset) : List RuleFailure := (report ruleset).failures
    let changed : Ruleset := ruleset.override ruleId severity
    ((report changed).results.filter (·.ruleId ≠ ruleId) =
        (report ruleset).results.filter (·.ruleId ≠ ruleId) ∧
      (failures changed).filter (·.ruleId ≠ ruleId) =
        (failures ruleset).filter (·.ruleId ≠ ruleId)) ∧
      (ruleset.get? ruleId = none → report changed = report ruleset) ∧
      (severity = .off → (report changed).forRule ruleId = [] ∧
        (failures changed).filter (·.ruleId = ruleId) = []) ∧
      (∀ rule level, ruleset.get? ruleId = some rule → rule.isEnabled →
        severity.level? = some level →
        (report changed).forRule ruleId = ((report ruleset).forRule ruleId).map
            (fun finding => { finding with severity := level }) ∧
          (failures changed).filter (·.ruleId = ruleId) =
            (failures ruleset).filter (·.ruleId = ruleId)) ∧
      (∀ first second : List (String × RuleSeverity),
        (∀ id, Ruleset.lastOverride? first id = Ruleset.lastOverride? second id) →
        ruleset.overrideAll first = ruleset.overrideAll second) ∧
      ∀ other otherSeverity, other ≠ ruleId →
        changed.override other otherSeverity =
          (ruleset.override other otherSeverity).override ruleId severity := by
  intro report failures changed
  refine ⟨?_, fun hget => ?_, ?_, fun rule level hget henabled hlevel => ?_,
    fun first second h => Ruleset.overrideAll_congr h ruleset,
    fun other otherSeverity h => Ruleset.override_comm h ruleset severity otherSeverity⟩
  · exact Report.mk.inj (others_lint_override registry resolved unresolved ruleset ruleId severity)
  · exact congrArg report (Ruleset.override_of_get?_eq_none hget severity)
  · rintro rfl
    exact Report.mk.inj (about_lint_override_off registry resolved unresolved ruleset ruleId)
  · exact Report.mk.inj (about_lint_override hget henabled hlevel)

/-- A header rule that is made an error after it was turned off, beside a rule that fails. -/
theorem lint_override_of_header_rule :
    let document : Json := .obj [("parameters", .obj [("p", .obj
      [("in", .str "header"), ("name", .str "Accept")])])]
    let accept : RuleDefinition := { given := .parameters, action :=
      ⟨"disallowed-header", .obj [("headerName", .str "Accept")]⟩ }
    let ruleset : Ruleset := .ofList [("accept", accept),
      ("other", { action := ⟨"missing", .null⟩ })]
    let report (ruleset : Ruleset) : Report := lint ⟨ruleset, .builtin⟩ document document
    let louder : Ruleset := ruleset.override "accept" (.on .error)
    (report ruleset).results.length = 1 ∧ ruleset.get? "absent" = none ∧ accept.isEnabled ∧
      report (ruleset.override "absent" .off) = report ruleset ∧
      (report (ruleset.override "accept" .off)).forRule "accept" = [] ∧
      (report louder).forRule "accept" = ((report ruleset).forRule "accept").map
        (fun finding => { finding with severity := .error }) ∧
      (report louder).failures.filter (·.ruleId ≠ "accept") =
        (report ruleset).failures.filter (·.ruleId ≠ "accept") ∧
      ruleset.overrideAll [("accept", .off), ("accept", .on .error)] = louder ∧
      louder.override "other" .off =
        (ruleset.override "other" .off).override "accept" (.on .error) := by
  intro document accept ruleset report louder
  have found : ruleset.get? "accept" = some accept := rfl
  have absent : ruleset.get? "absent" = none := rfl
  have law := lint_override_retags .builtin document document ruleset
  obtain ⟨-, unknown, -⟩ := law "absent" .off
  obtain ⟨-, -, silent, -⟩ := law "accept" .off
  obtain ⟨⟨-, others⟩, -, -, retagged, last, commute⟩ := law "accept" (.on .error)
  refine ⟨by decide, absent, by decide, unknown absent, (silent rfl).1,
    (retagged accept .error found (by decide) rfl).1, others, ?_, commute "other" .off (by decide)⟩
  refine last [("accept", .off), ("accept", .on .error)] [("accept", .on .error)] fun id => ?_
  by_cases h : id = "accept" <;> simp [Ruleset.lastOverride?, Entries.lookup_cons, h]

end Linter

end ApiLint
