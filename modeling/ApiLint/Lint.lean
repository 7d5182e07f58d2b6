import ApiLint.Rule.Registry
import ApiLint.Ruleset.Recommended

/-!
# Linting

Every enabled rule looks at its targets in a document. A rule whose options are wrong, or whose
function is not registered, is recorded as failed; the other rules are not affected.
-/

namespace ApiLint

/-- A rule that could not be run to its end. -/
structure RuleFailure where
  ruleId : String
  error : RuleError
deriving DecidableEq

structure Report where
  results : List Finding
  failures : List RuleFailure
deriving DecidableEq

namespace Report

def empty : Report := ⟨[], []⟩

def append (a b : Report) : Report := ⟨a.results ++ b.results, a.failures ++ b.failures⟩

instance : Append Report := ⟨append⟩

/-- The number of findings of a severity. -/
def count (report : Report) (severity : Severity) : Nat :=
  (report.results.filter (·.severity = severity)).length

def hasErrors (report : Report) : Bool := 0 < report.count .error

/-- The findings of a rule. -/
def forRule (report : Report) (ruleId : String) : List Finding :=
  report.results.filter (·.ruleId = ruleId)

end Report

/-- A ruleset, and the functions that its rules can call. -/
structure Linter where
  ruleset : Ruleset
  registry : Registry

namespace Linter

/-- The recommended rules over the functions of the library. -/
def recommended : Linter := ⟨.recommended, .builtin⟩

/-- The diagnostics of all targets in their order, or the first error. -/
def checkTargets (function : RuleFunction) (options : Json) (site : Path → Site) :
    List Document.Target → Except RuleError (List Diagnostic)
  | [] => pure []
  | target :: rest => do
    let own ← function.check target.node options (site target.path)
    let others ← checkTargets function options site rest
    pure (own ++ others)

/-- The findings of one rule in the view of the document that it looks at. -/
def runRule (registry : Registry) (ruleId : String) (rule : RuleDefinition) (document : Json)
    (version : Version) : Except RuleError (List Finding) := do
  let some severity := rule.severity.level? | pure []
  let some function := registry.get? rule.action.function
    | throw (.unknownFunction rule.action.function)
  let diagnostics ← checkTargets function rule.action.options
    (fun path => ⟨ruleId, document, path, version⟩) (rule.given.targets document version)
  pure (diagnostics.map (Diagnostic.tag ruleId severity))

/-- The report on one rule. -/
def reportRule (registry : Registry) (resolved unresolved : Json) (version : Version)
    (ruleId : String) (rule : RuleDefinition) : Report :=
  match runRule registry ruleId rule (if rule.resolved then resolved else unresolved) version with
  | .ok results => ⟨results, []⟩
  | .error error => ⟨[], [⟨ruleId, error⟩]⟩

/-- The report on a document, given with and without its references resolved. Its version is that
of the resolved view. -/
def lint (linter : Linter) (resolved unresolved : Json) : Report :=
  let version := Version.detect resolved
  linter.ruleset.enabled.foldl
    (fun report (ruleId, rule) =>
      report ++ reportRule linter.registry resolved unresolved version ruleId rule)
    .empty

end Linter

end ApiLint
