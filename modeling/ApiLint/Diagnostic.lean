import ApiLint.Path.Basic
import ApiLint.Severity

/-!
# Diagnostics and findings

A diagnostic is a message about the node at a path. A finding is a diagnostic with the rule that
made it and the severity of that rule.
-/

namespace ApiLint

structure Diagnostic where
  message : String
  path : Path
deriving DecidableEq

structure Finding where
  ruleId : String
  severity : Severity
  message : String
  path : Path
deriving DecidableEq

/-- Where a reader looks for a node; the root has no steps to show. -/
def Path.location (path : Path) : String := if path.isRoot then "(root)" else path.dotted

namespace Diagnostic

def line (d : Diagnostic) : String := s!"{d.path.location}: {d.message}"

/-- The finding that a rule makes of a diagnostic. -/
def tag (ruleId : String) (severity : Severity) (d : Diagnostic) : Finding :=
  ⟨ruleId, severity, d.message, d.path⟩

end Diagnostic

/-- The severity stands in a column of five characters. -/
def Finding.line (f : Finding) : String :=
  s!"{Text.align .left 5 f.severity.text} {f.path.location}: {f.message} [{f.ruleId}]"

end ApiLint
