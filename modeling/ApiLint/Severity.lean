import ApiLint.Text

/-!
# Severities

How much a finding weighs. A rule has a severity of its own, which can also be `off`.
-/

namespace ApiLint

inductive Severity where
  | error
  | warn
  | info
  | hint
deriving DecidableEq, Inhabited

namespace Severity

def all : List Severity := [.error, .warn, .info, .hint]

def text : Severity → String
  | .error => "error"
  | .warn => "warn"
  | .info => "info"
  | .hint => "hint"

/-- The most severe comes first. -/
def rank : Severity → Nat
  | .error => 0
  | .warn => 1
  | .info => 2
  | .hint => 3

/-- The severity with this name, long names included. -/
def ofText? : String → Option Severity
  | "error" => some .error
  | "warn" => some .warn
  | "warning" => some .warn
  | "info" => some .info
  | "information" => some .info
  | "hint" => some .hint
  | _ => none

def sort (severities : List Severity) : List Severity :=
  severities.mergeSort fun a b => a.rank ≤ b.rank

end Severity

/-- The severity of a rule: that of its findings, or nothing when the rule is off. -/
inductive RuleSeverity where
  | off
  | on (severity : Severity)
deriving DecidableEq

namespace RuleSeverity

/-- A rule that does not say otherwise warns. -/
instance : Inhabited RuleSeverity := ⟨.on .warn⟩

/-- The severity of the findings of a rule, if it is not off. -/
def level? : RuleSeverity → Option Severity
  | .off => none
  | .on severity => some severity

def text : RuleSeverity → String
  | .off => "off"
  | .on severity => severity.text

/-- Only `off` is recognised in any mixture of upper and lower case. -/
def ofText? (text : String) : Option RuleSeverity :=
  if Text.sameIgnoringCase text "off" then some .off else (Severity.ofText? text).map .on

end RuleSeverity

end ApiLint
