import ApiLint.Document.Targets
import ApiLint.Json.Equality
import ApiLint.Severity
import ApiLint.Table

/-!
# Rulesets

A ruleset gives rules to rule ids. A rule says which function looks at which targets of which view
of a document, and how much its findings weigh.
-/

namespace ApiLint

/-- The function that a rule calls, and the options that it passes. -/
structure RuleAction where
  function : String
  options : Json := .null

structure RuleDefinition where
  description : Option String := none
  severity : RuleSeverity := .on .warn
  given : Document.TargetClass := .document
  /-- Whether the rule looks at the document with all references resolved. -/
  resolved : Bool := true
  action : RuleAction

namespace RuleDefinition

def isEnabled (rule : RuleDefinition) : Bool := rule.severity.level?.isSome

/-- Equality that does not look at the order of members of the options. -/
def same (a b : RuleDefinition) : Bool :=
  a.description == b.description && a.severity == b.severity && a.given == b.given &&
    a.resolved == b.resolved && a.action.function == b.action.function &&
    a.action.options.same b.action.options

end RuleDefinition

structure Ruleset where
  rules : Table RuleDefinition

namespace Ruleset

def empty : Ruleset := ⟨.empty⟩

def ofList (rules : List (String × RuleDefinition)) : Ruleset := ⟨.ofList rules⟩

/-- Gives a rule another severity; nothing changes when there is no such rule. -/
def override (ruleset : Ruleset) (ruleId : String) (severity : RuleSeverity) : Ruleset :=
  ⟨ruleset.rules.adjust ruleId fun rule => { rule with severity }⟩

/-- The rules that are not off, in the order of their ids. -/
def enabled (ruleset : Ruleset) : List (String × RuleDefinition) :=
  ruleset.rules.entries.filter fun (_, rule) => rule.isEnabled

def get? (ruleset : Ruleset) (ruleId : String) : Option RuleDefinition :=
  ruleset.rules.get? ruleId

def size (ruleset : Ruleset) : Nat := ruleset.rules.size

def isEmpty (ruleset : Ruleset) : Bool := ruleset.rules.isEmpty

/-- Equality that does not look at the order of members of options. -/
def same (a b : Ruleset) : Bool :=
  a.rules.size == b.rules.size &&
    (a.rules.entries.zip b.rules.entries).all fun ((i, r), (j, s)) => i == j && r.same s

end Ruleset

end ApiLint
