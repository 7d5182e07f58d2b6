import ApiLint.Decode.Reader
import ApiLint.Ruleset.Basic

/-!
# Reading rulesets

The fields of a ruleset, of its rules and of their actions. All but the function of a rule have
defaults. A rule has no other fields; a ruleset and an action may have others, which are ignored.
-/

namespace ApiLint

variable {ν : Type} {m : Type → Type} [Monad m]

/-! ## Actions -/

structure ActionFields where
  function : Option String := none
  options : Option Json := none

def ActionFields.shape : Shape := ⟨["function", "functionOptions"], false⟩

def ActionFields.read (r : Reader ν m) (fields : ActionFields) (name : String) (value : ν) :
    m ActionFields :=
  match name with
  | "function" => do pure { fields with function := some (← r.text value) }
  | _ => do pure { fields with options := some (← r.any value) }

def ActionFields.finish (fields : ActionFields) : Except String RuleAction :=
  match fields.function with
  | none => throw "function"
  | some function => pure ⟨function, fields.options.getD .null⟩

def RuleAction.decode (r : Reader ν m) : ν → m RuleAction :=
  r.fields ActionFields.shape (ActionFields.read r) {} ActionFields.finish

/-! ## Rules -/

structure RuleFields where
  description : Option (Option String) := none
  severity : Option RuleSeverity := none
  given : Option Document.TargetClass := none
  resolved : Option Bool := none
  action : Option RuleAction := none

def RuleFields.shape : Shape := ⟨["description", "severity", "given", "resolved", "then"], true⟩

def RuleFields.read (r : Reader ν m) (fields : RuleFields) (name : String) (value : ν) :
    m RuleFields :=
  match name with
  | "description" => do pure { fields with description := some (← r.optionalText value) }
  | "severity" => do
    pure { fields with severity := some (← r.choice RuleSeverity.choices value) }
  | "given" => do
    pure { fields with given := some (← r.choice Document.TargetClass.choices value) }
  | "resolved" => do pure { fields with resolved := some (← r.flag value) }
  | _ => do pure { fields with action := some (← RuleAction.decode r value) }

def RuleFields.finish (fields : RuleFields) : Except String RuleDefinition :=
  match fields.action with
  | none => throw "then"
  | some action =>
    let plain : RuleDefinition := { action }
    pure {
      description := fields.description.getD plain.description
      severity := fields.severity.getD plain.severity
      given := fields.given.getD plain.given
      resolved := fields.resolved.getD plain.resolved
      action }

def RuleDefinition.decode (r : Reader ν m) : ν → m RuleDefinition :=
  r.fields RuleFields.shape (RuleFields.read r) {} RuleFields.finish

/-! ## Rulesets -/

def Ruleset.shape : Shape := ⟨["rules"], false⟩

/-- A ruleset without rules is empty. -/
def Ruleset.decode (r : Reader ν m) : ν → m Ruleset :=
  r.fields Ruleset.shape
    (fun _ _ value => Ruleset.ofList <$> r.entries (RuleDefinition.decode r) value)
    Ruleset.empty pure

end ApiLint
