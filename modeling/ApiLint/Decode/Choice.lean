import ApiLint.Decode.Fault
import ApiLint.Document.Targets
import ApiLint.Json.Basic
import ApiLint.Severity
import ApiLint.Version

/-!
# Choices among names

Severities, target classes and versions are exchanged as one of a list of names. In JSON a choice
is a string, or an object whose only member has the name as its key and null as its value.
-/

namespace ApiLint

/-- The names of a type, each with what it stands for. -/
abbrev Choices (α : Type) := List (String × α)

/-- What a name stands for. -/
def Choices.find {α : Type} (choices : Choices α) (name : String) : Except Fault α :=
  match choices.lookup name with
  | some value => pure value
  | none => throw (.unknownVariant name (choices.map Prod.fst))

/-- What a JSON value chooses. -/
def Choices.ofJson {α : Type} (choices : Choices α) : Json → Except Fault α
  | .str name => choices.find name
  | .obj [(name, value)] => do
    let chosen ← choices.find name
    if value.isNull then pure chosen else throw .malformed
  | _ => throw .malformed

def Severity.choices : Choices Severity := Severity.all.map fun s => (s.text, s)

/-- The names of rule severities, long names included. -/
def RuleSeverity.choices : Choices RuleSeverity :=
  [("off", .off), ("error", .on .error), ("warn", .on .warn), ("warning", .on .warn),
    ("info", .on .info), ("information", .on .info), ("hint", .on .hint)]

def Document.TargetClass.choices : Choices Document.TargetClass :=
  Document.TargetClass.all.map fun c => (c.text, c)

def Version.choices : Choices Version := Version.all.map fun v => (v.code, v)

end ApiLint
