import ApiLint.Json.Draft
import ApiLint.Json.Printer
import ApiLint.Rule.Error
import ApiLint.Ruleset.Decode

/-!
# Rulesets in JSON

A ruleset is written as an object of rules. It is read from such an object, or from arrays of the
fields in their order.
-/

namespace ApiLint

namespace Json.Draft

/-- A draft can be read up to the fault that ends it. -/
def readText : Draft → Except Fault String
  | .string text => pure text
  | _ => throw .malformed

def readOptionalText : Draft → Except Fault (Option String)
  | .null => pure none
  | draft => some <$> draft.readText

def readFlag : Draft → Except Fault Bool
  | .bool value => pure value
  | _ => throw .malformed

/-- The name comes first, so a wrong name is noticed before a fault in what follows it. -/
def readChoice {α : Type} (choices : Choices α) : Draft → Except Fault α
  | .string name => choices.find name
  | .record ((some name, value) :: rest) closed => do
    let chosen ← choices.find name
    match value, rest, closed with
    | .null, [], true => pure chosen
    | _, _, _ => throw .malformed
  | _ => throw .malformed

def readAny (draft : Draft) : Except Fault Json :=
  match draft.toJson? with
  | some value => pure value
  | none => throw .malformed

def readPast (draft : Draft) : Except Fault Unit :=
  if draft.isWhole then pure () else throw .malformed

def readRecord : Draft → Except Fault (Record Draft)
  | .record members closed =>
    pure (.named (members.map fun (key, value) => (key.elim .unreadable .string, value)) closed)
  | .list items closed => pure (.positional items closed)
  | _ => throw .malformed

def reader : Reader Draft (Except Fault) where
  fail _ fault := throw fault
  text := readText
  optionalText := readOptionalText
  flag := readFlag
  choice := readChoice
  any := readAny
  skip := readPast
  record := readRecord

end Json.Draft

namespace RuleAction

def toJson (action : RuleAction) : Json :=
  .obj [("function", .str action.function), ("functionOptions", action.options)]

end RuleAction

namespace RuleDefinition

def toJson (rule : RuleDefinition) : Json :=
  .obj ((rule.description.toList.map fun text => ("description", .str text)) ++
    [("severity", .str rule.severity.text), ("given", .str rule.given.text),
      ("resolved", .bool rule.resolved), ("then", rule.action.toJson)])

end RuleDefinition

namespace Ruleset

def toJson (ruleset : Ruleset) : Json :=
  .obj [("rules", .obj (ruleset.rules.entries.map fun (id, rule) => (id, rule.toJson)))]

def ofJson (value : Json) : Except Fault Ruleset :=
  Ruleset.decode Json.Draft.reader (Json.Draft.ofJson value)

/-- The ruleset of a JSON text. -/
def ofJsonText (text : String) : Except ConfigError Ruleset :=
  let reading := Json.Draft.ofText text
  match Ruleset.decode Json.Draft.reader reading.draft with
  | .ok ruleset => if reading.alone then pure ruleset else throw (.parse "JSON" none)
  | .error fault => throw (.parse "JSON" fault.message?)

end Ruleset

end ApiLint
