import ApiLint.Decode.Choice
import ApiLint.Diagnostic

/-!
# Exchanging findings

Paths, diagnostics and findings as JSON values. A path is an array in which keys are strings and
indices whole numbers. A record is an object with its fields as members, or an array of its fields
in their order; members that are no fields are ignored.
-/

namespace ApiLint

/-! ## Paths -/

def Segment.toJson : Segment → Json
  | .index i => .num (.int i)
  | .key name => .str name

def Segment.ofJson : Json → Except Fault Segment
  | .str name => pure (.key name)
  | .num (.int n) => if 0 ≤ n then pure (.index n.toNat) else throw .noSegment
  | _ => throw .noSegment

def Path.toJson (path : Path) : Json := .arr (path.segments.map Segment.toJson)

def Path.ofJson : Json → Except Fault Path
  | .arr items => Path.mk <$> items.mapM Segment.ofJson
  | _ => throw .malformed

/-! ## Records -/

/-- The fields of diagnostics and findings that have been read. -/
structure FindingFields where
  ruleId : Option String := none
  severity : Option Severity := none
  message : Option String := none
  path : Option Path := none

namespace FindingFields

def text : Json → Except Fault String
  | .str text => pure text
  | _ => throw .malformed

/-- Reads one field. -/
def read (fields : FindingFields) (name : String) (value : Json) : Except Fault FindingFields :=
  match name with
  | "rule_id" => do pure { fields with ruleId := some (← text value) }
  | "severity" => do pure { fields with severity := some (← Severity.choices.ofJson value) }
  | "message" => do pure { fields with message := some (← text value) }
  | "path" => do pure { fields with path := some (← Path.ofJson value) }
  | _ => pure fields

/-- Reads the declared fields of a record, in the order in which they are written. -/
def ofJson (declared : List String) : Json → Except Fault FindingFields
  | .obj members =>
    (members.filter (·.1 ∈ declared)).foldlM (fun fields (name, value) => fields.read name value) {}
  | .arr items => do
    let fields ← (declared.zip items).foldlM
      (fun fields (name, value) => fields.read name value) {}
    if items.length = declared.length then pure fields else throw .malformed
  | _ => throw .malformed

/-- A field that must be there. -/
def required {α : Type} (name : String) : Option α → Except Fault α
  | some value => pure value
  | none => throw (.missingField name)

end FindingFields

namespace Diagnostic

def toJson (d : Diagnostic) : Json := .obj [("message", .str d.message), ("path", d.path.toJson)]

def ofJson (value : Json) : Except Fault Diagnostic := do
  let fields ← FindingFields.ofJson ["message", "path"] value
  let message ← FindingFields.required "message" fields.message
  let path ← FindingFields.required "path" fields.path
  pure ⟨message, path⟩

end Diagnostic

namespace Finding

def toJson (f : Finding) : Json :=
  .obj [("rule_id", .str f.ruleId), ("severity", .str f.severity.text),
    ("message", .str f.message), ("path", f.path.toJson)]

def ofJson (value : Json) : Except Fault Finding := do
  let fields ← FindingFields.ofJson ["rule_id", "severity", "message", "path"] value
  let ruleId ← FindingFields.required "rule_id" fields.ruleId
  let severity ← FindingFields.required "severity" fields.severity
  let message ← FindingFields.required "message" fields.message
  let path ← FindingFields.required "path" fields.path
  pure ⟨ruleId, severity, message, path⟩

end Finding

end ApiLint
