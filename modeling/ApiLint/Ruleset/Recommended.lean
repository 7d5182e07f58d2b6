import ApiLint.Ruleset.Basic

/-!
# The recommended ruleset
-/

namespace ApiLint.Ruleset

/-- A rule that rejects a header parameter. -/
def headerRule (header described : String) : RuleDefinition where
  description := some s!"The {header} header is described by {described} media types."
  given := .parameters
  action := ⟨"disallowed-header", .obj [("headerName", .str header)]⟩

/-- A rule about every schema. -/
def schemaRule (function : String) (severity : Severity) (description : String) :
    RuleDefinition where
  description := some description
  severity := .on severity
  given := .schemas
  action := { function }

/-- A rule about a whole document. -/
def documentRule (function : String) (severity : Severity) (resolved : Bool)
    (description : String) : RuleDefinition where
  description := some description
  severity := .on severity
  resolved := resolved
  action := { function }

def recommended : Ruleset := ofList [
  ("array-of-arrays",
    schemaRule "array-of-arrays" .warn "Array items should not themselves be arrays."),
  ("min-max-consistency",
    documentRule "min-max-consistency" .error true "Lower bounds must not exceed upper bounds."),
  ("no-accept-header", headerRule "Accept" "response"),
  ("no-content-type-header", headerRule "Content-Type" "request"),
  ("property-consistent-type",
    schemaRule "property-consistent-type" .error
      "A property must not be given conflicting types across allOf branches."),
  ("property-description",
    schemaRule "property-description" .warn
      "Schema properties should have a non-empty description."),
  ("ref-pattern",
    documentRule "ref-pattern" .warn false
      "Local $refs should point into the matching component section."),
  ("ref-siblings", documentRule "ref-siblings" .error false "Keys beside $ref are ignored."),
  ("required-property-defined",
    schemaRule "required-property-defined" .error "Every required property must be defined."),
  ("string-boundary",
    schemaRule "string-boundary" .info "String schemas should define maxLength."),
  ("superfluous-allof",
    schemaRule "superfluous-allof" .hint "An allOf wrapping a single schema adds nothing.")]

end ApiLint.Ruleset
