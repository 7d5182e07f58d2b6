import ApiLint.Document.Walk
import ApiLint.Rule.Function

/-!
# References into the right section

What a reference may point to follows from where it stands: at the place of a schema it points to
a named schema, in a list of parameters to a named parameter, and so on. Only references into the
same document are looked at, and only at places that say what belongs there.
-/

namespace ApiLint.Rule.RefPattern

/-- What belongs at a place. -/
inductive Section where
  | schema
  | parameter
  | response
  | requestBody
  | header
  | sample
  | link
  | callback
deriving DecidableEq

/-- What references to a section begin with, if the version has that section. -/
def Section.start? : Section → Version → Option String
  | .schema, .swagger2 => some "#/definitions/"
  | .parameter, .swagger2 => some "#/parameters/"
  | .response, .swagger2 => some "#/responses/"
  | _, .swagger2 => none
  | .schema, _ => some "#/components/schemas/"
  | .parameter, _ => some "#/components/parameters/"
  | .response, _ => some "#/components/responses/"
  | .requestBody, _ => some "#/components/requestBodies/"
  | .header, _ => some "#/components/headers/"
  | .sample, _ => some "#/components/examples/"
  | .link, _ => some "#/components/links/"
  | .callback, _ => some "#/components/callbacks/"

/-- What belongs below a key whatever the last step is, and below a branch keyword when the last
step is an index. -/
def ofParent? (parent : String) (last : Segment) : Option Section :=
  if parent ∈ ["properties", "patternProperties", "schemas", "definitions"] then some .schema
  else if parent ∈ ["allOf", "oneOf", "anyOf"] ∧ last.isIndex then some .schema
  else none

/-- What belongs under a key, whatever holds it. -/
def ofKey? (key : String) : Option Section :=
  if key ∈ ["schema", "items", "additionalProperties", "not"] then some .schema
  else if key = "requestBody" then some .requestBody
  else none

/-- What the entries of a map or list are. -/
def ofContainer? : String → Option Section
  | "parameters" => some .parameter
  | "responses" => some .response
  | "requestBodies" => some .requestBody
  | "headers" => some .header
  | "examples" => some .sample
  | "links" => some .link
  | "callbacks" => some .callback
  | _ => none

/-- What belongs at a path, by its last two steps. -/
def sectionAt? (path : Path) : Option Section := do
  let last ← path.last?
  let parent := path.parentKey?
  (parent.bind (ofParent? · last)) <|> (last.key?.bind ofKey?) <|> (parent.bind ofContainer?)

/-- The diagnostic about the reference in one node. -/
def ofNode (version : Version) (node : Json) (path : Path) : List Diagnostic :=
  match node.strAt? "$ref", (sectionAt? path).bind (·.start? version) with
  | some reference, some start =>
    if Text.startsWith reference "#/" && !Text.startsWith reference start then
      [⟨s!"$ref value should start with '{start}': {reference}", path.member "$ref"⟩]
    else []
  | _, _ => []

/-- In a document of unknown version no place says where a reference should point. -/
def diagnostics (version : Version) (target : Json) (path : Path) : List Diagnostic :=
  if version = .unknown then []
  else
    (Document.containers target).flatMap fun visit =>
      ofNode version visit.node (path.join visit.steps)

def function : RuleFunction where
  name := "ref-pattern"
  check target _ site := pure (diagnostics site.version target site.path)

end ApiLint.Rule.RefPattern
