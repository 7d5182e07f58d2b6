import ApiLint.Path.Resolve
import ApiLint.Version

/-!
# Targets of rules

A rule looks at one class of places in a document: the document itself, its operations, its
parameters or its schemas. Which places there are depends on the version of the document; in a
document of unknown version the places of both versions count. All targets except the document
itself are objects.
-/

namespace ApiLint.Document

inductive TargetClass where
  | document
  | schemas
  | operations
  | parameters
deriving DecidableEq

instance : Inhabited TargetClass := ⟨.document⟩

def TargetClass.all : List TargetClass := [.document, .schemas, .operations, .parameters]

def TargetClass.text : TargetClass → String
  | .document => "document"
  | .schemas => "schemas"
  | .operations => "operations"
  | .parameters => "parameters"

/-- A node of a document and where it is. -/
structure Target where
  node : Json
  path : Path

/-- Members of a path item that are operations. -/
def methods : List String :=
  ["get", "put", "post", "delete", "options", "head", "patch", "trace"]

/-! ## Steps from target to target -/

/-- The members of the object at `path` that are objects. -/
def entries (document : Json) (path : Path) : List Target :=
  (((path.resolve? document).bind Json.members?).getD []).filterMap fun (key, value) =>
    if value.isObj then some ⟨value, path.member key⟩ else none

/-- The elements of the array at `path` that are objects. -/
def elements (document : Json) (path : Path) : List Target :=
  (((path.resolve? document).bind Json.items?).getD []).zipIdx.filterMap fun (item, i) =>
    if item.isObj then some ⟨item, path.element i⟩ else none

/-- The member of a target when it is an object. -/
def Target.member? (target : Target) (key : String) : Option Target :=
  (target.node.object? key).map fun node => ⟨node, target.path.member key⟩

/-- The keys of a path item that name methods. -/
def Target.methods (item : Target) : List String :=
  ((item.node.members?.getD []).map Prod.fst).filter (· ∈ Document.methods)

/-! ## Versions -/

/-- Whether the places of version two count. -/
def countsSwagger2 (version : Version) : Bool := version != .openApi3

/-- Whether the places of version three count. -/
def countsOpenApi3 (version : Version) : Bool := version != .swagger2

/-! ## Operations and parameters -/

def pathItems (document : Json) : List Target := entries document (.ofKeys ["paths"])

def operations (document : Json) : List Target :=
  (pathItems document).flatMap fun item =>
    (item.node.members?.getD []).filterMap fun (key, value) =>
      if key ∈ methods ∧ value.isObj then some ⟨value, item.path.member key⟩ else none

/-- The parameters of a path item and of its operations. -/
def itemParameters (document : Json) (item : Target) : List Target :=
  elements document (item.path.member "parameters") ++
    item.methods.flatMap fun method =>
      elements document ((item.path.member method).member "parameters")

def parameters (document : Json) (version : Version) : List Target :=
  (pathItems document).flatMap (itemParameters document) ++
    (if countsSwagger2 version then entries document (.ofKeys ["parameters"]) else []) ++
    if countsOpenApi3 version then entries document (.ofKeys ["components", "parameters"]) else []

/-! ## Schemas -/

/-- The schemas of the media types of a target. -/
def contentSchemas (document : Json) (target : Target) : List Target :=
  (entries document (target.path.member "content")).filterMap (·.member? "schema")

/-- The schemas that a parameter, a response or a header carries. -/
def carriedSchemas (document : Json) (version : Version) (target : Target) : List Target :=
  (target.member? "schema").toList ++
    if countsOpenApi3 version then contentSchemas document target else []

/-- The schemas of a response and of its headers. -/
def responseSchemas (document : Json) (version : Version) (response : Target) : List Target :=
  carriedSchemas document version response ++
    (entries document (response.path.member "headers")).flatMap (carriedSchemas document version)

/-- The schemas of the request body and of the responses of an operation. -/
def operationSchemas (document : Json) (version : Version) (operation : Target) : List Target :=
  (if countsOpenApi3 version then
    (operation.member? "requestBody").toList.flatMap (contentSchemas document)
  else []) ++
    (entries document (operation.path.member "responses")).flatMap
      (responseSchemas document version)

/-- The named schemas. -/
def definedSchemas (document : Json) (version : Version) : List Target :=
  (if countsSwagger2 version then entries document (.ofKeys ["definitions"]) else []) ++
    if countsOpenApi3 version then entries document (.ofKeys ["components", "schemas"]) else []

/-- The schemas of the named responses, request bodies and headers. -/
def componentSchemas (document : Json) (version : Version) : List Target :=
  (if countsSwagger2 version then
    (entries document (.ofKeys ["responses"])).flatMap (responseSchemas document version)
  else []) ++
    if countsOpenApi3 version then
      (entries document (.ofKeys ["components", "requestBodies"])).flatMap
          (contentSchemas document) ++
        (entries document (.ofKeys ["components", "responses"])).flatMap
          (responseSchemas document version) ++
        (entries document (.ofKeys ["components", "headers"])).flatMap
          (carriedSchemas document version)
    else []

def schemas (document : Json) (version : Version) : List Target :=
  definedSchemas document version ++
    (parameters document version).flatMap (carriedSchemas document version) ++
    (operations document).flatMap (operationSchemas document version) ++
    componentSchemas document version

/-- The targets of a class, in the order of the document within each place. -/
def TargetClass.targets (c : TargetClass) (document : Json) (version : Version) : List Target :=
  match c with
  | .document => [⟨document, .root⟩]
  | .schemas => Document.schemas document version
  | .operations => Document.operations document
  | .parameters => Document.parameters document version

end ApiLint.Document
