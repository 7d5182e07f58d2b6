import ApiLint.Proofs.Document.Spread

/-!
# Which places targets are at

Each class of targets has its kinds of places, which depend on the version.  The targets of a class
are exactly the nodes at these places, and as the kinds are apart from each other, none is taken
twice and none stands inside another one.
-/

namespace ApiLint.Document

open Place

/-! ## The places of each class -/

def operationPlace : Place := [.key "paths", .anyKey, .method]

def parameterPlaces (version : Version) : List Place :=
  [[.key "paths", .anyKey, .key "parameters", .anyIndex],
    operationPlace ++ [.key "parameters", .anyIndex]] ++
    onlyIf (countsSwagger2 version) [[.key "parameters", .anyKey]] ++
    onlyIf (countsOpenApi3 version) [[.key "components", .key "parameters", .anyKey]]

def responsePlaces (version : Version) : List Place :=
  [operationPlace ++ [.key "responses", .anyKey]] ++
    onlyIf (countsSwagger2 version) [[.key "responses", .anyKey]] ++
    onlyIf (countsOpenApi3 version) [[.key "components", .key "responses", .anyKey]]

def headerPlaces (version : Version) : List Place :=
  under (responsePlaces version) [[.key "headers", .anyKey]] ++
    onlyIf (countsOpenApi3 version) [[.key "components", .key "headers", .anyKey]]

/-- What carries a schema, or schemas by media type. -/
def carrierPlaces (version : Version) : List Place :=
  parameterPlaces version ++ responsePlaces version ++ headerPlaces version

def requestBodyPlaces : List Place :=
  [operationPlace ++ [.object "requestBody"], [.key "components", .key "requestBodies", .anyKey]]

/-- The schema of a media type. -/
def contentPlace : Place := [.key "content", .anyKey, .object "schema"]

def schemaPlaces (version : Version) : List Place :=
  onlyIf (countsSwagger2 version) [[.key "definitions", .anyKey]] ++
    onlyIf (countsOpenApi3 version) [[.key "components", .key "schemas", .anyKey]] ++
    under (carrierPlaces version) [[.object "schema"]] ++
    onlyIf (countsOpenApi3 version)
      (under (carrierPlaces version ++ requestBodyPlaces) [contentPlace])

def TargetClass.places : TargetClass → Version → List Place
  | .document, _ => [[]]
  | .schemas, version => schemaPlaces version
  | .operations, _ => [operationPlace]
  | .parameters, version => parameterPlaces version

/-! ## Operations and parameters -/

variable {document : Json} {version : Version} {target : Target}

theorem spreadOver_pathItems (distinct : document.hasDistinctKeys) :
    SpreadOver (pathItems document) [[.key "paths", .anyKey]] ⟨document, .root⟩ :=
  spreadOver_entries (isIn_root distinct) ["paths"] (by decide)

theorem spreadOver_operations (distinct : document.hasDistinctKeys) :
    SpreadOver (operations document) [operationPlace] ⟨document, .root⟩ := by
  have byMethod : operations document = (pathItems document).flatMap Slot.method.below :=
    List.flatMap_congr fun item _ => (Slot.below_method item).symm
  rw [byMethod]
  exact (spreadOver_pathItems distinct).flatMap fun item _ => spreadOver_slot .method item

/-- Members that are no objects have no parameters, so it does not matter that they are looked
at. -/
theorem flatMap_methods_eq {item : Target} (h : item.IsIn document) :
    (item.methods.flatMap fun method =>
      elements document ((item.path.member method).member "parameters")) =
      (Slot.method.below item).flatMap fun operation =>
        elements document (operation.path.member "parameters") := by
  rw [Slot.below_method, Target.methods, List.filter_map, List.flatMap_map, Descent.flatMap_filter,
    List.filterMap_eq_flatMap_toList, List.flatMap_assoc]
  refine List.flatMap_congr fun (name, value) hmem => ?_
  by_cases hmethod : name ∈ methods
  · by_cases hobj : value.isObj
    · simp [hmethod, hobj]
    · have hvalue : Target.IsIn ⟨value, item.path.member name⟩ document :=
        h.member_of_mem_members? hmem
      have hnone : ((item.path.member name).member "parameters").resolve? document = none := by
        rw [resolve?_member hvalue (by decide), Json.get?_of_not_isObj hobj]
      simp [hmethod, hobj, elements_eq_nil hnone]
  · simp [hmethod]

theorem spreadOver_itemParameters {item : Target} (h : item.IsIn document) :
    SpreadOver (itemParameters document item)
      [[.key "parameters", .anyIndex], [.method, .key "parameters", .anyIndex]] item := by
  have own : SpreadOver (elements document (item.path.member "parameters"))
      [[.key "parameters", .anyIndex]] item := spreadOver_elements h ["parameters"] (by decide)
  have ofOperations := (spreadOver_slot .method item).flatMap fun operation hoperation =>
    spreadOver_elements (isIn_of_mem_slot_below h hoperation) ["parameters"] (by decide)
  rw [itemParameters, flatMap_methods_eq h]
  exact own.append ofOperations

theorem spreadOver_parameters (distinct : document.hasDistinctKeys) (version : Version) :
    SpreadOver (parameters document version) (parameterPlaces version) ⟨document, .root⟩ := by
  have ofItems := (spreadOver_pathItems distinct).flatMap fun item hitem =>
    spreadOver_itemParameters (isIn_of_mem_entries distinct hitem)
  have named := spreadOver_entries (isIn_root distinct) ["parameters"] (by decide)
  have component := spreadOver_entries (isIn_root distinct) ["components", "parameters"] (by decide)
  exact (ofItems.append (named.onlyIf _)).append (component.onlyIf _)

/-! ## Schemas -/

theorem spreadOver_contentSchemas (h : target.IsIn document) :
    SpreadOver (contentSchemas document target) [contentPlace] target := by
  have media := spreadOver_entries h ["content"] (by decide)
  rw [contentSchemas, List.filterMap_eq_flatMap_toList]
  exact media.flatMap fun inner hinner =>
    spreadOver_member? (isIn_of_mem_entries h.distinct hinner) "schema"

/-- The schemas of a carrier, seen from it. -/
def carriedPlaces (version : Version) : List Place :=
  [[.object "schema"]] ++ onlyIf (countsOpenApi3 version) [contentPlace]

theorem spreadOver_carriedSchemas (version : Version) (h : target.IsIn document) :
    SpreadOver (carriedSchemas document version target) (carriedPlaces version) target :=
  (spreadOver_member? h "schema").append ((spreadOver_contentSchemas h).onlyIf _)

/-- The schemas of a response, seen from it. -/
def respondedPlaces (version : Version) : List Place :=
  carriedPlaces version ++ under [[.key "headers", .anyKey]] (carriedPlaces version)

theorem spreadOver_responseSchemas (version : Version) (h : target.IsIn document) :
    SpreadOver (responseSchemas document version target) (respondedPlaces version) target := by
  have headers := spreadOver_entries h ["headers"] (by decide)
  exact (spreadOver_carriedSchemas version h).append (headers.flatMap fun header hheader =>
    spreadOver_carriedSchemas version (isIn_of_mem_entries h.distinct hheader))

theorem spreadOver_operationSchemas (version : Version) (h : target.IsIn document) :
    SpreadOver (operationSchemas document version target)
      (onlyIf (countsOpenApi3 version) (under [[.object "requestBody"]] [contentPlace]) ++
        under [[.key "responses", .anyKey]] (respondedPlaces version)) target := by
  have body := (spreadOver_member? h "requestBody").flatMap fun body hbody =>
    spreadOver_contentSchemas (isIn_of_mem_member? h (Option.mem_toList.1 hbody))
  have responses := (spreadOver_entries h ["responses"] (by decide)).flatMap
    fun response hresponse =>
      spreadOver_responseSchemas version (isIn_of_mem_entries h.distinct hresponse)
  exact (body.onlyIf _).append responses

theorem spreadOver_definedSchemas (distinct : document.hasDistinctKeys) (version : Version) :
    SpreadOver (definedSchemas document version)
      (onlyIf (countsSwagger2 version) [[.key "definitions", .anyKey]] ++
        onlyIf (countsOpenApi3 version) [[.key "components", .key "schemas", .anyKey]])
      ⟨document, .root⟩ := by
  have named := spreadOver_entries (isIn_root distinct) ["definitions"] (by decide)
  have component := spreadOver_entries (isIn_root distinct) ["components", "schemas"] (by decide)
  exact (named.onlyIf _).append (component.onlyIf _)

theorem spreadOver_componentSchemas (distinct : document.hasDistinctKeys) (version : Version) :
    SpreadOver (componentSchemas document version)
      (onlyIf (countsSwagger2 version)
          (under [[.key "responses", .anyKey]] (respondedPlaces version)) ++
        onlyIf (countsOpenApi3 version)
          (under [[.key "components", .key "requestBodies", .anyKey]] [contentPlace] ++
            under [[.key "components", .key "responses", .anyKey]] (respondedPlaces version) ++
            under [[.key "components", .key "headers", .anyKey]] (carriedPlaces version)))
      ⟨document, .root⟩ := by
  have root := isIn_root distinct
  have responses (keys : List String) (hkeys : ∀ key ∈ keys, Segment.indexOfKey? key = none) :=
    (spreadOver_entries root keys hkeys).flatMap fun _ hresponse =>
      spreadOver_responseSchemas version (isIn_of_mem_entries distinct hresponse)
  have bodies := (spreadOver_entries root ["components", "requestBodies"] (by decide)).flatMap
    fun _ hbody => spreadOver_contentSchemas (isIn_of_mem_entries distinct hbody)
  have headers := (spreadOver_entries root ["components", "headers"] (by decide)).flatMap
    fun _ hheader => spreadOver_carriedSchemas version (isIn_of_mem_entries distinct hheader)
  have componentResponses := responses ["components", "responses"] (by decide)
  have components := (bodies.append componentResponses).append headers
  exact ((responses ["responses"] (by decide)).onlyIf _).append (components.onlyIf _)

theorem spreadOver_schemas (distinct : document.hasDistinctKeys) (version : Version) :
    SpreadOver (schemas document version) (schemaPlaces version) ⟨document, .root⟩ := by
  have ofParameters := (spreadOver_parameters distinct version).flatMap fun _ hparameter =>
    spreadOver_carriedSchemas version (isIn_of_mem_parameters distinct hparameter)
  have ofOperations := (spreadOver_operations distinct).flatMap fun _ hoperation =>
    spreadOver_operationSchemas version (isIn_of_mem_operations distinct hoperation)
  have all := (((spreadOver_definedSchemas distinct version).append ofParameters).append
    ofOperations).append (spreadOver_componentSchemas distinct version)
  refine all.perm ?_
  cases version <;> decide +kernel

/-! ## Exact selection -/

theorem spreadOver_targets (distinct : document.hasDistinctKeys) (c : TargetClass)
    (version : Version) :
    SpreadOver (c.targets document version) (c.places version) ⟨document, .root⟩ := by
  cases c with
  | document => exact .refl _
  | schemas => exact spreadOver_schemas distinct version
  | operations => exact spreadOver_operations distinct
  | parameters => exact spreadOver_parameters distinct version

theorem apart_places (c : TargetClass) (version : Version) :
    (c.places version).Pairwise fun first second => meets first second = false := by
  cases c <;> cases version <;> decide +kernel

theorem wantsObject_places {c : TargetClass} (hc : c ≠ .document) (version : Version) :
    ∀ place ∈ c.places version, place.getLast?.any Slot.wantsObject := by
  cases c with
  | document => exact absurd rfl hc
  | _ => cases version <;> decide +kernel

/-- No target stands inside another target of its class, or at the same place. -/
theorem pairwise_targets (distinct : document.hasDistinctKeys) (c : TargetClass)
    (version : Version) :
    (c.targets document version).Pairwise fun a b => ¬a.path.IsComparable b.path := by
  have hplaces := pairwise_flatMap_below (isIn_root distinct) (apart_places c version)
  exact ((spreadOver_targets distinct c version).pairwise_iff fun h hba => h hba.symm).2 hplaces

theorem mem_targets_iff (distinct : document.hasDistinctKeys) {c : TargetClass} :
    target ∈ c.targets document version ↔
      ∃ place ∈ c.places version, at? place document target.path.segments = some target.node := by
  rw [(spreadOver_targets distinct c version).mem_iff, List.mem_flatMap]
  refine exists_congr fun place => and_congr_right' ((mem_below_iff (isIn_root distinct)).trans ?_)
  constructor
  · rintro ⟨steps, hpath, hat⟩
    rwa [hpath]
  · exact fun hat => ⟨_, rfl, hat⟩

/-- The targets of a class are the nodes at its places, each taken once; but for the document
itself they are objects, and the path of each leads to it. -/
theorem targets_are_nodes_at_places (distinct : document.hasDistinctKeys) (c : TargetClass)
    (version : Version) :
    (∀ target : Target, target ∈ c.targets document version ↔
      ∃ place ∈ c.places version, at? place document target.path.segments = some target.node) ∧
      ((c.targets document version).map Target.path).Nodup ∧
      (∀ target ∈ c.targets document version, c ≠ .document → target.node.isObj) ∧
      ∀ target ∈ c.targets document version,
        target.path.resolve? document = some target.node := by
  refine ⟨fun _ => mem_targets_iff distinct, ?_, fun target htarget hc => ?_,
    fun target htarget => (isIn_of_mem_targets distinct htarget).found⟩
  · refine List.pairwise_map.2 ((pairwise_targets distinct c version).imp fun hab heq => hab ?_)
    rw [heq]
    exact .inl List.prefix_rfl
  · obtain ⟨place, hplace, hat⟩ := (mem_targets_iff distinct).1 htarget
    exact isObj_of_at? (wantsObject_places hc version place hplace) hat

/-- The schema of a media type of a header of a response, in a document of unknown version. -/
theorem mem_targets_schema_of_header :
    let schema : Json := .obj [("type", .str "string")]
    let header : Json := .obj [("content", .obj [("text/plain", .obj [("schema", schema)])])]
    let response : Json := .obj [("headers", .obj [("0", header)])]
    let document : Json := .obj [("paths", .obj [("/", .obj [("get", .obj
      [("responses", .obj [("200", response)])])])])]
    document.hasDistinctKeys ∧
      ⟨schema, .ofKeys ["paths", "/", "get", "responses", "200", "headers", "0", "content",
        "text/plain", "schema"]⟩ ∈ TargetClass.schemas.targets document .unknown := by
  intro schema header response document
  have distinct : document.hasDistinctKeys := by decide
  obtain ⟨selected, -⟩ := targets_are_nodes_at_places distinct .schemas .unknown
  let place : Place :=
    operationPlace ++ [.key "responses", .anyKey, .key "headers", .anyKey] ++ contentPlace
  refine ⟨distinct, (selected _).2 ⟨place, ?_, ?_⟩⟩
  · decide +kernel
  · rfl

end ApiLint.Document
