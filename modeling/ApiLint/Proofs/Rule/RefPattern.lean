import ApiLint.Proofs.Document.Containers
import ApiLint.Proofs.Rule.Distinct
import ApiLint.Proofs.Rule.OnePlace

/-!
# References of named entries

An entry of a map of components is judged by the map that it is in: its reference has to begin with
the place of that map.  The name of the entry does not matter, unless it is one of a few keywords.
An entry with such a name is judged as what stands under that keyword elsewhere, though not among
the schemas, where the map is looked at first.
-/

namespace ApiLint.Rule.RefPattern

/-! ## Maps of named entries -/

/-- The map of a section among the components of a document of version three. -/
def Section.mapKey : Section → String
  | .schema => "schemas"
  | .parameter => "parameters"
  | .response => "responses"
  | .requestBody => "requestBodies"
  | .header => "headers"
  | .sample => "examples"
  | .link => "links"
  | .callback => "callbacks"

/-- Steps lead to a map of named entries of a section, in which references begin with a text. -/
inductive HoldsEntries : Version → List Segment → Section → String → Prop
  | component (s : Section) :
      HoldsEntries .openApi3 [.key "components", .key s.mapKey] s s!"#/components/{s.mapKey}/"
  | definitions : HoldsEntries .swagger2 [.key "definitions"] .schema "#/definitions/"
  | parameters : HoldsEntries .swagger2 [.key "parameters"] .parameter "#/parameters/"
  | responses : HoldsEntries .swagger2 [.key "responses"] .response "#/responses/"
  | ofResponse {s : Section} (h : s = .header ∨ s = .link) (item method status : String)
      (hmethod : method ∈ Document.methods) :
      HoldsEntries .openApi3 [.key "paths", .key item, .key method, .key "responses", .key status,
        .key s.mapKey] s s!"#/components/{s.mapKey}/"

variable {document node : Json} {path : Path} {version : Version} {s : Section}
  {map : List Segment} {start name reference : String}

theorem HoldsEntries.exists_key (h : HoldsEntries version map s start) :
    (∃ outer key, map = outer ++ [.key key] ∧
      (key = s.mapKey ∨ key = "definitions" ∧ s = .schema)) ∧
      s.start? version = some start ∧ version ≠ .unknown := by
  cases h with
  | component => exact ⟨⟨[_], _, rfl, .inl rfl⟩, by cases s <;> rfl, by decide⟩
  | definitions => exact ⟨⟨[], _, rfl, .inr ⟨rfl, rfl⟩⟩, rfl, by decide⟩
  | parameters | responses => exact ⟨⟨[], _, rfl, .inl rfl⟩, rfl, by decide⟩
  | ofResponse =>
    exact ⟨⟨[_, _, _, _, _], _, rfl, .inl rfl⟩, by cases s <;> rfl, by decide⟩

/-! ## Names that are keywords -/

/-- Names of entries that stand for the place of a schema elsewhere. -/
def schemaNames : List String := ["schema", "items", "additionalProperties", "not"]

/-- What an entry of a section is judged as. -/
def judgedAs (s : Section) (name : String) : Section :=
  if s = .schema then .schema else (ofKey? name).getD s

theorem ofKey?_of_mem (h : name ∈ schemaNames) : ofKey? name = some .schema := if_pos h

theorem ofKey?_of_notMem (hschema : name ∉ schemaNames) (hbody : name ≠ "requestBody") :
    ofKey? name = none :=
  (if_neg hschema).trans (if_neg hbody)

theorem judgedAs_of_notMem (h : s = .schema ∨ name ∉ schemaNames ∧ name ≠ "requestBody") :
    judgedAs s name = s := by
  obtain rfl | ⟨hschema, hbody⟩ := h
  · rfl
  · rw [judgedAs, ofKey?_of_notMem hschema hbody, Option.getD_none, ite_eq_right_iff]
    exact Eq.symm

theorem judgedAs_of_mem (h : name ∈ schemaNames) : judgedAs s name = .schema := by
  rw [judgedAs, ofKey?_of_mem h, Option.getD_some, ite_self]

theorem judgedAs_requestBody (h : s ≠ .schema) : judgedAs s "requestBody" = .requestBody := by
  rw [judgedAs, if_neg h]
  rfl

/-! ## Sections of entries -/

theorem sectionAt?_member_member (path : Path) (key name : String) :
    sectionAt? ((path.member key).member name) =
      (ofParent? key (.key name)).or ((ofKey? name).or (ofContainer? key)) := by
  simp [sectionAt?, Path.member, Segment.key?]

theorem sectionAt?_entry {key : String}
    (hkey : key = s.mapKey ∨ key = "definitions" ∧ s = .schema) :
    sectionAt? ((path.member key).member name) = some (judgedAs s name) := by
  rw [sectionAt?_member_member, judgedAs]
  obtain rfl | ⟨rfl, rfl⟩ := hkey
  · cases s <;> simp [Section.mapKey, ofParent?, ofContainer?, Segment.isIndex]
  · rfl

/-! ## Reports -/

/-- The diagnostic about a reference that does not begin as it should. -/
def report (start reference : String) (path : Path) : Diagnostic :=
  ⟨s!"$ref value should start with '{start}': {reference}", path.member "$ref"⟩

theorem ofNode_of_sectionAt? (hsection : sectionAt? path = some s)
    (hreference : node.strAt? "$ref" = some reference) (hlocal : Text.startsWith reference "#/") :
    ofNode version node path = (s.start? version).toList.flatMap fun text =>
      if Text.startsWith reference text then [] else [report text reference path] := by
  rw [ofNode, hreference, hsection, Option.bind_some]
  cases s.start? version with
  | none => rfl
  | some text =>
    dsimp only
    rw [hlocal, Option.toList_some, List.flatMap_singleton]
    cases Text.startsWith reference text
    · rfl
    · rfl

/-- What is reported about a reference is what the check of the node that has it gives. -/
theorem filter_path_diagnostics {steps : List Segment} (distinct : document.hasDistinctKeys)
    (hversion : version ≠ .unknown) (hnode : document.inside? steps = some node)
    (hreference : node.strAt? "$ref" = some reference) :
    (diagnostics version document path).filter (·.path = (path.join steps).member "$ref") =
      ofNode version node (path.join steps) := by
  obtain ⟨_, hget, -⟩ := Option.bind_eq_some_iff.1 hreference
  have hvisit : ⟨steps, node⟩ ∈ Document.containers document :=
    (Document.mem_containers_iff distinct).2 ⟨hnode, Document.isFilled_of_get? hget⟩
  have own (node : Json) (path : Path) (d : Diagnostic) (hd : d ∈ ofNode version node path) :
      d.path.parent? = some path := by
    rw [areAt_refPattern.path_of_mem hd]
    exact Path.parent?_child path _
  rw [diagnostics, if_neg hversion]
  refine (filter_path_containers distinct hvisit own path (.key "$ref")).trans ?_
  exact List.filter_eq_self.2 fun d hd => decide_eq_true (areAt_refPattern.path_of_mem hd)

/-- The reference of a named entry is reported, once, when it does not begin with the place of the
map that the entry is in.  Only an entry that is no schema and has a keyword for its name is judged
otherwise: as a schema or as a request body. -/
theorem named_entries_are_judged (distinct : document.hasDistinctKeys) (options : Json)
    (site : Site) :
    ∃ found, function.check document options site = .ok found ∧
      ∀ map s start, HoldsEntries site.version map s start → ∀ name node reference,
        document.inside? (map ++ [.key name]) = some node →
        node.strAt? "$ref" = some reference → Text.startsWith reference "#/" →
        let place := site.path.join (map ++ [.key name])
        ∃ expected : Option String,
          (found.filter (·.path = place.member "$ref") = expected.toList.flatMap fun text =>
            if Text.startsWith reference text then [] else [report text reference place]) ∧
          (s = .schema ∨ name ∉ schemaNames ∧ name ≠ "requestBody" → expected = some start) ∧
          (s ≠ .schema → name ∈ schemaNames → expected = Section.schema.start? site.version) ∧
          (s ≠ .schema → name = "requestBody" →
            expected = Section.requestBody.start? site.version) := by
  refine ⟨diagnostics site.version document site.path, rfl, ?_⟩
  intro map s start hmap name node reference hnode hreference hlocal place
  obtain ⟨⟨outer, key, rfl, hkey⟩, hstart, hversion⟩ := hmap.exists_key
  refine ⟨(judgedAs s name).start? site.version, ?_, ?_, ?_, ?_⟩
  · have hplace : place = ((site.path.join outer).member key).member name := by
      simp [place, Path.member, Path.child, Path.join_join]
    have hsection : sectionAt? place = some (judgedAs s name) := hplace ▸ sectionAt?_entry hkey
    rw [← ofNode_of_sectionAt? hsection hreference hlocal]
    exact filter_path_diagnostics distinct hversion hnode hreference
  · intro h
    rw [judgedAs_of_notMem h, hstart]
  · intro _ h
    rw [judgedAs_of_mem h]
  · rintro h rfl
    rw [judgedAs_requestBody h]

/-- A parameter with the name `items` that refers to a parameter is reported. -/
theorem reported_parameter_named_items :
    let entry : Json := .obj [("$ref", .str "#/components/parameters/Limit")]
    let document : Json := .obj [("openapi", .str "3.0.0"), ("components", .obj
      [("parameters", .obj [("items", entry)])])]
    function.check document .null (.of "references" document .root) =
        .ok [⟨"$ref value should start with '#/components/schemas/': #/components/parameters/Limit",
          ⟨[.key "components", .key "parameters", .key "items", .key "$ref"]⟩⟩] ∧
      HoldsEntries (.detect document) [.key "components", .key "parameters"] .parameter
        "#/components/parameters/" ∧
      document.inside? [.key "components", .key "parameters", .key "items"] = some entry ∧
      Text.startsWith "#/components/parameters/Limit" "#/components/parameters/" := by
  intro entry document
  have version : Version.detect document = .openApi3 := by decide +kernel
  exact ⟨by decide +kernel, version ▸ .component .parameter, rfl, by decide +kernel⟩

/-- A header of a response that refers to a schema is reported. -/
theorem reported_header_of_response :
    let document : Json := .obj [("openapi", .str "3.0.0"), ("paths", .obj [("/pets", .obj
      [("get", .obj [("responses", .obj [("200", .obj [("headers", .obj [("X-Rate", .obj
        [("$ref", .str "#/components/schemas/Rate")])])])])])])])]
    let place : Path := .ofKeys ["paths", "/pets", "get", "responses", "200", "headers", "X-Rate"]
    document.hasDistinctKeys ∧ ∃ found,
      function.check document .null (.of "references" document .root) = .ok found ∧
        found.filter (·.path = place.member "$ref") =
          [report "#/components/headers/" "#/components/schemas/Rate" place] := by
  intro document place
  have distinct : document.hasDistinctKeys := by decide
  have version : (Site.of "references" document .root).version = .openApi3 := by decide +kernel
  obtain ⟨found, hfound, judged⟩ :=
    named_entries_are_judged distinct .null (.of "references" document .root)
  rw [version] at judged
  obtain ⟨expected, here, own, -⟩ := judged _ _ _
    (.ofResponse (.inl rfl) "/pets" "get" "200" (by decide)) "X-Rate" _
    "#/components/schemas/Rate" rfl rfl (by decide +kernel)
  rw [own (by decide)] at here
  have wrong : ¬Text.startsWith "#/components/schemas/Rate" "#/components/headers/" := by
    decide +kernel
  refine ⟨distinct, found, hfound, here.trans ?_⟩
  rw [Option.toList_some, List.flatMap_singleton]
  exact if_neg wrong

end ApiLint.Rule.RefPattern
