import ApiLint.Document.Targets
import ApiLint.Proofs.Path.Located

/-!
# Where targets are

Every target of a document without repeated keys is the node at its path.  Targets are made from
other targets by steps that keep this, so it holds of every class of targets in every version.
-/

namespace ApiLint.Document

variable {document : Json} {version : Version} {path : Path} {target : Target}

/-- A target is what stands at its path. -/
def Target.IsIn (target : Target) (document : Json) : Prop :=
  Located document target.path target.node

/-! ## Entries and elements -/

theorem mem_entries_iff :
    target ∈ entries document path ↔
      ∃ members key, path.resolve? document = some (.obj members) ∧ (key, target.node) ∈ members ∧
        target.node.isObj ∧ target.path = path.member key := by
  unfold entries
  rw [List.mem_filterMap]
  constructor
  · rintro ⟨⟨key, value⟩, hmem, h⟩
    rw [Option.ite_none_right_eq_some, Option.some.injEq] at h
    obtain ⟨hobj, rfl⟩ := h
    cases hfound : path.resolve? document with
    | none => simp [hfound] at hmem
    | some node =>
      cases node <;> simp [hfound, Json.members?] at hmem
      exact ⟨_, key, rfl, hmem, hobj, rfl⟩
  · rintro ⟨members, key, hfound, hmem, hobj, hpath⟩
    refine ⟨(key, target.node), ?_, ?_⟩
    · simpa [hfound, Json.members?] using hmem
    · dsimp only
      rw [if_pos hobj, ← hpath]

theorem mem_elements_iff :
    target ∈ elements document path ↔
      ∃ items i, path.resolve? document = some (.arr items) ∧ items[i]? = some target.node ∧
        target.node.isObj ∧ target.path = path.element i := by
  unfold elements
  rw [List.mem_filterMap]
  constructor
  · rintro ⟨⟨item, i⟩, hmem, h⟩
    rw [Option.ite_none_right_eq_some, Option.some.injEq] at h
    obtain ⟨hobj, rfl⟩ := h
    cases hfound : path.resolve? document with
    | none => simp [hfound] at hmem
    | some node =>
      cases node <;> simp [hfound, Json.items?] at hmem
      exact ⟨_, i, rfl, List.mk_mem_zipIdx_iff_getElem?.1 hmem, hobj, rfl⟩
  · rintro ⟨items, i, hfound, hitem, hobj, hpath⟩
    refine ⟨(target.node, i), ?_, ?_⟩
    · simpa [hfound, Json.items?] using List.mk_mem_zipIdx_iff_getElem?.2 hitem
    · dsimp only
      rw [if_pos hobj, ← hpath]

theorem isIn_of_mem_entries (distinct : document.hasDistinctKeys)
    (h : target ∈ entries document path) : target.IsIn document := by
  obtain ⟨members, key, hfound, hmem, -, hpath⟩ := mem_entries_iff.1 h
  unfold Target.IsIn
  rw [hpath]
  exact Located.member_of_mem ⟨distinct, hfound⟩ hmem

theorem isIn_of_mem_elements (distinct : document.hasDistinctKeys)
    (h : target ∈ elements document path) : target.IsIn document := by
  obtain ⟨items, i, hfound, hitem, -, hpath⟩ := mem_elements_iff.1 h
  unfold Target.IsIn
  rw [hpath]
  exact Located.element ⟨distinct, hfound⟩ hitem

theorem isIn_of_mem_member? {outer : Target} {key : String} (houter : outer.IsIn document)
    (h : target ∈ outer.member? key) : target.IsIn document := by
  obtain ⟨node, hnode, rfl⟩ := Option.map_eq_some_iff.1 h
  exact houter.member (Option.filter_eq_some_iff.1 hnode).1

/-! ## Classes of targets -/

theorem isIn_of_mem_operations (distinct : document.hasDistinctKeys)
    (h : target ∈ operations document) : target.IsIn document := by
  obtain ⟨item, hitem, h⟩ := List.mem_flatMap.1 h
  obtain ⟨⟨key, value⟩, hmem, h⟩ := List.mem_filterMap.1 h
  rw [Option.ite_none_right_eq_some, Option.some.injEq] at h
  obtain ⟨-, rfl⟩ := h
  have hin := isIn_of_mem_entries distinct hitem
  unfold Target.IsIn at hin
  cases hnode : item.node with
  | obj members =>
    rw [hnode] at hin hmem
    exact hin.member_of_mem hmem
  | _ => simp [hnode, Json.members?] at hmem

theorem isIn_of_mem_parameters (distinct : document.hasDistinctKeys)
    (h : target ∈ parameters document version) : target.IsIn document := by
  simp only [parameters, itemParameters, List.mem_append, List.mem_flatMap,
    List.mem_ite_nil_right] at h
  obtain (⟨_, -, h | ⟨_, -, h⟩⟩ | ⟨-, h⟩) | ⟨-, h⟩ := h
  · exact isIn_of_mem_elements distinct h
  · exact isIn_of_mem_elements distinct h
  · exact isIn_of_mem_entries distinct h
  · exact isIn_of_mem_entries distinct h

theorem isIn_of_mem_contentSchemas (distinct : document.hasDistinctKeys) {outer : Target}
    (h : target ∈ contentSchemas document outer) : target.IsIn document := by
  obtain ⟨media, hmedia, h⟩ := List.mem_filterMap.1 h
  exact isIn_of_mem_member? (isIn_of_mem_entries distinct hmedia) h

theorem isIn_of_mem_carriedSchemas (distinct : document.hasDistinctKeys) {carrier : Target}
    (hcarrier : carrier.IsIn document) (h : target ∈ carriedSchemas document version carrier) :
    target.IsIn document := by
  simp only [carriedSchemas, List.mem_append, Option.mem_toList, List.mem_ite_nil_right] at h
  obtain h | ⟨-, h⟩ := h
  · exact isIn_of_mem_member? hcarrier h
  · exact isIn_of_mem_contentSchemas distinct h

theorem isIn_of_mem_responseSchemas (distinct : document.hasDistinctKeys) {response : Target}
    (hresponse : response.IsIn document)
    (h : target ∈ responseSchemas document version response) : target.IsIn document := by
  simp only [responseSchemas, List.mem_append, List.mem_flatMap] at h
  obtain h | ⟨header, hheader, h⟩ := h
  · exact isIn_of_mem_carriedSchemas distinct hresponse h
  · exact isIn_of_mem_carriedSchemas distinct (isIn_of_mem_entries distinct hheader) h

theorem isIn_of_mem_operationSchemas (distinct : document.hasDistinctKeys) {operation : Target}
    (h : target ∈ operationSchemas document version operation) : target.IsIn document := by
  simp only [operationSchemas, List.mem_append, List.mem_flatMap, List.mem_ite_nil_right] at h
  obtain ⟨-, _, -, h⟩ | ⟨response, hresponse, h⟩ := h
  · exact isIn_of_mem_contentSchemas distinct h
  · exact isIn_of_mem_responseSchemas distinct (isIn_of_mem_entries distinct hresponse) h

theorem isIn_of_mem_componentSchemas (distinct : document.hasDistinctKeys)
    (h : target ∈ componentSchemas document version) : target.IsIn document := by
  simp only [componentSchemas, List.mem_append, List.mem_flatMap, List.mem_ite_nil_right] at h
  obtain ⟨-, response, hresponse, h⟩ |
    ⟨-, (⟨_, -, h⟩ | ⟨response, hresponse, h⟩) | ⟨header, hheader, h⟩⟩ := h
  · exact isIn_of_mem_responseSchemas distinct (isIn_of_mem_entries distinct hresponse) h
  · exact isIn_of_mem_contentSchemas distinct h
  · exact isIn_of_mem_responseSchemas distinct (isIn_of_mem_entries distinct hresponse) h
  · exact isIn_of_mem_carriedSchemas distinct (isIn_of_mem_entries distinct hheader) h

theorem isIn_of_mem_schemas (distinct : document.hasDistinctKeys)
    (h : target ∈ schemas document version) : target.IsIn document := by
  simp only [schemas, definedSchemas, List.mem_append, List.mem_flatMap,
    List.mem_ite_nil_right] at h
  obtain (((⟨-, h⟩ | ⟨-, h⟩) | ⟨parameter, hparameter, h⟩) | ⟨operation, -, h⟩) | h := h
  · exact isIn_of_mem_entries distinct h
  · exact isIn_of_mem_entries distinct h
  · exact isIn_of_mem_carriedSchemas distinct (isIn_of_mem_parameters distinct hparameter) h
  · exact isIn_of_mem_operationSchemas distinct h
  · exact isIn_of_mem_componentSchemas distinct h

/-- Targets of every class are in the document. -/
theorem isIn_of_mem_targets (distinct : document.hasDistinctKeys) {c : TargetClass}
    (h : target ∈ c.targets document version) : target.IsIn document := by
  cases c with
  | document =>
    obtain rfl := List.mem_singleton.1 h
    exact Located.root distinct
  | schemas => exact isIn_of_mem_schemas distinct h
  | operations => exact isIn_of_mem_operations distinct h
  | parameters => exact isIn_of_mem_parameters distinct h

end ApiLint.Document
