import ApiLint.Proofs.Schema.Compositional
import ApiLint.Proofs.Schema.Parts

/-!
# Names of properties

The names of the properties of a schema are gathered from its composed visits: each name that one
of these nodes gives to a property of its own is listed, and no name is listed twice.
-/

namespace ApiLint.Schema

variable {schema : Json} {name : String} {keep : String → Json → Bool}

/-- The names of a node's own properties that pass a test. -/
def ownNamesWhere (keep : String → Json → Bool) (node : Json) : List String :=
  ((ownProperties node).filter fun property => keep property.1 property.2).map Prod.fst

theorem addName_eq (names : List String) (name : String) :
    addName names name = if names.contains name then names else names ++ [name] := by
  simp [addName]

theorem addNew_ownNamesWhere (names : List String) (node : Json) :
    addNew names (ownNamesWhere keep node) =
      (ownProperties node).foldl
        (fun names (name, property) => if keep name property then addName names name else names)
        names := by
  simp only [addNew, ownNamesWhere, List.foldl_map, List.foldl_filter, addName_eq]

theorem addPropertyNames_eq_gatherInto (names : List String) (schema : Json) :
    addPropertyNames keep names schema =
      gatherInto (ownNamesWhere keep) false true names schema := by
  induction schema using branch_induction generalizing names with
  | step schema ih =>
    rw [addPropertyNames_eq, gatherInto, addNew_ownNamesWhere]
    split
    · simp only [List.foldl_subtype, List.unattach_attach]
      refine List.foldl_ext _ _ _ fun names branch hbranch => ?_
      obtain ⟨a, -, hmem⟩ := List.mem_flatMap.1 hbranch
      exact ih a branch hmem names
    · rfl

theorem propertyNamesWhere_eq (keep : String → Json → Bool) (schema : Json) :
    propertyNamesWhere keep schema =
      ((gatheredVisits true false schema).flatMap (ownNamesWhere keep ·.node)).eraseDups :=
  (addPropertyNames_eq_gatherInto [] schema).trans (gather_eq _ true false schema)

theorem nodup_propertyNamesWhere : (propertyNamesWhere keep schema).Nodup := by
  rw [propertyNamesWhere_eq]
  refine (FirstSeen.pairwise_eraseDupsBy _ _).imp fun hne hsame => ?_
  simp [hsame] at hne

theorem mem_propertyNames_iff :
    name ∈ propertyNames schema ↔
      ∃ visit ∈ composedVisits true false schema,
        name ∈ (ownProperties visit.node).map Prod.fst := by
  rw [propertyNames, propertyNamesWhere_eq, List.mem_eraseDups, List.mem_flatMap]
  simp only [(gatheredVisits_perm true false schema).mem_iff, ownNamesWhere, List.filter_true]

end ApiLint.Schema
