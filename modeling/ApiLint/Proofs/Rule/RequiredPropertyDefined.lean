import ApiLint.Proofs.Schema.Parts
import ApiLint.Rule.RequiredPropertyDefined

/-!
# Completeness of the check of required properties

The check looks at each part of a schema on its own: what the part requires must be defined by the
part or by the whole schema.  Where it finds nothing, a schema that is bound to require a property
is bound to define it as well, however its alternatives are settled.
-/

namespace ApiLint

open Schema

namespace Rule.RequiredPropertyDefined

variable {schema branch target options : Json} {path : Path} {name : String} {site : Site}

/-! ## Schemas without diagnostics -/

theorem defines_of_ofBranch_eq_nil (h : ofBranch schema branch path = [])
    (hlists : lists name branch) : defines branch name ∨ defines schema name := by
  obtain ⟨item, hitem, hname⟩ := List.any_eq_true.1 hlists
  obtain ⟨i, hi⟩ := List.mem_iff_getElem?.1 hitem
  have silent := List.filterMap_eq_nil_iff.1 h (item, i) (List.mk_mem_zipIdx_iff_getElem?.2 hi)
  rw [beq_iff_eq] at hname
  by_contra hundefined
  simp [hname, hundefined] at silent

/-- When the check finds nothing in a schema, either the whole schema defines the name, or every
part that lists it does. -/
theorem defines_of_ofSchema_eq_nil (h : ofSchema schema path = [])
    (hlists : lift .strict (lists name) schema) : defines schema name := by
  by_cases hwhole : defines schema name
  · exact hwhole
  · have parts (node : Json) (hpart : IsPartOf node schema) (hobj : node.isObj)
        (hnode : lists name node) : defines node name := by
      obtain ⟨visit, hvisit, rfl⟩ := exists_composedVisit_of_isPartOf hpart hobj
      have silent := List.flatMap_eq_nil_iff.1 h visit hvisit
      exact (defines_of_ofBranch_eq_nil silent hnode).resolve_right hwhole
    rw [defines, ← lift_lift]
    exact lift_mono parts hlists

/-- When the check finds nothing in a target, every schema of its own in the target that requires a
property under all resolutions of its composition also defines it under all of them. -/
theorem requires_of_check_eq_nil (h : function.check target options site = .ok []) :
    ∀ visit ∈ nestedVisits true false target, ∀ name,
      lift .strict (lists name) visit.node → requires visit.node name := by
  intro visit hvisit name hlists
  have silent : diagnostics target site.path = [] := Except.ok.inj h
  have own := List.flatMap_eq_nil_iff.1 silent visit hvisit
  rw [requires, hlists, Bool.true_and]
  exact defines_of_ofSchema_eq_nil own hlists

/-- Alternatives that each require a property and define it, one of them through a branch. -/
theorem requires_id_of_alternatives :
    let properties : Json := .obj [("id", .obj [])]
    let required : Json := .arr [.str "id"]
    let owner : Json := .obj [("oneOf", .arr
      [.obj [("required", required), ("properties", properties)],
        .obj [("required", required), ("allOf", .arr [.obj [("properties", properties)]])]])]
    let target : Json := .obj [("properties", .obj [("owner", owner)])]
    function.check target .null (.of "defined" target .root) = .ok [] ∧
      ⟨[.property "owner"], owner⟩ ∈ nestedVisits true false target ∧
      lift .strict (lists "id") owner ∧ requires owner "id" := by
  intro properties required owner target
  have silent : function.check target .null (.of "defined" target .root) = .ok [] := by
    decide +kernel
  have visited : ⟨[.property "owner"], owner⟩ ∈ nestedVisits true false target :=
    (mem_nestedVisits_iff (by decide)).2 ⟨⟨by decide, by rfl⟩, by decide⟩
  have hlists : lift .strict (lists "id") owner := by decide +kernel
  exact ⟨silent, visited, hlists, requires_of_check_eq_nil silent _ visited "id" hlists⟩

end Rule.RequiredPropertyDefined

end ApiLint
