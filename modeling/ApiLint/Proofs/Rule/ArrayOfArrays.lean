import ApiLint.Proofs.Rule.Distinct
import ApiLint.Proofs.Rule.OnePlace
import ApiLint.Proofs.Schema.Alternatives

/-!
# Which arrays of arrays are reported

The rule asks of each schema of its own whether it is an array under all resolutions of its
composition, and if so, it reports all items in the composition that describe arrays again.  A
branch that is an array of arrays is thus reported with the schema around it, which is an array too
unless the branch is one of several alternatives and another one is no array.
-/

namespace ApiLint.Rule.ArrayOfArrays

open Schema

variable {target node : Json} {start : Path} {steps : List Step} {visit : Visit Step}

/-! ## The schema around -/

/-- The steps to the schema of its own that the schema at the end of steps belongs to. -/
def ownerSteps (steps : List Step) : List Step := steps.rdropWhile Step.isComposition

/-- The steps from there on, which stay in the composition. -/
def innerSteps (steps : List Step) : List Step := steps.rtakeWhile Step.isComposition

theorem isBranch_of_mem_innerSteps (positive : .negation ∉ steps) {step : Step}
    (h : step ∈ innerSteps steps) : step.isBranch := by
  have hmem : step ∈ steps := (List.rtakeWhile_suffix _ _).subset h
  have hcomposition := List.mem_rtakeWhile_imp h
  cases step with
  | branch a i => rfl
  | negation => exact absurd hmem positive
  | _ => cases hcomposition

theorem exists_owner (h : at? target steps = some node) :
    ∃ owner, at? target (ownerSteps steps) = some owner ∧
      at? owner (innerSteps steps) = some node := by
  rw [← List.rdropWhile_append_rtakeWhile (p := Step.isComposition) (l := steps)] at h
  exact at?_append_iff.1 h

/-! ## Diagnostics -/

/-- The diagnostic about the items of the schema at the end of steps. -/
def report (start : Path) (steps : List Step) : Diagnostic :=
  ⟨message, (start.join (steps.flatMap Step.segments)).member "items"⟩

/-- What is reported of one of the schemas in a target. -/
def ofVisit (target : Json) (start : Path) (visit : Visit Step) : List Diagnostic :=
  if (at? target (ownerSteps visit.steps)).any Kind.array.covers then
    ofNode visit.node (visit.path start)
  else []

theorem diagnostics_eq (distinct : target.hasDistinctKeys) (start : Path) :
    diagnostics target start = (wholeVisits target).flatMap (ofVisit target start) := by
  rw [diagnostics, wholeVisits, List.flatMap_assoc]
  refine List.flatMap_congr fun outer houter => ?_
  obtain ⟨⟨-, outerAt⟩, hdrop⟩ := (mem_nestedVisits_iff distinct).1 houter
  have each (inner : Visit Step) (hinner : inner ∈ composedVisits true false outer.node) :
      ofVisit target start ⟨outer.steps ++ inner.steps, inner.node⟩ =
        if Kind.array.covers outer.node then ofNode inner.node (inner.path (outer.path start))
        else [] := by
    have towards : ownerSteps (outer.steps ++ inner.steps) = outer.steps :=
      rdropWhile_append hdrop (rtakeWhile_of_mem_composedVisits hinner)
    rw [ofVisit, towards, outerAt, Option.any_some, ← Visit.path_append]
    rfl
  rw [List.flatMap_map, List.flatMap_congr each, ofSchema]
  split <;> simp

theorem mem_ofVisit_iff {d : Diagnostic} :
    d ∈ ofVisit target start visit ↔
      (at? target (ownerSteps visit.steps)).any Kind.array.covers ∧
        (visit.node.get? "items").any Kind.array.covers ∧ d = report start visit.steps := by
  rw [ofVisit, ofNode, List.mem_ite_nil_right, List.mem_ite_nil_right, List.mem_singleton]
  rfl

theorem parent?_of_mem_ofVisit {d : Diagnostic} (h : d ∈ ofVisit target start visit) :
    d.path.parent? = some (visit.path start) := by
  rw [(mem_ofVisit_iff.1 h).2.2]
  exact Path.parent?_child _ _

/-- What is reported about the items of a schema is what the check of that schema gives. -/
theorem filter_path_diagnostics (distinct : target.hasDistinctKeys)
    (hvisit : visit ∈ wholeVisits target) :
    (diagnostics target start).filter (·.path = (visit.path start).member "items") =
      ofVisit target start visit := by
  have places := Visit.nodup_paths (nodup_wholeVisits distinct) start
  rw [diagnostics_eq distinct, Path.member,
    filter_path_child places hvisit (fun _ _ => parent?_of_mem_ofVisit)]
  refine List.filter_eq_self.2 fun d hd => decide_eq_true ?_
  rw [(mem_ofVisit_iff.1 hd).2.2]
  rfl

theorem ofVisit_of_covers {owner items : Json} (howner : at? target (ownerSteps steps) = some owner)
    (hitems : node.get? "items" = some items) (h : Kind.array.covers items) :
    ofVisit target start ⟨steps, node⟩ =
      if Kind.array.covers owner then [report start steps] else [] := by
  rw [ofVisit, howner, ofNode, hitems, Option.any_some, Option.any_some, if_pos h]
  rfl

/-- Items that describe arrays are reported, once, when the schema of its own that they are written
in is an array, and only then.  If the schema that has them is an array, that schema is one too,
unless the way between the two goes into alternatives that are not all arrays.  Nothing else is
reported. -/
theorem reports_items_in_arrays (distinct : target.hasDistinctKeys) (options : Json)
    (site : Site) :
    ∃ found, function.check target options site = .ok found ∧
      (∀ steps schema items, .negation ∉ steps → at? target steps = some schema →
        schema.get? "items" = some items → Kind.array.covers items →
        ∃ owner, at? target (ownerSteps steps) = some owner ∧
          found.filter (·.path = (report site.path steps).path) =
            (if Kind.array.covers owner then [report site.path steps] else []) ∧
          (Kind.array.covers schema → ¬Kind.array.covers owner →
            PassesFailingAlternative Kind.array.fits owner (innerSteps steps))) ∧
      ∀ d ∈ found, ∃ steps schema items, .negation ∉ steps ∧ at? target steps = some schema ∧
        schema.get? "items" = some items ∧ Kind.array.covers items ∧
        d = report site.path steps := by
  refine ⟨diagnostics target site.path, rfl, ?_, fun d hd => ?_⟩
  · intro steps schema items positive hat hitems hcovers
    obtain ⟨owner, howner, hinner⟩ := exists_owner hat
    have hvisit : ⟨steps, schema⟩ ∈ wholeVisits target :=
      (mem_wholeVisits_iff distinct).2 ⟨positive, hat⟩
    refine ⟨owner, howner, ?_, fun hschema hfails => ?_⟩
    · rw [← ofVisit_of_covers howner hitems hcovers]
      exact filter_path_diagnostics distinct hvisit
    · exact passesFailingAlternative_of_lift
        (fun _ hstep => isBranch_of_mem_innerSteps positive hstep) hinner hschema hfails
  · rw [diagnostics_eq distinct] at hd
    obtain ⟨visit, hvisit, hd⟩ := List.mem_flatMap.1 hd
    obtain ⟨positive, hat⟩ := (mem_wholeVisits_iff distinct).1 hvisit
    obtain ⟨-, hany, hreport⟩ := mem_ofVisit_iff.1 hd
    obtain ⟨items, hitems, hcovers⟩ := (Option.any_eq_true _ _).1 hany
    exact ⟨visit.steps, visit.node, items, positive, hat, hitems, hcovers, hreport⟩

/-- An alternative that is an array of arrays is not reported when the other one is a text. -/
theorem silent_about_array_beside_text :
    let rows : Json := .obj [("type", .str "array")]
    let table : Json := .obj [("type", .str "array"), ("items", rows)]
    let target : Json := .obj [("oneOf", .arr [table, .obj [("type", .str "string")]])]
    function.check target .null (.of "arrays" target .root) = .ok [] ∧
      at? target [.branch .oneOf 0] = some table ∧ Kind.array.covers table ∧
      table.get? "items" = some rows ∧ Kind.array.covers rows := by
  intro rows table target
  exact ⟨by decide +kernel, rfl, by decide +kernel, rfl, by decide +kernel⟩

/-- A branch of an alternative is reported when all alternatives are arrays. -/
theorem reported_items_of_alternative :
    let items : Json := .obj [("items", .obj [])]
    let table : Json := .obj [("type", .str "array"), ("items", items)]
    let rows : Json := .obj [("anyOf", .arr [.obj [("allOf", .arr [table])],
      .obj [("type", .str "array")]])]
    let target : Json := .obj [("properties", .obj [("rows", rows)])]
    let place : Path := ⟨[.key "properties", .key "rows", .key "anyOf", .index 0, .key "allOf",
      .index 0, .key "items"]⟩
    target.hasDistinctKeys ∧
      ∃ found, function.check target .null (.of "arrays" target .root) = .ok found ∧
        found.filter (·.path = place) =
          [⟨"Array schemas should avoid having items of type array", place⟩] := by
  intro items table rows target place
  have distinct : target.hasDistinctKeys := by decide
  obtain ⟨found, hfound, reported, -⟩ :=
    reports_items_in_arrays distinct .null (.of "arrays" target .root)
  have hitems : Kind.array.covers items := by decide +kernel
  obtain ⟨owner, howner, here, -⟩ := reported
    [.property "rows", .branch .anyOf 0, .branch .allOf 0] table items (by decide) rfl rfl hitems
  have hrows : at? target [.property "rows"] = some rows := rfl
  obtain rfl : rows = owner := Option.some.inj (hrows.symm.trans howner)
  have harray : Kind.array.covers rows := by decide +kernel
  exact ⟨distinct, found, hfound, here.trans (if_pos harray)⟩

end ApiLint.Rule.ArrayOfArrays
