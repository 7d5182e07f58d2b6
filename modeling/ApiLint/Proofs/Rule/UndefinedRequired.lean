import ApiLint.Proofs.Schema.Alternatives
import ApiLint.Rule.RequiredPropertyDefined

/-!
# Required names that are reported

A name that is required in a branch is reported when neither the branch nor the whole schema around
it defines the name.  The schemas in between are not asked.  What they define reaches the whole
schema through `allOf`, but not through alternatives of which another one does not define the name:
a name that is required in one `allOf` branch and defined in the next is reported when the two stand
inside such an alternative.
-/

namespace ApiLint.Rule.RequiredPropertyDefined

open Schema

variable {schema node target : Json} {steps : List Step} {name : String} {path : Path}

/-! ## Definitions on the way -/

/-- A way goes into alternatives that do not all define a property. -/
def PassesLackingAlternative (schema : Json) (steps : List Step) (name : String) : Prop :=
  ∃ before a i after parent, steps = before ++ .branch a i :: after ∧
    at? schema before = some parent ∧ a ≠ .allOf ∧
    ∃ alternative ∈ a.branches parent, ¬defines alternative name

theorem passesLackingAlternative_of_defines (hbranches : ∀ step ∈ steps, step.isBranch)
    (hat : at? schema steps = some node) (hdefines : defines node name)
    (hundefined : ¬defines schema name) : PassesLackingAlternative schema steps name :=
  passesFailingAlternative_of_lift hbranches hat hdefines hundefined

/-! ## Diagnostics -/

theorem mem_ofBranch_iff {branch : Json} {d : Diagnostic} :
    d ∈ ofBranch schema branch path ↔
      ∃ i name, (branch.itemsAt "required")[i]? = some (.str name) ∧
        ¬defines branch name ∧ ¬defines schema name ∧
        d = ⟨s!"Required property '{name}' is not defined in the schema",
          (path.member "required").element i⟩ := by
  simp only [ofBranch, List.mem_filterMap, Prod.exists, List.mk_mem_zipIdx_iff_getElem?,
    Option.bind_eq_some_iff]
  constructor
  · rintro ⟨item, i, hitem, name, hname, hd⟩
    obtain rfl : item = .str name := by cases item <;> simp_all [Json.str?]
    split at hd
    · cases hd
    · next hundefined =>
      rw [Bool.or_eq_true, not_or] at hundefined
      exact ⟨i, name, hitem, hundefined.1, hundefined.2, (Option.some.inj hd).symm⟩
  · rintro ⟨i, name, hitem, hbranch, hschema, rfl⟩
    exact ⟨_, i, hitem, name, rfl, by simp [hbranch, hschema]⟩

/-- The places of two branches of schemas of their own are different unless the branches and the
schemas are the same. -/
theorem node_eq_of_path_eq (distinct : target.hasDistinctKeys) {outer outer' : Visit Step}
    (houter : outer ∈ nestedVisits true false target)
    (houter' : outer' ∈ nestedVisits true false target) {inner inner' : Visit Step}
    (hinner : inner ∈ composedVisits true false outer.node)
    (hinner' : inner' ∈ composedVisits true false outer'.node)
    (h : inner.path (outer.path path) = inner'.path (outer'.path path)) :
    outer.node = outer'.node ∧ inner.node = inner'.node := by
  have whole : outer.steps ++ inner.steps = outer'.steps ++ inner'.steps := by
    refine flatMap_segments_injective (Path.join_injective path ?_)
    simpa [Visit.path, Path.join_join] using h
  obtain ⟨⟨-, outerAt⟩, hdrop⟩ := (mem_nestedVisits_iff distinct).1 houter
  obtain ⟨⟨-, outerAt'⟩, hdrop'⟩ := (mem_nestedVisits_iff distinct).1 houter'
  -- what is left without the last steps in a composition is the way to the outer schema
  have outerSteps : outer.steps = outer'.steps := by
    rw [← rdropWhile_append hdrop (rtakeWhile_of_mem_composedVisits hinner), whole,
      rdropWhile_append hdrop' (rtakeWhile_of_mem_composedVisits hinner')]
  have outerNode : outer.node = outer'.node :=
    Option.some.inj (outerAt.symm.trans (outerSteps ▸ outerAt'))
  have innerSteps : inner.steps = inner'.steps := List.append_cancel_left (outerSteps ▸ whole)
  have innerAt := (at?_of_mem_composedVisits hinner).2
  have innerAt' := (at?_of_mem_composedVisits hinner').2
  rw [outerNode, innerSteps] at innerAt
  exact ⟨outerNode, Option.some.inj (innerAt.symm.trans innerAt')⟩

/-- A name that a branch requires is reported when neither the branch nor the whole schema defines
it.  A schema on the way to the branch can still define a reported name, but only when the way to
that schema goes into alternatives of which another one lacks the property; no schema defines it
that `allOf` alone leads to. -/
theorem reported_names_are_undefined (distinct : target.hasDistinctKeys) (options : Json)
    (site : Site) :
    ∃ found, function.check target options site = .ok found ∧
      ∀ outer ∈ nestedVisits true false target,
        ∀ inner ∈ composedVisits true false outer.node, ∀ (i : Nat) (name : String),
          (inner.node.itemsAt "required")[i]? = some (.str name) →
          let report : Diagnostic := ⟨s!"Required property '{name}' is not defined in the schema",
            ((inner.path (outer.path site.path)).member "required").element i⟩
          (report ∈ found ↔ ¬defines outer.node name ∧ ¬defines inner.node name) ∧
            (report ∈ found → ∀ upper lower enclosing, inner.steps = upper ++ lower →
              at? outer.node upper = some enclosing → defines enclosing name →
              PassesLackingAlternative outer.node upper name) := by
  refine ⟨diagnostics target site.path, rfl, fun outer houter inner hinner i name hlisted => ?_⟩
  intro report
  have reported : report ∈ diagnostics target site.path ↔
      ¬defines outer.node name ∧ ¬defines inner.node name := by
    constructor
    · intro hreport
      obtain ⟨outer', houter', hreport⟩ := List.mem_flatMap.1 hreport
      obtain ⟨inner', hinner', hreport⟩ := List.mem_flatMap.1 hreport
      obtain ⟨i', name', hlisted', hbranch, hschema, hsame⟩ := mem_ofBranch_iff.1 hreport
      have places := congrArg (fun d => d.path.segments) hsame
      simp only [report, Path.element, Path.member, Path.segments_child, List.append_assoc,
        List.cons_append, List.nil_append] at places
      obtain ⟨hpath, hend⟩ := List.append_inj' places rfl
      obtain rfl : i = i' := by simpa using hend
      obtain ⟨outerNode, innerNode⟩ :=
        node_eq_of_path_eq distinct houter houter' hinner hinner' (congrArg Path.mk hpath)
      rw [innerNode, hlisted', Option.some.injEq, Json.str.injEq] at hlisted
      exact ⟨outerNode ▸ hlisted ▸ hschema, innerNode ▸ hlisted ▸ hbranch⟩
    · rintro ⟨hschema, hbranch⟩
      exact List.mem_flatMap.2 ⟨outer, houter, List.mem_flatMap.2 ⟨inner, hinner,
        mem_ofBranch_iff.2 ⟨i, name, hlisted, hbranch, hschema, rfl⟩⟩⟩
  refine ⟨reported, fun hreport upper lower enclosing hsteps hat hdefines => ?_⟩
  have hbranches : ∀ step ∈ upper, step.isBranch := fun step hstep =>
    (at?_of_mem_composedVisits hinner).1 step (hsteps ▸ List.mem_append_left lower hstep)
  exact passesLackingAlternative_of_defines hbranches hat hdefines (reported.1 hreport).1

/-- An alternative that requires a name in one `allOf` branch and defines it in the next: the name
is reported, although the alternative defines it, as the other alternative does not. -/
theorem reported_beside_definition :
    let requiring : Json := .obj [("required", .arr [.str "id"])]
    let defining : Json := .obj [("properties", .obj [("id", .obj [])])]
    let alternative : Json := .obj [("allOf", .arr [requiring, defining])]
    let target : Json := .obj [("oneOf", .arr [alternative, .obj []])]
    let report : Diagnostic := ⟨"Required property 'id' is not defined in the schema",
      ⟨[.key "oneOf", .index 0, .key "allOf", .index 0, .key "required", .index 0]⟩⟩
    function.check target .null (.of "defined" target .root) = .ok [report] ∧
      (∃ outer ∈ nestedVisits true false target, outer.node = target ∧
        ∃ inner ∈ composedVisits true false outer.node,
          inner.steps = [.branch .oneOf 0] ++ [.branch .allOf 0] ∧ inner.node = requiring) ∧
      at? target [.branch .oneOf 0] = some alternative ∧ defines alternative "id" := by
  intro requiring defining alternative target report
  have reported : function.check target .null (.of "defined" target .root) = .ok [report] := by
    decide +kernel
  have distinct : target.hasDistinctKeys := by decide
  have whole : ⟨[], target⟩ ∈ nestedVisits true false target :=
    (mem_nestedVisits_iff distinct).2 ⟨⟨by decide, rfl⟩, by decide⟩
  have visited : ⟨[.branch .oneOf 0, .branch .allOf 0], requiring⟩ ∈
      composedVisits true false target :=
    (mem_composedVisits_iff distinct).2 ⟨⟨by decide, rfl⟩, by decide⟩
  exact ⟨reported, ⟨_, whole, rfl, _, visited, rfl, rfl⟩, rfl, by decide +kernel⟩

/-- Where only `allOf` leads to a branch, nothing on the way defines the reported name. -/
theorem undefined_on_way_through_allOf :
    let requiring : Json := .obj [("required", .arr [.str "id"])]
    let middle : Json := .obj [("allOf", .arr [requiring])]
    let target : Json := .obj [("allOf", .arr [middle])]
    let report : Diagnostic := ⟨"Required property 'id' is not defined in the schema",
      ⟨[.key "allOf", .index 0, .key "allOf", .index 0, .key "required", .index 0]⟩⟩
    target.hasDistinctKeys ∧
      function.check target .null (.of "defined" target .root) = .ok [report] ∧
      ¬defines target "id" ∧ ¬defines middle "id" := by
  intro requiring middle target report
  have distinct : target.hasDistinctKeys := by decide
  have whole : ⟨[], target⟩ ∈ nestedVisits true false target :=
    (mem_nestedVisits_iff distinct).2 ⟨⟨by decide, rfl⟩, by decide⟩
  have visited : ⟨[.branch .allOf 0, .branch .allOf 0], requiring⟩ ∈
      composedVisits true false target :=
    (mem_composedVisits_iff distinct).2 ⟨⟨by decide, rfl⟩, by decide⟩
  have reported : function.check target .null (.of "defined" target .root) = .ok [report] := by
    decide +kernel
  obtain ⟨found, hfound, law⟩ := reported_names_are_undefined distinct .null
    (.of "defined" target .root)
  obtain rfl : [report] = found := Except.ok.inj (reported.symm.trans hfound)
  obtain ⟨exactly, onTheWay⟩ := law _ whole _ visited 0 "id" rfl
  have mem : report ∈ [report] := List.mem_singleton_self report
  refine ⟨distinct, reported, (exactly.1 mem).1, fun hdefines => ?_⟩
  obtain ⟨before, a, i, after, parent, hsteps, -, ha, -⟩ :=
    onTheWay mem [.branch .allOf 0] [.branch .allOf 0] middle rfl rfl hdefines
  cases before with
  | nil => exact ha (Step.branch.inj (List.cons.inj hsteps).1).1.symm
  | cons step rest => simp at hsteps

end ApiLint.Rule.RequiredPropertyDefined
