import ApiLint.Proofs.Rule.Distinct
import ApiLint.Proofs.Rule.OnePlace
import ApiLint.Proofs.Schema.Nested

/-!
# Which schemas have to be described

The rule takes a schema for a property when its path ends in `properties` and a name.  All entries
of `properties` maps are taken, and so is a schema whose path only ends like theirs: the items of a
property that is called `properties`, for one.  What is taken is reported, once, unless it is
described under all resolutions of its composition.
-/

namespace ApiLint.Rule.PropertyDescription

open Schema

variable {target node : Json} {start : Path} {steps : List Step} {visit : Visit Step}

/-- The steps lead to an entry of a `properties` map, or the path ends as if they did. -/
def IsTaken (start : Path) (steps : List Step) : Prop :=
  (∃ before name, steps = before ++ [.property name]) ∨
    ResemblesEntryOf propertiesKeyword start steps

/-- The diagnostic about the schema at the end of steps. -/
def report (start : Path) (steps : List Step) : Diagnostic :=
  let logical : Path := ⟨steps.flatMap Step.logical⟩
  ⟨s!"Schema property '{logical.dotted}' should have a non-empty description",
    start.join (steps.flatMap Step.segments)⟩

/-! ## Paths of properties -/

theorem isEntryOf_properties_iff :
    IsEntryOf propertiesKeyword steps ↔ ∃ before name, steps = before ++ [.property name] := by
  constructor
  · rintro ⟨before, step, rfl, hstep⟩
    cases step with
    | property name => exact ⟨before, name, rfl⟩
    | branch a i => cases a <;> simp [Step.holder?, Applicator.keyword, propertiesKeyword] at hstep
    | _ => simp [Step.holder?, propertiesKeyword] at hstep
  · rintro ⟨before, name, rfl⟩
    exact ⟨before, .property name, rfl, rfl⟩

theorem isPropertyPath_iff (positive : .negation ∉ steps) :
    isPropertyPath ((Visit.mk steps node).path start) ↔ IsTaken start steps := by
  rw [isPropertyPath, beq_iff_eq, parentKey?_path_eq_some_iff (by decide) positive,
    isEntryOf_properties_iff, IsTaken]

/-- What is taken for a property is no branch and no negation, so nested visits come to it. -/
theorem mem_nestedVisits_of_isTaken (distinct : target.hasDistinctKeys)
    (positive : .negation ∉ steps) (hat : at? target steps = some node) (h : IsTaken start steps) :
    ⟨steps, node⟩ ∈ nestedVisits true false target := by
  refine (mem_nestedVisits_iff_at? distinct).2 ⟨hat, fun h => absurd h positive, fun _ => rfl, ?_⟩
  obtain ⟨before, name, rfl⟩ | ⟨rfl, -⟩ | ⟨before, step, rfl, hstep, -⟩ := h
  · simp [Step.isComposition]
  · simp
  · obtain rfl | rfl := hstep <;> simp [Step.isComposition]

/-! ## Reports -/

theorem ofVisit_of_isTaken (positive : .negation ∉ steps) (h : IsTaken start steps) :
    ofVisit node ((Visit.mk steps node).path start) (Visit.mk steps node).logical =
      if lift .strict isDescribed node then [] else [report start steps] := by
  rw [ofVisit, (isPropertyPath_iff positive).2 h, Bool.not_true, Bool.false_or]
  rfl

theorem mem_ofVisit_iff (positive : .negation ∉ steps) {d : Diagnostic} :
    d ∈ ofVisit node ((Visit.mk steps node).path start) (Visit.mk steps node).logical ↔
      IsTaken start steps ∧ ¬lift .strict isDescribed node ∧ d = report start steps := by
  rw [ofVisit, List.mem_ite_nil_left, List.mem_singleton, Bool.or_eq_true, not_or,
    Bool.not_eq_true', Bool.not_eq_false, isPropertyPath_iff positive, and_assoc]
  rfl

/-- The rule reports the entries of `properties` maps, at any depth, that are not described under
all resolutions, each once.  It reports nothing else but schemas whose paths end like those of such
entries. -/
theorem reports_undescribed_properties (distinct : target.hasDistinctKeys) (options : Json)
    (site : Site) :
    ∃ found, function.check target options site = .ok found ∧
      (∀ steps node, .negation ∉ steps → at? target steps = some node → IsTaken site.path steps →
        found.filter (·.path = site.path.join (steps.flatMap Step.segments)) =
          if lift .strict isDescribed node then [] else [report site.path steps]) ∧
      ∀ d ∈ found, ∃ steps node, .negation ∉ steps ∧ at? target steps = some node ∧
        IsTaken site.path steps ∧ ¬lift .strict isDescribed node ∧ d = report site.path steps := by
  refine ⟨diagnostics target site.path, rfl, fun steps node positive hat htaken => ?_,
    fun d hd => ?_⟩
  · have hvisit := mem_nestedVisits_of_isTaken distinct positive hat htaken
    rw [← ofVisit_of_isTaken positive htaken]
    exact filter_path_visits (nodup_nestedVisits distinct true false) hvisit
      fun _ _ hd => areAt_propertyDescription.path_of_mem_here hd
  · obtain ⟨⟨steps, node⟩, hvisit, hd⟩ := List.mem_flatMap.1 hd
    obtain ⟨hat, hpositive, -, -⟩ := (mem_nestedVisits_iff_at? distinct).1 hvisit
    have positive : .negation ∉ steps := fun h => Bool.noConfusion (hpositive h)
    exact ⟨steps, node, positive, hat, (mem_ofVisit_iff positive).1 hd⟩

/-- The items of a property with the name `properties` are reported as if they were a property. -/
theorem reported_items_of_property_named_properties :
    let items : Json := .obj [("type", .str "string")]
    let target : Json := .obj [("properties", .obj [("properties", .obj
      [("description", .str "A list of names."), ("items", items)])])]
    function.check target .null (.of "described" target .root) =
        .ok [⟨"Schema property 'properties.[]' should have a non-empty description",
          ⟨[.key "properties", .key "properties", .key "items"]⟩⟩] ∧
      at? target [.property "properties", .items] = some items := by
  intro items target
  exact ⟨by decide +kernel, rfl⟩

/-- A property is reported also when its name is a keyword. -/
theorem reported_property_named_items :
    let target : Json := .obj [("properties", .obj [("items", .obj [("items", .obj [])])])]
    target.hasDistinctKeys ∧
      ∃ found, function.check target .null (.of "described" target .root) = .ok found ∧
        found.filter (·.path = ⟨[.key "properties", .key "items"]⟩) =
          [⟨"Schema property 'items' should have a non-empty description",
            ⟨[.key "properties", .key "items"]⟩⟩] := by
  intro target
  have distinct : target.hasDistinctKeys := by decide
  obtain ⟨found, hfound, reported, -⟩ :=
    reports_undescribed_properties distinct .null (.of "described" target .root)
  have undescribed : ¬lift .strict isDescribed (.obj [("items", .obj [])]) := by decide +kernel
  have atItems := reported [.property "items"] _ (by decide) rfl (.inl ⟨[], "items", rfl⟩)
  exact ⟨distinct, found, hfound, atItems.trans (if_neg undescribed)⟩

end ApiLint.Rule.PropertyDescription
