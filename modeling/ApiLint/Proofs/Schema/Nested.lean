import ApiLint.Proofs.Schema.Coverage

/-!
# Nested visits as a traversal

The nested visits of a schema are the stops of a traversal that runs a check on each schema of its
own as it comes to it, and that hands two places on: where the schema stands in the document, and
where its values stand in those of the first schema.  The stops and their order do not depend on the
check, and to leave negations out is to leave out the stops behind them.
-/

namespace ApiLint.Schema

/-! ## The traversal -/

variable {α : Type} {check : Json → Path → Path → List α} {withNegation withSelf : Bool}
  {path logical : Path} {schema : Json}

theorem checkNested_of_isObj (hobj : schema.isObj) :
    checkNested check withNegation withSelf path logical schema =
      (if withSelf then check schema path logical else []) ++
        ((nesting withNegation).next schema).flatMap fun edge =>
          checkNested check withNegation (!edge.1.isComposition) (path.join edge.1.segments)
            (logical.join edge.1.logical) edge.2 := by
  rw [checkNested, if_pos hobj]
  simp only [List.flatMap_subtype, List.unattach_attach]

theorem checkNested_of_not_isObj (hobj : ¬schema.isObj) :
    checkNested check withNegation withSelf path logical schema = [] := by
  rw [checkNested, if_neg hobj]

/-! ## Its stops -/

theorem isOwnSchema_after (withSelf : Bool) (step : Step) (visit : Visit Step) :
    isOwnSchema withSelf (visit.after step) = isOwnSchema (!step.isComposition) visit := by
  obtain ⟨_ | ⟨first, rest⟩, node⟩ := visit
  · rfl
  · simp only [isOwnSchema, Visit.after, List.getLast?_cons_cons]
    cases hlast : (first :: rest).getLast? with
    | none => simp at hlast
    | some last => rfl

theorem nestedVisits_of_isObj (withSelf withNegation : Bool) (hobj : schema.isObj) :
    nestedVisits withSelf withNegation schema =
      (if withSelf then [⟨[], schema⟩] else []) ++
        ((nesting withNegation).next schema).flatMap fun edge =>
          (nestedVisits (!edge.1.isComposition) withNegation edge.2).map (Visit.after edge.1) := by
  have further (edge : Step × Json) :
      ((visitsThrough (nesting withNegation) edge.2).map (Visit.after edge.1)).filter
          (isOwnSchema withSelf) =
        (nestedVisits (!edge.1.isComposition) withNegation edge.2).map (Visit.after edge.1) := by
    rw [List.filter_map, nestedVisits]
    refine congrArg _ (List.filter_congr fun visit _ => ?_)
    exact isOwnSchema_after withSelf edge.1 visit
  rw [nestedVisits, visitsThrough_of_isObj hobj, List.filter_cons, List.filter_flatMap,
    funext further]
  cases withSelf <;> rfl

theorem nestedVisits_of_not_isObj (hobj : ¬schema.isObj) :
    nestedVisits withSelf withNegation schema = [] := by
  rw [nestedVisits, visitsThrough_of_not_isObj hobj, List.filter_nil]

/-- The traversal runs its check at the nested visits, and both places are those of the visit. -/
theorem checkNested_eq (check : Json → Path → Path → List α) (withNegation withSelf : Bool)
    (path logical : Path) (schema : Json) :
    checkNested check withNegation withSelf path logical schema =
      (nestedVisits withSelf withNegation schema).flatMap fun visit =>
        check visit.node (visit.path path) (logical.join visit.logical.segments) := by
  induction schema using (nesting withNegation).induction generalizing withSelf path logical with
  | step schema ih =>
    by_cases hobj : schema.isObj
    · rw [checkNested_of_isObj hobj, nestedVisits_of_isObj _ _ hobj, List.flatMap_append,
        List.flatMap_assoc]
      congr 1
      · cases withSelf <;> simp [Visit.path, Visit.logical]
      · refine List.flatMap_congr fun edge hedge => ?_
        rw [ih edge hedge, List.flatMap_map]
        simp [Visit.path, Visit.logical, Visit.after, Path.join_join]
    · rw [checkNested_of_not_isObj hobj, nestedVisits_of_not_isObj hobj, List.flatMap_nil]

/-! ## Negations -/

theorem next_nesting_false (schema : Json) :
    (nesting false).next schema =
      ((nesting true).next schema).filter fun edge => edge.1 ≠ .negation := by
  simp [nesting, propertyEdges, itemsEdges, additionalEdges, patternEdges, negationEdges,
    branchEdges, List.filter_map, Function.comp_def]

/-- Without negations the nested visits are the same, but for those behind a negation. -/
theorem nestedVisits_false_eq_filter (withSelf : Bool) (schema : Json) :
    nestedVisits withSelf false schema =
      (nestedVisits withSelf true schema).filter fun visit => .negation ∉ visit.steps := by
  have next (node : Json) : ((nesting false).only Json.isObj).next node =
      (((nesting true).only Json.isObj).next node).filter fun edge => edge.1 ≠ .negation := by
    rw [Descent.next_only, Descent.next_only, next_nesting_false, List.filter_comm]
  have behind (steps : List Step) :
      (steps.all fun step => step ≠ .negation) = decide (.negation ∉ steps) := by
    rw [Bool.eq_iff_iff]
    simp [List.forall_mem_ne']
  by_cases hobj : schema.isObj
  · rw [nestedVisits, nestedVisits, visitsThrough, visitsThrough, if_pos hobj, if_pos hobj,
      Descent.visits_eq_filter (fun step => step ≠ .negation) next, List.filter_comm]
    simp only [behind]
  · rw [nestedVisits_of_not_isObj hobj, nestedVisits_of_not_isObj hobj, List.filter_nil]

/-! ## Order and places -/

theorem isOwnSchema_iff {visit : Visit Step} :
    isOwnSchema withSelf visit ↔
      (visit.steps = [] → withSelf) ∧
        ∀ step ∈ visit.steps.getLast?, step.isComposition = false := by
  unfold isOwnSchema
  cases hlast : visit.steps.getLast? with
  | none => simp [List.getLast?_eq_none_iff.1 hlast]
  | some step =>
    have hne : visit.steps ≠ [] := fun h => by simp [h] at hlast
    simp [hne]

theorem mem_nestedVisits_iff_at? {visit : Visit Step} (distinct : schema.hasDistinctKeys) :
    visit ∈ nestedVisits withSelf withNegation schema ↔
      at? schema visit.steps = some visit.node ∧ (.negation ∈ visit.steps → withNegation) ∧
        (visit.steps = [] → withSelf) ∧
          ∀ step ∈ visit.steps.getLast?, step.isComposition = false := by
  rw [nestedVisits, List.mem_filter, (selects_nesting withNegation).mem_visitsThrough_iff distinct,
    isOwnSchema_iff, and_comm (b := at? schema visit.steps = some visit.node), and_assoc]
  refine and_congr_right' (and_congr_left' ?_)
  exact ⟨fun h hmem => h _ hmem rfl, fun h step hmem heq => h (heq ▸ hmem)⟩

/-- A traversal that runs a check on each nested schema as it comes to it finds what the check finds
at the nested visits, one after the other.  These do not depend on the check; each is to a schema
of its own at the end of its steps, places are the places of these steps, no place comes twice and
an outer schema comes before the schemas inside it.  Leaving negations out removes the visits that
go through one, and no other. -/
theorem nested_visits_places_correspond (withSelf withNegation : Bool) {schema : Json}
    (distinct : schema.hasDistinctKeys) (start : Path) :
    (∀ {α : Type} (check : Json → Path → Path → List α),
      checkNested check withNegation withSelf start .root schema =
        (nestedVisits withSelf withNegation schema).flatMap fun visit =>
          check visit.node ⟨start.segments ++ visit.steps.flatMap Step.segments⟩
            ⟨visit.steps.flatMap Step.logical⟩) ∧
      ((nestedVisits withSelf withNegation schema).map (Visit.path · start)).Nodup ∧
      ((nestedVisits withSelf withNegation schema).Pairwise fun earlier later =>
        ¬later.steps <+: earlier.steps) ∧
      (∀ visit : Visit Step, visit ∈ nestedVisits withSelf withNegation schema ↔
        at? schema visit.steps = some visit.node ∧ (.negation ∈ visit.steps → withNegation) ∧
          (visit.steps = [] → withSelf) ∧
            ∀ step ∈ visit.steps.getLast?, step.isComposition = false) ∧
      nestedVisits withSelf false schema =
        (nestedVisits withSelf true schema).filter fun visit => .negation ∉ visit.steps := by
  have order := pairwise_nestedVisits distinct withSelf withNegation
  refine ⟨fun check => checkNested_eq check withNegation withSelf start .root schema,
    Visit.nodup_paths (Descent.nodup_steps order) start, order,
    fun _ => mem_nestedVisits_iff_at? distinct, nestedVisits_false_eq_filter withSelf schema⟩

/-- The items of an alternative of a property that is named like a keyword. -/
theorem mem_checkNested_items_of_alternative :
    let schema : Json := .obj [("not", .obj []), ("properties", .obj [("not", .obj [("oneOf", .arr
      [.obj [("items", .obj [])]])])])]
    let places (_ : Json) (path logical : Path) : List (Path × Path) := [(path, logical)]
    schema.hasDistinctKeys ∧
      (⟨[.key "properties", .key "not", .key "oneOf", .index 0, .key "items"]⟩,
        .ofKeys ["not", "[]"]) ∈ checkNested places false true .root .root schema := by
  intro schema places
  have distinct : schema.hasDistinctKeys := by decide
  obtain ⟨traversal, -, -, visited, -⟩ := nested_visits_places_correspond true false distinct .root
  have stop : ⟨[.property "not", .branch .oneOf 0, .items], .obj []⟩ ∈
      nestedVisits true false schema := (visited _).2 ⟨by rfl, by decide, by decide, by decide⟩
  refine ⟨distinct, ?_⟩
  rw [traversal]
  exact List.mem_flatMap.2 ⟨_, stop, by decide⟩

end ApiLint.Schema
