import ApiLint.Proofs.Schema.Coverage

/-!
# Single-kind visits as a traversal

The single-kind visits of a schema are the stops of a traversal that runs a check on a schema and
then on what stands under its first usable keyword.  They are the schemas that can be reached when
every schema on the way is left through that keyword, and so some of the schemas that the nested
and composed visits come to.
-/

namespace ApiLint.Schema

/-! ## The traversal -/

variable {α : Type} {check : Json → Path → List α} {path : Path} {schema : Json}

theorem checkSingleKind_of_isObj (hobj : schema.isObj) :
    checkSingleKind check path schema =
      check schema path ++ (soleEdges schema).flatMap fun edge =>
        checkSingleKind check (path.join edge.1.segments) edge.2 := by
  rw [checkSingleKind, if_pos hobj]
  simp only [List.flatMap_subtype, List.unattach_attach]

theorem checkSingleKind_of_not_isObj (hobj : ¬schema.isObj) :
    checkSingleKind check path schema = [] := by
  rw [checkSingleKind, if_neg hobj]

/-- The traversal runs its check at the single-kind visits. -/
theorem checkSingleKind_eq (check : Json → Path → List α) (path : Path) (schema : Json) :
    checkSingleKind check path schema =
      (singleKindVisits schema).flatMap fun visit => check visit.node (visit.path path) := by
  induction schema using singleKind.induction generalizing path with
  | step schema ih =>
    unfold singleKindVisits at ih ⊢
    by_cases hobj : schema.isObj
    · rw [checkSingleKind_of_isObj hobj, visitsThrough_of_isObj hobj, List.flatMap_cons,
        List.flatMap_assoc]
      congr 1
      · simp [Visit.path]
      · refine List.flatMap_congr fun edge hedge => ?_
        rw [ih edge hedge, List.flatMap_map]
        simp [Visit.path, Visit.after, Path.join_join]
    · rw [checkSingleKind_of_not_isObj hobj, visitsThrough_of_not_isObj hobj, List.flatMap_nil]

/-! ## Its stops -/

theorem mem_singleKindVisits_iff {visit : Visit Step} (distinct : schema.hasDistinctKeys) :
    visit ∈ singleKindVisits schema ↔
      IsAllowedWay Step.IsSole schema visit.steps ∧
        at? schema visit.steps = some visit.node :=
  selectsAt_singleKind.mem_visitsThrough_iff distinct

theorem Step.IsSole.ne_negation {step : Step} (h : step.IsSole schema) : step ≠ .negation := by
  rintro rfl
  obtain ⟨_, hkeyword, -⟩ := h
  cases hkeyword

/-- No stop is missed by the nested and composed visits together. -/
theorem mem_wholeVisits_of_mem_singleKindVisits {visit : Visit Step}
    (distinct : schema.hasDistinctKeys) (h : visit ∈ singleKindVisits schema) :
    visit ∈ wholeVisits schema := by
  obtain ⟨way, hat⟩ := (mem_singleKindVisits_iff distinct).1 h
  refine (mem_wholeVisits_iff distinct).2 ⟨fun hnegation => ?_, hat⟩
  obtain ⟨before, after, hsteps⟩ := List.append_of_mem hnegation
  obtain ⟨node, hnode, -⟩ := at?_append_iff.1 (hsteps ▸ hat)
  exact (way before .negation after node hsteps hnode).ne_negation rfl

/-- A traversal that runs a check on a schema and then on what stands under its first usable keyword
finds what the check finds at the single-kind visits, one after the other.  A schema is visited
exactly when it is an object, like all schemas on the way to it, and each of these is left through
its first usable keyword: properties, items, then `allOf`, `anyOf` and `oneOf`.  No place comes
twice, an outer schema comes before the schemas inside it, and the nested and composed visits
together come to all of them. -/
theorem single_kind_visits_take_first_keyword {schema : Json} (distinct : schema.hasDistinctKeys)
    (start : Path) :
    (∀ {α : Type} (check : Json → Path → List α),
      checkSingleKind check start schema =
        (singleKindVisits schema).flatMap fun visit =>
          check visit.node ⟨start.segments ++ visit.steps.flatMap Step.segments⟩) ∧
      ((singleKindVisits schema).map (Visit.path · start)).Nodup ∧
      ((singleKindVisits schema).Pairwise fun earlier later =>
        ¬later.steps <+: earlier.steps) ∧
      (∀ visit : Visit Step, visit ∈ singleKindVisits schema ↔
        IsAllowedWay Step.IsSole schema visit.steps ∧
          at? schema visit.steps = some visit.node) ∧
      ∀ visit ∈ singleKindVisits schema, visit ∈ wholeVisits schema :=
  ⟨fun check => checkSingleKind_eq check start schema,
    Visit.nodup_paths (nodup_singleKindVisits distinct) start, pairwise_singleKindVisits distinct,
    fun _ => mem_singleKindVisits_iff distinct,
    fun _ => mem_wholeVisits_of_mem_singleKindVisits distinct⟩

/-- Properties that are no object leave the way to the first alternatives, those of `anyOf`.  Items
beside properties are not visited. -/
theorem mem_singleKindVisits_anyOf :
    let inner : Json := .obj [("oneOf", .arr [.obj []]), ("properties", .bool true),
      ("anyOf", .arr [.null, .obj []])]
    let schema : Json := .obj [("items", .obj []),
      ("properties", .obj [("a", .obj [("allOf", .arr [.obj []]), ("items", inner)])])]
    schema.hasDistinctKeys ∧
      ⟨[.property "a", .items, .branch .anyOf 1], .obj []⟩ ∈ singleKindVisits schema ∧
      ⟨[.property "a", .items, .branch .anyOf 1], .obj []⟩ ∈ wholeVisits schema ∧
      ⟨[.items], .obj []⟩ ∉ singleKindVisits schema := by
  intro inner schema
  have distinct : schema.hasDistinctKeys := by decide
  obtain ⟨-, -, -, visited, covered⟩ := single_kind_visits_take_first_keyword distinct .root
  have sole (node : Json) (step : Step) (keyword : SoleKeyword)
      (hkeyword : step.soleKeyword? = some keyword)
      (hfirst : SoleKeyword.all.find? (SoleKeyword.isUsable node) = some keyword) :
      step.IsSole node := ⟨keyword, hkeyword, SoleKeyword.isFirst_iff_find?.2 hfirst⟩
  have way : IsAllowedWay Step.IsSole schema [.property "a", .items, .branch .anyOf 1] := by
    rw [isAllowedWay_cons_iff rfl rfl, isAllowedWay_cons_iff rfl rfl, isAllowedWay_cons_iff rfl rfl]
    exact ⟨sole _ _ .properties rfl rfl, sole _ _ .items rfl rfl,
      sole _ _ (.branches .anyOf) rfl rfl, isAllowedWay_nil _ _⟩
  have stop := (visited ⟨[.property "a", .items, .branch .anyOf 1], .obj []⟩).2 ⟨way, rfl⟩
  refine ⟨distinct, stop, covered _ stop, fun h => ?_⟩
  obtain ⟨keyword, hkeyword, hfirst⟩ := ((visited _).1 h).1 [] .items [] schema rfl rfl
  cases hkeyword
  exact absurd (SoleKeyword.isFirst_iff_find?.1 hfirst) (by decide)

end ApiLint.Schema
