import ApiLint.Proofs.Schema.Place
import Mathlib.Data.List.DropRight

/-!
# Nested and composed visits together

Rules about whole schemas look at every schema of its own (the nested visits) together with all
that it is composed of (the composed visits).  The two traversals share the work: a list of steps
to a schema has one last part that stays in a composition, which the composed visits go, and the
rest before it leads to a schema of its own, where the nested visits go.  So together they visit
every schema once.
-/

namespace ApiLint.Schema

/-! ## The two traversals -/

variable {schema : Json} {visit : Visit Step}

theorem isOwnSchema_true_iff :
    isOwnSchema true visit ↔ visit.steps.rdropWhile Step.isComposition = visit.steps := by
  rw [List.rdropWhile_eq_self_iff]
  unfold isOwnSchema
  cases hsteps : visit.steps.getLast? with
  | none => simp [List.getLast?_eq_none_iff.1 hsteps]
  | some step =>
    obtain ⟨before, hbefore⟩ := List.getLast?_eq_some_iff.1 hsteps
    simp [hbefore]

theorem mem_nestedVisits_iff (distinct : schema.hasDistinctKeys) :
    visit ∈ nestedVisits true false schema ↔
      (.negation ∉ visit.steps ∧ at? schema visit.steps = some visit.node) ∧
        visit.steps.rdropWhile Step.isComposition = visit.steps := by
  rw [nestedVisits, List.mem_filter, (selects_nesting false).mem_visitsThrough_iff distinct,
    isOwnSchema_true_iff]
  refine and_congr_left' (and_congr_left' ?_)
  simp [List.forall_mem_ne']

theorem mem_composedVisits_iff (distinct : schema.hasDistinctKeys) :
    visit ∈ composedVisits true false schema ↔
      (.negation ∉ visit.steps ∧ at? schema visit.steps = some visit.node) ∧
        visit.steps.rtakeWhile Step.isComposition = visit.steps := by
  rw [List.rtakeWhile_eq_self_iff]
  refine ((selects_composition false).mem_visitsThrough_iff distinct).trans ?_
  rw [forall₂_and, and_comm (a := ∀ step ∈ visit.steps, step.isComposition), and_right_comm]
  refine and_congr_left' (and_congr_left' ?_)
  simp [List.forall_mem_ne']

theorem pairwise_nestedVisits (distinct : schema.hasDistinctKeys) (withSelf withNegation : Bool) :
    (nestedVisits withSelf withNegation schema).Pairwise fun earlier later =>
      ¬later.steps <+: earlier.steps :=
  (pairwise_visitsThrough (selects_nesting withNegation).isPlacedBy
    (fun _ => nodup_nesting withNegation) distinct).filter _

theorem nodup_nestedVisits (distinct : schema.hasDistinctKeys) (withSelf withNegation : Bool) :
    ((nestedVisits withSelf withNegation schema).map Visit.steps).Nodup :=
  Descent.nodup_steps (pairwise_nestedVisits distinct withSelf withNegation)

theorem nodup_composedVisits (distinct : schema.hasDistinctKeys) (withSelf withNegation : Bool) :
    ((composedVisits withSelf withNegation schema).map Visit.steps).Nodup := by
  have through := nodup_visitsThrough (selects_composition withNegation).isPlacedBy
    (fun schema _ => nodup_composition withNegation schema) distinct
  unfold composedVisits
  split
  · exact through
  · exact through.sublist ((List.tail_sublist _).map Visit.steps)

theorem pairwise_singleKindVisits (distinct : schema.hasDistinctKeys) :
    (singleKindVisits schema).Pairwise fun earlier later => ¬later.steps <+: earlier.steps :=
  pairwise_visitsThrough selectsAt_singleKind.isPlacedBy (fun _ => nodup_soleEdges) distinct

theorem nodup_singleKindVisits (distinct : schema.hasDistinctKeys) :
    ((singleKindVisits schema).map Visit.steps).Nodup :=
  Descent.nodup_steps (pairwise_singleKindVisits distinct)

/-! ## Branches -/

theorem at?_of_leads {node : Json} {steps : List Step} (hobj : schema.isObj)
    (h : ((composition false).only Json.isObj).Leads schema steps node) :
    (∀ step ∈ steps, step.isBranch) ∧ at? schema steps = some node := by
  induction h with
  | here schema => exact ⟨by simp, by rw [at?, if_pos hobj]⟩
  | @step schema inner last step rest edge _ ih =>
    obtain ⟨edge, hinnerObj⟩ := List.mem_filter.1 edge
    obtain ⟨⟨hcomposition, hnegation⟩, hinner⟩ := mem_composition_iff.1 edge
    obtain ⟨hbranches, hat⟩ := ih hinnerObj
    have hbranch : step.isBranch := by
      cases step <;> simp_all [Step.isComposition, Step.isBranch]
    refine ⟨List.forall_mem_cons.2 ⟨hbranch, hbranches⟩, ?_⟩
    rw [at?, if_pos hobj, hinner, Option.bind_some, hat]

theorem at?_of_mem_composedVisits (h : visit ∈ composedVisits true false schema) :
    (∀ step ∈ visit.steps, step.isBranch) ∧ at? schema visit.steps = some visit.node := by
  change visit ∈ visitsThrough (composition false) schema at h
  unfold visitsThrough at h
  split at h
  · next hobj => exact at?_of_leads hobj (Descent.mem_visits_iff.1 h)
  · cases h

/-- The steps of a composed visit stay in the composition. -/
theorem rtakeWhile_of_mem_composedVisits (h : visit ∈ composedVisits true false schema) :
    visit.steps.rtakeWhile Step.isComposition = visit.steps := by
  refine List.rtakeWhile_eq_self_iff.2 fun step hstep => ?_
  have hbranch := (at?_of_mem_composedVisits h).1 step hstep
  cases step <;> simp_all [Step.isBranch, Step.isComposition]

/-! ## Both together -/

/-- Each schema of its own, together with all that it is composed of. -/
def wholeVisits (schema : Json) : List (Visit Step) :=
  (nestedVisits true false schema).flatMap fun outer =>
    (composedVisits true false outer.node).map fun inner =>
      ⟨outer.steps ++ inner.steps, inner.node⟩

theorem flatMap_wholeVisits {α : Type} (check : Json → Path → List α) (start : Path) :
    ((nestedVisits true false schema).flatMap fun outer =>
      (composedVisits true false outer.node).flatMap fun inner =>
        check inner.node (inner.path (outer.path start))) =
      (wholeVisits schema).flatMap fun visit => check visit.node (visit.path start) := by
  simp only [wholeVisits, List.flatMap_assoc, List.flatMap_map]
  refine List.flatMap_congr fun outer _ => List.flatMap_congr fun inner _ => ?_
  exact congrArg (check inner.node) (Visit.path_append outer.steps inner.steps inner.node start)

/-- The nested part of the steps to a schema is what is left without the last steps that stay in a
composition. -/
theorem mem_wholeVisits_iff (distinct : schema.hasDistinctKeys) :
    visit ∈ wholeVisits schema ↔
      .negation ∉ visit.steps ∧ at? schema visit.steps = some visit.node := by
  simp only [wholeVisits, List.mem_flatMap, List.mem_map, mem_nestedVisits_iff distinct]
  constructor
  · rintro ⟨outer, ⟨⟨outerNot, outerAt⟩, -⟩, inner, hinner, rfl⟩
    have insideDistinct := Json.hasDistinctKeys_of_follow? distinct (follow?_of_at? outerAt)
    obtain ⟨⟨innerNot, innerAt⟩, -⟩ := (mem_composedVisits_iff insideDistinct).1 hinner
    exact ⟨by simp [outerNot, innerNot], at?_append_iff.2 ⟨outer.node, outerAt, innerAt⟩⟩
  · rintro ⟨hnot, hat⟩
    have split := List.rdropWhile_append_rtakeWhile (p := Step.isComposition) (l := visit.steps)
    rw [← split] at hnot hat
    rw [List.mem_append, not_or] at hnot
    obtain ⟨middle, outerAt, innerAt⟩ := at?_append_iff.1 hat
    have insideDistinct := Json.hasDistinctKeys_of_follow? distinct (follow?_of_at? outerAt)
    have hinner : Visit.mk (visit.steps.rtakeWhile Step.isComposition) visit.node ∈
        composedVisits true false middle := (mem_composedVisits_iff insideDistinct).2
      ⟨⟨hnot.2, innerAt⟩, List.rtakeWhile_idempotent _ _⟩
    exact ⟨⟨_, middle⟩, ⟨⟨hnot.1, outerAt⟩, List.rdropWhile_idempotent _ _⟩, _, hinner,
      congrArg (Visit.mk · visit.node) split⟩

theorem rdropWhile_append {outer inner : List Step}
    (houter : outer.rdropWhile Step.isComposition = outer)
    (hinner : inner.rtakeWhile Step.isComposition = inner) :
    (outer ++ inner).rdropWhile Step.isComposition = outer := by
  rw [List.rdropWhile, List.reverse_append, List.dropWhile_append_of_pos]
  · exact houter
  · intro step hstep
    exact List.rtakeWhile_eq_self_iff.1 hinner step (List.mem_reverse.1 hstep)

theorem nodup_wholeVisits (distinct : schema.hasDistinctKeys) :
    ((wholeVisits schema).map Visit.steps).Nodup := by
  have inside {outer : Visit Step} (houter : outer ∈ nestedVisits true false schema) :
      outer.node.hasDistinctKeys := by
    have outerAt := ((mem_nestedVisits_iff distinct).1 houter).1.2
    exact Json.hasDistinctKeys_of_follow? distinct (follow?_of_at? outerAt)
  rw [wholeVisits, List.map_flatMap, List.nodup_flatMap]
  constructor
  · intro outer houter
    have further := (nodup_composedVisits (inside houter) true false).map
      (List.append_right_injective outer.steps)
    rwa [List.map_map] at further ⊢
  · have different := List.pairwise_map.1 (nodup_nestedVisits distinct true false)
    refine different.imp_of_mem fun {a b} ha hb hne => List.disjoint_left.2 fun steps hsa hsb => ?_
    -- the nested part of common steps would be the steps of both
    have nestedPart {outer : Visit Step} (houter : outer ∈ nestedVisits true false schema)
        (hsteps : steps ∈ ((composedVisits true false outer.node).map fun inner : Visit Step =>
          Visit.mk (outer.steps ++ inner.steps) inner.node).map Visit.steps) :
        steps.rdropWhile Step.isComposition = outer.steps := by
      obtain ⟨_, hmem, rfl⟩ := List.mem_map.1 hsteps
      obtain ⟨inner, hinner, rfl⟩ := List.mem_map.1 hmem
      exact rdropWhile_append ((mem_nestedVisits_iff distinct).1 houter).2
        ((mem_composedVisits_iff (inside houter)).1 hinner).2
    exact hne ((nestedPart ha hsa).symm.trans (nestedPart hb hsb))

/-- A check that is run on the composed visits of each nested visit sees every schema inside
`schema` once: all objects that steps other than negations lead to through objects, each with its
place, and nothing else. -/
theorem nested_composed_visits_cover (distinct : schema.hasDistinctKeys) (start : Path) :
    (∀ {α : Type} (check : Json → Path → List α),
      ((nestedVisits true false schema).flatMap fun outer =>
        (composedVisits true false outer.node).flatMap fun inner =>
          check inner.node (inner.path (outer.path start))) =
        (wholeVisits schema).flatMap fun visit => check visit.node (visit.path start)) ∧
      ((wholeVisits schema).map (Visit.path · start)).Nodup ∧
      (∀ visit : Visit Step, visit ∈ wholeVisits schema ↔
        .negation ∉ visit.steps ∧ at? schema visit.steps = some visit.node) ∧
      ∀ visit ∈ wholeVisits schema,
        schema.follow? (visit.steps.flatMap Step.segments) = some visit.node := by
  refine ⟨fun check => flatMap_wholeVisits check start, ?_, fun _ => mem_wholeVisits_iff distinct,
    fun visit hvisit => follow?_of_at? ((mem_wholeVisits_iff distinct).1 hvisit).2⟩
  have places : (wholeVisits schema).map (Visit.path · start) =
      ((wholeVisits schema).map Visit.steps).map fun steps =>
        start.join (steps.flatMap Step.segments) := by
    rw [List.map_map]
    rfl
  rw [places]
  refine (nodup_wholeVisits distinct).map fun first second h => ?_
  exact flatMap_segments_injective (List.append_cancel_left (congrArg Path.segments h))

/-- Items of a branch of a property are visited. -/
theorem mem_wholeVisits_items_of_branch :
    let schema : Json := .obj [("properties", .obj [("a", .obj [("allOf", .arr
      [.obj [("items", .obj [])]])])])]
    schema.hasDistinctKeys ∧
      ⟨[.property "a", .branch .allOf 0, .items], .obj []⟩ ∈ wholeVisits schema := by
  intro schema
  have distinct : schema.hasDistinctKeys := by decide
  obtain ⟨-, -, covers, -⟩ := nested_composed_visits_cover distinct .root
  exact ⟨distinct, (covers _).2 ⟨by decide, by rfl⟩⟩

end ApiLint.Schema
