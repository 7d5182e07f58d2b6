import ApiLint.Proofs.FirstSeen
import ApiLint.Proofs.Json.Equality
import ApiLint.Proofs.Schema.Coverage
import ApiLint.Proofs.Schema.Lifting
import ApiLint.Schema.Parts

/-!
# Four ways through a composition

The composed visits, the parts, the gathered items and a loose test all go through the schemas that
a schema is composed of.  The parts are the visits that pass a test, one for each value; the items
are those of the visits, though a negation is seen before the branches; and a loose test passes when
there is a part that does.
-/

namespace ApiLint.Schema

variable {schema : Json}

/-! ## Gathered items -/

/-- A composition in which the negation comes before the branches. -/
def negationFirst (withNegation : Bool) : Descent Step where
  next schema := (if withNegation then negationEdges schema else []) ++ branchEdges schema
  smaller h := (composition withNegation).smaller (List.perm_append_comm.subset h)

/-- The visits of a composition in the order in which items are gathered. -/
def gatheredVisits (withSelf withNegation : Bool) (schema : Json) : List (Visit Step) :=
  let visits := visitsThrough (negationFirst withNegation) schema
  if withSelf then visits else visits.tail

theorem gatheredVisits_perm (withSelf withNegation : Bool) (schema : Json) :
    (gatheredVisits withSelf withNegation schema).Perm
      (composedVisits withSelf withNegation schema) := by
  have edges (node : Json) : (((negationFirst withNegation).only Json.isObj).next node).Perm
      (((composition withNegation).only Json.isObj).next node) :=
    List.perm_append_comm.filter _
  have visits : (visitsThrough (negationFirst withNegation) schema).Perm
      (visitsThrough (composition withNegation) schema) := by
    unfold visitsThrough
    split
    · exact Descent.visits_perm edges schema
    · exact .nil
  unfold gatheredVisits composedVisits
  cases withSelf with
  | true => exact visits
  | false =>
    by_cases hobj : schema.isObj
    · rw [visitsThrough_of_isObj hobj, visitsThrough_of_isObj hobj] at visits ⊢
      exact visits.cons_inv
    · rw [visitsThrough_of_not_isObj hobj, visitsThrough_of_not_isObj hobj]

theorem gatheredVisits_of_isObj (withSelf withNegation : Bool) (hobj : schema.isObj) :
    gatheredVisits withSelf withNegation schema =
      (if withSelf then [⟨[], schema⟩] else []) ++
        ((negationFirst withNegation).next schema).flatMap fun edge =>
          (gatheredVisits true withNegation edge.2).map (Visit.after edge.1) := by
  unfold gatheredVisits
  rw [visitsThrough_of_isObj hobj]
  cases withSelf <;> rfl

theorem gatheredVisits_of_not_isObj (withSelf withNegation : Bool) (hobj : ¬schema.isObj) :
    gatheredVisits withSelf withNegation schema = [] := by
  unfold gatheredVisits
  rw [visitsThrough_of_not_isObj hobj]
  cases withSelf <;> rfl

theorem map_snd_placedBranches (schema : Json) :
    (placedBranches schema).map Prod.snd = branches schema := by
  simp only [placedBranches, branches, List.map_flatMap, List.map_map]
  refine List.flatMap_congr fun a _ => ?_
  exact List.zipIdx_map_fst 0 (a.branches schema)

theorem constituents_eq (withNegation : Bool) (schema : Json) :
    constituents withNegation schema = ((negationFirst withNegation).next schema).map Prod.snd := by
  rw [constituents, negationFirst, List.map_append, branchEdges, List.map_map]
  refine congrArg₂ _ ?_ (map_snd_placedBranches schema).symm
  cases withNegation with
  | false => rfl
  | true => simp [negationEdges, Function.comp_def]

section Gather

variable {α : Type} [BEq α]

theorem addNew_append (items first second : List α) :
    addNew items (first ++ second) = addNew (addNew items first) second :=
  List.foldl_append

theorem addNew_nil_eq_eraseDups (items : List α) : addNew [] items = items.eraseDups := by
  rw [List.eraseDups, ← FirstSeen.foldl_eq_eraseDupsBy, addNew]
  simp only [List.contains_eq_any_beq]

theorem addNew_flatMap {ι : Type} (parts : List ι) (f : ι → List α) (items : List α) :
    addNew items (parts.flatMap f) = parts.foldl (fun items part => addNew items (f part)) items :=
  List.foldl_flatMap

/-- What is gathered are the items of the visits, added one by one. -/
theorem gatherInto_eq (collect : Json → List α) (withNegation withSelf : Bool) (items : List α)
    (schema : Json) :
    gatherInto collect withNegation withSelf items schema =
      addNew items ((gatheredVisits withSelf withNegation schema).flatMap (collect ·.node)) := by
  induction schema using (negationFirst withNegation).induction generalizing withSelf items with
  | step schema ih =>
    rw [gatherInto]
    split
    · next hobj =>
      have further (items : List α) (edge : Step × Json)
          (hedge : edge ∈ (negationFirst withNegation).next schema) :
          gatherInto collect withNegation true items edge.2 = addNew items
            (((gatheredVisits true withNegation edge.2).map (Visit.after edge.1)).flatMap
              (collect ·.node)) := by
        rw [ih edge hedge, List.flatMap_map]
        rfl
      simp only [List.foldl_subtype, List.unattach_attach]
      rw [constituents_eq, List.foldl_map, List.foldl_ext _ _ _ further, ← addNew_flatMap,
        gatheredVisits_of_isObj _ _ hobj, List.flatMap_append, List.flatMap_assoc, addNew_append]
      cases withSelf <;> simp [addNew]
    · next hobj =>
      rw [gatheredVisits_of_not_isObj _ _ hobj]
      rfl

theorem gather_eq (collect : Json → List α) (withSelf withNegation : Bool) (schema : Json) :
    gather collect withSelf withNegation schema =
      ((gatheredVisits withSelf withNegation schema).flatMap (collect ·.node)).eraseDups :=
  (gatherInto_eq collect withNegation withSelf [] schema).trans (addNew_nil_eq_eraseDups _)

end Gather

/-! ## Parts -/

/-- The keyword of a step to a branch. -/
def Step.applicator? : Step → Option Applicator
  | .branch a _ => some a
  | _ => none

/-- The part at a visit, given where the visits began. -/
def Part.ofVisit (path : Path) (via : List Applicator) (visit : Visit Step) : Part :=
  ⟨visit.node, visit.path path, via ++ visit.steps.filterMap Step.applicator?⟩

theorem Part.ofVisit_after (path : Path) (via : List Applicator) (a : Applicator) (i : Nat)
    (visit : Visit Step) :
    Part.ofVisit path via (visit.after (.branch a i)) =
      Part.ofVisit ((path.member a.keyword).element i) (via ++ [a]) visit := by
  simp [ofVisit, Visit.after, Visit.path, Step.applicator?, Step.segments, Path.member,
    Path.element, Path.child, Path.join_join]

/-- The parts at the visits that pass a test. -/
def partsAt (keep : Json → Bool) (path : Path) (via : List Applicator)
    (visits : List (Visit Step)) : List Part :=
  (visits.filter (keep ·.node)).map (Part.ofVisit path via)

theorem partsAt_map_after (keep : Json → Bool) (path : Path) (via : List Applicator)
    (a : Applicator) (i : Nat) (visits : List (Visit Step)) :
    partsAt keep path via (visits.map (Visit.after (.branch a i))) =
      partsAt keep ((path.member a.keyword).element i) (via ++ [a]) visits := by
  rw [partsAt, partsAt, List.filter_map, List.map_map]
  exact List.map_congr_left fun visit _ => Part.ofVisit_after path via a i visit

/-- A schema itself comes first among the parts at its visits. -/
theorem partsAt_visitsThrough (keep : Json → Bool) (path : Path) (via : List Applicator)
    (schema : Json) :
    partsAt keep path via (visitsThrough (composition false) schema) =
      (if schema.isObj && keep schema then [⟨schema, path, via⟩] else []) ++
        partsAt keep path via (visitsThrough (composition false) schema).tail := by
  by_cases hobj : schema.isObj
  · have first : Part.ofVisit path via ⟨[], schema⟩ = ⟨schema, path, via⟩ := by
      simp [Part.ofVisit, Visit.path]
    rw [visitsThrough_of_isObj hobj, List.tail_cons, partsAt, List.filter_cons, hobj,
      Bool.true_and]
    by_cases hkeep : keep schema
    · rw [if_pos hkeep, if_pos hkeep, List.map_cons, first]
      rfl
    · rw [if_neg hkeep, if_neg hkeep]
      rfl
  · simp [visitsThrough_of_not_isObj hobj, hobj, partsAt]

theorem next_composition_false (schema : Json) :
    (composition false).next schema = branchEdges schema :=
  List.append_nil _

/-- What is added are the parts at the visits below the schema, one by one. -/
theorem addParts_eq (keep : Json → Bool) (path : Path) (via : List Applicator) (parts : List Part)
    (schema : Json) :
    addParts keep path via parts schema =
      (partsAt keep path via (visitsThrough (composition false) schema).tail).foldl addPart
        parts := by
  induction schema using branch_induction generalizing path via parts with
  | step schema ih =>
    by_cases hobj : schema.isObj
    · have split (visits : Step × Json → List (Visit Step)) :
          partsAt keep path via ((branchEdges schema).flatMap visits) =
            (branchEdges schema).flatMap fun edge => partsAt keep path via (visits edge) := by
        simp only [partsAt, List.filter_flatMap, List.map_flatMap]
      rw [addParts, if_pos hobj, visitsThrough_of_isObj hobj, List.tail_cons,
        next_composition_false, split, branchEdges, List.flatMap_map, List.foldl_flatMap]
      simp only [List.foldl_subtype, List.unattach_attach]
      refine List.foldl_ext _ _ _ ?_
      rintro parts ⟨⟨a, i⟩, branch⟩ hbranch
      have hmem : branch ∈ a.branches schema := List.mem_of_getElem? (mem_placedBranches.1 hbranch)
      rw [partsAt_map_after, partsAt_visitsThrough, List.foldl_append, apply_ite (List.foldl _ _)]
      exact ih a branch hmem _ _ _
    · rw [addParts, if_neg hobj, visitsThrough_of_not_isObj hobj]
      rfl

/-- Parts are added as long as no part of the same value is there. -/
theorem foldl_addPart_eq (parts : List Part) :
    parts.foldl addPart [] = parts.eraseDupsBy fun later earlier => earlier.node.same later.node :=
  FirstSeen.foldl_eq_eraseDupsBy (fun later earlier : Part => earlier.node.same later.node) parts

/-- No schema is equal to one that it is composed of. -/
theorem not_same_of_mem_tail (distinct : schema.hasDistinctKeys) {visit : Visit Step}
    (h : visit ∈ (visitsThrough (composition false) schema).tail) :
    ¬schema.same visit.node ∧ ¬visit.node.same schema := by
  have steps : visit.steps.flatMap Step.segments ≠ [] := by
    by_cases hobj : schema.isObj
    · rw [visitsThrough_of_isObj hobj, List.tail_cons] at h
      obtain ⟨edge, -, h⟩ := List.mem_flatMap.1 h
      obtain ⟨further, -, rfl⟩ := List.mem_map.1 h
      simp [Visit.after, edge.1.segments_ne_nil]
    · simp [visitsThrough_of_not_isObj hobj] at h
  have selects := selects_composition false
  obtain ⟨-, hat⟩ := (selects.mem_visitsThrough_iff distinct).1 (List.mem_of_mem_tail h)
  have inside := follow?_of_at? hat
  have apart := Json.not_same_of_follow? steps inside
  have visitDistinct := Json.hasDistinctKeys_of_follow? distinct inside
  exact ⟨apart, fun hsame => apart (Json.same_symm visitDistinct distinct hsame)⟩

/-- The parts of a schema are its composed visits that pass the test, one for each value. -/
theorem parts_eq (distinct : schema.hasDistinctKeys) (keep : Json → Bool) (withSelf : Bool) :
    parts keep withSelf schema =
      (partsAt keep .root [] (composedVisits withSelf false schema)).eraseDupsBy
        fun later earlier => earlier.node.same later.node := by
  have found : addParts keep .root [] [] schema =
      (partsAt keep .root [] (visitsThrough (composition false) schema).tail).eraseDupsBy
        fun later earlier => earlier.node.same later.node := by
    rw [addParts_eq, foldl_addPart_eq]
  -- the schema itself is added last, but nothing that was found is equal to it
  have apart : ∀ part ∈ partsAt keep .root [] (visitsThrough (composition false) schema).tail,
      ¬schema.same part.node ∧ ¬part.node.same schema := by
    intro part hpart
    obtain ⟨visit, hvisit, rfl⟩ := List.mem_map.1 hpart
    exact not_same_of_mem_tail distinct (List.mem_filter.1 hvisit).1
  have unseen : (addParts keep .root [] [] schema).any (·.node.same schema) = false := by
    rw [found, List.any_eq_false]
    intro part hpart
    exact (apart part ((FirstSeen.eraseDupsBy_sublist _ _).subset hpart)).2
  have kept : (partsAt keep .root [] (visitsThrough (composition false) schema).tail).filter
      (fun part => decide (schema.same part.node = false)) =
        partsAt keep .root [] (visitsThrough (composition false) schema).tail :=
    List.filter_eq_self.2 fun part hpart => by simpa using (apart part hpart).1
  simp only [parts, unseen, Bool.not_false, Bool.and_true]
  rw [found]
  cases withSelf with
  | false => rfl
  | true =>
    rw [composedVisits, if_pos rfl, partsAt_visitsThrough, Bool.true_and]
    by_cases hself : schema.isObj && keep schema
    · rw [if_pos hself, if_pos hself, List.cons_append, List.nil_append, List.eraseDupsBy_cons,
        kept]
    · rw [if_neg hself, if_neg hself, List.nil_append]

/-- The steps to a part are branches, and its place and its keywords are those of the branches. -/
theorem exists_places_of_isBranch {steps : List Step} (h : ∀ step ∈ steps, step.isBranch) :
    ∃ places : List (Applicator × Nat),
      steps.flatMap Step.segments =
        places.flatMap (fun place => [.key place.1.keyword, .index place.2]) ∧
      steps.filterMap Step.applicator? = places.map Prod.fst := by
  induction steps with
  | nil => exact ⟨[], rfl, rfl⟩
  | cons step rest ih =>
    obtain ⟨hstep, hrest⟩ := List.forall_mem_cons.1 h
    obtain ⟨places, hsegments, hkeywords⟩ := ih hrest
    cases step with
    | branch a i =>
      refine ⟨(a, i) :: places, ?_, ?_⟩
      · rw [List.flatMap_cons, List.flatMap_cons, hsegments]
        rfl
      · exact congrArg (a :: ·) hkeywords
    | _ => cases hstep

/-- Each part is where its path leads, and its keywords are those of the path. -/
theorem resolve?_of_mem_parts (distinct : schema.hasDistinctKeys) {keep : Json → Bool}
    {withSelf : Bool} {part : Part} (h : part ∈ parts keep withSelf schema) :
    part.path.resolve? schema = some part.node ∧
      ∃ places : List (Applicator × Nat),
        part.path =
          ⟨places.flatMap fun place => [.key place.1.keyword, .index place.2]⟩ ∧
        part.via = places.map Prod.fst := by
  rw [parts_eq distinct] at h
  obtain ⟨visit, hvisit, rfl⟩ := List.mem_map.1 ((FirstSeen.eraseDupsBy_sublist _ _).subset h)
  have through : visit ∈ visitsThrough (composition false) schema := by
    have hmem := (List.mem_filter.1 hvisit).1
    unfold composedVisits at hmem
    split at hmem
    · exact hmem
    · exact List.mem_of_mem_tail hmem
  obtain ⟨allowed, hat⟩ := ((selects_composition false).mem_visitsThrough_iff distinct).1 through
  have branches (step : Step) (hstep : step ∈ visit.steps) : step.isBranch := by
    have := allowed step hstep
    cases step <;> simp_all [Step.isBranch, Step.isComposition]
  obtain ⟨places, hsegments, hkeywords⟩ := exists_places_of_isBranch branches
  refine ⟨follow?_of_at? hat, places, ?_, hkeywords⟩
  exact congrArg Path.mk hsegments

/-! ## Visits to all parts -/

theorem exists_composedVisit_of_isPartOf {node : Json} (h : IsPartOf node schema)
    (hobj : node.isObj) : ∃ visit ∈ composedVisits true false schema, visit.node = node := by
  suffices ∃ steps, ((composition false).only Json.isObj).Leads schema steps node by
    obtain ⟨steps, hleads⟩ := this
    refine ⟨⟨steps, node⟩, ?_, rfl⟩
    change _ ∈ visitsThrough (composition false) schema
    rw [visitsThrough, if_pos (h.isObj hobj)]
    exact Descent.mem_visits_iff.2 hleads
  induction h with
  | self schema => exact ⟨[], .here schema⟩
  | @branch a node branch schema hmem hpart ih =>
    obtain ⟨steps, hleads⟩ := ih hobj
    obtain ⟨i, hi⟩ := List.mem_iff_getElem?.1 hmem
    have hedge : (Step.branch a i, branch) ∈ (composition false).next schema :=
      List.mem_append_left _ (mem_branchEdges_iff.2 ⟨rfl, hi⟩)
    exact ⟨_, .step (List.mem_filter.2 ⟨hedge, hpart.isObj hobj⟩) hleads⟩

/-! ## Loose tests -/

theorem exists_edge_iff {p : Json → Prop} :
    (∃ edge ∈ (composition false).next schema, p edge.2) ↔
      ∃ a : Applicator, ∃ branch ∈ a.branches schema, p branch := by
  rw [next_composition_false]
  constructor
  · rintro ⟨⟨step, branch⟩, hedge, h⟩
    obtain ⟨hstep, hinner⟩ := mem_branchEdges_iff.1 hedge
    cases step with
    | branch a i => exact ⟨a, branch, List.mem_of_getElem? hinner, h⟩
    | _ => cases hstep
  · rintro ⟨a, branch, hmem, h⟩
    obtain ⟨i, hi⟩ := List.mem_iff_getElem?.1 hmem
    exact ⟨(.branch a i, branch), mem_branchEdges_iff.2 ⟨rfl, hi⟩, h⟩

theorem lift_loose_iff_exists_visit {test : Json → Bool} :
    lift .loose test schema ↔
      ∃ visit ∈ visitsThrough (composition false) schema, test visit.node := by
  induction schema using branch_induction with
  | step schema ih =>
    by_cases hobj : schema.isObj
    · have below : (∃ visit ∈ ((composition false).next schema).flatMap fun edge =>
            (visitsThrough (composition false) edge.2).map (Visit.after edge.1), test visit.node) ↔
          ∃ edge ∈ (composition false).next schema,
            ∃ visit ∈ visitsThrough (composition false) edge.2, test visit.node := by
        constructor
        · rintro ⟨_, hvisit, h⟩
          obtain ⟨edge, hedge, hvisit⟩ := List.mem_flatMap.1 hvisit
          obtain ⟨visit, hbelow, rfl⟩ := List.mem_map.1 hvisit
          exact ⟨edge, hedge, visit, hbelow, h⟩
        · rintro ⟨edge, hedge, visit, hvisit, h⟩
          exact ⟨_, List.mem_flatMap.2 ⟨edge, hedge, List.mem_map_of_mem hvisit⟩, h⟩
      rw [lift_loose_iff hobj, visitsThrough_of_isObj hobj, List.exists_mem_cons_iff, below,
        exists_edge_iff (p := fun branch => ∃ visit ∈ visitsThrough _ branch, test visit.node)]
      exact or_congr_right <| exists_congr fun a => exists_congr fun branch =>
        and_congr_right (ih a branch)
    · simp [visitsThrough_of_not_isObj hobj, lift_of_not_isObj (Bool.eq_false_iff.2 hobj)]

theorem lift_loose_iff_parts_ne_nil (distinct : schema.hasDistinctKeys) (test : Json → Bool) :
    lift .loose test schema ↔ parts test true schema ≠ [] := by
  rw [parts_eq distinct, ne_eq, FirstSeen.eraseDupsBy_eq_nil_iff, partsAt, List.map_eq_nil_iff,
    List.filter_eq_nil_iff, lift_loose_iff_exists_visit]
  simp [composedVisits]

/-! ## Agreement -/

/-- The parts of a schema are its composed visits that pass the test, one for each value, and each
is where its path leads.  The items are those of the same visits in another order, each once.  And a
loose test passes at a schema that has a part that does. -/
theorem composed_traversals_agree (distinct : schema.hasDistinctKeys) (withSelf : Bool) :
    (∀ keep : Json → Bool,
      parts keep withSelf schema =
        (((composedVisits withSelf false schema).filter (keep ·.node)).map fun visit =>
            ⟨visit.node, visit.path .root, visit.steps.filterMap Step.applicator?⟩).eraseDupsBy
          (fun later earlier : Part => earlier.node.same later.node) ∧
      ∀ part ∈ parts keep withSelf schema,
        part.path.resolve? schema = some part.node ∧
          ∃ places : List (Applicator × Nat),
            part.path =
              ⟨places.flatMap fun place => [.key place.1.keyword, .index place.2]⟩ ∧
            part.via = places.map Prod.fst) ∧
      (∀ withNegation : Bool,
        let visits := gatheredVisits withSelf withNegation schema
        visits.Perm (composedVisits withSelf withNegation schema) ∧
          (visits.map (Visit.path · .root)).Nodup ∧
          ∀ {α : Type} [BEq α] (collect : Json → List α),
            let yielded := visits.flatMap (collect ·.node)
            let items := gather collect withSelf withNegation schema
            items = yielded.eraseDups ∧
              (items.Pairwise fun earlier later => (later == earlier) = false) ∧
              ∀ [PartialEquivBEq α], ∀ item ∈ yielded, item == item →
                items.countP (· == item) = 1) ∧
      ∀ test : Json → Bool, lift .loose test schema ↔ parts test true schema ≠ [] := by
  refine ⟨fun keep => ⟨parts_eq distinct keep withSelf, fun _ => resolve?_of_mem_parts distinct⟩,
    fun withNegation => ?_, lift_loose_iff_parts_ne_nil distinct⟩
  have perm := gatheredVisits_perm withSelf withNegation schema
  have paths := Visit.nodup_paths (nodup_composedVisits distinct withSelf withNegation) .root
  refine ⟨perm, (perm.map _).nodup_iff.2 paths, fun collect => ?_⟩
  intro yielded items
  have hitems : items = yielded.eraseDups := gather_eq collect withSelf withNegation schema
  refine ⟨hitems, ?_, ?_⟩
  · rw [hitems]
    exact FirstSeen.pairwise_eraseDupsBy _ yielded
  · intro _ item hitem hself
    rw [hitems]
    exact FirstSeen.countP_eraseDups hitem hself

/-- A key that two equal branches and the negation have is gathered once. -/
theorem countP_gather_of_equal_branches :
    let branch : Json := .obj [("type", .str "string")]
    let schema : Json := .obj [("allOf", .arr [branch, branch]), ("not", branch)]
    let keys (node : Json) : List String := (node.members?.getD []).map Prod.fst
    schema.hasDistinctKeys ∧ (gather keys true true schema).countP (· == "type") = 1 ∧
      lift .loose (·.has "type") schema := by
  intro branch schema keys
  have distinct : schema.hasDistinctKeys := by decide
  have yielded : "type" ∈ (gatheredVisits true true schema).flatMap (keys ·.node) := by
    decide +kernel
  have kept : (parts (·.has "type") true schema).length = 1 := by decide +kernel
  obtain ⟨-, gathered, loose⟩ := composed_traversals_agree distinct true
  obtain ⟨-, -, items⟩ := gathered true
  exact ⟨distinct, (items keys).2.2 "type" yielded rfl,
    (loose _).2 (List.ne_nil_of_length_pos (kept ▸ Nat.one_pos))⟩

end ApiLint.Schema
