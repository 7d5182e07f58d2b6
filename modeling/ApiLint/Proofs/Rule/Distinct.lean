import ApiLint.Proofs.Document.Walk
import ApiLint.Proofs.Except
import ApiLint.Proofs.Schema.Coverage
import ApiLint.Rule.Registry

/-!
# Diagnostics at different places

Every library function but one reports a place at most once.  What a function may report of a
target is a list of places below the target, one place after the other as the function comes to
them: the places of its visits, each extended by what the check of one node looks at.  Visits are at
different places, and the extensions are equally long, so no two places of the list are the same.

The exception gives one diagnostic for each property of a node, and all of them at the node.
-/

namespace ApiLint

open Schema

variable {start : Path}

/-! ## Candidate places -/

/-- The diagnostics are at some of these places below a path, in order and one at most at each. -/
def AreAt (start : Path) (places : List (List Segment)) (ds : List Diagnostic) : Prop :=
  (ds.map Diagnostic.path).Sublist (places.map start.join)

/-- The diagnostics are at different places below a path. -/
def AreApart (start : Path) (ds : List Diagnostic) : Prop :=
  ∃ places : List (List Segment), places.Nodup ∧ AreAt start places ds

namespace AreApart

variable {ds : List Diagnostic}

theorem nodup_paths (h : AreApart start ds) : (ds.map Diagnostic.path).Nodup := by
  obtain ⟨places, nodup, hplaces⟩ := h
  exact (nodup.map start.join_injective).sublist hplaces

theorem exists_eq_join (h : AreApart start ds) {d : Diagnostic} (hd : d ∈ ds) :
    ∃ steps, d.path = start.join steps := by
  obtain ⟨places, -, hplaces⟩ := h
  obtain ⟨steps, -, hsteps⟩ := List.mem_map.1 (hplaces.subset (List.mem_map_of_mem hd))
  exact ⟨steps, hsteps.symm⟩

end AreApart

namespace AreAt

variable {α : Type} {items : List α} {way : α → List Segment} {check : α → List Diagnostic}
  {places : List (List Segment)} {ends : α → List (List Segment)} {ds : List Diagnostic}

theorem path_of_mem {steps : List Segment} (h : AreAt start [steps] ds) {d : Diagnostic}
    (hd : d ∈ ds) : d.path = start.join steps :=
  List.mem_singleton.1 (h.subset (List.mem_map_of_mem hd))

theorem path_of_mem_here (h : AreAt start [[]] ds) {d : Diagnostic} (hd : d ∈ ds) :
    d.path = start :=
  (h.path_of_mem hd).trans start.join_nil

theorem nil : AreAt start places [] := List.nil_sublist _

theorem here (message : String) : AreAt start [[]] [⟨message, start⟩] := by
  simp [AreAt]

theorem member (message name : String) :
    AreAt start [[.key name]] [⟨message, start.member name⟩] :=
  List.Sublist.refl _

theorem onlyIf (h : AreAt start places ds) (c : Prop) [Decidable c] :
    AreAt start places (if c then ds else []) := by
  split
  · exact h
  · exact nil

/-- One place at most for each item. -/
theorem filterMap {f : α → Option Diagnostic}
    (h : ∀ item ∈ items, ∀ d ∈ f item, d.path = start.join (way item)) :
    AreAt start (items.map way) (items.filterMap f) := by
  induction items with
  | nil => exact nil
  | cons item rest ih =>
    rw [List.forall_mem_cons] at h
    have others := ih h.2
    cases hitem : f item with
    | none =>
      rw [List.filterMap_cons_none hitem]
      exact others.cons _
    | some d =>
      rw [List.filterMap_cons_some hitem, AreAt, List.map_cons, h.1 d hitem]
      exact others.cons_cons _

theorem join_iff {steps : List Segment} :
    AreAt (start.join steps) places ds ↔ AreAt start (places.map (steps ++ ·)) ds := by
  have further : (start.join steps).join = start.join ∘ (steps ++ ·) :=
    funext fun rest => start.join_join steps rest
  rw [AreAt, AreAt, List.map_map, further]

/-- The diagnostics of items are at the places of the items, each extended by their own. -/
theorem flatMap (h : ∀ item ∈ items, AreAt (start.join (way item)) (ends item) (check item)) :
    AreAt start (items.flatMap fun item => (ends item).map (way item ++ ·))
      (items.flatMap check) := by
  induction items with
  | nil => exact nil
  | cons item rest ih =>
    rw [List.forall_mem_cons] at h
    have own := join_iff.1 h.1
    have others := ih h.2
    rw [AreAt] at own others ⊢
    rw [List.flatMap_cons, List.map_append, List.flatMap_cons, List.map_append]
    exact own.append others

end AreAt

/-- Places that begin differently stay different when all are extended by as many steps. -/
theorem nodup_extended {α : Type} {items : List α} {way : α → List Segment}
    {ends : α → List (List Segment)} {n : Nat} (hways : (items.map way).Nodup)
    (hends : ∀ item ∈ items, (ends item).Nodup ∧ ∀ steps ∈ ends item, steps.length = n) :
    (items.flatMap fun item => (ends item).map (way item ++ ·)).Nodup := by
  rw [List.nodup_flatMap]
  refine ⟨fun item hitem => (hends item hitem).1.map (List.append_right_injective _), ?_⟩
  refine (List.pairwise_map.1 hways).imp_of_mem fun {a b} ha hb hne => ?_
  refine List.disjoint_left.2 fun place hplace hplace' => hne ?_
  obtain ⟨steps, hsteps, rfl⟩ := List.mem_map.1 hplace
  obtain ⟨others, hothers, heq⟩ := List.mem_map.1 hplace'
  -- as many steps were added on both sides, so the places began alike
  have hlength := ((hends b hb).2 others hothers).trans ((hends a ha).2 steps hsteps).symm
  exact (List.append_inj_left' heq hlength).symm

/-! ## Diagnostics of nodes -/

variable {node : Json}

theorem areAt_arrayOfArrays : AreAt start [[.key "items"]] (Rule.ArrayOfArrays.ofNode node start) :=
  (AreAt.member _ _).onlyIf _

theorem areAt_disallowedHeader {header : String} :
    AreAt start [[.key "name"]] (Rule.DisallowedHeader.diagnostics header node start) := by
  unfold Rule.DisallowedHeader.diagnostics
  split
  · exact (AreAt.member _ _).onlyIf _
  · exact .nil

theorem areAt_minMaxPair {lower upper : String} :
    AreAt (start.member lower) [[]] (Rule.MinMaxConsistency.ofPair node start lower upper) := by
  unfold Rule.MinMaxConsistency.ofPair
  split
  · exact (AreAt.here _).onlyIf _
  · exact .nil

theorem areAt_minMaxConsistency :
    AreAt start (Rule.MinMaxConsistency.bounds.flatMap fun bound => [[.key bound.1]])
      (Rule.MinMaxConsistency.ofNode node start) :=
  AreAt.flatMap fun _ _ => areAt_minMaxPair

theorem areAt_propertyDescription {logical : Path} :
    AreAt start [[]] (Rule.PropertyDescription.ofVisit node start logical) := by
  unfold Rule.PropertyDescription.ofVisit
  split
  · exact .nil
  · exact .here _

theorem areAt_refPattern {version : Version} :
    AreAt start [[.key "$ref"]] (Rule.RefPattern.ofNode version node start) := by
  unfold Rule.RefPattern.ofNode
  split
  · exact (AreAt.member _ _).onlyIf _
  · exact .nil

/-- The places of the members of an object. -/
def memberPlaces (node : Json) : List (List Segment) :=
  (node.members?.getD []).map fun member => [.key member.1]

theorem nodup_memberPlaces (distinct : node.hasDistinctKeys) : (memberPlaces node).Nodup := by
  have injective : Function.Injective fun name : String => [Segment.key name] := fun _ _ h =>
    Segment.key.inj (List.singleton_inj.1 h)
  have places := (Json.nodup_keys_members distinct).map injective
  rwa [List.map_map] at places

theorem areAt_refSiblings {allowed : List String} :
    AreAt start (memberPlaces node) (Rule.RefSiblings.ofNode allowed node start) := by
  refine AreAt.onlyIf (AreAt.filterMap fun member _ d hd => ?_) _
  obtain ⟨-, ⟨⟩⟩ := Option.mem_ite_none_right.1 hd
  rfl

/-- The places of the items of the list of required names. -/
def requiredPlaces (node : Json) : List (List Segment) :=
  (node.itemsAt "required").zipIdx.map fun item => [.key "required", .index item.2]

theorem nodup_requiredPlaces (node : Json) : (requiredPlaces node).Nodup := by
  have injective : Function.Injective fun i => [Segment.key "required", .index i] := fun _ _ h => by
    simpa using h
  exact Entries.nodup_map_zipIdx injective _

theorem areAt_requiredPropertyDefined {schema : Json} :
    AreAt start (requiredPlaces node)
      (Rule.RequiredPropertyDefined.ofBranch schema node start) := by
  refine AreAt.filterMap fun item _ d hd => ?_
  obtain ⟨name, -, hd⟩ := Option.bind_eq_some_iff.1 hd
  obtain ⟨-, ⟨⟩⟩ := Option.mem_ite_none_left.1 hd
  exact start.join_join _ _

/-! ## Rule functions -/

/-- Whatever its options, the function places its diagnostics of a target at different places below
the target. -/
def RuleFunction.ReportsApart (function : RuleFunction) : Prop :=
  ∀ ⦃target options : Json⦄ ⦃site : Site⦄ ⦃diagnostics : List Diagnostic⦄,
    function.check target options site = .ok diagnostics → target.hasDistinctKeys →
      AreApart site.path diagnostics

/-- A check of single nodes that is run on the composed visits of each nested visit. -/
theorem areApart_wholeVisits {target : Json} {ofSchema : Json → Path → List Diagnostic} {n : Nat}
    (distinct : target.hasDistinctKeys) (ends : Json → List (List Segment))
    (hends : ∀ node, (ends node).Nodup ∧ ∀ steps ∈ ends node, steps.length = n)
    (h : ∀ schema start, AreAt start
      ((composedVisits true false schema).flatMap fun visit =>
        (ends visit.node).map (visit.steps.flatMap Step.segments ++ ·)) (ofSchema schema start)) :
    AreApart start ((nestedVisits true false target).flatMap fun visit =>
      ofSchema visit.node (visit.path start)) := by
  have whole := nodup_extended (Visit.nodup_places (nodup_wholeVisits distinct))
    fun visit _ => hends visit.node
  refine ⟨_, ?_, AreAt.flatMap fun visit _ => h visit.node (visit.path start)⟩
  -- the place of a nested visit and that of a composed visit in it make the place of a whole one
  simpa [wholeVisits, List.flatMap_assoc, List.flatMap_map, List.map_flatMap, List.map_map,
    Function.comp_def, List.append_assoc] using whole

/-- A check of single nodes that is run on the containers of a target. -/
theorem areApart_containers {target : Json} {check : Json → Path → List Diagnostic} {n : Nat}
    (distinct : target.hasDistinctKeys) {ends : Json → List (List Segment)}
    (hends : ∀ node : Json, node.hasDistinctKeys →
      (ends node).Nodup ∧ ∀ steps ∈ ends node, steps.length = n)
    (h : ∀ node start, AreAt start (ends node) (check node start)) :
    AreApart start ((Document.containers target).flatMap fun visit =>
      check visit.node (start.join visit.steps)) := by
  refine ⟨_, nodup_extended (n := n) (Document.nodup_containers distinct) fun visit hvisit => ?_,
    AreAt.flatMap fun visit _ => h visit.node (start.join visit.steps)⟩
  have hfollow := Document.follow?_of_mem_containers distinct hvisit
  exact hends visit.node (Json.hasDistinctKeys_of_follow? distinct hfollow)

theorem reportsApart_arrayOfArrays : Rule.ArrayOfArrays.function.ReportsApart := by
  rintro target _ site _ ⟨⟩ distinct
  refine areApart_wholeVisits (n := 1) distinct (fun _ => [[.key "items"]]) (fun _ => ?_)
    fun schema start => (AreAt.flatMap fun visit _ => areAt_arrayOfArrays).onlyIf _
  decide

theorem reportsApart_disallowedHeader : Rule.DisallowedHeader.function.ReportsApart := by
  intro target options site _ hcheck _
  obtain ⟨header, -, ⟨⟩⟩ := bind_eq_ok_iff.1 hcheck
  exact ⟨_, List.nodup_singleton _, areAt_disallowedHeader⟩

theorem reportsApart_minMaxConsistency : Rule.MinMaxConsistency.function.ReportsApart := by
  rintro target _ site _ ⟨⟩ distinct
  refine areApart_containers (n := 1) distinct (fun _ _ => ?_) fun _ _ => areAt_minMaxConsistency
  decide

theorem reportsApart_propertyDescription : Rule.PropertyDescription.function.ReportsApart := by
  rintro target _ site _ ⟨⟩ distinct
  have ways := Visit.nodup_places (nodup_nestedVisits distinct true false)
  refine ⟨_, nodup_extended (n := 0) ways fun visit _ => ?_,
    AreAt.flatMap fun visit _ => areAt_propertyDescription⟩
  decide

theorem reportsApart_refPattern : Rule.RefPattern.function.ReportsApart := by
  rintro target _ site _ ⟨⟩ distinct
  unfold Rule.RefPattern.diagnostics
  split
  · exact ⟨[], .nil, .nil⟩
  · refine areApart_containers (n := 1) distinct (fun _ _ => ?_) fun _ _ => areAt_refPattern
    decide

theorem reportsApart_refSiblings : Rule.RefSiblings.function.ReportsApart := by
  intro target options site _ hcheck distinct
  obtain ⟨allowed, -, ⟨⟩⟩ := bind_eq_ok_iff.1 hcheck
  refine areApart_containers (n := 1) distinct (fun node hnode => ?_) fun _ _ => areAt_refSiblings
  exact ⟨nodup_memberPlaces hnode, List.forall_mem_map.2 fun _ _ => rfl⟩

theorem reportsApart_requiredPropertyDefined :
    Rule.RequiredPropertyDefined.function.ReportsApart := by
  rintro target _ site _ ⟨⟩ distinct
  refine areApart_wholeVisits (n := 2) distinct requiredPlaces (fun node => ?_)
    fun schema start => AreAt.flatMap fun visit _ => areAt_requiredPropertyDefined
  exact ⟨nodup_requiredPlaces node, List.forall_mem_map.2 fun _ _ => rfl⟩

theorem reportsApart_stringBoundary : Rule.StringBoundary.function.ReportsApart := by
  rintro target _ site _ ⟨⟩ distinct
  refine ⟨_, Visit.nodup_places (nodup_singleKindVisits distinct),
    AreAt.filterMap fun visit _ d hd => ?_⟩
  obtain ⟨-, ⟨⟩⟩ := Option.mem_ite_none_right.1 hd
  rfl

theorem reportsApart_superfluousAllOf : Rule.SuperfluousAllOf.function.ReportsApart := by
  rintro target _ site _ ⟨⟩ distinct
  have ways := Visit.nodup_places (nodup_composedVisits distinct true true)
  have extended := ways.map (List.append_left_injective [Segment.key Applicator.allOf.keyword])
  rw [List.map_map] at extended
  refine ⟨_, extended, AreAt.filterMap fun visit _ d hd => ?_⟩
  obtain ⟨-, ⟨⟩⟩ := Option.mem_ite_none_right.1 hd
  exact site.path.join_join _ _

theorem reportsApart_of_mem_builtinFunctions {function : RuleFunction}
    (h : function ∈ builtinFunctions)
    (hne : function.name ≠ Rule.PropertyConsistentType.function.name) : function.ReportsApart := by
  simp only [builtinFunctions, List.mem_cons, List.not_mem_nil, or_false] at h
  obtain rfl | rfl | rfl | rfl | rfl | rfl | rfl | rfl | rfl | rfl := h
  · exact reportsApart_arrayOfArrays
  · exact reportsApart_disallowedHeader
  · exact reportsApart_minMaxConsistency
  · exact reportsApart_propertyDescription
  · exact absurd rfl hne
  · exact reportsApart_refPattern
  · exact reportsApart_refSiblings
  · exact reportsApart_requiredPropertyDefined
  · exact reportsApart_stringBoundary
  · exact reportsApart_superfluousAllOf

/-- The function that is left out reports a schema again for each of its properties. -/
example :
    let types (type : String) : Json := .obj [("properties", .obj
      [("a", .obj [("type", .str type)]), ("b", .obj [("type", .str type)])])]
    let schema : Json := .obj [("allOf", .arr [types "string", types "integer"])]
    (Rule.PropertyConsistentType.diagnostics schema .root).map Diagnostic.path =
      [.root, .root] := by
  decide +kernel

end ApiLint
