import ApiLint.Proofs.Descent
import ApiLint.Proofs.Path.Located
import ApiLint.Schema.Traversal

/-!
# Places of schemas

Steps lead from a schema to the schemas that stand inside it.  The edges of the traversals are the
steps that a traversal goes by, each with the schema it leads to, so a traversal visits one schema
for each list of its steps that leads through objects.  Single-kind visits go by the steps that
leave each schema through its first usable keyword.  The places of steps are a prefix code:
different lists of steps have different places.
-/

namespace ApiLint

namespace Schema

/-! ## Steps -/

/-- The schema that a step leads to: a name goes through an object, an index through a list. -/
def Step.inner? (schema : Json) : Step → Option Json
  | .property name => (schema.object? propertiesKeyword).bind (·.get? name)
  | .items => schema.get? "items"
  | .additional => schema.get? "additionalProperties"
  | .pattern regex => (schema.object? "patternProperties").bind (·.get? regex)
  | .branch applicator index => (applicator.branches schema)[index]?
  | .negation => schema.get? negationKeyword

/-- The schema at the end of steps, when it and every schema on the way are objects. -/
def at? (schema : Json) : List Step → Option Json
  | [] => if schema.isObj then some schema else none
  | step :: rest => if schema.isObj then (step.inner? schema).bind (at? · rest) else none

theorem follow?_key_key {node inner : Json} {key name : String}
    (h : (node.object? key).bind (·.get? name) = some inner) :
    node.follow? [.key key, .key name] = some inner := by
  obtain ⟨middle, hmiddle, hinner⟩ := Option.bind_eq_some_iff.1 h
  have hkey := Json.follow?_key (Option.filter_eq_some_iff.1 hmiddle).1
  refine (Json.follow?_append node [.key key] [.key name]).trans ?_
  rw [hkey, Option.bind_some, Json.follow?_key hinner]

theorem follow?_key_index {node inner : Json} {key : String} {index : Nat}
    (h : (node.itemsAt key)[index]? = some inner) :
    node.follow? [.key key, .index index] = some inner := by
  have hkey := Json.follow?_key (Json.get?_eq_arr_of_itemsAt h)
  refine (Json.follow?_append node [.key key] [.index index]).trans ?_
  rw [hkey, Option.bind_some, Json.follow?_index h]

/-- The place of a step is where its schema is found. -/
theorem Step.follow?_segments {schema inner : Json} {step : Step}
    (h : step.inner? schema = some inner) : schema.follow? step.segments = some inner := by
  cases step with
  | property name => exact follow?_key_key h
  | items => exact Json.follow?_key h
  | additional => exact Json.follow?_key h
  | pattern regex => exact follow?_key_key h
  | branch applicator index => exact follow?_key_index h
  | negation => exact Json.follow?_key h

theorem follow?_of_at? {schema node : Json} {steps : List Step} (h : at? schema steps = some node) :
    schema.follow? (steps.flatMap Step.segments) = some node := by
  induction steps generalizing schema with
  | nil =>
    rw [at?, Option.ite_none_right_eq_some] at h
    exact h.2
  | cons step rest ih =>
    rw [at?, Option.ite_none_right_eq_some, Option.bind_eq_some_iff] at h
    obtain ⟨-, inner, hinner, hrest⟩ := h
    rw [List.flatMap_cons, Json.follow?_append, Step.follow?_segments hinner, Option.bind_some]
    exact ih hrest

theorem isObj_of_at? {schema node : Json} {steps : List Step} (h : at? schema steps = some node) :
    schema.isObj ∧ node.isObj := by
  induction steps generalizing schema with
  | nil =>
    rw [at?, Option.ite_none_right_eq_some, Option.some.injEq] at h
    obtain ⟨hobj, rfl⟩ := h
    exact ⟨hobj, hobj⟩
  | cons step rest ih =>
    rw [at?, Option.ite_none_right_eq_some, Option.bind_eq_some_iff] at h
    obtain ⟨hobj, inner, -, hrest⟩ := h
    exact ⟨hobj, (ih hrest).2⟩

theorem at?_append_iff {schema node : Json} {first second : List Step} :
    at? schema (first ++ second) = some node ↔
      ∃ middle, at? schema first = some middle ∧ at? middle second = some node := by
  induction first generalizing schema with
  | nil =>
    constructor
    · intro h
      exact ⟨schema, by rw [at?, if_pos (isObj_of_at? h).1], h⟩
    · rintro ⟨middle, hmiddle, h⟩
      rw [at?, Option.ite_none_right_eq_some, Option.some.injEq] at hmiddle
      rwa [hmiddle.2]
  | cons step rest ih =>
    simp only [List.cons_append, at?, Option.ite_none_right_eq_some, Option.bind_eq_some_iff, ih]
    constructor
    · rintro ⟨hobj, inner, hinner, middle, hmiddle, h⟩
      exact ⟨middle, ⟨hobj, inner, hinner, hmiddle⟩, h⟩
    · rintro ⟨middle, ⟨hobj, inner, hinner, hmiddle⟩, h⟩
      exact ⟨hobj, inner, hinner, middle, hmiddle, h⟩

/-! ## Places of steps -/

/-- The step whose place begins a list of segments, and the segments after it. -/
def Step.ofSegments? : List Segment → Option (Step × List Segment)
  | .key "properties" :: .key name :: rest => some (.property name, rest)
  | .key "items" :: rest => some (.items, rest)
  | .key "additionalProperties" :: rest => some (.additional, rest)
  | .key "patternProperties" :: .key regex :: rest => some (.pattern regex, rest)
  | .key "allOf" :: .index i :: rest => some (.branch .allOf i, rest)
  | .key "oneOf" :: .index i :: rest => some (.branch .oneOf i, rest)
  | .key "anyOf" :: .index i :: rest => some (.branch .anyOf i, rest)
  | .key "not" :: rest => some (.negation, rest)
  | _ => none

theorem Step.ofSegments?_segments_append (step : Step) (rest : List Segment) :
    ofSegments? (step.segments ++ rest) = some (step, rest) := by
  rcases step with _ | _ | _ | _ | ⟨_ | _ | _, _⟩ | _ <;> rfl

theorem Step.segments_append_inj {s t : Step} {x y : List Segment}
    (h : s.segments ++ x = t.segments ++ y) : s = t ∧ x = y := by
  have read := congrArg ofSegments? h
  rw [ofSegments?_segments_append, ofSegments?_segments_append, Option.some.injEq] at read
  exact Prod.mk.inj read

theorem Step.segments_ne_nil (step : Step) : step.segments ≠ [] := by
  cases step <;> simp [segments]

theorem flatMap_segments_injective :
    Function.Injective fun steps : List Step => steps.flatMap Step.segments := by
  intro first second h
  induction first generalizing second with
  | nil =>
    cases second with
    | nil => rfl
    | cons t _ => simp [t.segments_ne_nil] at h
  | cons s rest ih =>
    cases second with
    | nil => simp [s.segments_ne_nil] at h
    | cons t more =>
      simp only [List.flatMap_cons] at h
      obtain ⟨rfl, hrest⟩ := Step.segments_append_inj h
      rw [ih hrest]

/-! ## Edges -/

/-- The edges of a descent are the allowed steps, each to the schema that it leads to. -/
def Selects (d : Descent Step) (allowed : Step → Prop) : Prop :=
  ∀ schema : Json, schema.hasDistinctKeys → ∀ (step : Step) (inner : Json),
    (step, inner) ∈ d.next schema ↔ allowed step ∧ step.inner? schema = some inner

theorem mem_branchEdges_iff {schema inner : Json} {step : Step} :
    (step, inner) ∈ branchEdges schema ↔ step.isBranch ∧ step.inner? schema = some inner := by
  simp only [branchEdges, List.mem_map, Prod.exists, Prod.mk.injEq, mem_placedBranches]
  constructor
  · rintro ⟨a, i, branch, h, rfl, rfl⟩
    exact ⟨rfl, h⟩
  · rintro ⟨hstep, h⟩
    cases step <;> simp only [Step.isBranch, Bool.false_eq_true] at hstep
    exact ⟨_, _, _, h, rfl, rfl⟩

theorem mem_memberEdges_iff {schema inner : Json} {key : String} {step other : Step} :
    (step, inner) ∈ (schema.get? key).toList.map (fun member => (other, member)) ↔
      step = other ∧ schema.get? key = some inner := by
  simp only [List.mem_map, Prod.mk.injEq, Option.mem_toList]
  constructor
  · rintro ⟨_, h, rfl, rfl⟩
    exact ⟨rfl, h⟩
  · rintro ⟨rfl, h⟩
    exact ⟨_, h, rfl, rfl⟩

theorem mem_namedEdges_iff {schema inner : Json} {key : String} {step : Step}
    {named : String → Step} (distinct : schema.hasDistinctKeys) :
    (step, inner) ∈ (schema.membersAt key).map (fun m => (named m.1, m.2)) ↔
      ∃ name, step = named name ∧ (schema.object? key).bind (·.get? name) = some inner := by
  simp only [List.mem_map, Prod.exists, Prod.mk.injEq, Json.mem_membersAt_iff distinct]
  constructor
  · rintro ⟨name, _, h, rfl, rfl⟩
    exact ⟨name, rfl, h⟩
  · rintro ⟨name, rfl, h⟩
    exact ⟨name, _, h, rfl, rfl⟩

theorem mem_negationEdges_iff {schema inner : Json} {step : Step} {withNegation : Bool} :
    (step, inner) ∈ (if withNegation then negationEdges schema else []) ↔
      (step = .negation ∧ withNegation) ∧ step.inner? schema = some inner := by
  cases withNegation with
  | false => simp
  | true =>
    rw [if_pos rfl, negationEdges, mem_memberEdges_iff]
    constructor
    · rintro ⟨rfl, h⟩
      exact ⟨⟨rfl, rfl⟩, h⟩
    · rintro ⟨⟨rfl, -⟩, h⟩
      exact ⟨rfl, h⟩

theorem selects_nesting (withNegation : Bool) :
    Selects (nesting withNegation) fun step => step = .negation → withNegation := by
  intro schema distinct step inner
  have items : (step, inner) ∈ itemsEdges schema ↔ _ := mem_memberEdges_iff
  have additional : (step, inner) ∈ additionalEdges schema ↔ _ := mem_memberEdges_iff
  have property : (step, inner) ∈ propertyEdges schema ↔ _ := mem_namedEdges_iff distinct
  have pattern : (step, inner) ∈ patternEdges schema ↔ _ := mem_namedEdges_iff distinct
  simp only [nesting, List.mem_append, property, items, additional, pattern,
    mem_negationEdges_iff, mem_branchEdges_iff]
  cases step <;> simp [Step.isBranch, Step.inner?]

theorem mem_composition_iff {withNegation : Bool} {schema inner : Json} {step : Step} :
    (step, inner) ∈ (composition withNegation).next schema ↔
      (step.isComposition ∧ (step = .negation → withNegation)) ∧
        step.inner? schema = some inner := by
  simp only [composition, List.mem_append, mem_negationEdges_iff, mem_branchEdges_iff]
  cases step <;> simp [Step.isBranch, Step.isComposition, Step.inner?]

theorem selects_composition (withNegation : Bool) :
    Selects (composition withNegation) fun step =>
      step.isComposition ∧ (step = .negation → withNegation) :=
  fun _ _ _ _ => mem_composition_iff

/-- Steps within a composition that lead through objects go along its edges. -/
theorem leads_of_at? {schema node : Json} {steps : List Step}
    (hsteps : ∀ step ∈ steps, step.isComposition)
    (h : at? schema steps = some node) :
    ((composition true).only Json.isObj).Leads schema steps node := by
  induction steps generalizing schema with
  | nil =>
    rw [at?, Option.ite_none_right_eq_some, Option.some.injEq] at h
    exact h.2 ▸ .here schema
  | cons step rest ih =>
    rw [at?, Option.ite_none_right_eq_some, Option.bind_eq_some_iff] at h
    obtain ⟨-, inner, hinner, hrest⟩ := h
    obtain ⟨hstep, hfurther⟩ := List.forall_mem_cons.1 hsteps
    have edge : (step, inner) ∈ (composition true).next schema :=
      mem_composition_iff.2 ⟨⟨hstep, fun _ => rfl⟩, hinner⟩
    exact .step (List.mem_filter.2 ⟨edge, (isObj_of_at? hrest).1⟩) (ih hfurther hrest)

/-! ## Steps of edges -/

theorem nodup_indexedEdges (a : Applicator) (schema : Json) :
    ((a.branches schema).zipIdx.map fun branch => Step.branch a branch.2).Nodup :=
  Entries.nodup_map_zipIdx (fun _ _ h => (Step.branch.inj h).2) _

theorem nodup_branchEdges (schema : Json) : ((branchEdges schema).map Prod.fst).Nodup := by
  simp only [branchEdges, placedBranches, List.map_flatMap, List.map_map]
  rw [List.nodup_flatMap]
  refine ⟨fun a _ => nodup_indexedEdges a schema, ?_⟩
  have different : Applicator.all.Nodup := by decide
  refine different.imp fun {a b} hne => List.disjoint_left.2 fun step ha hb => ?_
  obtain ⟨_, -, rfl⟩ := List.mem_map.1 ha
  obtain ⟨_, -, hb⟩ := List.mem_map.1 hb
  exact hne (Step.branch.inj hb).1.symm

theorem nodup_namedEdges {schema : Json} {key : String} {named : String → Step}
    (distinct : schema.hasDistinctKeys) (injective : Function.Injective named) :
    (((schema.membersAt key).map fun m => (named m.1, m.2)).map Prod.fst).Nodup := by
  have h := (Json.nodup_keys_membersAt distinct key).map injective
  rwa [List.map_map] at h ⊢

theorem nodup_memberEdges {member : Option Json} {step : Step} :
    ((member.toList.map fun inner => (step, inner)).map Prod.fst).Nodup := by
  cases member <;> simp

theorem nodup_negationEdges (withNegation : Bool) (schema : Json) :
    ((if withNegation then negationEdges schema else []).map Prod.fst).Nodup := by
  split
  · exact nodup_memberEdges
  · simp

theorem nodup_composition (withNegation : Bool) (schema : Json) :
    (((composition withNegation).next schema).map Prod.fst).Nodup := by
  have negation := nodup_negationEdges withNegation schema
  simp only [composition, List.map_append, List.nodup_append]
  refine ⟨nodup_branchEdges schema, negation, ?_⟩
  grind [branchEdges, negationEdges]

theorem nodup_nesting (withNegation : Bool) {schema : Json} (distinct : schema.hasDistinctKeys) :
    (((nesting withNegation).next schema).map Prod.fst).Nodup := by
  have property : ((propertyEdges schema).map Prod.fst).Nodup :=
    nodup_namedEdges distinct fun _ _ => Step.property.inj
  have pattern : ((patternEdges schema).map Prod.fst).Nodup :=
    nodup_namedEdges distinct fun _ _ => Step.pattern.inj
  have items : ((itemsEdges schema).map Prod.fst).Nodup := nodup_memberEdges
  have additional : ((additionalEdges schema).map Prod.fst).Nodup := nodup_memberEdges
  have negation := nodup_negationEdges withNegation schema
  have branches := nodup_branchEdges schema
  simp only [nesting, List.map_append, List.nodup_append]
  refine ⟨⟨⟨⟨⟨property, items, ?_⟩, additional, ?_⟩, pattern, ?_⟩, negation, ?_⟩, branches, ?_⟩ <;>
    grind [propertyEdges, itemsEdges, additionalEdges, patternEdges, negationEdges, branchEdges]

theorem nodup_soleEdges {schema : Json} (distinct : schema.hasDistinctKeys) :
    ((soleEdges schema).map Prod.fst).Nodup := by
  unfold soleEdges
  split
  · exact nodup_namedEdges distinct fun _ _ => Step.property.inj
  · split
    · exact nodup_memberEdges
    · unfold soleBranchEdges
      split
      · next a _ =>
        rw [List.map_map]
        exact nodup_indexedEdges a schema
      · exact .nil

/-! ## Ways of allowed steps -/

/-- Each step of a way is allowed at the schema where it is taken. -/
def IsAllowedWay (allowed : Json → Step → Prop) (schema : Json) (steps : List Step) : Prop :=
  ∀ before step after node, steps = before ++ step :: after → at? schema before = some node →
    allowed node step

theorem isAllowedWay_nil (allowed : Json → Step → Prop) (schema : Json) :
    IsAllowedWay allowed schema [] := by
  intro before step after node h
  simp at h

theorem isAllowedWay_cons_iff {allowed : Json → Step → Prop} {schema inner : Json} {step : Step}
    {rest : List Step} (hobj : schema.isObj) (hinner : step.inner? schema = some inner) :
    IsAllowedWay allowed schema (step :: rest) ↔
      allowed schema step ∧ IsAllowedWay allowed inner rest := by
  have further (before : List Step) : at? schema (step :: before) = at? inner before := by
    rw [at?, if_pos hobj, hinner, Option.bind_some]
  constructor
  · intro h
    refine ⟨h [] step rest schema rfl (by rw [at?, if_pos hobj]), ?_⟩
    intro before next after node hrest hnode
    exact h (step :: before) next after node (congrArg _ hrest) ((further before).trans hnode)
  · rintro ⟨hstep, hrest⟩ before next after node h hnode
    cases before with
    | nil =>
      obtain ⟨rfl, -⟩ := List.cons.inj h
      rw [at?, if_pos hobj, Option.some.injEq] at hnode
      exact hnode ▸ hstep
    | cons first before =>
      obtain ⟨rfl, hsplit⟩ := List.cons.inj h
      exact hrest before next after node hsplit ((further before).symm.trans hnode)

/-- Steps that are allowed at one schema when they are allowed at any. -/
theorem isAllowedWay_iff_forall {allowed : Step → Prop} {schema node : Json} {steps : List Step}
    (hat : at? schema steps = some node) :
    IsAllowedWay (fun _ => allowed) schema steps ↔ ∀ step ∈ steps, allowed step := by
  constructor
  · intro h step hstep
    obtain ⟨before, after, rfl⟩ := List.append_of_mem hstep
    obtain ⟨middle, hmiddle, -⟩ := at?_append_iff.1 hat
    exact h before step after middle rfl hmiddle
  · rintro h before step after _ rfl -
    exact h step (by simp)

/-- The edges of a descent are, at each schema, the steps that are allowed there, each to the schema
that it leads to. -/
def SelectsAt (d : Descent Step) (allowed : Json → Step → Prop) : Prop :=
  ∀ schema : Json, schema.hasDistinctKeys → ∀ (step : Step) (inner : Json),
    (step, inner) ∈ d.next schema ↔ allowed schema step ∧ step.inner? schema = some inner

theorem SelectsAt.isPlacedBy {d : Descent Step} {allowed : Json → Step → Prop}
    (h : SelectsAt d allowed) : d.IsPlacedBy Step.segments :=
  fun schema distinct (step, inner) hedge =>
    Step.follow?_segments ((h schema distinct step inner).1 hedge).2

theorem SelectsAt.leads_iff {d : Descent Step} {allowed : Json → Step → Prop}
    (h : SelectsAt d allowed) {schema node : Json} {steps : List Step}
    (distinct : schema.hasDistinctKeys) (hobj : schema.isObj) :
    (d.only Json.isObj).Leads schema steps node ↔
      IsAllowedWay allowed schema steps ∧ at? schema steps = some node := by
  induction steps generalizing schema with
  | nil => simp [Descent.leads_nil_iff, at?, hobj, eq_comm, isAllowedWay_nil]
  | cons step rest ih =>
    have inside {inner : Json} (hinner : step.inner? schema = some inner) : inner.hasDistinctKeys :=
      Json.hasDistinctKeys_of_follow? distinct (Step.follow?_segments hinner)
    rw [Descent.leads_cons_iff, at?, if_pos hobj, Option.bind_eq_some_iff]
    constructor
    · rintro ⟨inner, hedge, hrest⟩
      obtain ⟨hedge, hinnerObj⟩ := List.mem_filter.1 hedge
      obtain ⟨hallowed, hinner⟩ := (h schema distinct step inner).1 hedge
      obtain ⟨hall, hnode⟩ := (ih (inside hinner) hinnerObj).1 hrest
      exact ⟨(isAllowedWay_cons_iff hobj hinner).2 ⟨hallowed, hall⟩, inner, hinner, hnode⟩
    · rintro ⟨hway, inner, hinner, hnode⟩
      obtain ⟨hallowed, hall⟩ := (isAllowedWay_cons_iff hobj hinner).1 hway
      have hinnerObj := (isObj_of_at? hnode).1
      have hedge := (h schema distinct step inner).2 ⟨hallowed, hinner⟩
      exact ⟨inner, List.mem_filter.2 ⟨hedge, hinnerObj⟩,
        (ih (inside hinner) hinnerObj).2 ⟨hall, hnode⟩⟩

/-- The visits through objects are the schemas at the ends of allowed ways. -/
theorem SelectsAt.mem_visitsThrough_iff {d : Descent Step} {allowed : Json → Step → Prop}
    (h : SelectsAt d allowed) {schema : Json} {visit : Visit Step}
    (distinct : schema.hasDistinctKeys) :
    visit ∈ visitsThrough d schema ↔
      IsAllowedWay allowed schema visit.steps ∧ at? schema visit.steps = some visit.node := by
  unfold visitsThrough
  split
  · next hobj => rw [Descent.mem_visits_iff, h.leads_iff distinct hobj]
  · next hobj =>
    simp only [List.not_mem_nil, false_iff, not_and]
    exact fun _ hat => hobj (isObj_of_at? hat).1

/-! ## The first usable keyword -/

/-- A keyword that single-kind visits can go through. -/
inductive SoleKeyword where
  | properties
  | items
  | branches (applicator : Applicator)
deriving DecidableEq

namespace SoleKeyword

/-- In the order in which they are tried. -/
def all : List SoleKeyword :=
  [.properties, .items, .branches .allOf, .branches .anyOf, .branches .oneOf]

/-- Whether a schema has something to go into under a keyword: an object of properties, items that
are an object, or a list of branches, even an empty one. -/
def isUsable (schema : Json) : SoleKeyword → Bool
  | .properties => (schema.get? propertiesKeyword).any Json.isObj
  | .items => (schema.get? "items").any Json.isObj
  | .branches a => (schema.get? a.keyword).any Json.isArr

/-- The keyword can be used, and none that is tried before it can. -/
def IsFirst (schema : Json) (keyword : SoleKeyword) : Prop :=
  keyword.isUsable schema ∧ ∃ earlier later, all = earlier ++ keyword :: later ∧
    ∀ other ∈ earlier, ¬other.isUsable schema

/-- What stands under a keyword. -/
def edges (schema : Json) : SoleKeyword → List (Step × Json)
  | .properties => propertyEdges schema
  | .items => itemsEdges schema
  | .branches a => (a.branches schema).zipIdx.map fun (branch, i) => (.branch a i, branch)

end SoleKeyword

/-- The keyword that a step goes through in single-kind visits. -/
def Step.soleKeyword? : Step → Option SoleKeyword
  | .property _ => some .properties
  | .items => some .items
  | .branch a _ => some (.branches a)
  | .additional | .pattern _ | .negation => none

/-- A step goes through the first usable keyword of a schema. -/
def Step.IsSole (schema : Json) (step : Step) : Prop :=
  ∃ keyword, step.soleKeyword? = some keyword ∧ keyword.IsFirst schema

theorem SoleKeyword.isFirst_iff_find? {schema : Json} {keyword : SoleKeyword} :
    keyword.IsFirst schema ↔ all.find? (isUsable schema) = some keyword := by
  rw [List.find?_eq_some_iff_append]
  simp only [IsFirst, Bool.not_eq_eq_eq_not, Bool.not_true, Bool.not_eq_true]

theorem soleEdges_eq (schema : Json) :
    soleEdges schema =
      ((SoleKeyword.all.find? (SoleKeyword.isUsable schema)).map
        (SoleKeyword.edges schema)).getD [] := by
  have order : SoleKeyword.all = .properties :: .items :: soleApplicators.map .branches := rfl
  have usable : SoleKeyword.isUsable schema ∘ .branches =
      fun a => (schema.get? a.keyword).any Json.isArr := rfl
  simp only [order, List.find?_cons, List.find?_map, usable, SoleKeyword.isUsable, soleEdges,
    soleBranchEdges, Json.object?, Option.isSome_filter]
  cases (schema.get? propertiesKeyword).any Json.isObj with
  | true => rfl
  | false =>
    cases (schema.get? "items").any Json.isObj with
    | true => rfl
    | false =>
      cases soleApplicators.find? fun a => (schema.get? a.keyword).any Json.isArr <;> rfl

theorem SoleKeyword.mem_edges_iff {schema inner : Json} {step : Step} {keyword : SoleKeyword}
    (distinct : schema.hasDistinctKeys) :
    (step, inner) ∈ keyword.edges schema ↔
      step.soleKeyword? = some keyword ∧ step.inner? schema = some inner := by
  cases keyword with
  | properties =>
    rw [edges, propertyEdges, ownProperties, mem_namedEdges_iff distinct]
    cases step <;> simp [Step.soleKeyword?, Step.inner?]
  | items =>
    rw [edges, itemsEdges, mem_memberEdges_iff]
    cases step <;> simp [Step.soleKeyword?, Step.inner?]
  | branches a =>
    rw [edges, List.mem_map]
    simp only [Prod.exists, List.mk_mem_zipIdx_iff_getElem?, Prod.mk.injEq]
    constructor
    · rintro ⟨branch, i, h, rfl, rfl⟩
      exact ⟨rfl, h⟩
    · rintro ⟨hstep, h⟩
      cases step <;> cases hstep
      exact ⟨_, _, h, rfl, rfl⟩

theorem selectsAt_singleKind : SelectsAt singleKind Step.IsSole := by
  intro schema distinct step inner
  change (step, inner) ∈ soleEdges schema ↔ _
  simp only [Step.IsSole, SoleKeyword.isFirst_iff_find?, soleEdges_eq]
  cases h : SoleKeyword.all.find? (SoleKeyword.isUsable schema) with
  | none => simp
  | some keyword =>
    rw [Option.map_some, Option.getD_some, SoleKeyword.mem_edges_iff distinct]
    simp [eq_comm]

/-! ## Visits -/

variable {d : Descent Step} {allowed : Step → Prop}

theorem Selects.selectsAt (h : Selects d allowed) : SelectsAt d fun _ => allowed := h

theorem Selects.isPlacedBy (h : Selects d allowed) : d.IsPlacedBy Step.segments :=
  h.selectsAt.isPlacedBy

/-- The visits through objects are the schemas at the ends of allowed steps. -/
theorem Selects.mem_visitsThrough_iff (h : Selects d allowed) {schema : Json} {visit : Visit Step}
    (distinct : schema.hasDistinctKeys) :
    visit ∈ visitsThrough d schema ↔
      (∀ step ∈ visit.steps, allowed step) ∧ at? schema visit.steps = some visit.node := by
  rw [h.selectsAt.mem_visitsThrough_iff distinct]
  exact and_congr_left isAllowedWay_iff_forall

theorem visitsThrough_of_isObj {schema : Json} (hobj : schema.isObj) :
    visitsThrough d schema = ⟨[], schema⟩ :: (d.next schema).flatMap fun edge =>
      (visitsThrough d edge.2).map (Visit.after edge.1) := by
  rw [visitsThrough, if_pos hobj, Descent.visits_eq, Descent.next_only, Descent.flatMap_filter]
  refine congrArg _ (List.flatMap_congr fun edge _ => ?_)
  rw [visitsThrough, apply_ite (List.map (Visit.after edge.1)), List.map_nil]

theorem visitsThrough_of_not_isObj {schema : Json} (hobj : ¬schema.isObj) :
    visitsThrough d schema = [] := by
  rw [visitsThrough, if_neg hobj]

/-- A visit comes before all visits that its steps lead on to. -/
theorem pairwise_visitsThrough (placed : d.IsPlacedBy Step.segments)
    (nodup : ∀ schema : Json, schema.hasDistinctKeys → ((d.next schema).map Prod.fst).Nodup)
    {schema : Json} (distinct : schema.hasDistinctKeys) :
    (visitsThrough d schema).Pairwise fun earlier later => ¬later.steps <+: earlier.steps := by
  unfold visitsThrough
  split
  · refine Descent.pairwise_visits fun {steps last} hleads => ?_
    have hlast := (placed.only Json.isObj).follow?_of_leads hleads distinct
    have edges := nodup last (Json.hasDistinctKeys_of_follow? distinct hlast)
    exact edges.sublist (List.filter_sublist.map Prod.fst)
  · exact .nil

/-- Different visits go by different steps. -/
theorem nodup_visitsThrough (placed : d.IsPlacedBy Step.segments)
    (nodup : ∀ schema : Json, schema.hasDistinctKeys → ((d.next schema).map Prod.fst).Nodup)
    {schema : Json} (distinct : schema.hasDistinctKeys) :
    ((visitsThrough d schema).map Visit.steps).Nodup :=
  Descent.nodup_steps (pairwise_visitsThrough placed nodup distinct)

end Schema

namespace Visit

open Schema

/-- Different steps lead to different places. -/
theorem nodup_places {visits : List (Visit Step)} (h : (visits.map steps).Nodup) :
    (visits.map fun visit => visit.steps.flatMap Step.segments).Nodup := by
  have places := h.map flatMap_segments_injective
  rwa [List.map_map] at places

theorem nodup_paths {visits : List (Visit Step)} (h : (visits.map steps).Nodup) (start : Path) :
    (visits.map (path · start)).Nodup := by
  have paths := (nodup_places h).map (Path.join_injective start)
  rwa [List.map_map] at paths

theorem path_append (first second : List Step) (node : Json) (start : Path) :
    (Visit.mk second node).path ((Visit.mk first node).path start) =
      (Visit.mk (first ++ second) node).path start := by
  simp [path, Path.join_join]

end Visit

end ApiLint
