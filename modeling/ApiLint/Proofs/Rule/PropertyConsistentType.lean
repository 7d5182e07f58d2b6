import ApiLint.Proofs.Rule.OnePlace
import ApiLint.Proofs.Schema.Properties
import ApiLint.Proofs.Table
import ApiLint.Rule.PropertyConsistentType
import Mathlib.Data.Finset.Card

/-!
# Which schemas contradict themselves

A schema and its `allOf` branches, at any depth, give types to properties, and each property that
gets two different ones is reported where the schema is.  The elements of `allOf` lists are left to
the schema around them.  The rule knows them by their paths, and so it leaves out schemas whose
paths only end like theirs: the items of a property that is called `allOf`, for one.
-/

namespace ApiLint.Rule.PropertyConsistentType

open Schema

variable {schema target node : Json} {start : Path} {steps : List Step} {name type : String}

/-! ## Types of a property -/

/-- A schema, or one that its `allOf` branches lead to, gives a type to a property. -/
inductive GivesType (name type : String) : Json → Prop
  | own {schema : Json} (h : ownType? schema name = some type) : GivesType name type schema
  | branch {schema branch : Json} (hmem : branch ∈ Applicator.allOf.branches schema)
      (h : GivesType name type branch) : GivesType name type schema

/-- A schema and its `allOf` branches give two types to a property. -/
def IsContradicted (schema : Json) (name : String) : Prop :=
  ∃ first second, first ≠ second ∧ GivesType name first schema ∧ GivesType name second schema

theorem declaredTypes_eq (name : String) (schema : Json) :
    declaredTypes name schema = (ownType? schema name).toList ++
      (Applicator.allOf.branches schema).flatMap (declaredTypes name) := by
  rw [declaredTypes]
  simp only [List.flatMap_subtype, List.unattach_attach]

theorem mem_declaredTypes_iff : type ∈ declaredTypes name schema ↔ GivesType name type schema := by
  induction schema using branch_induction with
  | step schema ih =>
    rw [declaredTypes_eq, List.mem_append, Option.mem_toList, List.mem_flatMap]
    constructor
    · rintro (h | ⟨branch, hmem, h⟩)
      · exact .own h
      · exact .branch hmem ((ih _ branch hmem).1 h)
    · rintro (h | ⟨hmem, h⟩)
      · exact .inl h
      · exact .inr ⟨_, hmem, (ih _ _ hmem).2 h⟩

theorem mem_distinct_iff {texts : List String} : type ∈ distinct texts ↔ type ∈ texts := by
  rw [distinct, Table.mem_keys_ofList, List.map_map, Function.comp_def, List.map_id']

theorem one_lt_length_distinct_iff :
    1 < (distinct (declaredTypes name schema)).length ↔ IsContradicted schema name := by
  have nodup : (distinct (declaredTypes name schema)).Nodup := Table.nodup_keys _
  rw [← List.toFinset_card_of_nodup nodup, Finset.one_lt_card]
  simp only [List.mem_toFinset, mem_distinct_iff, mem_declaredTypes_iff]
  constructor
  · rintro ⟨first, hfirst, second, hsecond, hne⟩
    exact ⟨first, second, hne, hfirst, hsecond⟩
  · rintro ⟨first, second, hne, hfirst, hsecond⟩
    exact ⟨first, hfirst, second, hsecond, hne⟩

/-! ## Names of properties -/

theorem mem_ownProperties_of_ownType? (h : ownType? schema name = some type) :
    schema.isObj ∧ name ∈ (ownProperties schema).map Prod.fst := by
  obtain ⟨property, hproperty, -⟩ := Option.bind_eq_some_iff.1 h
  obtain ⟨properties, hproperties, hname⟩ := Option.bind_eq_some_iff.1 hproperty
  constructor
  · by_contra hobj
    simp [Json.get?_of_not_isObj hobj] at hproperties
  · cases properties with
    | obj members =>
      rw [ownProperties, Json.membersAt, hproperties]
      exact List.mem_map_of_mem (Entries.mem_of_lookup hname)
    | _ => cases hname

/-- The names that are gathered are enough to find all types by. -/
theorem mem_propertyNames_of_givesType (h : GivesType name type schema) :
    name ∈ propertyNames schema := by
  suffices ∃ node, IsPartOf node schema ∧ ownType? node name = some type by
    obtain ⟨node, hpart, hown⟩ := this
    obtain ⟨hobj, hname⟩ := mem_ownProperties_of_ownType? hown
    obtain ⟨visit, hvisit, rfl⟩ := exists_composedVisit_of_isPartOf hpart hobj
    exact mem_propertyNames_iff.2 ⟨visit, hvisit, hname⟩
  induction h with
  | own h => exact ⟨_, .self _, h⟩
  | branch hmem _ ih =>
    obtain ⟨node, hpart, hown⟩ := ih
    exact ⟨node, .branch hmem hpart, hown⟩

/-! ## Schemas that are compared -/

/-- The steps lead to an element of an `allOf` list, or the path ends as if they did. -/
def IsPassedOver (start : Path) (steps : List Step) : Prop :=
  (∃ before i, steps = before ++ [.branch .allOf i]) ∨
    ResemblesEntryOf Applicator.allOf.keyword start steps

theorem isEntryOf_allOf_iff :
    IsEntryOf Applicator.allOf.keyword steps ↔
      ∃ before i, steps = before ++ [.branch .allOf i] := by
  constructor
  · rintro ⟨before, step, rfl, hstep⟩
    cases step with
    | branch a i =>
      cases a with
      | allOf => exact ⟨before, i, rfl⟩
      | _ => simp [Step.holder?, Applicator.keyword] at hstep
    | _ => simp [Step.holder?, Applicator.keyword, propertiesKeyword] at hstep
  · rintro ⟨before, i, rfl⟩
    exact ⟨before, .branch .allOf i, rfl, rfl⟩

theorem isAllOfBranch_iff (positive : .negation ∉ steps) :
    isAllOfBranch ((Visit.mk steps node).path start) ↔ IsPassedOver start steps := by
  rw [isAllOfBranch, beq_iff_eq, parentKey?_path_eq_some_iff (by decide) positive,
    isEntryOf_allOf_iff, IsPassedOver]

/-! ## Reports -/

/-- The diagnostic about a property, with its types, at the end of steps. -/
def report (start : Path) (steps : List Step) (name : String) (types : List String) :
    Diagnostic :=
  let logical : Path := ⟨steps.flatMap Step.logical⟩
  ⟨s!"Property '{(logical.member name).dotted}' is declared with conflicting types: " ++
    ", ".intercalate types, start.join (steps.flatMap Step.segments)⟩

/-- What is reported of one of the schemas in a target. -/
def ofVisit (start : Path) (visit : Visit Step) : List Diagnostic :=
  if isAllOfBranch (visit.path start) then []
  else conflicts visit.node (visit.path start) visit.logical

/-- A branch has the logical place of the schema that it is a branch of. -/
theorem logical_append {outer inner : Visit Step} (h : ∀ step ∈ inner.steps, step.isBranch) :
    (Visit.mk (outer.steps ++ inner.steps) inner.node).logical = outer.logical := by
  have none : inner.steps.flatMap Step.logical = [] := by
    refine List.flatMap_eq_nil_iff.2 fun step hstep => ?_
    have hbranch := h step hstep
    cases step with
    | branch a i => rfl
    | _ => cases hbranch
  rw [Visit.logical, List.flatMap_append, none, List.append_nil, Visit.logical]

theorem diagnostics_eq (target : Json) (start : Path) :
    diagnostics target start = (wholeVisits target).flatMap (ofVisit start) := by
  rw [diagnostics, wholeVisits, List.flatMap_assoc]
  refine List.flatMap_congr fun outer _ => ?_
  rw [ofSchema, List.flatMap_map]
  refine List.flatMap_congr fun inner hinner => ?_
  rw [ofVisit, logical_append (at?_of_mem_composedVisits hinner).1,
    ← Visit.path_append outer.steps inner.steps inner.node start]
  rfl

theorem path_of_mem_ofVisit {visit : Visit Step} {d : Diagnostic} (hd : d ∈ ofVisit start visit) :
    d.path = visit.path start := by
  obtain ⟨-, hd⟩ := List.mem_ite_nil_left.1 hd
  obtain ⟨name, -, hname⟩ := List.mem_filterMap.1 hd
  rw [Option.ite_none_right_eq_some, Option.some.injEq] at hname
  rw [← hname.2]

/-- The diagnostics about a schema are one for each contradicted property. -/
theorem exists_contradicted_names (start : Path) (steps : List Step) (schema : Json) :
    ∃ names : List String, names.Nodup ∧ (∀ name, name ∈ names ↔ IsContradicted schema name) ∧
      conflicts schema (start.join (steps.flatMap Step.segments)) ⟨steps.flatMap Step.logical⟩ =
        names.map fun name => report start steps name (distinct (declaredTypes name schema)) := by
  refine ⟨(propertyNames schema).filter fun name =>
    1 < (distinct (declaredTypes name schema)).length, nodup_propertyNamesWhere.filter _,
    fun name => ?_, ?_⟩
  · rw [List.mem_filter, decide_eq_true_iff, one_lt_length_distinct_iff, and_iff_right_iff_imp]
    rintro ⟨first, second, -, hfirst, -⟩
    exact mem_propertyNames_of_givesType hfirst
  · rw [conflicts, ← List.filterMap_eq_map, List.filterMap_filter]
    refine List.filterMap_congr fun name _ => ?_
    simp only [decide_eq_true_iff]
    rfl

/-- What is reported at a schema is one diagnostic for each property that the schema and its `allOf`
branches give different types to, with these types in ascending order.  The elements of `allOf`
lists, and schemas whose paths end like theirs, are passed over, and nothing else is reported. -/
theorem reports_contradicted_properties (hkeys : target.hasDistinctKeys) (options : Json)
    (site : Site) :
    ∃ found, function.check target options site = .ok found ∧
      (∀ steps schema, .negation ∉ steps → at? target steps = some schema →
        (IsPassedOver site.path steps →
          found.filter (·.path = site.path.join (steps.flatMap Step.segments)) = []) ∧
        (¬IsPassedOver site.path steps → ∃ (names : List String) (types : String → List String),
          names.Nodup ∧ (∀ name, name ∈ names ↔ IsContradicted schema name) ∧
          (∀ name, (types name).Pairwise (· < ·) ∧
            ∀ type, type ∈ types name ↔ GivesType name type schema) ∧
          found.filter (·.path = site.path.join (steps.flatMap Step.segments)) =
            names.map fun name => report site.path steps name (types name))) ∧
      ∀ d ∈ found, ∃ steps schema, .negation ∉ steps ∧ at? target steps = some schema ∧
        ¬IsPassedOver site.path steps ∧ d.path = site.path.join (steps.flatMap Step.segments) := by
  refine ⟨diagnostics target site.path, rfl, fun steps schema positive hat => ?_, fun d hd => ?_⟩
  · have hvisit : ⟨steps, schema⟩ ∈ wholeVisits target :=
      (mem_wholeVisits_iff hkeys).2 ⟨positive, hat⟩
    have here : (diagnostics target site.path).filter
        (·.path = site.path.join (steps.flatMap Step.segments)) =
          ofVisit site.path ⟨steps, schema⟩ := by
      rw [diagnostics_eq]
      exact filter_path_visits (nodup_wholeVisits hkeys) hvisit fun _ _ => path_of_mem_ofVisit
    rw [here, ofVisit]
    refine ⟨fun hpassed => if_pos ((isAllOfBranch_iff positive).2 hpassed), fun hpassed => ?_⟩
    rw [if_neg (mt (isAllOfBranch_iff positive).1 hpassed)]
    obtain ⟨names, nodup, hnames, reports⟩ := exists_contradicted_names site.path steps schema
    refine ⟨names, fun name => distinct (declaredTypes name schema), nodup, hnames,
      fun name => ⟨Table.ascending _, fun type => ?_⟩, reports⟩
    rw [mem_distinct_iff, mem_declaredTypes_iff]
  · rw [diagnostics_eq] at hd
    obtain ⟨visit, hvisit, hd⟩ := List.mem_flatMap.1 hd
    obtain ⟨positive, hat⟩ := (mem_wholeVisits_iff hkeys).1 hvisit
    have compared := (List.mem_ite_nil_left.1 hd).1
    exact ⟨visit.steps, visit.node, positive, hat, mt (isAllOfBranch_iff positive).2 compared,
      path_of_mem_ofVisit hd⟩

/-- The items of a property with the name `allOf` give two types to a property, and nothing is
reported. -/
theorem silent_about_items_of_property_named_allOf :
    let types (type : String) : Json := .obj [("properties", .obj [("a", .obj
      [("type", .str type)])])]
    let items : Json := .obj [("allOf", .arr [types "string", types "integer"])]
    let target : Json := .obj [("properties", .obj [("allOf", .obj [("items", items)])])]
    function.check target .null (.of "types" target .root) = .ok [] ∧
      at? target [.property "allOf", .items] = some items ∧ IsContradicted items "a" := by
  intro types items target
  have first : GivesType "a" "string" items := .branch (List.mem_cons_self) (.own rfl)
  have second : GivesType "a" "integer" items :=
    .branch (List.mem_cons_of_mem _ List.mem_cons_self) (.own rfl)
  exact ⟨by decide +kernel, rfl, _, _, by decide, first, second⟩

/-- An alternative is compared with its own `allOf` branches. -/
theorem reported_at_alternative :
    let types (type : String) : Json := .obj [("properties", .obj [("a", .obj
      [("type", .str type)])])]
    let alternative : Json := .obj [("allOf", .arr [types "string", types "integer"])]
    let target : Json := .obj [("oneOf", .arr [alternative])]
    target.hasDistinctKeys ∧ ∃ found,
      function.check target .null (.of "types" target .root) = .ok found ∧
        ∃ d ∈ found, d.path = ⟨[.key "oneOf", .index 0]⟩ := by
  intro types alternative target
  have hkeys : target.hasDistinctKeys := by decide
  have compared : ¬IsPassedOver .root [.branch .oneOf 0] := by
    rintro (⟨before, i, h⟩ | ⟨h, -⟩ | ⟨before, step, h, hstep, -⟩)
    · simpa using congrArg List.getLast? h
    · cases h
    · have last := congrArg List.getLast? h
      obtain rfl | rfl := hstep <;> simp at last
  obtain ⟨found, hfound, reported, -⟩ :=
    reports_contradicted_properties hkeys .null (.of "types" target .root)
  obtain ⟨names, types, -, hnames, -, here⟩ :=
    (reported [.branch .oneOf 0] alternative (by decide) rfl).2 compared
  have contradicted : IsContradicted alternative "a" :=
    ⟨"string", "integer", by decide, .branch (List.mem_cons_self) (.own rfl),
      .branch (List.mem_cons_of_mem _ List.mem_cons_self) (.own rfl)⟩
  have nonempty : names.map (fun name => report .root [.branch .oneOf 0] name (types name)) ≠ [] :=
    List.ne_nil_of_mem (List.mem_map_of_mem ((hnames "a").2 contradicted))
  obtain ⟨d, hd⟩ := List.exists_mem_of_ne_nil _ (here.trans_ne nonempty)
  exact ⟨hkeys, found, hfound, d, (List.mem_filter.1 hd).1,
    of_decide_eq_true (List.mem_filter.1 hd).2⟩

end ApiLint.Rule.PropertyConsistentType
