import ApiLint.Proofs.Schema.Properties
import ApiLint.Proofs.Table

/-!
# Definitions of properties

A schema and its branches define properties, and several of them may define the same one.  All
enumerations of properties can be read off the list of these definitions in pre-order.  The names
that pass a test are those of the definitions that pass, in the order in which each name passes
first; the table of fragments holds the definitions of each name in their order; and a name is
defined somewhere when a loose test finds it.
-/

namespace ApiLint.Schema

variable {schema : Json} {name : String} {keep : String → Json → Bool}

/-- The properties that a schema defines, its own before those of its branches. -/
def definitions (schema : Json) : List (String × Json) :=
  if schema.isObj then
    ownProperties schema ++ (branches schema).attach.flatMap fun ⟨branch, _⟩ => definitions branch
  else []
termination_by sizeOf schema
decreasing_by exact sizeOf_lt_of_mem_branches ‹_›

theorem definitions_of_isObj (hobj : schema.isObj) :
    definitions schema = ownProperties schema ++ (branches schema).flatMap definitions := by
  rw [definitions, if_pos hobj]
  simp only [List.flatMap_subtype, List.unattach_attach]

theorem definitions_of_not_isObj (hobj : ¬schema.isObj) : definitions schema = [] := by
  rw [definitions, if_neg hobj]

/-- The composed visits come to the definitions in their order. -/
theorem definitions_eq_flatMap (schema : Json) :
    definitions schema = (gatheredVisits true false schema).flatMap (ownProperties ·.node) := by
  induction schema using branch_induction with
  | step schema ih =>
    by_cases hobj : schema.isObj
    · have further (branch : Json) (hbranch : branch ∈ branches schema) : definitions branch =
          (gatheredVisits true false branch).flatMap (ownProperties ·.node) := by
        obtain ⟨a, -, hmem⟩ := List.mem_flatMap.1 hbranch
        exact ih a branch hmem
      have edges : branches schema = ((negationFirst false).next schema).map Prod.snd :=
        constituents_eq false schema
      rw [definitions_of_isObj hobj, List.flatMap_congr further, gatheredVisits_of_isObj _ _ hobj,
        List.flatMap_append, List.flatMap_assoc, edges, List.flatMap_map]
      simp [List.flatMap_map, Visit.after]
    · rw [definitions_of_not_isObj hobj, gatheredVisits_of_not_isObj _ _ hobj, List.flatMap_nil]

/-! ## Names -/

/-- The names of the definitions that pass a test. -/
def passingNames (keep : String → Json → Bool) (schema : Json) : List String :=
  ((definitions schema).filter fun definition => keep definition.1 definition.2).map Prod.fst

theorem propertyNamesWhere_eq_eraseDups (keep : String → Json → Bool) (schema : Json) :
    propertyNamesWhere keep schema = (passingNames keep schema).eraseDups := by
  rw [propertyNamesWhere_eq, passingNames, definitions_eq_flatMap, List.filter_flatMap,
    List.map_flatMap]
  rfl

theorem mem_propertyNamesWhere_iff :
    name ∈ propertyNamesWhere keep schema ↔
      ∃ fragment, (name, fragment) ∈ definitions schema ∧ keep name fragment := by
  rw [propertyNamesWhere_eq_eraseDups, List.mem_eraseDups, passingNames, List.mem_map]
  simp [List.mem_filter]

theorem pairwise_propertyNamesWhere (keep : String → Json → Bool) (schema : Json) :
    (propertyNamesWhere keep schema).Pairwise fun earlier later =>
      (passingNames keep schema).idxOf earlier < (passingNames keep schema).idxOf later := by
  rw [propertyNamesWhere_eq_eraseDups]
  exact FirstSeen.pairwise_idxOf_eraseDups _

theorem mem_propertyNames_iff_exists :
    name ∈ propertyNames schema ↔ ∃ fragment, (name, fragment) ∈ definitions schema := by
  rw [propertyNames, mem_propertyNamesWhere_iff]
  simp

/-- A name is listed when a loose test finds a schema that defines it. -/
theorem mem_propertyNames_iff_lift_loose :
    name ∈ propertyNames schema ↔
      lift .loose (fun node => (ownProperties node).any (·.1 == name)) schema := by
  rw [mem_propertyNames_iff, lift_loose_iff_exists_visit]
  simp [composedVisits]

theorem mem_propertyNames_of_defines (h : defines schema name) : name ∈ propertyNames schema :=
  mem_propertyNames_iff_lift_loose.2 (lift_loose_of_strict h)

/-! ## Fragments -/

theorem addPropertyFragments_eq_foldl (found : Table (List Json)) (schema : Json) :
    addPropertyFragments found schema = (definitions schema).foldl
      (fun found (name, fragment) => addFragment found name fragment) found := by
  induction schema using branch_induction generalizing found with
  | step schema ih =>
    rw [addPropertyFragments_eq]
    split
    · next hobj =>
      rw [definitions_of_isObj hobj, List.foldl_append, List.foldl_flatMap]
      refine List.foldl_ext _ _ _ fun found branch hbranch => ?_
      obtain ⟨a, -, hmem⟩ := List.mem_flatMap.1 hbranch
      exact ih a branch hmem found
    · next hobj => rw [definitions_of_not_isObj hobj, List.foldl_nil]

/-- The fragments of the definitions of one property. -/
def fragmentsOf (name : String) (definitions : List (String × Json)) : List Json :=
  (definitions.filter (·.1 == name)).map Prod.snd

theorem mem_fragmentsOf_iff {definitions : List (String × Json)} {fragment : Json} :
    fragment ∈ fragmentsOf name definitions ↔ (name, fragment) ∈ definitions := by
  simp [fragmentsOf, List.mem_filter]

theorem get?_addFragment (found : Table (List Json)) (other : String) (fragment : Json)
    (name : String) :
    (addFragment found other fragment).get? name =
      if name = other then some ((found.get? other).getD [] ++ [fragment]) else found.get? name :=
  Table.get?_update found other _ name

/-- A table to which fragments are added one by one holds those of each name in their order. -/
theorem get?_foldl_addFragment (definitions : List (String × Json)) (name : String) :
    (definitions.foldl (fun found (name, fragment) => addFragment found name fragment)
        .empty).get? name =
      if fragmentsOf name definitions = [] then none
      else some (fragmentsOf name definitions) := by
  induction definitions using List.reverseRecOn with
  | nil => rfl
  | append_singleton definitions definition ih =>
    obtain ⟨other, fragment⟩ := definition
    have last : fragmentsOf name (definitions ++ [(other, fragment)]) =
        fragmentsOf name definitions ++ if name = other then [fragment] else [] := by
      by_cases hname : name = other
      · simp [fragmentsOf, List.filter_append, hname]
      · simp [fragmentsOf, List.filter_append, hname, Ne.symm hname]
    rw [List.foldl_append, List.foldl_cons, List.foldl_nil, get?_addFragment, last]
    by_cases hname : name = other
    · subst hname
      rw [if_pos rfl, if_pos rfl, ih]
      by_cases hnone : fragmentsOf name definitions = [] <;> simp [hnone]
    · rw [if_neg hname, if_neg hname, List.append_nil, ih]

theorem get?_propertyFragments (schema : Json) (name : String) :
    (propertyFragments schema).get? name =
      if fragmentsOf name (definitions schema) = [] then none
      else some (fragmentsOf name (definitions schema)) := by
  rw [propertyFragments, addPropertyFragments_eq_foldl, get?_foldl_addFragment]

theorem get?_propertyFragments_eq_some_iff {fragments : List Json} :
    (propertyFragments schema).get? name = some fragments ↔
      fragments ≠ [] ∧ fragments = fragmentsOf name (definitions schema) := by
  rw [get?_propertyFragments]
  split
  · next hnone => simp [hnone]
  · next hsome =>
    rw [Option.some.injEq, eq_comm]
    exact ⟨fun h => ⟨h ▸ hsome, h⟩, fun h => h.2⟩

theorem mem_keys_propertyFragments_iff :
    name ∈ (propertyFragments schema).keys ↔ name ∈ propertyNames schema := by
  simp only [Table.mem_keys_iff, get?_propertyFragments_eq_some_iff, mem_propertyNames_iff_exists,
    ← mem_fragmentsOf_iff]
  exact ⟨fun ⟨_, hne, h⟩ => List.exists_mem_of_ne_nil _ (h ▸ hne),
    fun ⟨_, hmem⟩ => ⟨_, List.ne_nil_of_mem hmem, rfl⟩⟩

/-! ## Agreement -/

/-- A name is listed for a test, once, when one of its fragments passes, be it the first or a later
one, and names stand in the order in which their first passing fragments do.  Without a test the
names are those that have fragments, and those that a loose test finds; the fragments are all
definitions of a name.  A property that is guaranteed to be defined is among them. -/
theorem property_enumerations_agree (keep : String → Json → Bool) (schema : Json) :
    (propertyNamesWhere keep schema).Nodup ∧
      (∀ name, name ∈ propertyNamesWhere keep schema ↔
        ∃ fragments, (propertyFragments schema).get? name = some fragments ∧
          ∃ fragment ∈ fragments, keep name fragment) ∧
      ((propertyNamesWhere keep schema).Pairwise fun earlier later =>
        (passingNames keep schema).idxOf earlier < (passingNames keep schema).idxOf later) ∧
      (∀ name fragments, (propertyFragments schema).get? name = some fragments ↔
        fragments ≠ [] ∧ fragments = fragmentsOf name (definitions schema)) ∧
      (∀ name, name ∈ (propertyFragments schema).keys ↔ name ∈ propertyNames schema) ∧
      (∀ name, name ∈ propertyNames schema ↔
        lift .loose (fun node => (ownProperties node).any (·.1 == name)) schema) ∧
      ∀ name, (defines schema name → name ∈ propertyNames schema) ∧
        (requires schema name → name ∈ propertyNames schema) := by
  refine ⟨nodup_propertyNamesWhere, fun name => ?_, pairwise_propertyNamesWhere keep schema,
    fun _ _ => get?_propertyFragments_eq_some_iff, fun _ => mem_keys_propertyFragments_iff,
    fun _ => mem_propertyNames_iff_lift_loose, fun name => ⟨mem_propertyNames_of_defines, ?_⟩⟩
  · rw [mem_propertyNamesWhere_iff]
    constructor
    · rintro ⟨fragment, hfragment, hkeep⟩
      have hmem := mem_fragmentsOf_iff.2 hfragment
      exact ⟨_, get?_propertyFragments_eq_some_iff.2 ⟨List.ne_nil_of_mem hmem, rfl⟩, fragment,
        hmem, hkeep⟩
    · rintro ⟨fragments, hget, fragment, hmem, hkeep⟩
      obtain ⟨-, rfl⟩ := get?_propertyFragments_eq_some_iff.1 hget
      exact ⟨fragment, mem_fragmentsOf_iff.1 hmem, hkeep⟩
  · intro h
    exact mem_propertyNames_of_defines (Bool.and_eq_true_iff.1 h).2

/-- A name whose first fragment fails the test is listed for its second one. -/
theorem mem_propertyNamesWhere_of_later_fragment :
    let bare : Json := .obj [("properties", .obj [("id", .obj []), ("name", .obj [])])]
    let typed : Json := .obj [("properties", .obj [("id", .obj [("type", .str "string")])])]
    let schema : Json := .obj [("anyOf", .arr [bare, typed])]
    let isTyped (_ : String) (fragment : Json) : Bool := fragment.has "type"
    (propertyFragments schema).get? "id" = some [.obj [], .obj [("type", .str "string")]] ∧
      "id" ∈ propertyNamesWhere isTyped schema ∧ defines schema "id" ∧
      "id" ∈ propertyNames schema := by
  intro bare typed schema isTyped
  obtain ⟨-, listed, -, fragments, -, -, guaranteed⟩ := property_enumerations_agree isTyped schema
  have ids : fragmentsOf "id" (definitions schema) =
      [.obj [], .obj [("type", .str "string")]] := by
    have whole : definitions schema = definitions bare ++ (definitions typed ++ []) :=
      definitions_of_isObj rfl
    have first : definitions bare = [("id", .obj []), ("name", .obj [])] := definitions_of_isObj rfl
    have second : definitions typed = [("id", .obj [("type", .str "string")])] :=
      definitions_of_isObj rfl
    rw [whole, first, second]
    rfl
  have found := (fragments "id" _).2 ⟨by simp, ids.symm⟩
  have hdefines : defines schema "id" := by decide +kernel
  exact ⟨found, (listed "id").2 ⟨_, found, .obj [("type", .str "string")], by simp, rfl⟩, hdefines,
    (guaranteed "id").1 hdefines⟩

end ApiLint.Schema
