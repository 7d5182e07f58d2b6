import ApiLint.Proofs.Schema.Definitions

/-!
# Rearranged branches

Whoever writes a schema may put the branches under a keyword in any order and may write a branch
more than once, at any depth of the composition.  A query that takes the answers of the branches as
a set does not notice, and all queries about kinds and properties are of this sort, the list of
property names up to its order.
-/

namespace ApiLint.Schema

/-! ## Rearranging -/

/-- A list holds what another one holds, in any order, and some of it more often. -/
def IsRearranged (items others : List Json) : Prop :=
  ∃ repeated, repeated ⊆ items ∧ others.Perm (items ++ repeated)

theorem IsRearranged.mem_iff {items others : List Json} (h : IsRearranged items others)
    {item : Json} : item ∈ others ↔ item ∈ items := by
  obtain ⟨repeated, hsub, hperm⟩ := h
  rw [hperm.mem_iff, List.mem_append]
  exact or_iff_left_of_imp fun hitem => hsub hitem

/-- What becomes of a schema when lists of branches are rearranged, one after the other, at any
depth of its composition. -/
inductive Rearrangement (schema : Json) : Json → Prop
  | refl : Rearrangement schema schema
  | list {other node : Json} {steps : List Step} {a : Applicator} {items others : List Json}
      (h : Rearrangement schema other) (hsteps : ∀ step ∈ steps, step.isBranch)
      (hnode : at? other steps = some node) (hitems : node.get? a.keyword = some (.arr items))
      (hothers : IsRearranged items others) :
      Rearrangement schema
        (other.replaceAt (steps.flatMap Step.segments ++ [.key a.keyword]) (.arr others))

/-! ## Answers as a set -/

/-- A query that takes the answers of the branches under a keyword as a set. -/
structure Unordered {β : Type} (query : Json → β) : Prop extends Compositional query where
  congr_set : ∀ {a b : Json}, a.isObj → b.isObj → SameOwn a b →
    (∀ (ap : Applicator) (answer : β), answer ∈ (ap.branches a).map query ↔
      answer ∈ (ap.branches b).map query) → query a = query b

variable {β : Type} {query : Json → β} {schema other node : Json}

/-- A list of branches may be rearranged where it stands. -/
theorem Unordered.setStep (h : Unordered query) (hobj : schema.isObj) {a : Applicator}
    {items others : List Json} (hitems : schema.get? a.keyword = some (.arr items))
    (hothers : IsRearranged items others) :
    query (schema.setStep (.key a.keyword) (.arr others)) = query schema := by
  have hset := (Json.isObj_setStep schema (.key a.keyword) (.arr others)).trans hobj
  have hkey : a.keyword ∈ compositionKeywords := by cases a <;> decide
  refine h.congr_set hset hobj (sameOwn_setStep hobj hkey _) fun ap answer => ?_
  rw [branches_setStep hobj]
  split
  · next heq =>
    have hbranches : ap.branches schema = items := by
      rw [Applicator.branches, Json.itemsAt, heq, hitems]
      rfl
    simp only [hbranches, Json.items?, Option.getD_some, List.mem_map, hothers.mem_iff]
  · rfl

/-- A query that takes answers as a set has the same answer for a rearranged schema. -/
theorem Rearrangement.query_eq (hr : Rearrangement schema other) (h : Unordered query) :
    query other = query schema := by
  induction hr with
  | refl => rfl
  | @list other node steps a items others _ hsteps hnode hitems hothers ih =>
    have hcomposition (step : Step) (hstep : step ∈ steps) : step.isComposition := by
      have hbranch := hsteps step hstep
      cases step <;> first | rfl | cases hbranch
    have hleads := (leads_of_at? hcomposition hnode).of_only
    rw [Json.replaceAt_append (follow?_of_at? hnode), Json.replaceAt_key hitems, ← ih]
    exact h.replaceAt hleads (h.setStep (isObj_of_at? hnode).2 hitems hothers)

/-! ## The queries -/

theorem Policy.accepts_congr {policy : Policy} {answers others : List Bool}
    (h : ∀ answer, answer ∈ answers ↔ answer ∈ others) :
    policy.accepts answers = policy.accepts others := by
  have hempty : answers = [] ↔ others = [] := by
    simp only [List.eq_nil_iff_forall_not_mem, h]
  rw [Bool.eq_iff_iff]
  cases policy with
  | strict => simp [accepts, h, hempty]
  | loose => simp [accepts, h]

theorem unordered_lift (policy : Policy) {test : Json → Bool}
    (own : ∀ {a b : Json}, SameOwn a b → test a = test b) (empty : test (.obj []) = false) :
    Unordered (lift policy test) where
  toCompositional := compositional_lift policy own empty
  congr_set := by
    intro a b ha hb hown hset
    have hany (branches : List Json) : branches.any (lift policy test) =
        Policy.loose.accepts (branches.map (lift policy test)) := by
      rw [Policy.accepts, List.any_map]
      rfl
    rw [lift_eq, lift_eq, ha, hb, own hown, hany, hany, Policy.accepts_congr (hset .allOf),
      Policy.accepts_congr (hset .oneOf), Policy.accepts_congr (hset .anyOf)]

theorem unordered_covers (kind : Kind) : Unordered kind.covers :=
  unordered_lift .strict (fits_congr kind) (by cases kind <;> rfl)

theorem unordered_lists (name : String) : Unordered (lift .strict (lists name)) :=
  unordered_lift .strict (lists_congr name) rfl

/-- To find a definition of a property, be it in all alternatives or in any branch. -/
theorem unordered_lift_ownProperties (policy : Policy) (name : String) :
    Unordered (lift policy fun node => (ownProperties node).any (·.1 == name)) :=
  unordered_lift policy (fun h => by rw [ownProperties_congr h]) rfl

/-! ## Rearranged schemas -/

theorem Rearrangement.has_eq (h : Rearrangement schema other) (key : String) :
    other.has key = schema.has key := by
  induction h with
  | refl => rfl
  | @list other node steps a items others _ _ _ _ _ ih =>
    rw [← ih]
    cases steps with
    | nil => exact Json.has_replaceAt other a.keyword [] _ key
    | cons step rest => cases step <;> exact Json.has_replaceAt other _ _ _ key

/-- Whatever lists of branches are rearranged, at whatever depths, the schema is of the same kinds
as before, guarantees the same properties, defined or required, and names the same ones.  It keeps
its keywords, so it is composite when it was. -/
theorem rearrangement_keeps_answers (h : Rearrangement schema other) :
    Kind.of? other = Kind.of? schema ∧
      (∀ kind : Kind, kind.covers other = kind.covers schema) ∧
      isPrimitive other = isPrimitive schema ∧ isComposite other = isComposite schema ∧
      (∀ name, defines other name = defines schema name) ∧
      (∀ name, requires other name = requires schema name) ∧
      ∀ name, name ∈ propertyNames other ↔ name ∈ propertyNames schema := by
  have covers (kind : Kind) : kind.covers other = kind.covers schema :=
    h.query_eq (unordered_covers kind)
  have defines (name : String) : defines other name = defines schema name :=
    h.query_eq (unordered_lift_ownProperties .strict name)
  refine ⟨?_, covers, ?_, ?_, defines, fun name => ?_, fun name => ?_⟩
  · simp only [Kind.of?, covers]
  · simp only [isPrimitive, covers]
  · simp only [isComposite, h.has_eq]
  · rw [requires, requires, defines, h.query_eq (unordered_lists name)]
  · rw [mem_propertyNames_iff_lift_loose, mem_propertyNames_iff_lift_loose,
      h.query_eq (unordered_lift_ownProperties .loose name)]

/-- Alternatives in another order, one of them twice, and the branches of the other one rearranged
before. -/
theorem of?_of_rearranged_alternatives :
    let whole (format : String) : Json :=
      .obj [("type", .str "integer"), ("format", .str format)]
    let named : Json := .obj [("properties", .obj [("id", .obj [])])]
    let both (branches : List Json) : Json := .obj [("allOf", .arr branches)]
    let schema : Json := .obj [("oneOf", .arr [both [whole "int32", named], whole "int64"])]
    let other : Json := .obj [("oneOf", .arr
      [whole "int64", both [named, whole "int32", named], whole "int64"])]
    Rearrangement schema other ∧ Kind.of? schema = some .integer ∧
      Kind.of? other = some .integer ∧ "id" ∈ propertyNames other := by
  intro whole named both schema other
  have hstep : ∀ step ∈ [Step.branch .oneOf 0], step.isBranch := by decide
  have inner : Rearrangement schema (.obj [("oneOf", .arr
      [both [named, whole "int32", named], whole "int64"])]) :=
    .list (a := .allOf) .refl hstep rfl rfl ⟨[named], by simp, .swap _ _ _⟩
  have outer : Rearrangement schema other :=
    .list (a := .oneOf) inner (List.forall_mem_nil _) rfl rfl
      ⟨[whole "int64"], by simp, .swap _ _ _⟩
  have hkind : Kind.of? schema = some .integer := by decide +kernel
  have hname : "id" ∈ propertyNames schema := by decide +kernel
  obtain ⟨kind, -, -, -, -, -, names⟩ := rearrangement_keeps_answers outer
  exact ⟨outer, hkind, kind.trans hkind, (names "id").2 hname⟩

end ApiLint.Schema
