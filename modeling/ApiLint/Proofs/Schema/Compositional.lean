import ApiLint.Proofs.Path.Replace
import ApiLint.Proofs.Schema.Lifting
import ApiLint.Proofs.Schema.Place
import ApiLint.Schema.Kind

/-!
# Compositional queries

The queries about composed schemas look at the own keywords of an object and, for what it is
composed of, only at the answers of the branches.  They never tell an `allOf` of one branch from the
branch.  So wherever a branch or a negation is replaced by a schema with the same answer, the answer
of the whole stays the same.
-/

namespace ApiLint.Schema

/-- The keywords that say what a schema is composed of. -/
def compositionKeywords : List String := negationKeyword :: Applicator.all.map Applicator.keyword

/-- Schemas with the same members, those that say what they are composed of left aside. -/
def SameOwn (a b : Json) : Prop := ∀ key, key ∉ compositionKeywords → a.get? key = b.get? key

/-- The schema with nothing but an `allOf` of one branch. -/
def wrapper (branch : Json) : Json := .obj [(Applicator.allOf.keyword, .arr [branch])]

/-- A query that looks at branches through their answers only, and through wrappers. -/
structure Compositional {β : Type} (query : Json → β) : Prop where
  /-- The answer depends on the own members and on the answers of the branches. -/
  congr : ∀ {a b : Json}, a.isObj → b.isObj → SameOwn a b →
    (∀ ap : Applicator, (ap.branches a).map query = (ap.branches b).map query) → query a = query b
  unwrap : ∀ branch, query (wrapper branch) = query branch

theorem sameOwn_wrapper (branch : Json) : SameOwn (wrapper branch) (.obj []) := by
  intro key hkey
  have hne : key ≠ Applicator.allOf.keyword := fun h => hkey (h ▸ by decide)
  exact (Entries.lookup_cons _ _ _ _).trans (if_neg hne)

theorem keyword_injective : Function.Injective Applicator.keyword := by
  intro a b h
  cases a <;> cases b <;> first | rfl | exact absurd h (by decide)

theorem branches_wrapper (a : Applicator) (branch : Json) :
    a.branches (wrapper branch) = if a = .allOf then [branch] else [] := by
  cases a <;> rfl

/-! ## Replacing a part -/

variable {β : Type} {query : Json → β} {schema inner new : Json}

theorem sameOwn_setStep (hobj : schema.isObj) {key : String} (hkey : key ∈ compositionKeywords)
    (new : Json) : SameOwn (schema.setStep (.key key) new) schema := by
  intro other hother
  rw [Json.get?_setStep_key hobj, if_neg fun (heq : other = key) => hother (heq ▸ hkey)]

theorem branches_setStep (hobj : schema.isObj) (key : String) (new : Json) (a : Applicator) :
    a.branches (schema.setStep (.key key) new) =
      if a.keyword = key then new.items?.getD [] else a.branches schema := by
  rw [Applicator.branches, Json.itemsAt, Json.get?_setStep_key hobj]
  split
  · rfl
  · rfl

theorem Compositional.setStep (h : Compositional query) (hobj : schema.isObj) {key : String}
    (hkey : key ∈ compositionKeywords)
    (hnew : ∀ a : Applicator, a.keyword = key →
      (new.items?.getD []).map query = (a.branches schema).map query) :
    query (schema.setStep (.key key) new) = query schema := by
  have hset := (Json.isObj_setStep schema (.key key) new).trans hobj
  refine h.congr hset hobj (sameOwn_setStep hobj hkey new) fun a => ?_
  rw [branches_setStep hobj]
  split
  · next ha => exact hnew a ha
  · rfl

/-- One step: in place of a branch only its answer counts, and a negation does not count. -/
theorem Compositional.replaceAt_step (h : Compositional query) {s : Step}
    (edge : (s, inner) ∈ (composition true).next schema) (hnew : query new = query inner) :
    query (schema.replaceAt s.segments new) = query schema := by
  obtain ⟨⟨hs, -⟩, hinner⟩ := mem_composition_iff.1 edge
  cases s with
  | branch a i =>
    have hobj : schema.isObj := isObj_of_mem_branches (List.mem_of_getElem? hinner)
    have same : ((a.branches schema).set i new).map query = (a.branches schema).map query := by
      obtain ⟨hi, heq⟩ := List.getElem?_eq_some_iff.1 hinner
      rw [List.map_set, hnew, ← heq, ← List.map_set, List.set_getElem_self]
    rw [Step.segments, Json.replaceAt_key_index hinner]
    refine h.setStep hobj (by cases a <;> decide) fun other hother => ?_
    rw [keyword_injective hother]
    exact same
  | negation =>
    have hobj : schema.isObj := by
      by_contra h
      simp [Step.inner?, Json.get?_of_not_isObj h] at hinner
    rw [Step.segments, Json.replaceAt_key hinner]
    exact h.setStep hobj (by decide) fun a ha => absurd ha (by cases a <;> decide)
  | _ => cases hs

/-- A part that is replaced by one with the same answer leaves the answer of the whole as it is. -/
theorem Compositional.replaceAt (h : Compositional query) {node : Json} {steps : List Step}
    (hleads : (composition true).Leads schema steps node) (hnew : query new = query node) :
    query (schema.replaceAt (steps.flatMap Step.segments) new) = query schema := by
  induction hleads with
  | here => exact hnew
  | step edge _ ih =>
    have hinner := (mem_composition_iff.1 edge).2
    rw [List.flatMap_cons, Json.replaceAt_append (Step.follow?_segments hinner)]
    exact h.replaceAt_step edge (ih hnew)

/-! ## Lifted tests -/

theorem compositional_lift (policy : Policy) {test : Json → Bool}
    (own : ∀ {a b : Json}, SameOwn a b → test a = test b) (empty : test (.obj []) = false) :
    Compositional (lift policy test) where
  congr := by
    intro a b ha hb hown hbranches
    have hany (branches : List Json) :
        branches.any (lift policy test) = (branches.map (lift policy test)).any id := by
      rw [List.any_map]
      rfl
    rw [lift_eq, lift_eq, ha, hb, own hown, hany, hany, hbranches, hbranches, hbranches]
  unwrap := by
    intro branch
    have none : policy.accepts [] = false := by cases policy <;> rfl
    have hobj : (wrapper branch).isObj = true := rfl
    rw [lift_eq, own (sameOwn_wrapper branch), empty]
    simp [hobj, branches_wrapper, none]

/-! ## Collections -/

theorem compositional_fold {σ : Type} {query : Json → σ → σ} {own : Json → σ → σ}
    (hquery : ∀ schema found, query schema found =
      if schema.isObj then
        (branches schema).foldl (fun found branch => query branch found) (own schema found)
      else found)
    (hown : ∀ {a b : Json}, SameOwn a b → own a = own b)
    (empty : ∀ found, own (.obj []) found = found) : Compositional query where
  congr := by
    intro a b ha hb hsame hbranches
    funext found
    have hfold (schema : Json) (found : σ) :
        (branches schema).foldl (fun found branch => query branch found) found =
          (Applicator.all.flatMap fun ap => (ap.branches schema).map query).foldl
            (fun found answer => answer found) found := by
      rw [← List.map_flatMap, List.foldl_map]
      rfl
    rw [hquery, hquery, if_pos ha, if_pos hb, hown hsame, hfold, hfold]
    simp only [hbranches]
  unwrap := by
    intro branch
    funext found
    rw [hquery, hown (sameOwn_wrapper branch), empty]
    rfl

/-! ## The queries -/

theorem fits_congr (kind : Kind) {a b : Json} (h : SameOwn a b) : kind.fits a = kind.fits b := by
  cases kind <;>
    simp only [Kind.fits, Kind.hasFormat, hasType, Json.strAt?, Json.has, Json.object?,
      h "type" (by decide), h "format" (by decide), h "items" (by decide), h "enum" (by decide),
      h propertiesKeyword (by decide), h "additionalProperties" (by decide)]

theorem ownProperties_congr {a b : Json} (h : SameOwn a b) : ownProperties a = ownProperties b := by
  simp only [ownProperties, Json.membersAt, h propertiesKeyword (by decide)]

theorem lists_congr (name : String) {a b : Json} (h : SameOwn a b) :
    lists name a = lists name b := by
  simp only [lists, Json.itemsAt, h "required" (by decide)]

theorem compositional_covers (kind : Kind) : Compositional kind.covers :=
  compositional_lift .strict (fits_congr kind) (by cases kind <;> rfl)

theorem compositional_defines (name : String) : Compositional (defines · name) :=
  compositional_lift .strict (fun h => by rw [ownProperties_congr h]) rfl

theorem compositional_lists (name : String) : Compositional (lift .strict (lists name)) :=
  compositional_lift .strict (lists_congr name) rfl

theorem addPropertyNames_eq (keep : String → Json → Bool) (schema : Json) (names : List String) :
    addPropertyNames keep names schema =
      if schema.isObj then
        (branches schema).foldl (fun names branch => addPropertyNames keep names branch)
          ((ownProperties schema).foldl
            (fun names (name, property) => if keep name property then addName names name else names)
            names)
      else names := by
  rw [addPropertyNames]
  simp only [List.foldl_subtype, List.unattach_attach]

theorem compositional_addPropertyNames (keep : String → Json → Bool) :
    Compositional fun schema names => addPropertyNames keep names schema := by
  refine compositional_fold (addPropertyNames_eq keep) (fun {a b} h => ?_) fun _ => rfl
  simp only [ownProperties_congr h]

theorem addPropertyFragments_eq (schema : Json) (found : Table (List Json)) :
    addPropertyFragments found schema =
      if schema.isObj then
        (branches schema).foldl (fun found branch => addPropertyFragments found branch)
          ((ownProperties schema).foldl
            (fun found (name, fragment) => addFragment found name fragment) found)
      else found := by
  rw [addPropertyFragments]
  simp only [List.foldl_subtype, List.unattach_attach]

theorem compositional_addPropertyFragments :
    Compositional fun schema found => addPropertyFragments found schema := by
  refine compositional_fold addPropertyFragments_eq (fun {a b} h => ?_) fun _ => rfl
  simp only [ownProperties_congr h]

/-- Two schemas have the same answers to all queries about kinds and properties that go through a
composition.  `isComposite` is not one of them: it looks for the composition keywords of the node
itself, and so it tells a wrapper from its branch. -/
structure AnswersAlike (a b : Json) : Prop where
  kind : Kind.of? a = Kind.of? b
  covers : ∀ kind : Kind, kind.covers a = kind.covers b
  isPrimitive : isPrimitive a = isPrimitive b
  defines : ∀ name, defines a name = defines b name
  requires : ∀ name, requires a name = requires b name
  propertyNames : propertyNames a = propertyNames b
  propertyFragments : propertyFragments a = propertyFragments b

/-- Schemas that no compositional query tells apart have the same answers. -/
theorem answersAlike_of_compositional {a b : Json}
    (h : ∀ {β : Type} {query : Json → β}, Compositional query → query a = query b) :
    AnswersAlike a b := by
  have covers (kind : Kind) : kind.covers a = kind.covers b := h (compositional_covers kind)
  have defines (name : String) : defines a name = defines b name := h (compositional_defines name)
  refine ⟨?_, covers, ?_, defines, fun name => ?_, ?_, ?_⟩
  · simp only [Kind.of?, covers]
  · simp only [isPrimitive, covers]
  · rw [requires, requires, defines, h (compositional_lists name)]
  · exact congrFun (h (compositional_addPropertyNames _)) []
  · exact congrFun (h compositional_addPropertyFragments) .empty

end ApiLint.Schema
