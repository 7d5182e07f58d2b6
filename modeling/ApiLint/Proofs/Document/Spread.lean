import ApiLint.Proofs.Document.Place
import Mathlib.Data.List.Perm.Basic

/-!
# Targets spread over places

Targets are spread over kinds of places when they are the nodes at these places, in any order.  The
ways in which targets are made from other targets keep this: lists put together, targets of targets,
and targets that count in some versions only.
-/

namespace ApiLint.Document

/-- Places of one kind inside places of another kind. -/
def Place.under (outer inner : List Place) : List Place :=
  outer.flatMap fun first => inner.map (first ++ ·)

open Place

/-- The places, if they count. -/
def onlyIf (counts : Bool) (places : List Place) : List Place := if counts then places else []

/-! ## Targets spread over places -/

variable {document : Json} {target : Target} {targets more : List Target}
  {places others : List Place}

/-- The targets are the nodes at these kinds of places seen from a target, in some order. -/
def SpreadOver (targets : List Target) (places : List Place) (target : Target) : Prop :=
  targets.Perm (places.flatMap (below · target))

/-- A look through a list in the outer loop or in the inner one finds the same. -/
theorem flatMap_swap_perm {α β γ : Type} (outer : List α) (inner : List β)
    (f : α → β → List γ) :
    (outer.flatMap fun a => inner.flatMap (f a)).Perm
      (inner.flatMap fun b => outer.flatMap (f · b)) := by
  induction outer with
  | nil => simp
  | cons a rest ih =>
    simp only [List.flatMap_cons]
    exact (ih.append_left _).trans (List.flatMap_append_perm inner _ _)

namespace SpreadOver

theorem append (h : SpreadOver targets places target) (hmore : SpreadOver more others target) :
    SpreadOver (targets ++ more) (places ++ others) target := by
  rw [SpreadOver, List.flatMap_append]
  exact List.Perm.append h hmore

theorem onlyIf (counts : Bool) (h : SpreadOver targets places target) :
    SpreadOver (if counts then targets else []) (onlyIf counts places) target := by
  cases counts
  · exact .refl _
  · exact h

theorem perm (h : SpreadOver targets places target) (hplaces : places.Perm others) :
    SpreadOver targets others target :=
  h.trans (hplaces.flatMap_right _)

theorem flatMap {f : Target → List Target} (h : SpreadOver targets places target)
    (hf : ∀ inner ∈ targets, SpreadOver (f inner) others inner) :
    SpreadOver (targets.flatMap f) (under places others) target := by
  have inside : (targets.flatMap f).Perm
      (places.flatMap fun place => (below place target).flatMap fun inner =>
        others.flatMap (below · inner)) := by
    rw [← List.flatMap_assoc]
    exact (List.Perm.flatMap_left _ hf).trans (List.Perm.flatMap_right _ h)
  refine inside.trans ?_
  simp only [under, List.flatMap_assoc, List.flatMap_map, below_append]
  exact List.Perm.flatMap_left _ fun place _ => flatMap_swap_perm _ _ _

end SpreadOver

/-! ## Slots as look-ups -/

theorem Slot.below_anyKey (target : Target) :
    Slot.anyKey.below target = (target.node.members?.getD []).filterMap fun (name, value) =>
      if value.isObj then some ⟨value, target.path.member name⟩ else none := by
  cases hnode : target.node <;>
    simp [below, contents, hnode, Json.members?, admits, allows, wantsObject, List.filterMap_map,
      Path.member]

theorem Slot.below_method (target : Target) :
    Slot.method.below target = (target.node.members?.getD []).filterMap fun (name, value) =>
      if name ∈ methods ∧ value.isObj then some ⟨value, target.path.member name⟩ else none := by
  cases hnode : target.node <;>
    simp [below, contents, hnode, Json.members?, admits, allows, wantsObject, List.filterMap_map,
      Path.member]

theorem Slot.below_anyIndex (target : Target) :
    Slot.anyIndex.below target = (target.node.items?.getD []).zipIdx.filterMap fun (item, i) =>
      if item.isObj then some ⟨item, target.path.element i⟩ else none := by
  cases hnode : target.node <;>
    simp [below, contents, hnode, Json.items?, admits, allows, wantsObject, List.filterMap_map,
      Path.element]

theorem Slot.below_eq_toList {slot : Slot} {found : Option Target} (h : target.IsIn document)
    (hmem : ∀ inner, inner ∈ slot.below target ↔ found = some inner) :
    slot.below target = found.toList := by
  have nodup : (slot.below target).Nodup := by
    refine (pairwise_slot_below slot h.hasDistinctKeys).imp ?_
    rintro a _ ⟨s, t, hne, hs, ht⟩ rfl
    simp [hs, Path.child, Path.join, hne] at ht
  have hperm : (slot.below target).Perm found.toList := by
    refine (List.perm_ext_iff_of_nodup nodup (by cases found <;> simp)).2 fun inner => ?_
    rw [hmem, Option.mem_toList]
  cases found with
  | none => exact hperm.eq_nil
  | some inner => exact List.perm_singleton.1 hperm

theorem Slot.below_key (h : target.IsIn document) (key : String) :
    (Slot.key key).below target =
      ((target.node.get? key).map fun node => ⟨node, target.path.member key⟩).toList := by
  refine below_eq_toList h fun inner => ?_
  simp only [mem_slot_below_iff h.hasDistinctKeys, admits_key_iff, Option.map_eq_some_iff]
  constructor
  · rintro ⟨_, hpath, hchild, rfl⟩
    exact ⟨inner.node, by rwa [Json.child?_key] at hchild, by rw [Path.member, ← hpath]⟩
  · rintro ⟨node, hnode, rfl⟩
    exact ⟨.key key, rfl, by rwa [Json.child?_key], rfl⟩

theorem Slot.below_object (h : target.IsIn document) (key : String) :
    (Slot.object key).below target = (target.member? key).toList := by
  refine below_eq_toList h fun inner => ?_
  simp only [mem_slot_below_iff h.hasDistinctKeys, admits_object_iff, Target.member?, Json.object?,
    Option.map_eq_some_iff, Option.filter_eq_some_iff]
  constructor
  · rintro ⟨_, hpath, hchild, rfl, hobj⟩
    exact ⟨inner.node, ⟨by rwa [Json.child?_key] at hchild, hobj⟩, by rw [Path.member, ← hpath]⟩
  · rintro ⟨node, ⟨hnode, hobj⟩, rfl⟩
    exact ⟨.key key, rfl, by rwa [Json.child?_key], rfl, hobj⟩

/-! ## Entries, elements and members -/

theorem spreadOver_slot (slot : Slot) (target : Target) :
    SpreadOver (slot.below target) [[slot]] target := by
  rw [SpreadOver, List.flatMap_singleton, below_singleton]

theorem spreadOver_member? (h : target.IsIn document) (key : String) :
    SpreadOver (target.member? key).toList [[.object key]] target := by
  rw [← Slot.below_object h]
  exact spreadOver_slot _ _

theorem resolve?_member (h : target.IsIn document) {key : String}
    (hkey : Segment.indexOfKey? key = none) :
    (target.path.member key).resolve? document = target.node.get? key := by
  rw [Path.member, Path.child, Path.resolve?_join, h.found]
  cases target.node <;> simp [Json.step?, Json.get?, hkey]

/-- What reads the targets of a slot wherever a path leads finds those at the end of keys. -/
theorem spreadOver_join {read : Path → List Target} {slot : Slot}
    (hread : ∀ target : Target, target.IsIn document → read target.path = slot.below target)
    (hnone : ∀ path : Path, path.resolve? document = none → read path = [])
    (h : target.IsIn document) {keys : List String}
    (hkeys : ∀ key ∈ keys, Segment.indexOfKey? key = none) :
    SpreadOver (read (target.path.join (keys.map .key))) [keys.map .key ++ [slot]] target := by
  induction keys generalizing target with
  | nil =>
    rw [List.map_nil, Path.join_nil, hread target h]
    exact spreadOver_slot slot target
  | cons key rest ih =>
    rw [List.forall_mem_cons] at hkeys
    have hresolve := resolve?_member h hkeys.1
    have hpath : target.path.join ((key :: rest).map .key) =
        (target.path.member key).join (rest.map .key) := by
      rw [Path.member, Path.child, Path.join_join, List.map_cons, List.singleton_append]
    rw [hpath, SpreadOver, List.flatMap_singleton, List.map_cons, List.cons_append, Place.below,
      Slot.below_key h]
    cases hget : target.node.get? key with
    | none =>
      rw [hget] at hresolve
      rw [hnone, Option.map_none]
      · rfl
      · rw [Path.resolve?_join, hresolve, Option.bind_none]
    | some inner =>
      have hin : Target.IsIn ⟨inner, target.path.member key⟩ document := h.member hget
      have hinner := ih hin hkeys.2
      rw [SpreadOver, List.flatMap_singleton] at hinner
      rwa [Option.map_some, Option.toList_some, List.flatMap_singleton]

theorem entries_eq_nil {path : Path} (h : path.resolve? document = none) :
    entries document path = [] := by
  rw [entries, h]
  rfl

theorem elements_eq_nil {path : Path} (h : path.resolve? document = none) :
    elements document path = [] := by
  rw [elements, h]
  rfl

theorem spreadOver_entries (h : target.IsIn document) (keys : List String)
    (hkeys : ∀ key ∈ keys, Segment.indexOfKey? key = none) :
    SpreadOver (entries document (target.path.join (keys.map .key))) [keys.map .key ++ [.anyKey]]
      target := by
  refine spreadOver_join (fun inner hinner => ?_) (fun _ => entries_eq_nil) h hkeys
  rw [entries, hinner.found, Slot.below_anyKey]
  rfl

theorem spreadOver_elements (h : target.IsIn document) (keys : List String)
    (hkeys : ∀ key ∈ keys, Segment.indexOfKey? key = none) :
    SpreadOver (elements document (target.path.join (keys.map .key))) [keys.map .key ++ [.anyIndex]]
      target := by
  refine spreadOver_join (fun inner hinner => ?_) (fun _ => elements_eq_nil) h hkeys
  rw [elements, hinner.found, Slot.below_anyIndex]
  rfl

end ApiLint.Document
