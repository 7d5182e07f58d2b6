import ApiLint.Proofs.Json.DistinctKeys

/-!
# Nodes at paths

A node is located at a path when the path leads to it in a document without repeated keys.  From a
located node one goes on to its members and elements, each at the path extended by its step.
-/

namespace ApiLint

namespace Json

variable {node inner : Json} {key : String}

theorem follow?_key (h : node.get? key = some inner) : node.follow? [.key key] = some inner := by
  cases node <;> simp only [get?, reduceCtorEq] at h
  simp [step?, h]

theorem follow?_index {items : List Json} {index : Nat} (h : items[index]? = some inner) :
    (Json.arr items).follow? [.index index] = some inner := by
  simp [step?, h]

theorem get?_of_not_isObj (h : ¬node.isObj) : node.get? key = none := by
  cases node with
  | obj members => exact absurd rfl h
  | _ => rfl

theorem get?_eq_arr_of_itemsAt {index : Nat} (h : (node.itemsAt key)[index]? = some inner) :
    node.get? key = some (.arr (node.itemsAt key)) := by
  unfold itemsAt at h ⊢
  cases hget : node.get? key with
  | none => simp [hget] at h
  | some member =>
    cases member <;> simp [hget, items?] at h
    rfl

end Json

theorem Path.join_injective (path : Path) : Function.Injective path.join := fun _ _ h =>
  List.append_cancel_left (congrArg Path.segments h)

/-- The document repeats no key, and the path leads to the node. -/
structure Located (document : Json) (path : Path) (node : Json) : Prop where
  distinct : document.hasDistinctKeys
  found : path.resolve? document = some node

namespace Located

variable {document node inner : Json} {path : Path} {key : String}

theorem root (distinct : document.hasDistinctKeys) : Located document .root document :=
  ⟨distinct, rfl⟩

theorem hasDistinctKeys (h : Located document path node) : node.hasDistinctKeys :=
  Json.hasDistinctKeys_of_follow? h.distinct h.found

theorem join (h : Located document path node) {steps : List Segment}
    (hsteps : node.follow? steps = some inner) : Located document (path.join steps) inner :=
  ⟨h.distinct, by rw [Path.resolve?_join, h.found, Option.bind_some, hsteps]⟩

theorem member (h : Located document path node) (hget : node.get? key = some inner) :
    Located document (path.member key) inner :=
  h.join (Json.follow?_key hget)

theorem element {items : List Json} (h : Located document path (.arr items)) {index : Nat}
    (hitem : items[index]? = some inner) : Located document (path.element index) inner :=
  h.join (Json.follow?_index hitem)

theorem exists_member {α : Type} {f : Json → Option α} {value : α} (h : Located document path node)
    (hget : (node.get? key).bind f = some value) :
    ∃ inner, Located document (path.member key) inner := by
  obtain ⟨inner, hinner, -⟩ := Option.bind_eq_some_iff.1 hget
  exact ⟨inner, h.member hinner⟩

/-- An element of a member that is a list. -/
theorem itemAt (h : Located document path node) {index : Nat}
    (hitem : (node.itemsAt key)[index]? = some inner) :
    Located document ((path.member key).element index) inner :=
  (h.member (Json.get?_eq_arr_of_itemsAt hitem)).element hitem

/-- A member that is found in the list of members. -/
theorem member_of_mem {members : List (String × Json)} (h : Located document path (.obj members))
    (hmem : (key, inner) ∈ members) : Located document (path.member key) inner :=
  h.member (Json.get?_of_mem_members h.hasDistinctKeys hmem)

theorem member_of_mem_members? (h : Located document path node)
    (hmem : (key, inner) ∈ node.members?.getD []) : Located document (path.member key) inner := by
  cases node with
  | obj members => exact h.member_of_mem hmem
  | _ => cases hmem

end Located

end ApiLint
