import ApiLint.Proofs.Path.Located

/-!
# Replacing a node

A node that a path leads to can be replaced by another value.  The path then leads to the new
value, and a member that is not on the path stays what it was.
-/

namespace ApiLint.Json

variable {node inner new : Json}

/-- Sets what stands one step below a node. -/
def setStep (node : Json) (step : Segment) (new : Json) : Json :=
  match step, node with
  | .key name, .obj members => .obj (insert members name new)
  | .key name, .arr items =>
    (Segment.indexOfKey? name).elim (.arr items) fun i => .arr (items.set i new)
  | .index i, .arr items => .arr (items.set i new)
  | .index i, .obj members => .obj (insert members (toString i) new)
  | _, other => other

/-- Replaces the node that steps lead to, if there is one. -/
def replaceAt (node : Json) : List Segment → Json → Json
  | [], new => new
  | step :: rest, new =>
    match node.step? step with
    | some inner => node.setStep step (inner.replaceAt rest new)
    | none => node

/-! ## One step -/

theorem lookup_map_set (members : List (String × Json)) (key : String) (value : Json)
    (other : String) :
    (members.map fun m => if m.1 == key then (key, value) else m).lookup other =
      if other = key then (members.lookup key).map fun _ => value else members.lookup other := by
  induction members with
  | nil => simp
  | cons m rest ih =>
    obtain ⟨name, first⟩ := m
    by_cases hname : name = key
    · subst hname
      rw [List.map_cons, if_pos (beq_self_eq_true name), Entries.lookup_cons, ih]
      by_cases hother : other = name <;> simp [Entries.lookup_cons, hother]
    · rw [List.map_cons, if_neg (by simpa using hname), Entries.lookup_cons, ih]
      by_cases hother : other = key
      · simp [Entries.lookup_cons, hother, Ne.symm hname]
      · simp [Entries.lookup_cons, hother]

theorem lookup_insert (members : List (String × Json)) (key : String) (value : Json)
    (other : String) :
    (insert members key value).lookup other =
      if other = key then some value else members.lookup other := by
  unfold insert
  split
  · next hold =>
    rw [← Entries.isSome_lookup, Option.isSome_iff_exists] at hold
    obtain ⟨previous, hprevious⟩ := hold
    rw [lookup_map_set, hprevious, Option.map_some]
  · next hnew =>
    rw [← Entries.isSome_lookup, Option.not_isSome_iff_eq_none] at hnew
    rw [List.lookup_append, Entries.lookup_cons]
    by_cases hother : other = key <;> simp [hother, hnew]

theorem step?_setStep {step : Segment} (h : node.step? step = some inner) :
    (node.setStep step new).step? step = some new := by
  cases step with
  | key name =>
    cases node with
    | obj members => exact (lookup_insert members name new name).trans (if_pos rfl)
    | arr items =>
      obtain ⟨i, hi, hitem⟩ := Option.bind_eq_some_iff.1 h
      have hlt := (List.getElem?_eq_some_iff.1 hitem).1
      simp [setStep, step?, hi, hlt]
    | _ => cases h
  | index i =>
    cases node with
    | obj members => exact (lookup_insert members (toString i) new (toString i)).trans (if_pos rfl)
    | arr items => exact List.getElem?_set_self (List.getElem?_eq_some_iff.1 h).1
    | _ => cases h

theorem get?_setStep_key (hobj : node.isObj) (key : String) (new : Json) (other : String) :
    (node.setStep (.key key) new).get? other =
      if other = key then some new else node.get? other := by
  cases node with
  | obj members => exact lookup_insert members key new other
  | _ => cases hobj

theorem isObj_setStep (node : Json) (step : Segment) (new : Json) :
    (node.setStep step new).isObj = node.isObj := by
  cases step with
  | key name =>
    cases node with
    | arr items => cases h : Segment.indexOfKey? name <;> simp [setStep, h, isObj]
    | _ => rfl
  | index i => cases node <;> rfl

/-! ## Many steps -/

theorem replaceAt_cons {step : Segment} (h : node.step? step = some inner)
    (rest : List Segment) (new : Json) :
    node.replaceAt (step :: rest) new = node.setStep step (inner.replaceAt rest new) := by
  rw [replaceAt, h]

theorem replaceAt_append {first : List Segment} (h : node.follow? first = some inner)
    (second : List Segment) (new : Json) :
    node.replaceAt (first ++ second) new = node.replaceAt first (inner.replaceAt second new) := by
  induction first generalizing node with
  | nil =>
    cases h
    rfl
  | cons step rest ih =>
    obtain ⟨next, hstep, hrest⟩ := Option.bind_eq_some_iff.1 h
    rw [List.cons_append, replaceAt_cons hstep, replaceAt_cons hstep, ih hrest]

theorem replaceAt_key {key : String} (h : node.get? key = some inner) (new : Json) :
    node.replaceAt [.key key] new = node.setStep (.key key) new := by
  have hstep : node.step? (.key key) = some inner := by simpa using follow?_key h
  exact replaceAt_cons hstep [] new

theorem replaceAt_key_index {key : String} {i : Nat} (h : (node.itemsAt key)[i]? = some inner)
    (new : Json) :
    node.replaceAt [.key key, .index i] new =
      node.setStep (.key key) (.arr ((node.itemsAt key).set i new)) := by
  have hget := get?_eq_arr_of_itemsAt h
  have hstep : (Json.arr (node.itemsAt key)).step? (.index i) = some inner := h
  have hitem : (Json.arr (node.itemsAt key)).replaceAt [.index i] new =
      .arr ((node.itemsAt key).set i new) := replaceAt_cons hstep [] new
  rw [← List.singleton_append, replaceAt_append (follow?_key hget), hitem, replaceAt_key hget]

/-- The steps to a node that is replaced lead to what it is replaced by. -/
theorem follow?_replaceAt {steps : List Segment} (h : node.follow? steps = some inner) :
    (node.replaceAt steps new).follow? steps = some new := by
  induction steps generalizing node with
  | nil => rfl
  | cons step rest ih =>
    obtain ⟨next, hstep, hrest⟩ := Option.bind_eq_some_iff.1 h
    rw [replaceAt_cons hstep, follow?_cons, step?_setStep hstep, Option.bind_some]
    exact ih hrest

/-- To replace what stands below a member makes no member come or go. -/
theorem has_replaceAt (node : Json) (key : String) (rest : List Segment) (new : Json)
    (other : String) : (node.replaceAt (.key key :: rest) new).has other = node.has other := by
  cases hstep : node.step? (.key key) with
  | none => rw [replaceAt, hstep]
  | some inner =>
    rw [replaceAt_cons hstep, has, has]
    by_cases hobj : node.isObj
    · have hget : node.get? key = some inner := by
        cases node with
        | obj members => exact hstep
        | _ => cases hobj
      rw [get?_setStep_key hobj]
      split
      · next heq => rw [heq, hget, Option.isSome_some, Option.isSome_some]
      · rfl
    · have hset : ¬(node.setStep (.key key) (inner.replaceAt rest new)).isObj := by
        rwa [isObj_setStep]
      rw [get?_of_not_isObj hset, get?_of_not_isObj hobj]

end ApiLint.Json
