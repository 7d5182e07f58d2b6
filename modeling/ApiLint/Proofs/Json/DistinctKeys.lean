import ApiLint.Json.Draft
import ApiLint.Path.Resolve
import ApiLint.Proofs.Entries

/-!
# Values without repeated keys

A value that is read from a text gives every key of an object one member, as a repeated key only
changes the member that is there.  Members of such a value are what a look-up of their keys finds,
and all that stands inside such a value is such a value again.
-/

namespace ApiLint.Json

mutual

/-- Whether no object in a value, at any depth, has two members with one key. -/
def hasDistinctKeys : Json → Bool
  | .arr items => haveDistinctKeys items
  | .obj members => decide (members.map Prod.fst).Nodup && membersHaveDistinctKeys members
  | _ => true

def haveDistinctKeys : List Json → Bool
  | [] => true
  | item :: rest => item.hasDistinctKeys && haveDistinctKeys rest

def membersHaveDistinctKeys : List (String × Json) → Bool
  | [] => true
  | (_, value) :: rest => value.hasDistinctKeys && membersHaveDistinctKeys rest

end

theorem haveDistinctKeys_iff (items : List Json) :
    haveDistinctKeys items ↔ ∀ item ∈ items, item.hasDistinctKeys := by
  induction items with
  | nil => simp [haveDistinctKeys]
  | cons item rest ih => simp [haveDistinctKeys, ih]

theorem membersHaveDistinctKeys_iff (members : List (String × Json)) :
    membersHaveDistinctKeys members ↔ ∀ m ∈ members, m.2.hasDistinctKeys := by
  induction members with
  | nil => simp [membersHaveDistinctKeys]
  | cons m rest ih => simp [membersHaveDistinctKeys, ih]

@[simp]
theorem hasDistinctKeys_arr (items : List Json) :
    (Json.arr items).hasDistinctKeys ↔ ∀ item ∈ items, item.hasDistinctKeys := by
  rw [hasDistinctKeys, haveDistinctKeys_iff]

@[simp]
theorem hasDistinctKeys_obj (members : List (String × Json)) :
    (Json.obj members).hasDistinctKeys ↔
      (members.map Prod.fst).Nodup ∧ ∀ m ∈ members, m.2.hasDistinctKeys := by
  rw [hasDistinctKeys, Bool.and_eq_true, decide_eq_true_iff, membersHaveDistinctKeys_iff]

/-! ## Inside a value -/

variable {value inner : Json} {key : String}

theorem hasDistinctKeys_of_get? (h : value.hasDistinctKeys) (hget : value.get? key = some inner) :
    inner.hasDistinctKeys := by
  cases value <;> simp only [get?, reduceCtorEq] at hget
  case obj members => exact ((hasDistinctKeys_obj members).1 h).2 _ (Entries.mem_of_lookup hget)

/-- In objects a step looks a key up. -/
theorem exists_step?_obj (step : Segment) :
    ∃ name, ∀ members, (Json.obj members).step? step = members.lookup name := by
  cases step with
  | key name => exact ⟨name, fun _ => rfl⟩
  | index i => exact ⟨toString i, fun _ => rfl⟩

/-- In arrays a step takes the element at an index, or finds nothing at all. -/
theorem exists_step?_arr (step : Segment) :
    (∃ i : Nat, ∀ items, (Json.arr items).step? step = items[i]?) ∨
      ∀ items, (Json.arr items).step? step = none := by
  cases step with
  | key name =>
    cases h : Segment.indexOfKey? name with
    | none => exact .inr fun _ => by simp [step?, h]
    | some i => exact .inl ⟨i, fun _ => by simp [step?, h]⟩
  | index i => exact .inl ⟨i, fun _ => rfl⟩

theorem hasDistinctKeys_of_step? {step : Segment} (h : value.hasDistinctKeys)
    (hstep : value.step? step = some inner) : inner.hasDistinctKeys := by
  cases value with
  | obj members =>
    obtain ⟨name, hname⟩ := exists_step?_obj step
    rw [hname] at hstep
    exact ((hasDistinctKeys_obj members).1 h).2 _ (Entries.mem_of_lookup hstep)
  | arr items =>
    obtain ⟨i, hi⟩ | hnone := exists_step?_arr step
    · rw [hi] at hstep
      exact (hasDistinctKeys_arr items).1 h _ (List.mem_of_getElem? hstep)
    · simp [hnone] at hstep
  | _ => cases step <;> simp [step?] at hstep

theorem hasDistinctKeys_of_follow? {steps : List Segment} (h : value.hasDistinctKeys)
    (hsteps : value.follow? steps = some inner) : inner.hasDistinctKeys := by
  induction steps generalizing value with
  | nil =>
    cases hsteps
    exact h
  | cons step rest ih =>
    obtain ⟨next, hstep, hrest⟩ := Option.bind_eq_some_iff.1 hsteps
    exact ih (hasDistinctKeys_of_step? h hstep) hrest

theorem get?_of_mem_members {members : List (String × Json)}
    (h : (Json.obj members).hasDistinctKeys) (hmem : (key, inner) ∈ members) :
    (Json.obj members).get? key = some inner :=
  Entries.lookup_of_mem ((hasDistinctKeys_obj members).1 h).1 hmem

theorem nodup_keys_members (h : value.hasDistinctKeys) :
    ((value.members?.getD []).map Prod.fst).Nodup := by
  cases value with
  | obj members => exact ((hasDistinctKeys_obj members).1 h).1
  | _ => exact .nil

theorem nodup_keys_membersAt (h : value.hasDistinctKeys) (key : String) :
    ((value.membersAt key).map Prod.fst).Nodup := by
  unfold membersAt
  cases hget : value.get? key with
  | none => exact .nil
  | some member => exact nodup_keys_members (hasDistinctKeys_of_get? h hget)

/-- The entries of a member that is an object are what look-ups in it find. -/
theorem mem_membersAt_iff (h : value.hasDistinctKeys) {name : String} :
    (name, inner) ∈ value.membersAt key ↔ (value.object? key).bind (·.get? name) = some inner := by
  unfold membersAt object?
  cases hget : value.get? key with
  | none => simp
  | some member =>
    cases member with
    | obj members =>
      have nodup := ((hasDistinctKeys_obj members).1 (hasDistinctKeys_of_get? h hget)).1
      simpa [members?, isObj, Option.filter, get?] using (Entries.lookup_eq_some_iff nodup).symm
    | _ => simp [members?, isObj, Option.filter]

/-! ## Values of texts -/

theorem nodup_keys_insert {members : List (String × Json)} (h : (members.map Prod.fst).Nodup) :
    ((insert members key value).map Prod.fst).Nodup := by
  unfold insert
  split
  · have keys : (members.map fun m => if m.1 == key then (key, value) else m).map Prod.fst =
        members.map Prod.fst := by
      rw [List.map_map]
      refine List.map_congr_left fun m _ => ?_
      by_cases hm : m.1 = key <;> simp [hm]
    rwa [keys]
  · next hnew =>
    rw [List.map_append, List.nodup_append]
    refine ⟨h, by simp, ?_⟩
    rintro other hother _ hkey rfl
    obtain ⟨m, hm, rfl⟩ := List.mem_map.1 hother
    refine hnew (List.any_eq_true.2 ⟨m, hm, ?_⟩)
    simpa using hkey

theorem mem_insert {members : List (String × Json)} {m : String × Json}
    (h : m ∈ insert members key value) : m = (key, value) ∨ m ∈ members := by
  unfold insert at h
  split at h
  · obtain ⟨other, hother, rfl⟩ := List.mem_map.1 h
    by_cases hk : other.1 = key
    · exact .inl (by simp [hk])
    · exact .inr (by simpa [hk] using hother)
  · simpa [or_comm] using h

theorem hasDistinctKeys_insert {members : List (String × Json)}
    (h : (Json.obj members).hasDistinctKeys) (hvalue : value.hasDistinctKeys) :
    (Json.obj (insert members key value)).hasDistinctKeys := by
  rw [hasDistinctKeys_obj] at h ⊢
  refine ⟨nodup_keys_insert h.1, fun m hm => ?_⟩
  rcases mem_insert hm with rfl | hm
  · exact hvalue
  · exact h.2 m hm

mutual

theorem hasDistinctKeys_of_toJson? :
    ∀ {draft : Draft} {value : Json}, draft.toJson? = some value → value.hasDistinctKeys
  | .null, _, h | .bool _, _, h | .number _, _, h | .string _, _, h => by
    cases h
    rfl
  | .list items true, _, h => by
    obtain ⟨values, hvalues, rfl⟩ := Option.map_eq_some_iff.1 h
    exact (hasDistinctKeys_arr values).2 (hasDistinctKeys_of_toItems? hvalues)
  | .record members true, _, h => by
    obtain ⟨values, hvalues, rfl⟩ := Option.map_eq_some_iff.1 h
    exact hasDistinctKeys_of_toMembers? hvalues rfl

theorem hasDistinctKeys_of_toItems? :
    ∀ {items : List Draft} {values : List Json}, Draft.toItems? items = some values →
      ∀ value ∈ values, value.hasDistinctKeys
  | [], _, h => by
    cases h
    simp
  | item :: rest, _, h => by
    simp only [Draft.toItems?, Option.bind_eq_bind, Option.bind_eq_some_iff] at h
    obtain ⟨first, hfirst, others, hothers, h⟩ := h
    cases h
    rw [List.forall_mem_cons]
    exact ⟨hasDistinctKeys_of_toJson? hfirst, hasDistinctKeys_of_toItems? hothers⟩

theorem hasDistinctKeys_of_toMembers? :
    ∀ {members : List (Option String × Draft)} {done values : List (String × Json)},
      Draft.toMembers? done members = some values → (Json.obj done).hasDistinctKeys →
      (Json.obj values).hasDistinctKeys
  | [], _, _, h, distinct => by
    cases h
    exact distinct
  | (some key, draft) :: rest, done, _, h, distinct => by
    simp only [Draft.toMembers?, Option.bind_eq_bind, Option.bind_eq_some_iff] at h
    obtain ⟨value, hvalue, h⟩ := h
    exact hasDistinctKeys_of_toMembers? h
      (hasDistinctKeys_insert distinct (hasDistinctKeys_of_toJson? hvalue))

end

/-- What is read from a text repeats no key. -/
theorem hasDistinctKeys_of_parse? {text : String} (h : parse? text = some value) :
    value.hasDistinctKeys := by
  dsimp only [parse?] at h
  split at h
  · exact hasDistinctKeys_of_toJson? h
  · cases h

end ApiLint.Json
