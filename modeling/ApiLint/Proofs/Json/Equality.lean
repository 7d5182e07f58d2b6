import ApiLint.Json.Equality
import ApiLint.Proofs.Json.DistinctKeys

/-!
# Equal values

Objects are equal when each member of one is found in the other and they have as many members.  As
no key is repeated, none is left over, so equality goes both ways.  Equal values are alike inside as
well, wherever one looks, and so no value is equal to a part of itself.
-/

namespace ApiLint.Json

variable {a b inner : Json}

theorem sameItems_iff {first second : List Json} :
    sameItems first second ↔ List.Forall₂ (fun a b => a.same b) first second := by
  induction first generalizing second with
  | nil => cases second <;> simp [sameItems]
  | cons item rest ih => cases second <;> simp [sameItems, ih]

theorem isWithin_iff {members others : List (String × Json)} :
    isWithin members others ↔
      ∀ m ∈ members, ∃ other, others.lookup m.1 = some other ∧ m.2.same other := by
  induction members with
  | nil => simp [isWithin]
  | cons m rest ih =>
    rw [isWithin, Bool.and_eq_true, ih, List.forall_mem_cons]
    refine and_congr_left' ?_
    cases others.lookup m.1 <;> simp

theorem same_obj_iff {members others : List (String × Json)} :
    (Json.obj members).same (.obj others) ↔ members.length = others.length ∧
      ∀ m ∈ members, ∃ other, others.lookup m.1 = some other ∧ m.2.same other := by
  rw [same, Bool.and_eq_true, beq_iff_eq, isWithin_iff]

/-! ## Both ways -/

/-- What holds of a container when it holds of all that is directly inside holds of every value. -/
@[elab_as_elim]
theorem induction {motive : Json → Prop}
    (scalar : ∀ value : Json, ¬value.isArr → ¬value.isObj → motive value)
    (arr : ∀ items, (∀ item ∈ items, motive item) → motive (.arr items))
    (obj : ∀ members, (∀ m ∈ members, motive m.2) → motive (.obj members)) (value : Json) :
    motive value :=
  match value with
  | .arr items => arr items fun item _ => induction scalar arr obj item
  | .obj members => obj members fun m _ => induction scalar arr obj m.2
  | .null | .bool _ | .num _ | .str _ => scalar _ (by simp [isArr]) (by simp [isObj])
termination_by sizeOf value
decreasing_by
  · exact sizeOf_lt_of_mem_items ‹_›
  · exact sizeOf_lt_of_mem_members ‹_›

theorem same_symm_of_scalar (harr : ¬a.isArr) (hobj : ¬a.isObj) (h : a.same b) : b.same a := by
  cases a with
  | arr items => exact absurd rfl harr
  | obj members => exact absurd rfl hobj
  | num value =>
    cases b with
    | num other =>
      cases value <;> cases other <;> simp_all [same, Number.same, Binary64.same]
    | _ => cases h
  | _ => cases b <;> simp_all [same]

theorem same_symm (ha : a.hasDistinctKeys) (hb : b.hasDistinctKeys) (h : a.same b) :
    b.same a := by
  induction a using Json.induction generalizing b with
  | scalar a harr hobj => exact same_symm_of_scalar harr hobj h
  | arr items ih =>
    cases b with
    | arr others =>
      rw [hasDistinctKeys_arr] at ha hb
      rw [same, sameItems_iff, List.forall₂_iff_get] at h ⊢
      refine ⟨h.1.symm, fun i hi hi' => ?_⟩
      have hitem := List.get_mem items ⟨i, hi'⟩
      exact ih _ hitem (ha _ hitem) (hb _ (List.get_mem others ⟨i, hi⟩)) (h.2 i hi' hi)
    | _ => cases h
  | obj members ih =>
    cases b with
    | obj others =>
      rw [hasDistinctKeys_obj] at ha hb
      obtain ⟨hlength, hfound⟩ := same_obj_iff.1 h
      have hsub : members.map Prod.fst ⊆ others.map Prod.fst := by
        intro key hkey
        obtain ⟨m, hm, rfl⟩ := List.mem_map.1 hkey
        obtain ⟨other, hother, -⟩ := hfound m hm
        exact List.mem_map.2 ⟨_, Entries.mem_of_lookup hother, rfl⟩
      refine same_obj_iff.2 ⟨hlength.symm, fun (key, other) hother => ?_⟩
      -- as many keys on both sides, so the key of the other member is there as well
      have hkey := Entries.keys_subset ha.1 hsub hlength (List.mem_map_of_mem hother)
      obtain ⟨⟨_, value⟩, hvalue, rfl⟩ := List.mem_map.1 hkey
      obtain ⟨found, hlookup, hsame⟩ := hfound _ hvalue
      obtain rfl : other = found :=
        Option.some.inj ((Entries.lookup_of_mem hb.1 hother).symm.trans hlookup)
      exact ⟨value, Entries.lookup_of_mem ha.1 hvalue,
        ih _ hvalue (ha.2 _ hvalue) (hb.2 _ hother) hsame⟩
    | _ => cases h

/-! ## Inside equal values -/

theorem exists_same_of_step? {step : Segment} (h : a.same b) (hstep : a.step? step = some inner) :
    ∃ other, b.step? step = some other ∧ inner.same other := by
  cases a with
  | obj members =>
    cases b with
    | obj others =>
      obtain ⟨name, hname⟩ := exists_step?_obj step
      rw [hname] at hstep ⊢
      exact (same_obj_iff.1 h).2 _ (Entries.mem_of_lookup hstep)
    | _ => cases h
  | arr items =>
    cases b with
    | arr others =>
      rw [same, sameItems_iff] at h
      obtain ⟨i, hi⟩ | hnone := exists_step?_arr step
      · rw [hi, List.getElem?_eq_some_iff] at hstep
        obtain ⟨hlt, rfl⟩ := hstep
        have hlt' : i < others.length := h.length_eq ▸ hlt
        exact ⟨others[i], (hi others).trans (List.getElem?_eq_getElem hlt'), h.get hlt hlt'⟩
      · simp [hnone] at hstep
    | _ => cases h
  | _ => cases step <;> cases hstep

theorem exists_same_of_follow? {steps : List Segment} (h : a.same b)
    (hsteps : a.follow? steps = some inner) :
    ∃ other, b.follow? steps = some other ∧ inner.same other := by
  induction steps generalizing a b with
  | nil =>
    cases hsteps
    exact ⟨b, rfl, h⟩
  | cons step rest ih =>
    obtain ⟨next, hstep, hrest⟩ := Option.bind_eq_some_iff.1 hsteps
    obtain ⟨other, hother, hsame⟩ := exists_same_of_step? h hstep
    obtain ⟨last, hlast, hsame⟩ := ih hsame hrest
    exact ⟨last, Option.bind_eq_some_iff.2 ⟨other, hother, hlast⟩, hsame⟩

/-! ## Parts -/

theorem sizeOf_lt_of_step? {step : Segment} (h : a.step? step = some inner) :
    sizeOf inner < sizeOf a := by
  cases a with
  | obj members =>
    obtain ⟨name, hname⟩ := exists_step?_obj step
    rw [hname] at h
    exact sizeOf_lt_of_mem_members (Entries.mem_of_lookup h)
  | arr items =>
    obtain ⟨i, hi⟩ | hnone := exists_step?_arr step
    · rw [hi] at h
      exact sizeOf_lt_of_mem_items (List.mem_of_getElem? h)
    · simp [hnone] at h
  | _ => cases step <;> cases h

theorem sizeOf_le_of_follow? {steps : List Segment} (h : a.follow? steps = some inner) :
    sizeOf inner ≤ sizeOf a := by
  induction steps generalizing a with
  | nil =>
    cases h
    exact Nat.le_refl _
  | cons step rest ih =>
    obtain ⟨next, hstep, hrest⟩ := Option.bind_eq_some_iff.1 h
    exact Nat.le_trans (ih hrest) (Nat.le_of_lt (sizeOf_lt_of_step? hstep))

/-- No value is equal to what stands inside it: the inner value would have an equal one inside it at
the same place, and so on without end. -/
theorem not_same_of_follow? {a inner : Json} {steps : List Segment} (hne : steps ≠ [])
    (h : a.follow? steps = some inner) : ¬a.same inner := by
  intro hsame
  have smaller : sizeOf inner < sizeOf a := by
    obtain ⟨step, rest, rfl⟩ := List.exists_cons_of_ne_nil hne
    obtain ⟨next, hstep, hrest⟩ := Option.bind_eq_some_iff.1 h
    exact Nat.lt_of_le_of_lt (sizeOf_le_of_follow? hrest) (sizeOf_lt_of_step? hstep)
  obtain ⟨other, hother, hagain⟩ := exists_same_of_follow? hsame h
  exact not_same_of_follow? hne hother hagain
termination_by sizeOf a

end ApiLint.Json
