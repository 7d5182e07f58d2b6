import Mathlib.Data.List.Nodup
import Mathlib.Data.List.Perm.Subperm

/-!
# Entries with distinct keys

Members of objects and entries of tables are lists of keys with their values.  When no key stands
twice, looking a key up and finding an entry in the list are the same.
-/

namespace ApiLint.Entries

variable {α : Type} {entries : List (String × α)} {key : String} {value : α}

theorem lookup_cons (name : String) (first : α) (rest : List (String × α)) (key : String) :
    ((name, first) :: rest).lookup key = if key = name then some first else rest.lookup key := by
  by_cases h : key = name
  · rw [h, List.lookup_cons_self, if_pos rfl]
  · rw [List.lookup_cons, beq_eq_false_iff_ne.2 h, if_neg h]

theorem isSome_lookup (entries : List (String × α)) (key : String) :
    (entries.lookup key).isSome = entries.any (·.1 == key) := by
  induction entries with
  | nil => rfl
  | cons entry rest ih =>
    rw [lookup_cons, List.any_cons, ← ih]
    by_cases h : key = entry.1
    · simp [h]
    · simp [h, Ne.symm h]

theorem mem_of_lookup (h : entries.lookup key = some value) : (key, value) ∈ entries := by
  obtain ⟨before, after, rfl, -⟩ := List.lookup_eq_some_iff.1 h
  simp

theorem lookup_of_mem (nodup : (entries.map Prod.fst).Nodup) (h : (key, value) ∈ entries) :
    entries.lookup key = some value := by
  obtain ⟨before, after, rfl⟩ := List.append_of_mem h
  refine List.lookup_eq_some_iff.2 ⟨before, after, rfl, fun entry hentry => ?_⟩
  rw [List.map_append, List.nodup_append] at nodup
  have := nodup.2.2 entry.1 (List.mem_map_of_mem hentry) key (by simp)
  simpa using Ne.symm this

theorem lookup_eq_some_iff (nodup : (entries.map Prod.fst).Nodup) :
    entries.lookup key = some value ↔ (key, value) ∈ entries :=
  ⟨mem_of_lookup, lookup_of_mem nodup⟩

/-- Entries with as many keys as others, and with no key that the others lack, have all their
keys. -/
theorem keys_subset {others : List (String × α)} (nodup : (entries.map Prod.fst).Nodup)
    (hsub : entries.map Prod.fst ⊆ others.map Prod.fst) (hlength : entries.length = others.length) :
    others.map Prod.fst ⊆ entries.map Prod.fst :=
  ((List.subperm_of_subset nodup hsub).perm_of_length_le (by simp [hlength])).symm.subset

/-- The elements of a list stand under different indices. -/
theorem nodup_map_zipIdx {β : Type} {f : Nat → β} (injective : Function.Injective f)
    (items : List α) : (items.zipIdx.map fun item => f item.2).Nodup := by
  have indices := (List.nodup_range' (s := 0) (n := items.length)).map injective
  rwa [← List.zipIdx_map_snd, List.map_map] at indices

theorem filter_key_eq (nodup : (entries.map Prod.fst).Nodup) (h : (key, value) ∈ entries) :
    entries.filter (·.1 == key) = [(key, value)] := by
  obtain ⟨before, after, rfl⟩ := List.append_of_mem h
  rw [List.map_append, List.map_cons, List.nodup_append, List.nodup_cons] at nodup
  obtain ⟨-, ⟨habsent, -⟩, hapart⟩ := nodup
  have none_before : before.filter (·.1 == key) = [] := by
    refine List.filter_eq_nil_iff.2 fun entry hentry => ?_
    simpa using hapart entry.1 (List.mem_map_of_mem hentry) key List.mem_cons_self
  have none_after : after.filter (·.1 == key) = [] := by
    refine List.filter_eq_nil_iff.2 fun entry hentry heq => habsent ?_
    exact List.mem_map.2 ⟨entry, hentry, by simpa using heq⟩
  rw [List.filter_append, List.filter_cons_of_pos (by simp), none_before, none_after,
    List.nil_append]

/-- When items belong to the keys of their entries, the items of some keys are those of the
entries with these keys. -/
theorem filter_flatMap {β : Type} {owner : β → String} {items : String × α → List β}
    (h : ∀ entry, ∀ item ∈ items entry, owner item = entry.1) (entries : List (String × α))
    (keep : String → Bool) :
    (entries.flatMap items).filter (fun item => keep (owner item)) =
      (entries.filter fun entry => keep entry.1).flatMap items := by
  induction entries with
  | nil => rfl
  | cons entry rest ih =>
    rw [List.flatMap_cons, List.filter_append, ih]
    by_cases hkeep : keep entry.1
    · have all : (items entry).filter (fun item => keep (owner item)) = items entry :=
        List.filter_eq_self.2 fun item hitem => (h entry item hitem) ▸ hkeep
      rw [all, List.filter_cons, if_pos hkeep, List.flatMap_cons]
    · have none : (items entry).filter (fun item => keep (owner item)) = [] :=
        List.filter_eq_nil_iff.2 fun item hitem => (h entry item hitem) ▸ hkeep
      rw [none, List.filter_cons, if_neg hkeep, List.nil_append]

end ApiLint.Entries
