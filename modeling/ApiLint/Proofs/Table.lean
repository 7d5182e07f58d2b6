import ApiLint.Proofs.Entries
import ApiLint.Table
import Mathlib.Data.List.Induction
import Mathlib.Data.List.Sort
import Mathlib.Order.Lattice

/-!
# Tables as functions of their keys

A table is determined by what a look-up finds for each key, and changing or dropping entries
changes what is found for their keys only.
-/

namespace ApiLint.Table

variable {α β : Type}

/-! ## Look-up -/

theorem get?_eq_some_iff {table : Table α} {key : String} {value : α} :
    table.get? key = some value ↔ (key, value) ∈ table.entries :=
  Entries.lookup_eq_some_iff table.nodup_keys

theorem mem_keys_iff {table : Table α} {key : String} :
    key ∈ table.keys ↔ ∃ value, table.get? key = some value := by
  simp [keys, get?_eq_some_iff]

theorem pairwise_entries (table : Table α) : table.entries.Pairwise fun a b => a.1 < b.1 :=
  List.pairwise_map.1 table.ascending

theorem nodup_entries (table : Table α) : table.entries.Nodup :=
  (table.nodup_keys).of_map

theorem ext_get? {a b : Table α} (h : ∀ key, a.get? key = b.get? key) : a = b := by
  have same : ∀ entry, entry ∈ a.entries ↔ entry ∈ b.entries := fun (key, value) => by
    rw [← get?_eq_some_iff, ← get?_eq_some_iff, h]
  have perm := (List.perm_ext_iff_of_nodup a.nodup_entries b.nodup_entries).2 same
  refine ext (perm.eq_of_pairwise ?_ a.pairwise_entries b.pairwise_entries)
  intro _ _ _ _ hab hba
  exact absurd (String.lt_trans hab hba) (String.lt_irrefl _)

/-! ## Changes -/

theorem lookup_updateIn {entries : List (String × α)} {key : String} {f : Option α → α}
    (ascending : (entries.map Prod.fst).Pairwise (· < ·)) (other : String) :
    (updateIn key f entries).lookup other =
      if other = key then some (f (entries.lookup key)) else entries.lookup other := by
  induction entries with
  | nil => simp [updateIn, Entries.lookup_cons]
  | cons entry rest ih =>
    obtain ⟨name, value⟩ := entry
    rw [List.map_cons, List.pairwise_cons] at ascending
    unfold updateIn
    split
    · next hlt =>
      have absent : ((name, value) :: rest).lookup key = none := by
        rw [List.lookup_eq_none_iff, List.forall_mem_cons]
        refine ⟨by simpa using String.ne_of_lt hlt, fun entry hentry => ?_⟩
        have := String.lt_trans hlt (ascending.1 entry.1 (List.mem_map_of_mem hentry))
        simpa using String.ne_of_lt this
      rw [absent, Entries.lookup_cons]
    · split
      · next heq =>
        subst heq
        by_cases hother : other = key <;> simp [Entries.lookup_cons, hother]
      · next hne =>
        simp only [Entries.lookup_cons, ih ascending.2, if_neg hne]
        by_cases hname : other = name
        · rw [if_pos hname, if_pos hname, if_neg (hname ▸ Ne.symm hne)]
        · rw [if_neg hname, if_neg hname]

theorem get?_update (table : Table α) (key : String) (f : Option α → α) (other : String) :
    (table.update key f).get? other =
      if other = key then some (f (table.get? key)) else table.get? other :=
  lookup_updateIn table.ascending other

theorem get?_insert (table : Table α) (key : String) (value : α) (other : String) :
    (table.insert key value).get? other = if other = key then some value else table.get? other :=
  get?_update table key _ other

theorem get?_map (table : Table α) (f : String → α → β) (key : String) :
    (table.map f).get? key = (table.get? key).map (f key) := by
  ext value
  rw [get?_eq_some_iff]
  simp [map, ← get?_eq_some_iff]

theorem get?_adjust (table : Table α) (key : String) (f : α → α) (other : String) :
    (table.adjust key f).get? other =
      (table.get? other).map fun value => if other = key then f value else value :=
  get?_map table _ other

/-! ## Tables of lists -/

theorem get?_ofList (entries : List (String × α)) (key : String) :
    (ofList entries).get? key = entries.reverse.lookup key := by
  induction entries using List.reverseRecOn with
  | nil => rfl
  | append_singleton entries entry ih =>
    rw [ofList, List.foldl_append, List.foldl_cons, List.foldl_nil, get?_insert,
      List.reverse_append, List.reverse_singleton, List.singleton_append, Entries.lookup_cons, ← ih]
    rfl

theorem mem_of_mem_ofList {entries : List (String × α)} {entry : String × α}
    (h : entry ∈ (ofList entries).entries) : entry ∈ entries := by
  rw [← get?_eq_some_iff, get?_ofList] at h
  exact List.mem_reverse.1 (Entries.mem_of_lookup h)

theorem mem_keys_ofList {entries : List (String × α)} {key : String} :
    key ∈ (ofList entries).keys ↔ key ∈ entries.map Prod.fst := by
  have found (entries : List (String × α)) :
      key ∈ entries.map Prod.fst ↔ (entries.lookup key).isSome := by
    rw [Entries.isSome_lookup, List.mem_map, List.any_eq_true]
    simp only [beq_iff_eq]
  rw [keys, found, ← get?, get?_ofList, ← found, List.map_reverse, List.mem_reverse]

/-- A table is the table of its entries. -/
theorem ofList_entries (table : Table α) : ofList table.entries = table := by
  refine ext_get? fun key => ?_
  have nodup : (table.entries.reverse.map Prod.fst).Nodup := by
    rw [List.map_reverse, List.nodup_reverse]
    exact table.nodup_keys
  ext value
  rw [get?_ofList, Entries.lookup_eq_some_iff nodup, List.mem_reverse, get?_eq_some_iff]

/-! ## Restriction -/

/-- The entries whose keys pass a test. -/
def restrict (table : Table α) (keep : String → Bool) : Table α where
  entries := table.entries.filter fun entry => keep entry.1
  ascending := table.ascending.sublist (List.filter_sublist.map Prod.fst)

theorem get?_restrict (table : Table α) (keep : String → Bool) (key : String) :
    (table.restrict keep).get? key = if keep key then table.get? key else none := by
  ext value
  rw [get?_eq_some_iff]
  simp [restrict, get?_eq_some_iff, and_comm]

/-- Tables that agree on the keys that pass a test have the same entries for them. -/
theorem restrict_congr {a b : Table α} {keep : String → Bool}
    (h : ∀ key, keep key → a.get? key = b.get? key) : a.restrict keep = b.restrict keep := by
  refine ext_get? fun key => ?_
  rw [get?_restrict, get?_restrict]
  by_cases hkeep : keep key
  · rw [if_pos hkeep, if_pos hkeep, h key hkeep]
  · rw [if_neg hkeep, if_neg hkeep]

end ApiLint.Table
