/-!
# Tables

A table gives values to texts and keeps its entries in ascending order of their keys, so that
tables with the same entries are equal and every key occurs once.
-/

namespace ApiLint

structure Table (α : Type) where
  entries : List (String × α)
  ascending : (entries.map Prod.fst).Pairwise (· < ·)

namespace Table

variable {α β : Type}

theorem lt_of_not_lt_of_ne {a b : String} (h : ¬a < b) (hne : a ≠ b) : b < a :=
  Std.lt_of_le_of_ne (String.not_lt.1 h) (Ne.symm hne)

/-! ## Changing an entry -/

/-- Changes the value of a key, which may be new, in a list of entries. -/
def updateIn (key : String) (f : Option α → α) : List (String × α) → List (String × α)
  | [] => [(key, f none)]
  | (other, value) :: rest =>
    if key < other then (key, f none) :: (other, value) :: rest
    else if key = other then (key, f (some value)) :: rest
    else (other, value) :: updateIn key f rest

theorem mem_keys_updateIn (key : String) (f : Option α → α) (entries : List (String × α))
    (other : String) :
    other ∈ (updateIn key f entries).map Prod.fst ↔
      other = key ∨ other ∈ entries.map Prod.fst := by
  induction entries with
  | nil => simp [updateIn]
  | cons entry rest ih =>
    obtain ⟨name, value⟩ := entry
    unfold updateIn
    split
    · simp
    · split
      · simp_all
      · simp only [List.map_cons, List.mem_cons, ih]
        grind

theorem ascending_updateIn (key : String) (f : Option α → α) {entries : List (String × α)}
    (h : (entries.map Prod.fst).Pairwise (· < ·)) :
    ((updateIn key f entries).map Prod.fst).Pairwise (· < ·) := by
  induction entries with
  | nil => simp [updateIn]
  | cons entry rest ih =>
    obtain ⟨name, value⟩ := entry
    rw [List.map_cons, List.pairwise_cons] at h
    unfold updateIn
    split
    · next hlt =>
      simp only [List.map_cons, List.pairwise_cons, List.mem_cons]
      exact ⟨fun b hb => hb.elim (fun e => e ▸ hlt) fun hb => String.lt_trans hlt (h.1 b hb), h⟩
    · split
      · next heq => simpa [heq] using h
      · next hlt hne =>
        simp only [List.map_cons, List.pairwise_cons]
        refine ⟨fun b hb => ?_, ih h.2⟩
        rcases (mem_keys_updateIn key f rest b).1 hb with rfl | hb
        · exact lt_of_not_lt_of_ne hlt hne
        · exact h.1 b hb

def empty : Table α := ⟨[], List.Pairwise.nil⟩

instance : Inhabited (Table α) := ⟨empty⟩

/-- Changes the value of a key, which may be new. -/
def update (table : Table α) (key : String) (f : Option α → α) : Table α :=
  ⟨updateIn key f table.entries, ascending_updateIn key f table.ascending⟩

/-- Gives a key a value, whatever it had before. -/
def insert (table : Table α) (key : String) (value : α) : Table α := table.update key fun _ => value

/-- The table of a list of entries; of entries with one key the last counts. -/
def ofList (entries : List (String × α)) : Table α :=
  entries.foldl (fun table (key, value) => table.insert key value) empty

/-- Changes all values. -/
def map (f : String → α → β) (table : Table α) : Table β where
  entries := table.entries.map fun (key, value) => (key, f key value)
  ascending := by
    rw [List.map_map]
    exact table.ascending

/-- Changes the value of a key, if it has one. -/
def adjust (table : Table α) (key : String) (f : α → α) : Table α :=
  table.map fun other value => if other = key then f value else value

/-! ## Reading -/

def get? (table : Table α) (key : String) : Option α := table.entries.lookup key

def keys (table : Table α) : List String := table.entries.map Prod.fst

def size (table : Table α) : Nat := table.entries.length

def isEmpty (table : Table α) : Bool := table.entries.isEmpty

theorem nodup_keys (table : Table α) : table.keys.Nodup := by
  refine List.Pairwise.imp ?_ table.ascending
  rintro a _ h rfl
  exact String.lt_irrefl a h

@[ext]
theorem ext {a b : Table α} (h : a.entries = b.entries) : a = b := by
  cases a
  cases b
  congr

end Table

end ApiLint
