/-!
# Steps that can fail
-/

namespace ApiLint

variable {ε α β : Type}

theorem bind_eq_ok_iff {x : Except ε α} {f : α → Except ε β} {b : β} :
    x >>= f = .ok b ↔ ∃ a, x = .ok a ∧ f a = .ok b := by
  cases x with
  | error e => simp [bind, Except.bind]
  | ok a => simp [bind, Except.bind]

/-- A step that cannot fail does not change whether the steps before it do. -/
theorem isOk_bind_pure (x : Except ε α) (f : α → β) :
    (x >>= fun a => pure (f a)).isOk = x.isOk := by
  cases x <;> rfl

/-- Reading what was written gives all of it back when it gives each item back. -/
theorem mapM_map_eq_pure {m : Type → Type} [Monad m] [LawfulMonad m] {write : α → β}
    {read : β → m α} {items : List α} (h : ∀ item ∈ items, read (write item) = pure item) :
    (items.map write).mapM read = pure items := by
  induction items with
  | nil => rfl
  | cons item rest ih =>
    rw [List.forall_mem_cons] at h
    rw [List.map_cons, List.mapM_cons, h.1, ih h.2]
    simp

/-- Reading a list gives what was written there, and nothing else, when reading an item does. -/
theorem mapM_eq_ok_iff {write : β → α} {read : α → Except ε β}
    (h : ∀ a b, read a = .ok b ↔ a = write b) {items : List α} {results : List β} :
    items.mapM read = .ok results ↔ items = results.map write := by
  constructor
  · intro hread
    induction items generalizing results with
    | nil =>
      cases hread
      rfl
    | cons item rest ih =>
      rw [List.mapM_cons, bind_eq_ok_iff] at hread
      obtain ⟨first, hfirst, hrest⟩ := hread
      obtain ⟨others, hothers, hresults⟩ := bind_eq_ok_iff.1 hrest
      cases hresults
      rw [List.map_cons, ← (h item first).1 hfirst, ← ih hothers]
  · rintro rfl
    exact mapM_map_eq_pure fun result _ => (h _ _).2 rfl

end ApiLint
