import Mathlib.Data.List.Basic
import Mathlib.Data.List.Induction

/-!
# First occurrences

Items that are added one by one, each unless an equal one is there already, are the first
occurrences in the list that they come from, in the order in which they come first.  An item that
is equal to itself is left once, however often it or an equal one was added.
-/

namespace ApiLint.FirstSeen

variable {α : Type}

theorem loop_reverse_eq_foldl (r : α → α → Bool) (items kept : List α) :
    List.eraseDupsBy.loop r items kept.reverse =
      items.foldl (fun kept item => if kept.any (r item) then kept else kept ++ [item]) kept := by
  induction items generalizing kept with
  | nil => rw [List.eraseDupsBy.loop, List.reverse_reverse, List.foldl_nil]
  | cons item rest ih =>
    rw [List.eraseDupsBy.loop, List.any_reverse, List.foldl_cons]
    cases hseen : kept.any (r item) with
    | true => exact ih kept
    | false =>
      have := ih (kept ++ [item])
      rwa [List.reverse_append] at this

theorem foldl_eq_eraseDupsBy (r : α → α → Bool) (items : List α) :
    items.foldl (fun kept item => if kept.any (r item) then kept else kept ++ [item]) [] =
      items.eraseDupsBy r :=
  (loop_reverse_eq_foldl r items []).symm

theorem eraseDupsBy_eq_nil_iff {r : α → α → Bool} {items : List α} :
    items.eraseDupsBy r = [] ↔ items = [] := by
  cases items with
  | nil => simp
  | cons item rest => simp [List.eraseDupsBy_cons]

theorem eraseDupsBy_sublist (r : α → α → Bool) (items : List α) :
    (items.eraseDupsBy r).Sublist items := by
  match items with
  | [] => simp
  | first :: rest =>
    rw [List.eraseDupsBy_cons]
    exact ((eraseDupsBy_sublist r _).trans List.filter_sublist).cons_cons first
termination_by items.length
decreasing_by exact Nat.lt_succ_of_le (List.length_filter_le _ _)

/-- No item that is left is equal to an earlier one. -/
theorem pairwise_eraseDupsBy (r : α → α → Bool) (items : List α) :
    (items.eraseDupsBy r).Pairwise fun earlier later => r later earlier = false := by
  match items with
  | [] => simp
  | first :: rest =>
    rw [List.eraseDupsBy_cons]
    refine List.pairwise_cons.2 ⟨fun later hlater => ?_, pairwise_eraseDupsBy r _⟩
    simpa using (List.mem_filter.1 ((eraseDupsBy_sublist r _).subset hlater)).2
termination_by items.length
decreasing_by exact Nat.lt_succ_of_le (List.length_filter_le _ _)

/-- Each item is left once, if it is equal to itself at all. -/
theorem countP_eraseDups [BEq α] [PartialEquivBEq α] {item : α} {items : List α}
    (hmem : item ∈ items) (hself : item == item) : items.eraseDups.countP (· == item) = 1 := by
  match items, hmem with
  | first :: rest, hmem =>
    rw [List.eraseDups_cons, List.countP_cons]
    by_cases hfirst : first == item
    · rw [if_pos hfirst, Nat.add_eq_right, List.countP_eq_zero]
      intro other hother hsame
      have hdifferent := (List.mem_filter.1 ((eraseDupsBy_sublist _ _).subset hother)).2
      simp [BEq.trans hsame (BEq.symm hfirst)] at hdifferent
    · have hne : item ≠ first := fun h => hfirst (h ▸ hself)
      have hlater : item ∈ rest.filter fun other => !other == first := by
        refine List.mem_filter.2 ⟨List.mem_of_ne_of_mem hne hmem, ?_⟩
        simpa using fun h => hfirst (BEq.symm h)
      rw [if_neg hfirst, countP_eraseDups hlater hself]
termination_by items.length
decreasing_by exact Nat.lt_succ_of_le (List.length_filter_le _ _)

/-! ## Order -/

theorem eraseDups_append_singleton [BEq α] (items : List α) (item : α) :
    (items ++ [item]).eraseDups =
      if items.eraseDups.any (item == ·) then items.eraseDups else items.eraseDups ++ [item] := by
  simp only [List.eraseDups, ← foldl_eq_eraseDupsBy]
  rw [List.foldl_append, List.foldl_cons, List.foldl_nil]

/-- What is left stands in the order in which it came first. -/
theorem pairwise_idxOf_eraseDups [BEq α] [LawfulBEq α] (items : List α) :
    items.eraseDups.Pairwise fun earlier later => items.idxOf earlier < items.idxOf later := by
  induction items using List.reverseRecOn with
  | nil => simp
  | append_singleton items item ih =>
    have stays {first : α} (hfirst : first ∈ items) :
        (items ++ [item]).idxOf first = items.idxOf first := List.idxOf_append_of_mem hfirst
    have order : items.eraseDups.Pairwise fun earlier later =>
        (items ++ [item]).idxOf earlier < (items ++ [item]).idxOf later := by
      refine ih.imp_of_mem fun hearlier hlater h => ?_
      rwa [stays (List.mem_eraseDups.1 hearlier), stays (List.mem_eraseDups.1 hlater)]
    rw [eraseDups_append_singleton]
    split
    · exact order
    · next hnew =>
      have habsent : item ∉ items := by simpa [List.mem_eraseDups] using hnew
      refine List.pairwise_append.2 ⟨order, List.pairwise_singleton _ _, ?_⟩
      intro earlier hearlier later hlater
      obtain rfl := List.mem_singleton.1 hlater
      have hmem := List.mem_eraseDups.1 hearlier
      rw [stays hmem, List.idxOf_append_of_notMem habsent]
      exact Nat.lt_add_right _ (List.idxOf_lt_length_iff.2 hmem)

end ApiLint.FirstSeen
