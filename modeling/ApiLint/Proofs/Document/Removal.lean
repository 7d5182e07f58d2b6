import ApiLint.Proofs.Document.Containers

/-!
# Members taken out of a document

A document without the members at some places has, at each place that is left, what the document has
there, with its own members taken out.  An array keeps its elements, so the steps to what is left
stay the same.
-/

namespace ApiLint.Json

mutual

/-- A value without its members at some places, given by the steps from the value to them. -/
def without (gone : List Segment → Bool) : Json → Json
  | .arr items => .arr (itemsWithout gone 0 items)
  | .obj members => .obj (membersWithout gone members)
  | value => value

/-- Elements, the first of them at an index, without the members inside them. -/
def itemsWithout (gone : List Segment → Bool) (i : Nat) : List Json → List Json
  | [] => []
  | item :: rest =>
    item.without (fun steps => gone (.index i :: steps)) :: itemsWithout gone (i + 1) rest

def membersWithout (gone : List Segment → Bool) : List (String × Json) → List (String × Json)
  | [] => []
  | (name, value) :: rest =>
    if gone [.key name] then membersWithout gone rest
    else (name, value.without fun steps => gone (.key name :: steps)) :: membersWithout gone rest

end

variable {gone : List Segment → Bool} {node inner : Json}

theorem eq_str_of_without {text : String} (h : node.without gone = .str text) :
    node = .str text := by
  cases node with
  | str other => exact h
  | _ => cases h

theorem exists_members_of_without {members : List (String × Json)}
    (h : node.without gone = .obj members) :
    ∃ originals, node = .obj originals ∧ membersWithout gone originals = members := by
  cases node with
  | obj originals => exact ⟨originals, rfl, Json.obj.inj h⟩
  | _ => cases h

theorem getElem?_itemsWithout (i : Nat) (items : List Json) (n : Nat) :
    (itemsWithout gone i items)[n]? =
      items[n]?.map (·.without fun steps => gone (.index (i + n) :: steps)) := by
  induction items generalizing i n with
  | nil => simp [itemsWithout]
  | cons item rest ih =>
    cases n with
    | zero => simp [itemsWithout]
    | succ n => simp [itemsWithout, ih, Nat.add_assoc, Nat.add_comm 1 n]

theorem keys_membersWithout (members : List (String × Json)) :
    (membersWithout gone members).map Prod.fst =
      (members.map Prod.fst).filter fun name => !gone [.key name] := by
  induction members with
  | nil => rfl
  | cons member rest ih => by_cases h : gone [.key member.1] <;> simp [membersWithout, h, ih]

theorem lookup_membersWithout (members : List (String × Json)) (name : String) :
    (membersWithout gone members).lookup name =
      if gone [.key name] then none
      else (members.lookup name).map (·.without fun steps => gone (.key name :: steps)) := by
  induction members with
  | nil => simp [membersWithout]
  | cons member rest ih =>
    obtain ⟨first, value⟩ := member
    rw [membersWithout, Entries.lookup_cons]
    by_cases hname : name = first
    · subst hname
      by_cases h : gone [.key name] <;> simp [h, ih]
    · by_cases h : gone [.key first] <;> simp [h, hname, ih, Entries.lookup_cons]

theorem child?_without (node : Json) (step : Segment) :
    (node.without gone).child? step =
      if step.key?.isSome ∧ gone [step] then none
      else (node.child? step).map (·.without fun steps => gone (step :: steps)) := by
  cases node with
  | arr items =>
    cases step with
    | key name => simp [without, child?]
    | index i =>
      have item : (itemsWithout gone 0 items)[i]? = _ := getElem?_itemsWithout 0 items i
      rw [Nat.zero_add] at item
      simpa [Segment.key?, without, child?] using item
  | obj members =>
    cases step with
    | key name => simpa [Segment.key?, without, get?] using lookup_membersWithout members name
    | index i => simp [without, child?]
  | _ => simp [without, child?]

theorem exists_child?_of_without {step : Segment}
    (h : (node.without gone).child? step = some inner) :
    ∃ original, node.child? step = some original ∧
      original.without (fun steps => gone (step :: steps)) = inner := by
  rw [child?_without] at h
  exact Option.map_eq_some_iff.1 (Option.ite_none_left_eq_some.1 h).2

/-- What is left at a place was there before. -/
theorem exists_inside?_of_without {steps : List Segment}
    (h : (node.without gone).inside? steps = some inner) :
    ∃ original, node.inside? steps = some original ∧
      original.without (fun rest => gone (steps ++ rest)) = inner := by
  induction steps generalizing node gone with
  | nil => exact ⟨node, rfl, Option.some.inj h⟩
  | cons step rest ih =>
    obtain ⟨next, hnext, hrest⟩ := Option.bind_eq_some_iff.1 h
    obtain ⟨middle, hmiddle, rfl⟩ := exists_child?_of_without hnext
    obtain ⟨original, horiginal, hinner⟩ := ih hrest
    exact ⟨original, Option.bind_eq_some_iff.2 ⟨middle, hmiddle, horiginal⟩, hinner⟩

/-- The places of members on the way to a place are those of the first step, if it is a key, and
those on the way from there on. -/
theorem forall_members_on_way_cons {p : List Segment → Prop} {step : Segment}
    {rest : List Segment} :
    (∀ way name, way ++ [.key name] <+: step :: rest → p (way ++ [.key name])) ↔
      (step.key?.isSome → p [step]) ∧
        ∀ way name, way ++ [.key name] <+: rest → p (step :: (way ++ [.key name])) := by
  constructor
  · intro h
    refine ⟨fun hkey => ?_, fun way name hway => h (step :: way) name ?_⟩
    · cases step with
      | key name => exact h [] name (List.prefix_append [_] rest)
      | index i => cases hkey
    · exact List.cons_prefix_cons.2 ⟨rfl, hway⟩
  · rintro ⟨hfirst, hrest⟩ way name hway
    cases way with
    | nil =>
      obtain ⟨rfl, -⟩ := List.cons_prefix_cons.1 hway
      exact hfirst rfl
    | cons first way =>
      obtain ⟨rfl, hfurther⟩ := List.cons_prefix_cons.1 hway
      exact hrest way name hfurther

/-- The places that are left are those without a member taken out on the way. -/
theorem isSome_inside?_without {steps : List Segment} :
    ((node.without gone).inside? steps).isSome ↔
      (node.inside? steps).isSome ∧
        ∀ way name, way ++ [.key name] <+: steps → gone (way ++ [.key name]) = false := by
  induction steps generalizing node gone with
  | nil => simp [inside?]
  | cons step rest ih =>
    rw [forall_members_on_way_cons (p := fun steps => gone steps = false), inside?, inside?,
      child?_without]
    by_cases hgone : step.key?.isSome ∧ gone [step]
    · rw [if_pos hgone]
      simp [hgone]
    · have kept : step.key?.isSome → gone [step] = false := fun hkey =>
        Bool.eq_false_iff.2 fun h => hgone ⟨hkey, h⟩
      rw [if_neg hgone]
      cases node.child? step with
      | none => simp
      | some inner =>
        rw [Option.map_some, Option.bind_some, Option.bind_some, and_iff_right kept]
        exact ih

theorem hasDistinctKeys_without (distinct : node.hasDistinctKeys) :
    (node.without gone).hasDistinctKeys := by
  induction node using Document.containment.induction generalizing gone with
  | step node ih =>
    have held (step : Segment) {inner : Json} (h : (node.without gone).child? step = some inner) :
        inner.hasDistinctKeys := by
      obtain ⟨original, hchild, rfl⟩ := exists_child?_of_without h
      have hedge := (Document.mem_contents_iff distinct).2 hchild
      exact ih _ hedge (Document.hasDistinctKeys_of_mem_contents distinct hedge)
    cases node with
    | arr items =>
      refine (hasDistinctKeys_arr _).2 fun item hitem => ?_
      obtain ⟨i, hi⟩ := List.mem_iff_getElem?.1 hitem
      exact held (.index i) hi
    | obj members =>
      have nodup : ((membersWithout gone members).map Prod.fst).Nodup := by
        rw [keys_membersWithout]
        exact ((hasDistinctKeys_obj members).1 distinct).1.filter _
      refine (hasDistinctKeys_obj _).2 ⟨nodup, fun member hmember => ?_⟩
      exact held (.key member.1) (Entries.lookup_of_mem nodup hmember)
    | _ => rfl

end ApiLint.Json
