import ApiLint.Proofs.Schema.Lifting

/-!
# Resolutions of a composed schema

A resolution of a schema settles its alternatives: at every schema that it meets it picks one
`oneOf` branch and one `anyOf` branch where there are any, and it follows all `allOf` branches.  A
strict test passes exactly when every resolution has a node that passes, however the alternatives
are settled.
-/

namespace ApiLint.Schema

mutual

/-- The nodes that are left of a schema when its alternatives are settled. -/
inductive Resolution : Json → List Json → Prop
  | value {value : Json} (h : value.isObj = false) : Resolution value []
  | schema {schema : Json} {every one any : List Json} (h : schema.isObj)
      (hevery : Conjunction (Applicator.allOf.branches schema) every)
      (hone : Alternative (Applicator.oneOf.branches schema) one)
      (hany : Alternative (Applicator.anyOf.branches schema) any) :
      Resolution schema (schema :: (every ++ one ++ any))

/-- A resolution of each branch, chosen for each on its own. -/
inductive Conjunction : List Json → List Json → Prop
  | nil : Conjunction [] []
  | cons {branch : Json} {rest nodes more : List Json} (h : Resolution branch nodes)
      (hrest : Conjunction rest more) : Conjunction (branch :: rest) (nodes ++ more)

/-- A resolution of one branch, if there are any. -/
inductive Alternative : List Json → List Json → Prop
  | none : Alternative [] []
  | pick {branch : Json} {branches nodes : List Json} (hmem : branch ∈ branches)
      (h : Resolution branch nodes) : Alternative branches nodes

end

/-! ## Branches of a resolution -/

theorem Conjunction.exists_resolution {branches nodes : List Json} (h : Conjunction branches nodes)
    {branch : Json} (hmem : branch ∈ branches) :
    ∃ own, Resolution branch own ∧ own ⊆ nodes := by
  induction branches generalizing nodes with
  | nil => cases hmem
  | cons first rest ih =>
    cases h with
    | cons hfirst hrest =>
      rcases List.mem_cons.1 hmem with rfl | hmem
      · exact ⟨_, hfirst, List.subset_append_left _ _⟩
      · obtain ⟨own, hown, hsub⟩ := ih hrest hmem
        exact ⟨own, hown, List.subset_append_of_subset_right _ hsub⟩

theorem Alternative.exists_resolution {branches nodes : List Json} (h : Alternative branches nodes)
    (hne : branches ≠ []) : ∃ branch ∈ branches, Resolution branch nodes := by
  cases h with
  | none => exact absurd rfl hne
  | pick hmem h => exact ⟨_, hmem, h⟩

/-! ## Tests that resolutions miss -/

variable {test : Json → Bool}

/-- Some resolution of a schema has no node that passes the test. -/
def CanMiss (test : Json → Bool) (schema : Json) : Prop :=
  ∃ nodes, Resolution schema nodes ∧ ∀ node ∈ nodes, ¬test node

theorem exists_conjunction_of_canMiss {branches : List Json}
    (h : ∀ branch ∈ branches, CanMiss test branch) :
    ∃ nodes, Conjunction branches nodes ∧ ∀ node ∈ nodes, ¬test node := by
  induction branches with
  | nil => exact ⟨[], .nil, by simp⟩
  | cons branch rest ih =>
    rw [List.forall_mem_cons] at h
    obtain ⟨⟨nodes, hnodes, hmissed⟩, hrest⟩ := h
    obtain ⟨more, hmore, hmissedMore⟩ := ih hrest
    refine ⟨nodes ++ more, .cons hnodes hmore, fun node hnode => ?_⟩
    exact (List.mem_append.1 hnode).elim (hmissed node) (hmissedMore node)

theorem exists_alternative_of_canMiss {branches : List Json}
    (h : branches ≠ [] → ∃ branch ∈ branches, CanMiss test branch) :
    ∃ nodes, Alternative branches nodes ∧ ∀ node ∈ nodes, ¬test node := by
  by_cases hne : branches = []
  · subst hne
    exact ⟨[], .none, by simp⟩
  · obtain ⟨branch, hmem, nodes, hnodes, hmissed⟩ := h hne
    exact ⟨nodes, .pick hmem hnodes, hmissed⟩

/-- A test that fails is missed by the resolution that picks a failing branch wherever it can. -/
theorem canMiss_of_not_lift {schema : Json} (h : ¬lift .strict test schema) :
    CanMiss test schema := by
  induction schema using branch_induction with
  | step schema ih =>
    by_cases hobj : schema.isObj
    · rw [lift_strict_iff hobj] at h
      push Not at h
      obtain ⟨hown, hall, halternatives⟩ := h
      obtain ⟨every, hevery, missedEvery⟩ := exists_conjunction_of_canMiss fun branch hmem =>
        ih .allOf branch hmem (hall branch hmem)
      have pick (a : Applicator) (ha : a ≠ .allOf) : ∃ nodes,
          Alternative (a.branches schema) nodes ∧ ∀ node ∈ nodes, ¬test node := by
        refine exists_alternative_of_canMiss fun hne => ?_
        obtain ⟨branch, hmem, hfails⟩ := halternatives a ha hne
        exact ⟨branch, hmem, ih a branch hmem hfails⟩
      obtain ⟨one, hone, missedOne⟩ := pick .oneOf (by decide)
      obtain ⟨any, hany, missedAny⟩ := pick .anyOf (by decide)
      refine ⟨_, .schema hobj hevery hone hany, ?_⟩
      simp only [List.mem_cons, List.mem_append]
      rintro node (rfl | (hnode | hnode) | hnode)
      · exact hown
      · exact missedEvery node hnode
      · exact missedOne node hnode
      · exact missedAny node hnode
    · exact ⟨[], .value (by simpa using hobj), by simp⟩

/-- A test that passes is met by every resolution, whatever it picks. -/
theorem exists_node_of_lift {schema : Json} {nodes : List Json} (h : lift .strict test schema)
    (hnodes : Resolution schema nodes) : ∃ node ∈ nodes, node.isObj ∧ test node := by
  induction schema using branch_induction generalizing nodes with
  | step schema ih =>
    cases hnodes with
    | value hvalue => simp [lift_of_not_isObj hvalue] at h
    | @schema _ every one any hobj hevery hone hany =>
      have meets {branch : Json} {own : List Json} (a : Applicator)
          (hmem : branch ∈ a.branches schema) (hlift : lift .strict test branch)
          (hown : Resolution branch own) (hsub : own ⊆ every ++ one ++ any) :
          ∃ node ∈ schema :: (every ++ one ++ any), node.isObj ∧ test node := by
        obtain ⟨node, hnode, htest⟩ := ih a branch hmem hlift hown
        exact ⟨node, List.mem_cons_of_mem _ (hsub hnode), htest⟩
      rcases (lift_strict_iff hobj).1 h with hown | ⟨branch, hmem, hlift⟩ | ⟨a, ha, hne, hlift⟩
      · exact ⟨schema, List.mem_cons_self, hobj, hown⟩
      · obtain ⟨own, hown, hsub⟩ := hevery.exists_resolution hmem
        refine meets .allOf hmem hlift hown fun node hnode => ?_
        simp [hsub hnode]
      · cases a with
        | allOf => exact absurd rfl ha
        | oneOf =>
          obtain ⟨branch, hmem, hown⟩ := hone.exists_resolution hne
          exact meets .oneOf hmem (hlift branch hmem) hown (by simp)
        | anyOf =>
          obtain ⟨branch, hmem, hown⟩ := hany.exists_resolution hne
          exact meets .anyOf hmem (hlift branch hmem) hown (by simp)

/-- A strict test passes exactly when every resolution has an object that passes. -/
theorem lift_strict_iff_forall_resolution (test : Json → Bool) (schema : Json) :
    lift .strict test schema ↔
      ∀ nodes, Resolution schema nodes → ∃ node ∈ nodes, node.isObj ∧ test node := by
  refine ⟨fun h nodes => exists_node_of_lift h, fun h => ?_⟩
  by_contra hlift
  obtain ⟨nodes, hnodes, hmissed⟩ := canMiss_of_not_lift hlift
  obtain ⟨node, hnode, -, htest⟩ := h nodes hnodes
  exact hmissed node hnode htest

end ApiLint.Schema
