import ApiLint.Descent
import ApiLint.Proofs.Json.DistinctKeys

/-!
# What a descent visits

The visits of a descent are the nodes that its edges lead to, one visit for each way to a node when
the edges of every node go by different steps.  A descent whose steps have a place in the document
visits what stands at the places of its steps.
-/

namespace ApiLint.Descent

variable {σ : Type} {d : Descent σ}

/-! ## Induction -/

/-- What holds of a node when it holds of the nodes directly below holds of all nodes. -/
@[elab_as_elim]
theorem induction (d : Descent σ) {motive : Json → Prop}
    (step : ∀ node, (∀ edge ∈ d.next node, motive edge.2) → motive node) (node : Json) :
    motive node :=
  step node fun edge _ => induction d step edge.2
termination_by sizeOf node
decreasing_by exact d.smaller ‹_›

/-! ## Ways to a node -/

/-- Steps lead from a node to another one when each goes along an edge. -/
inductive Leads (d : Descent σ) : Json → List σ → Json → Prop
  | here (node : Json) : Leads d node [] node
  | step {node inner last : Json} {s : σ} {rest : List σ} (edge : (s, inner) ∈ d.next node)
      (further : Leads d inner rest last) : Leads d node (s :: rest) last

theorem leads_nil_iff {node last : Json} : d.Leads node [] last ↔ last = node := by
  constructor
  · rintro ⟨⟩
    rfl
  · rintro rfl
    exact .here last

theorem leads_cons_iff {node last : Json} {s : σ} {rest : List σ} :
    d.Leads node (s :: rest) last ↔
      ∃ inner, (s, inner) ∈ d.next node ∧ d.Leads inner rest last := by
  constructor
  · rintro (_ | ⟨edge, further⟩)
    exact ⟨_, edge, further⟩
  · rintro ⟨_, edge, further⟩
    exact .step edge further

theorem mem_visits_iff {node : Json} {visit : Visit σ} :
    visit ∈ d.visits node ↔ d.Leads node visit.steps visit.node := by
  obtain ⟨steps, last⟩ := visit
  induction node using d.induction generalizing steps with
  | step node ih =>
    rw [visits_eq, List.mem_cons, List.mem_flatMap]
    constructor
    · rintro (h | ⟨edge, hedge, h⟩)
      · cases h
        exact .here _
      · obtain ⟨⟨rest, _⟩, hbelow, h⟩ := List.mem_map.1 h
        cases h
        exact .step hedge ((ih edge hedge rest).1 hbelow)
    · rintro (_ | ⟨hedge, further⟩)
      · exact .inl rfl
      · exact .inr ⟨_, hedge, List.mem_map.2 ⟨_, (ih _ hedge _).2 further, rfl⟩⟩

/-- Where the edges of every node go by different steps, a visit comes before all visits that its
steps lead on to. -/
theorem pairwise_visits {node : Json}
    (h : ∀ {steps : List σ} {last : Json}, d.Leads node steps last →
      ((d.next last).map Prod.fst).Nodup) :
    (d.visits node).Pairwise fun earlier later => ¬later.steps <+: earlier.steps := by
  induction node using d.induction with
  | step node ih =>
    rw [visits_eq, List.pairwise_cons, List.pairwise_flatMap]
    refine ⟨fun visit hvisit => ?_, fun edge hedge => ?_, ?_⟩
    · obtain ⟨edge, -, hvisit⟩ := List.mem_flatMap.1 hvisit
      obtain ⟨further, -, rfl⟩ := List.mem_map.1 hvisit
      simp [Visit.after]
    · rw [List.pairwise_map]
      refine (ih edge hedge fun further => h (.step hedge further)).imp fun hlater hearlier => ?_
      exact hlater (List.cons_prefix_cons.1 hearlier).2
    · have different := List.pairwise_map.1 (h (.here node))
      refine different.imp fun {a b} hne earlier hearlier later hlater hprefix => ?_
      obtain ⟨_, -, rfl⟩ := List.mem_map.1 hearlier
      obtain ⟨_, -, rfl⟩ := List.mem_map.1 hlater
      exact hne (List.cons_prefix_cons.1 hprefix).1.symm

/-- Visits that come before all visits that their steps lead on to go by different ways. -/
theorem nodup_steps {visits : List (Visit σ)}
    (h : visits.Pairwise fun earlier later => ¬later.steps <+: earlier.steps) :
    (visits.map Visit.steps).Nodup := by
  rw [List.Nodup, List.pairwise_map]
  refine h.imp fun hlater hsame => hlater ?_
  exact hsame ▸ List.prefix_rfl

/-- Descents with the same edges in another order visit the same nodes in another order. -/
theorem visits_perm {other : Descent σ} (h : ∀ node, (d.next node).Perm (other.next node))
    (node : Json) : (d.visits node).Perm (other.visits node) := by
  induction node using d.induction with
  | step node ih =>
    rw [visits_eq, visits_eq]
    exact ((h node).flatMap fun edge hedge => (ih edge hedge).map _).cons _

/-! ## Fewer steps -/

theorem flatMap_filter {α β : Type} (items : List α) (keep : α → Bool) (f : α → List β) :
    (items.filter keep).flatMap f = items.flatMap fun a => if keep a then f a else [] := by
  induction items with
  | nil => rfl
  | cons a rest ih => by_cases hkeep : keep a <;> simp [hkeep, ih]

theorem next_only (d : Descent σ) (test : Json → Bool) (node : Json) :
    (d.only test).next node = (d.next node).filter fun edge => test edge.2 := rfl

theorem Leads.of_only {test : Json → Bool} {node last : Json} {steps : List σ}
    (h : (d.only test).Leads node steps last) : d.Leads node steps last := by
  induction h with
  | here node => exact .here node
  | step edge _ ih => exact .step (List.mem_filter.1 edge).1 ih

/-- A descent that leaves out the edges of some steps leaves out the visits that go by them. -/
theorem visits_eq_filter {full : Descent σ} (keep : σ → Bool)
    (h : ∀ node, d.next node = (full.next node).filter fun edge => keep edge.1) (node : Json) :
    d.visits node = (full.visits node).filter fun visit => visit.steps.all keep := by
  induction node using full.induction with
  | step node ih =>
    have below (edge : σ × Json) (hedge : edge ∈ full.next node) :
        ((full.visits edge.2).map (Visit.after edge.1)).filter (fun visit => visit.steps.all keep) =
          if keep edge.1 then (d.visits edge.2).map (Visit.after edge.1) else [] := by
      rw [List.filter_map, ih edge hedge]
      by_cases hkeep : keep edge.1 <;> simp [hkeep, Visit.after, Function.comp_def]
    rw [visits_eq, visits_eq, List.filter_cons_of_pos (by rfl), List.filter_flatMap,
      List.flatMap_congr below, h, flatMap_filter]

/-! ## Places of steps -/

/-- Each edge of a value without repeated keys ends where the place of its step leads. -/
def IsPlacedBy (d : Descent σ) (place : σ → List Segment) : Prop :=
  ∀ node : Json, node.hasDistinctKeys → ∀ edge ∈ d.next node,
    node.follow? (place edge.1) = some edge.2

variable {place : σ → List Segment}

theorem IsPlacedBy.follow?_of_leads (placed : d.IsPlacedBy place) {node last : Json}
    {steps : List σ} (h : d.Leads node steps last) (distinct : node.hasDistinctKeys) :
    node.follow? (steps.flatMap place) = some last := by
  induction h with
  | here => rfl
  | step edge _ ih =>
    have hstep := placed _ distinct _ edge
    rw [List.flatMap_cons, Json.follow?_append, hstep, Option.bind_some]
    exact ih (Json.hasDistinctKeys_of_follow? distinct hstep)

theorem IsPlacedBy.only (placed : d.IsPlacedBy place) (test : Json → Bool) :
    (d.only test).IsPlacedBy place := fun node distinct edge hedge =>
  placed node distinct edge (List.mem_filter.1 hedge).1

end ApiLint.Descent
