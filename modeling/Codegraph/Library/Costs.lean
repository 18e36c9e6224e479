import Mathlib.Tactic

namespace Codegraph.Library

open Function

variable {Node : Type} {free paid : Node → Node → Prop} {source : Node}

/-- A walk of so much cost leads from the source to a node. -/
inductive Costs (free paid : Node → Node → Prop) (source : Node) : Nat → Node → Prop
  | start : Costs free paid source 0 source
  | free {cost : Nat} {middle target : Node} (before : Costs free paid source cost middle)
      (last : free middle target) : Costs free paid source cost target
  | paid {cost : Nat} {middle target : Node} (before : Costs free paid source cost middle)
      (last : paid middle target) : Costs free paid source (cost + 1) target

/-- The node is one step away from a node that costs less than the limit. -/
def Adjoins (free paid : Node → Node → Prop) (source : Node) (limit : Nat) (target : Node) : Prop :=
  ∃ before cost, cost < limit ∧ Costs free paid source cost before ∧
    (free before target ∨ paid before target)

theorem Costs.adjoins {limit : Nat} (border : ∀ before target, Costs free paid source limit before →
      (∀ cost, Costs free paid source cost before → limit ≤ cost) → free before target →
        target = source ∨ Adjoins free paid source limit target)
    {cost : Nat} {target : Node} (costs : Costs free paid source cost target)
    (within : cost ≤ limit) : target = source ∨ Adjoins free paid source limit target := by
  cases costs with
  | start => exact .inl rfl
  | @free _ middle _ before last =>
    by_cases cheaper : ∃ other < limit, Costs free paid source other middle
    · obtain ⟨other, below, route⟩ := cheaper
      exact .inr ⟨middle, other, below, route, .inl last⟩
    have least (other : Nat) (route : Costs free paid source other middle) : limit ≤ other := by
      by_contra below
      exact cheaper ⟨other, by omega, route⟩
    obtain rfl : cost = limit := Nat.le_antisymm within (least cost before)
    exact border middle target before least last
  | @paid cost middle _ before last => exact .inr ⟨middle, cost, by omega, before, .inr last⟩

theorem Adjoins.costs {limit : Nat} {target : Node} (adjoins : Adjoins free paid source limit target) :
    ∃ cost ≤ limit, Costs free paid source cost target := by
  obtain ⟨before, cost, below, route, last | last⟩ := adjoins
  · exact ⟨cost, by omega, .free route last⟩
  · exact ⟨cost + 1, by omega, .paid route last⟩

/-- The node has a label that is no larger than the cost. -/
def Below (label : Node → Option Nat) (cost : Nat) (node : Node) : Prop :=
  ∃ least ≤ cost, label node = some least

/-- The steps away from a node lead to nodes whose labels are small enough. -/
def Settled (free paid : Node → Node → Prop) (label : Node → Option Nat) (cost : Nat) (node : Node) : Prop :=
  (∀ next, free node next → Below label cost next) ∧ ∀ next, paid node next → Below label (cost + 1) next

/-- The labels are costs of walks, and a node labelled below the limit waits or is settled. -/
structure Labelled (free paid : Node → Node → Prop) (source : Node) (limit : Nat)
    (label : Node → Option Nat) (waits : Node → Nat → Prop) : Prop where
  start : label source = some 0
  real : ∀ node cost, label node = some cost → Costs free paid source cost node
  met : ∀ node cost, label node = some cost →
    cost ≤ limit ∧ (node = source ∨ Adjoins free paid source limit node)
  settled : ∀ node cost, label node = some cost → cost < limit →
    waits node cost ∨ Settled free paid label cost node

section Labels

variable {limit : Nat} {label label' : Node → Option Nat} {waits waits' : Node → Nat → Prop}

/-- Labels only fall. -/
def Falls (label label' : Node → Option Nat) : Prop :=
  ∀ node cost, label node = some cost → Below label' cost node

theorem Falls.refl (label : Node → Option Nat) : Falls label label :=
  fun _ cost found => ⟨cost, le_refl _, found⟩

variable {node : Node}

theorem Below.falls {cost : Nat} (below : Below label cost node)
    (falls : Falls label label') : Below label' cost node := by
  obtain ⟨least, small, found⟩ := below
  obtain ⟨smaller, smaller_le, found'⟩ := falls node least found
  exact ⟨smaller, le_trans smaller_le small, found'⟩

theorem Falls.trans {label'' : Node → Option Nat} (first : Falls label label')
    (second : Falls label' label'') : Falls label label'' :=
  fun node cost found => (first node cost found).falls second

theorem Settled.falls {cost : Nat} (settled : Settled free paid label cost node)
    (falls : Falls label label') : Settled free paid label' cost node :=
  ⟨fun next last => (settled.1 next last).falls falls, fun next last => (settled.2 next last).falls falls⟩

theorem Labelled.release (labelled : Labelled free paid source limit label waits)
    (released : ∀ node cost, label node = some cost → cost < limit → waits node cost →
      waits' node cost ∨ Settled free paid label cost node) :
    Labelled free paid source limit label waits' :=
  ⟨labelled.start, labelled.real, labelled.met, fun node cost found below =>
    (labelled.settled node cost found below).elim (released node cost found below) .inr⟩

variable [DecidableEq Node]

theorem falls_update {cost : Nat} (shorter : ¬ Below label cost node) :
    Falls label (Function.update label node (some cost)) := by
  intro other least found
  by_cases same : other = node
  · subst same
    refine ⟨cost, ?_, update_self ..⟩
    by_contra larger
    exact shorter ⟨least, by omega, found⟩
  · exact ⟨least, le_refl _, by rw [update_of_ne same, found]⟩

theorem Labelled.offer (labelled : Labelled free paid source limit label waits)
    {cost : Nat} (shorter : ¬ Below label cost node) (route : Costs free paid source cost node)
    (within : cost ≤ limit) (adjoins : Adjoins free paid source limit node)
    (queued : waits' node cost) (kept : ∀ other least, waits other least → waits' other least) :
    Labelled free paid source limit (Function.update label node (some cost)) waits' := by
  have falls := falls_update shorter
  have apart : source ≠ node := by
    intro same
    exact shorter ⟨0, Nat.zero_le _, same ▸ labelled.start⟩
  refine ⟨?_, ?_, ?_, ?_⟩
  · rw [update_of_ne apart, labelled.start]
  · intro other least found
    by_cases same : other = node
    · subst same
      rw [update_self] at found
      cases found
      exact route
    · rw [update_of_ne same] at found
      exact labelled.real other least found
  · intro other least found
    by_cases same : other = node
    · subst same
      rw [update_self] at found
      cases found
      exact ⟨within, .inr adjoins⟩
    · rw [update_of_ne same] at found
      exact labelled.met other least found
  · intro other least found below
    by_cases same : other = node
    · subst same
      rw [update_self] at found
      cases found
      exact .inl queued
    rw [update_of_ne same] at found
    rcases labelled.settled other least found below with waiting | settled
    · exact .inl (kept other least waiting)
    · exact .inr (settled.falls falls)

omit [DecidableEq Node] in
theorem Labelled.below (labelled : Labelled free paid source limit label fun _ _ => False)
    {cost : Nat} (costs : Costs free paid source cost node) (small : cost < limit) :
    Below label cost node := by
  have settled {other : Node} {cost : Nat} (below : Below label cost other) (small : cost < limit) :
      ∃ least ≤ cost, Settled free paid label least other := by
    obtain ⟨least, least_le, found⟩ := below
    refine ⟨least, least_le, ?_⟩
    exact (labelled.settled other least found (by omega)).resolve_left id
  induction costs with
  | start => exact ⟨0, le_refl _, labelled.start⟩
  | free _ last ih =>
    obtain ⟨least, least_le, closed⟩ := settled (ih small) small
    obtain ⟨other, other_le, found⟩ := closed.1 _ last
    exact ⟨other, by omega, found⟩
  | paid _ last ih =>
    obtain ⟨least, least_le, closed⟩ := settled (ih (by omega)) (by omega)
    obtain ⟨other, other_le, found⟩ := closed.2 _ last
    exact ⟨other, by omega, found⟩

omit [DecidableEq Node] in
theorem Labelled.complete (labelled : Labelled free paid source limit label fun _ _ => False)
    (node : Node) : (label node).isSome ↔ node = source ∨ Adjoins free paid source limit node := by
  constructor
  · intro found
    obtain ⟨cost, found⟩ := Option.isSome_iff_exists.mp found
    exact (labelled.met node cost found).2
  rintro (same | ⟨before, cost, small, route, last⟩)
  · rw [same, labelled.start]
    rfl
  · obtain ⟨least, least_le, found⟩ := labelled.below route small
    have closed := (labelled.settled before least found (by omega)).resolve_left id
    rcases last with last | last
    · obtain ⟨_, _, found'⟩ := closed.1 node last
      rw [found']
      rfl
    obtain ⟨_, _, found'⟩ := closed.2 node last
    rw [found']
    rfl

/-- The labels of the nodes can fall by so much. -/
def slack (limit : Nat) (label : Node → Option Nat) (nodes : List Node) : Nat :=
  (nodes.map fun node => (label node).getD (limit + 1)).sum

omit [DecidableEq Node] in
theorem slack_empty (limit : Nat) (nodes : List Node) :
    slack limit (fun _ => none) nodes = nodes.length * (limit + 1) := by
  simp [slack]

theorem slack_update {nodes : List Node} {cost : Nat} (mem : node ∈ nodes)
    (shorter : ¬ Below label cost node) (within : cost ≤ limit) :
    slack limit (Function.update label node (some cost)) nodes < slack limit label nodes := by
  have here : (some cost).getD (limit + 1) < (label node).getD (limit + 1) := by
    cases found : label node with
    | none => exact Nat.lt_succ_of_le within
    | some least =>
      by_contra larger
      exact shorter ⟨least, Nat.le_of_not_lt larger, found⟩
  refine List.sum_lt_sum _ _ ?_ ⟨node, mem, ?_⟩
  · intro other _
    by_cases same : other = node
    · subst same
      rw [update_self]
      exact le_of_lt here
    · rw [update_of_ne same]
  · rwa [update_self]

end Labels

end Codegraph.Library
