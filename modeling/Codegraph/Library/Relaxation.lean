import Codegraph.Library.Dict
import Codegraph.Library.Heaps
import Mathlib.Data.DFinsupp.WellFounded
import Mathlib.Logic.Relation

namespace Codegraph.Library

open Relation List Dict

/-- The distances found so far, the node before each node on its way, and the nodes that wait. -/
structure Relaxing (Node Cost : Type) where
  dist : Dict Node Cost
  prev : Dict Node Node
  heap : List (Cost × Node)

namespace Relaxing

variable {Node Cost : Type} [Costing Cost]

/-- The rest of the heap stays when its least entry is taken out. -/
structure Popped (state : Relaxing Node Cost) (cost : Cost) (node : Node)
    (rest : List (Cost × Node)) : Prop where
  perm : state.heap.Perm ((cost, node) :: rest)
  least : ∀ other ∈ state.heap, ¬Costing.less other.1 cost = true

theorem Popped.member {state : Relaxing Node Cost} {cost : Cost} {node : Node}
    {rest : List (Cost × Node)} (popped : Popped state cost node rest) :
    (cost, node) ∈ state.heap := popped.perm.mem_iff.mpr mem_cons_self

variable [DecidableEq Node]

def start (source : Node) : Relaxing Node Cost :=
  ⟨Dict.set ∅ source Costing.zero, ∅, [(Costing.zero, source)]⟩

/-- A node that was not found yet is infinitely far away. -/
def distance (state : Relaxing Node Cost) (node : Node) : Cost := state.dist.getD node Costing.infinity

/-- An edge that shortens the way to its target changes the distance, and the target waits again. -/
def relax (cost : Cost) (node : Node) (state : Relaxing Node Cost) (edge : Node × Cost) :
    Relaxing Node Cost :=
  let nextCost := Costing.add cost edge.2
  if Costing.less nextCost (state.distance edge.1) then
    { dist := state.dist.set edge.1 nextCost
      prev := state.prev.set edge.1 node
      heap := state.heap ++ [(nextCost, edge.1)] }
  else state

/-- The search ends when the goal comes out of the heap or nothing waits. -/
def explore (policy : HeapPolicy Cost) (edges : Node → List (Node × Cost)) (goal : Option Node) :
    Nat → Nat → Relaxing Node Cost → Option (Option Cost × Relaxing Node Cost)
  | 0, _, _ => none
  | fuel + 1, time, state =>
    match policy.pop time state.heap with
    | none => some (none, state)
    | some ((cost, node), heap) =>
      if goal = some node then some (some cost, { state with heap })
      else if Costing.less (state.distance node) cost then
        explore policy edges goal fuel (time + 1) { state with heap }
      else explore policy edges goal fuel (time + 1)
        ((edges node).foldl (relax cost node) { state with heap })

/-- How a search ended. -/
def Ended (goal : Option Node) (state : Relaxing Node Cost) (found : Option Cost)
    (final : Relaxing Node Cost) : Prop :=
  (found = none ∧ final = state ∧ state.heap = []) ∨
    ∃ cost target rest, found = some cost ∧ goal = some target ∧ Popped state cost target rest ∧
      final = { state with heap := rest }

section Runs

variable {policy : HeapPolicy Cost} {edges : Node → List (Node × Cost)} {goal : Option Node}
variable {fuel time : Nat} {state : Relaxing Node Cost}

theorem explore_keeps {Holds : Relaxing Node Cost → Prop}
    (skips : ∀ state cost node rest, Holds state → Popped state cost node rest →
      goal ≠ some node → Costing.less (state.distance node) cost = true → Holds { state with heap := rest })
    (expands : ∀ state cost node rest, Holds state → Popped state cost node rest →
      goal ≠ some node → ¬Costing.less (state.distance node) cost = true →
        Holds ((edges node).foldl (relax cost node) { state with heap := rest }))
    {found : Option Cost} {final : Relaxing Node Cost} (holds : Holds state)
    (ends : explore policy edges goal fuel time state = some (found, final)) :
    ∃ last, Holds last ∧ Ended goal last found final := by
  induction fuel generalizing time state with
  | zero => nomatch ends
  | succ fuel ih =>
    unfold explore at ends
    split at ends
    · rename_i empty
      obtain ⟨rfl, rfl⟩ := Prod.mk.inj (Option.some.inj ends)
      exact ⟨state, holds, .inl ⟨rfl, rfl, policy.pop_none empty⟩⟩
    rename_i cost node rest taken
    obtain ⟨perm, least⟩ := policy.pop_some taken
    have popped : Popped state cost node rest := ⟨perm, least⟩
    split at ends
    · rename_i same
      obtain ⟨rfl, rfl⟩ := Prod.mk.inj (Option.some.inj ends)
      exact ⟨state, holds, .inr ⟨cost, node, rest, rfl, same, popped, rfl⟩⟩
    rename_i other
    split at ends
    · rename_i stale
      exact ih (skips state cost node rest holds popped other stale) ends
    · rename_i current
      exact ih (expands state cost node rest holds popped other current) ends

theorem explore_mono {fuel' : Nat} {result : Option Cost × Relaxing Node Cost}
    (ends : explore policy edges goal fuel time state = some result) (more : fuel ≤ fuel') :
    explore policy edges goal fuel' time state = some result := by
  induction fuel generalizing fuel' time state with
  | zero => nomatch ends
  | succ fuel ih =>
    cases fuel' with
    | zero => exact absurd more (Nat.not_succ_le_zero fuel)
    | succ fuel' =>
      have less := Nat.le_of_succ_le_succ more
      unfold explore at ends ⊢
      split at ends
      · exact ends
      split at ends
      · rename_i same
        rwa [if_pos same]
      rename_i other
      rw [if_neg other]
      split at ends
      · rename_i stale
        rw [if_pos stale]
        exact ih ends less
      rename_i current
      rw [if_neg current]
      exact ih ends less

end Runs

end Relaxing

section

variable {Node Cost : Type} [DecidableEq Node] [Costing Cost]

/-- The costs that walks meet have ranks, and a smaller cost has a smaller rank. -/
structure Falling (rank : Cost → Nat) (Met : Cost → Prop) (edges : Node → List (Node × Cost)) : Prop where
  zero : Met Costing.zero
  add : ∀ node, ∀ edge ∈ edges node, ∀ cost, Met cost → Met (Costing.add cost edge.2)
  less : ∀ first second, Met first → Met second → Costing.less first second = true →
    rank first < rank second

namespace Relaxing

/-- The search stays among the nodes and the costs that it can meet. -/
structure Tame (Met : Cost → Prop) (nodes : Finset Node) (state : Relaxing Node Cost) : Prop where
  found : ∀ node cost, state.dist.get node = some cost → Met cost
  waiting : ∀ entry ∈ state.heap, Met entry.1 ∧ entry.2 ∈ nodes

/-- The ranks of the distances, with a node that was not found above all ranks. -/
def levels (rank : Cost → Nat) (nodes : Finset Node) (state : Relaxing Node Cost) :
    {node // node ∈ nodes} → WithTop Nat :=
  fun node => (state.dist.get node.1).elim ⊤ fun cost => (rank cost : WithTop Nat)

variable {rank : Cost → Nat} {Met : Cost → Prop} {edges : Node → List (Node × Cost)}
variable {nodes : Finset Node} {policy : HeapPolicy Cost} {goal : Option Node}
variable {state : Relaxing Node Cost} {cost : Cost} {node : Node}

section

variable (falling : Falling rank Met edges)
include falling

theorem relax_levels {edge : Node × Cost}
    (listed : edge ∈ edges node) (inside : edge.1 ∈ nodes) (met : Met cost)
    (tame : Tame Met nodes state) : Tame Met nodes (relax cost node state edge) ∧
      (relax cost node state edge = state ∨
        levels rank nodes (relax cost node state edge) < levels rank nodes state) := by
  have met' := falling.add node edge listed cost met
  unfold relax
  dsimp only
  split
  · rename_i shorter
    constructor
    · constructor
      · intro other value found
        rw [get_set] at found
        split at found
        · exact Option.some.inj found ▸ met'
        · exact tame.found other value found
      intro entry mem
      rcases mem_append.mp mem with old | new
      · exact tame.waiting entry old
      · rw [mem_singleton.mp new]
        exact ⟨met', inside⟩
    right
    have lower : ((state.dist.set edge.1 (Costing.add cost edge.2)).get edge.1).elim ⊤
        (fun value => (rank value : WithTop Nat)) <
          (state.dist.get edge.1).elim ⊤ fun value => (rank value : WithTop Nat) := by
      rw [get_set_self]
      unfold distance Dict.getD at shorter
      cases found : state.dist.get edge.1 with
      | none => exact WithTop.coe_lt_top _
      | some old =>
        rw [found] at shorter
        exact WithTop.coe_lt_coe.mpr (falling.less _ _ met' (tame.found _ _ found) shorter)
    rw [Pi.lt_def]
    refine ⟨fun other => ?_, ⟨edge.1, inside⟩, lower⟩
    by_cases same : other.1 = edge.1
    · obtain rfl : other = ⟨edge.1, inside⟩ := Subtype.ext same
      exact lower.le
    unfold levels
    dsimp only
    rw [get_set_ne _ _ same]
  · exact ⟨tame, .inl rfl⟩

theorem foldl_levels {todo : List (Node × Cost)}
    (listed : ∀ edge ∈ todo, edge ∈ edges node) (inside : ∀ edge ∈ todo, edge.1 ∈ nodes)
    (met : Met cost) (tame : Tame Met nodes state) :
    Tame Met nodes (todo.foldl (relax cost node) state) ∧ (todo.foldl (relax cost node) state = state ∨
        levels rank nodes (todo.foldl (relax cost node) state) < levels rank nodes state) := by
  induction todo generalizing state with
  | nil => exact ⟨tame, .inl rfl⟩
  | cons edge todo ih =>
    obtain ⟨first, later⟩ := forall_mem_cons.mp listed
    obtain ⟨here, further⟩ := forall_mem_cons.mp inside
    obtain ⟨tame', lower⟩ := relax_levels falling first here met tame
    obtain ⟨tame'', lower'⟩ := ih later further tame'
    refine ⟨tame'', ?_⟩
    rw [foldl_cons]
    rcases lower with same | lower
    · rw [same] at lower' ⊢
      exact lower'
    rcases lower' with same | lower'
    · exact .inr (same.symm ▸ lower)
    · exact .inr (lower'.trans lower)

/-- The search halts: a round lowers a rank or shrinks the heap. -/
theorem explore_ends (closed : ∀ node ∈ nodes, ∀ edge ∈ edges node, edge.1 ∈ nodes) (time : Nat)
    (tame : Tame Met nodes state) :
    ∃ fuel result, explore policy edges goal fuel time state = some result := by
  induction levelled : levels rank nodes state using WellFoundedLT.induction
    generalizing state time with
  | _ level fall =>
    induction size : state.heap.length using Nat.strong_induction_on generalizing state time with
    | _ count shrink =>
      cases taken : policy.pop time state.heap with
      | none =>
        refine ⟨1, (none, state), ?_⟩
        rw [explore, taken]
      | some entry =>
        obtain ⟨⟨cost, node⟩, rest⟩ := entry
        obtain ⟨perm, -⟩ := policy.pop_some taken
        obtain ⟨met, inside⟩ := tame.waiting _ (perm.mem_iff.mpr mem_cons_self)
        have smaller : rest.length < count := by
          rw [← size, perm.length_eq, length_cons]
          exact Nat.lt_succ_self _
        have tame' : Tame Met nodes { state with heap := rest } :=
          ⟨tame.found, fun entry mem => tame.waiting entry (perm.mem_iff.mpr (mem_cons_of_mem _ mem))⟩
        by_cases same : goal = some node
        · refine ⟨1, (some cost, { state with heap := rest }), ?_⟩
          rw [explore, taken]
          exact if_pos same
        have next : ∃ fuel result,
            (if Costing.less (state.distance node) cost = true then
              explore policy edges goal fuel (time + 1) { state with heap := rest }
            else explore policy edges goal fuel (time + 1)
              ((edges node).foldl (relax cost node) { state with heap := rest })) = some result := by
          split
          · exact shrink rest.length smaller (time + 1) tame' levelled rfl
          obtain ⟨tame'', lower⟩ := foldl_levels falling (fun _ listed => listed)
            (closed node inside) met tame'
          rcases lower with unchanged | lower
          · rw [unchanged]
            exact shrink rest.length smaller (time + 1) tame' levelled rfl
          · exact fall _ (levelled ▸ lower) (time + 1) tame'' rfl
        obtain ⟨fuel, result, ends⟩ := next
        refine ⟨fuel + 1, result, ?_⟩
        rw [explore, taken]
        dsimp only
        rwa [if_neg same]

theorem explore_halts (closed : ∀ node ∈ nodes, ∀ edge ∈ edges node, edge.1 ∈ nodes) {source : Node}
    (stored : source ∈ nodes) :
    ∃ fuel result, explore policy edges goal fuel 0 (start source) = some result := by
  refine explore_ends falling closed 0 ⟨fun node cost found => ?_, fun entry mem => ?_⟩
  · rw [start, get_set, get_empty] at found
    split at found
    · exact Option.some.inj found ▸ falling.zero
    · nomatch found
  · rw [mem_singleton.mp mem]
    exact ⟨falling.zero, stored⟩

end

end Relaxing

end

end Codegraph.Library
