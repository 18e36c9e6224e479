import Codegraph.Library.Predecessors
import Mathlib.Algebra.Order.Monoid.WithTop
import Mathlib.Algebra.Order.Ring.Rat
import Mathlib.Data.NNRat.Floor

namespace Codegraph.Library

open Relation List

/-- An exact nonnegative cost, or infinity. -/
abbrev Exact := WithTop ℚ≥0

instance : Costing Exact where
  zero := 0
  infinity := ⊤
  add first second := first + second
  less first second := first < second

theorem exact_less (first second : Exact) : Costing.less first second = true ↔ first < second :=
  decide_eq_true_iff

theorem exact_ordered : Ordered (id : Exact → Exact) fun _ => True where
  zero := trivial
  infinity := trivial
  below _ _ _ _ := trivial
  less first second _ _ := exact_less first second
  injective _ _ _ _ same := same

/-- The exact costs that were pushed first come out first. -/
def Exact.first : HeapPolicy Exact := .first id fun first second => (exact_less first second).mp

variable {Node : Type} {edges : Node → List (Node × Exact)}

theorem exact_additive : Additive (id : Exact → Exact) (fun _ => True) edges where
  proper _ _ _ _ _ := trivial
  monotone _ edge _ _ _ _ _ small := add_le_add_left small edge.2

/-- A walk leads from one node to the other, and its edges cost so much. -/
inductive CostWalk (edges : Node → List (Node × Exact)) : Node → Exact → Node → Prop
  | stay {node : Node} : CostWalk edges node 0 node
  | step {node last : Node} {edge : Node × Exact} {cost : Exact} (listed : edge ∈ edges node)
      (rest : CostWalk edges edge.1 cost last) : CostWalk edges node (edge.2 + cost) last

theorem CostWalk.trans {first middle last : Node} {cost cost' : Exact}
    (walk : CostWalk edges first cost middle) (walk' : CostWalk edges middle cost' last) :
    CostWalk edges first (cost + cost') last := by
  induction walk with
  | stay => rwa [zero_add]
  | step listed rest ih =>
    rw [add_assoc]
    exact .step listed (ih walk')

theorem CostWalk.edge {node : Node} {edge : Node × Exact} (listed : edge ∈ edges node) :
    CostWalk edges node edge.2 edge.1 := by
  have walk := CostWalk.step listed .stay
  rwa [add_zero] at walk

variable {first last : Node}

theorem CostWalk.ne_top (finite : ∀ node, ∀ edge ∈ edges node, edge.2 ≠ ⊤)
    {cost : Exact} (walk : CostWalk edges first cost last) : cost ≠ ⊤ := by
  induction walk with
  | stay => exact WithTop.zero_ne_top
  | step listed rest ih => exact WithTop.add_ne_top.mpr ⟨finite _ _ listed, ih⟩

theorem Route.walk {may : Node → Exact → Prop} {source : Node} {last : Node × Exact}
    (route : Route edges may (source, 0) last) : CostWalk edges source last.2 last.1 := by
  induction route with
  | refl => exact .stay
  | tail before last ih =>
    cases last with
    | edge here listed => exact ih.trans (.edge listed)

theorem CostWalk.route {cost : Exact} (walk : CostWalk edges first cost last)
    (start : Exact) : Route edges (fun _ value => id value ≤ start + cost) (first, start)
      (last, start + cost) := by
  induction walk generalizing start with
  | stay => rw [add_zero]
  | @step node last edge cost listed rest ih =>
    have route := ih (start + edge.2)
    rw [add_assoc] at route
    refine .head (.edge ?_ listed) route
    exact le_self_add

/-- Costs only grow on the way. -/
theorem Route.grows {may : Node → Exact → Prop} {first last : Node × Exact}
    (route : Route edges may first last) : first.2 ≤ last.2 := by
  induction route with
  | refl => exact le_rfl
  | tail before last ih =>
    cases last with
    | edge here listed => exact ih.trans le_self_add

theorem exact_harmless {source : Node} {goal : Option Node} : Harmless id edges source goal := by
  intro node cost cost' before round useful
  rw [exact_less, not_lt]
  exact round.grows

theorem exists_unit (weights : List ℚ≥0) :
    ∃ unit : Nat, unit ≠ 0 ∧ ∀ weight ∈ weights, ∃ count : Nat, weight = count / unit := by
  induction weights with
  | nil => exact ⟨1, one_ne_zero, fun _ mem => absurd mem not_mem_nil⟩
  | cons first weights ih =>
    obtain ⟨unit, positive, counts⟩ := ih
    have some : (unit : ℚ≥0) ≠ 0 := Nat.cast_ne_zero.mpr positive
    have some' : (first.den : ℚ≥0) ≠ 0 := Nat.cast_ne_zero.mpr first.den_ne_zero
    refine ⟨unit * first.den, Nat.mul_ne_zero positive first.den_ne_zero, ?_⟩
    rw [forall_mem_cons]
    refine ⟨⟨first.num * unit, ?_⟩, fun weight mem => ?_⟩
    · rw [Nat.cast_mul, Nat.cast_mul, mul_comm (unit : ℚ≥0), mul_div_mul_right _ _ some]
      exact first.num_div_den.symm
    obtain ⟨count, rfl⟩ := counts weight mem
    refine ⟨count * first.den, ?_⟩
    rw [Nat.cast_mul, Nat.cast_mul, mul_div_mul_right _ _ some']

/-- How many units a cost has. -/
def exactRank (unit : Nat) (cost : Exact) : Nat := ⌊cost.untopD 0 * unit⌋₊

theorem exactRank_count {unit : Nat} (positive : unit ≠ 0) (count : Nat) :
    exactRank unit ((count / unit : ℚ≥0) : Exact) = count := by
  rw [exactRank, WithTop.untopD_coe, div_mul_cancel₀ _ (Nat.cast_ne_zero.mpr positive), Nat.floor_natCast]

theorem exact_falling {unit : Nat} (positive : unit ≠ 0)
    (counts : ∀ node, ∀ edge ∈ edges node, ∃ count : Nat, edge.2 = ((count / unit : ℚ≥0) : Exact)) :
    Falling (exactRank unit) (fun cost => ∃ count : Nat, cost = ((count / unit : ℚ≥0) : Exact))
      edges where
  zero := ⟨0, by rw [Nat.cast_zero, zero_div]; rfl⟩
  add := by
    rintro node edge listed cost ⟨count, rfl⟩
    obtain ⟨count', same⟩ := counts node edge listed
    refine ⟨count + count', ?_⟩
    rw [same, Nat.cast_add, add_div]
    rfl
  less := by
    rintro first second ⟨count, rfl⟩ ⟨count', rfl⟩ smaller
    rw [exactRank_count positive, exactRank_count positive]
    rw [exact_less, WithTop.coe_lt_coe] at smaller
    have some : (0 : ℚ≥0) < unit := Nat.cast_pos.mpr (pos_of_ne_zero positive)
    exact Nat.cast_lt.mp ((div_lt_div_iff_of_pos_right some).mp smaller)

/-- A walk of at least one edge whose inner nodes are of a kind. -/
inductive Through (edges : Node → List (Node × Exact)) (inner : Node → Prop) : Node → Exact → Node → Prop
  | edge {node : Node} {edge : Node × Exact} (listed : edge ∈ edges node) :
      Through edges inner node edge.2 edge.1
  | step {node last : Node} {edge : Node × Exact} {cost : Exact} (listed : edge ∈ edges node)
      (here : inner edge.1) (rest : Through edges inner edge.1 cost last) :
      Through edges inner node (edge.2 + cost) last

theorem Through.mono {inner inner' : Node → Prop} {cost : Exact}
    (wider : ∀ node ∈ {node | ∃ before weight, (node, weight) ∈ edges before}, inner node →
      inner' node) (through : Through edges inner first cost last) :
    Through edges inner' first cost last := by
  induction through with
  | edge listed => exact .edge listed
  | step listed here rest ih => exact .step listed (wider _ ⟨_, _, listed⟩ here) ih

/-- A walk between different nodes has an edge. -/
theorem CostWalk.through {cost : Exact} (walk : CostWalk edges first cost last) :
    first = last ∨ ∃ cost' ≤ cost, Through edges (fun _ => True) first cost' last := by
  induction walk with
  | stay => exact .inl rfl
  | @step node last edge cost listed rest ih =>
    rcases ih with rfl | ⟨cost', small, through⟩
    · exact .inr ⟨edge.2, le_self_add, .edge listed⟩
    · exact .inr ⟨edge.2 + cost', add_le_add_right small _, .step listed trivial through⟩

theorem Through.split {inner : Node → Prop} {middle first last : Node} {cost : Exact}
    (through : Through edges (fun node => inner node ∨ node = middle) first cost last) :
    Through edges inner first cost last ∨ ∃ cost' cost'', Through edges inner first cost' middle ∧
      Through edges inner middle cost'' last ∧ cost' + cost'' ≤ cost := by
  induction through with
  | edge listed => exact .inl (.edge listed)
  | @step node last edge cost listed here rest ih =>
    rcases ih with direct | ⟨cost', cost'', before, after, small⟩
    · rcases here with here | rfl
      · exact .inl (.step listed here direct)
      · exact .inr ⟨edge.2, cost, .edge listed, direct, le_rfl⟩
    right
    rcases here with here | rfl
    · refine ⟨edge.2 + cost', cost'', .step listed here before, after, ?_⟩
      rw [add_assoc]
      exact add_le_add_right small _
    · refine ⟨edge.2, cost'', .edge listed, after, add_le_add_right ?_ _⟩
      exact le_add_self.trans small

/-- The distance is the least cost of a walk, and infinite when there is no walk. -/
structure IsDistance (edges : Node → List (Node × Exact)) (first last : Node) (distance : Exact) : Prop where
  least : ∀ cost, CostWalk edges first cost last → distance ≤ cost
  walk : distance ≠ ⊤ → CostWalk edges first distance last

theorem IsDistance.unique {distance distance' : Exact}
    (is : IsDistance edges first last distance) (is' : IsDistance edges first last distance') :
    distance = distance' := by
  apply le_antisymm
  · by_cases infinite : distance' = ⊤
    · exact infinite ▸ le_top
    · exact is.least _ (is'.walk infinite)
  by_cases infinite : distance = ⊤
  · exact infinite ▸ le_top
  · exact is'.least _ (is.walk infinite)

/-- What a search reports: nothing for an infinite distance. -/
def reported (distance : Exact) : Option Exact := if distance = ⊤ then none else some distance

theorem reported_eq_none {distance : Exact} : reported distance = none ↔ distance = ⊤ := by
  unfold reported
  split
  · rename_i infinite
    exact iff_of_true rfl infinite
  · rename_i finite
    exact iff_of_false (fun same => nomatch same) finite

section Searches

variable [DecidableEq Node] {policy : HeapPolicy Exact} {source : Node} {fuel : Nat}

theorem exact_finite : id (Costing.zero : Exact) < id (Costing.infinity : Exact) := WithTop.coe_lt_top _

open Relaxing

theorem relaxed_walk {goal : Option Node} {state : Relaxing Node Exact}
    (relaxed : Relaxed id edges source goal (fun _ _ _ => False) state) {node : Node} {cost : Exact}
    (walk : CostWalk edges source cost node) (finite : cost ≠ ⊤) :
    (∃ entry ∈ state.heap, entry.1 ≤ cost) ∨
      (goal ≠ some node ∧ ∃ least, state.dist.get node = some least ∧ least ≤ cost) := by
  have route := walk.route 0
  rw [zero_add] at route
  rcases relaxed.frontier exact_ordered exact_additive (lt_top_iff_ne_top.mpr finite) route le_rfl with
    waiting | ⟨least, found, small, other, -⟩
  · exact .inl waiting
  · exact .inr ⟨other, least, found, small⟩

theorem explore_distance (finite : ∀ node, ∀ edge ∈ edges node, edge.2 ≠ ⊤) {target : Node}
    {found : Option Exact} {final : Relaxing Node Exact}
    (ends : explore policy edges (some target) fuel 0 (start source) = some (found, final)) :
    ∃ distance, IsDistance edges source target distance ∧ found = reported distance := by
  obtain ⟨last, relaxed, ended⟩ := explore_relaxed exact_ordered exact_additive exact_finite ends
  rcases ended with ⟨rfl, rfl, empty⟩ | ⟨cost, target', rest, rfl, same, popped, rfl⟩
  · refine ⟨⊤, ⟨fun cost walk => ?_, fun infinite => absurd rfl infinite⟩, (if_pos rfl).symm⟩
    rcases relaxed_walk relaxed walk (walk.ne_top finite) with ⟨entry, mem, -⟩ | ⟨other, -⟩
    · rw [empty] at mem
      exact absurd mem not_mem_nil
    · exact absurd rfl other
  obtain rfl := Option.some.inj same
  have walk := Route.walk (relaxed.queued _ popped.member).1
  refine ⟨cost, ⟨fun cost' walk' => ?_, fun _ => walk⟩, (if_neg (walk.ne_top finite)).symm⟩
  rcases relaxed_walk relaxed walk' (walk'.ne_top finite) with
    ⟨entry, mem, small⟩ | ⟨other, -⟩
  · have least := popped.least entry mem
    rw [exact_less, not_lt] at least
    exact least.trans small
  · exact absurd rfl other

/-- A search without a goal ends with the distances of all nodes. -/
theorem explore_distances (finite : ∀ node, ∀ edge ∈ edges node, edge.2 ≠ ⊤)
    {found : Option Exact} {final : Relaxing Node Exact}
    (ends : explore policy edges none fuel 0 (start source) = some (found, final)) (node : Node) :
    ∃ distance, IsDistance edges source node distance ∧ final.dist.get node = reported distance := by
  obtain ⟨last, relaxed, ended⟩ := explore_relaxed exact_ordered exact_additive exact_finite ends
  rcases ended with ⟨rfl, rfl, empty⟩ | ⟨cost, target', rest, rfl, same, popped, rfl⟩
  · have known {cost : Exact} (walk : CostWalk edges source cost node) :
        ∃ least, final.dist.get node = some least ∧ least ≤ cost := by
      rcases relaxed_walk relaxed walk (walk.ne_top finite) with ⟨entry, mem, -⟩ | ⟨-, known⟩
      · rw [empty] at mem
        exact absurd mem not_mem_nil
      · exact known
    cases label : final.dist.get node with
    | none =>
      refine ⟨⊤, ⟨fun cost walk => ?_, fun infinite => absurd rfl infinite⟩, (if_pos rfl).symm⟩
      obtain ⟨least, found, -⟩ := known walk
      exact nomatch label.symm.trans found
    | some cost =>
      have walk := Route.walk (relaxed.real node cost label)
      refine ⟨cost, ⟨fun cost' walk' => ?_, fun _ => walk⟩, (if_neg (walk.ne_top finite)).symm⟩
      obtain ⟨least, found, small⟩ := known walk'
      exact Option.some.inj (label.symm.trans found) ▸ small
  · nomatch same

end Searches

end Codegraph.Library
