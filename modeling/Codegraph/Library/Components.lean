import Mathlib.Data.List.Nodup
import Mathlib.Logic.Relation
import Mathlib.Order.Bounds.Basic
import Mathlib.Order.Lattice
import Mathlib.Tactic

namespace Codegraph.Library

open Relation List Function

section

variable {Node : Type} {edge : Node → Node → Prop}

/-- The nodes reach each other. -/
def Mutual (edge : Node → Node → Prop) (first second : Node) : Prop :=
  ReflTransGen edge first second ∧ ReflTransGen edge second first

theorem Mutual.symm {first second : Node} (mutually : Mutual edge first second) :
    Mutual edge second first := ⟨mutually.2, mutually.1⟩

theorem Mutual.trans {first second third : Node} (left : Mutual edge first second)
    (right : Mutual edge second third) : Mutual edge first third :=
  ⟨left.1.trans right.1, right.2.trans left.2⟩

/-- The lists are components, and an edge leads to the same component or to an earlier one. -/
structure Condensed (edge : Node → Node → Prop) (sccs : List (List Node)) : Prop where
  components : ∀ scc ∈ sccs, ∀ u ∈ scc, ∀ w, w ∈ scc ↔ Mutual edge u w
  nonempty : ∀ scc ∈ sccs, scc ≠ []
  distinct : sccs.flatten.Nodup
  ordered : ∀ before scc after, sccs = before ++ scc :: after →
    ∀ u ∈ scc, ∀ w, edge u w → w ∈ scc ∨ w ∈ before.flatten

namespace Condensed

variable {sccs : List (List Node)}

theorem nil : Condensed edge [] where
  components scc listed := absurd listed not_mem_nil
  nonempty scc listed := absurd listed not_mem_nil
  distinct := nodup_nil
  ordered before scc after split := by cases before <;> cases split

section

variable (condensed : Condensed edge sccs)
include condensed

theorem closed {u w : Node} (listed : u ∈ sccs.flatten) (step : edge u w) : w ∈ sccs.flatten := by
  obtain ⟨scc, inside, mem⟩ := mem_flatten.mp listed
  obtain ⟨before, after, split⟩ := append_of_mem inside
  rw [split, flatten_append, flatten_cons]
  rcases condensed.ordered before scc after split u mem w step with same | earlier
  · exact mem_append_right _ (mem_append_left _ same)
  · exact mem_append_left _ earlier

theorem closed_walk {u w : Node} (listed : u ∈ sccs.flatten)
    (walk : ReflTransGen edge u w) : w ∈ sccs.flatten := by
  induction walk with
  | refl => exact listed
  | tail _ last ih => exact condensed.closed ih last

theorem push {scc : List Node} {root : Node} (rooted : root ∈ scc)
    (distinct : scc.Nodup) (fresh : ∀ u ∈ scc, u ∉ sccs.flatten)
    (mutually : ∀ u ∈ scc, Mutual edge root u)
    (leads : ∀ u ∈ scc, ∀ w, edge u w → w ∈ scc ∨ w ∈ sccs.flatten) :
    Condensed edge (sccs ++ [scc]) := by
  have within (u w : Node) (mem : u ∈ scc) (walk : ReflTransGen edge u w) : w ∈ scc ∨ w ∈ sccs.flatten := by
    induction walk with
    | refl => exact .inl mem
    | tail _ last ih =>
      rcases ih with inside | listed
      · exact leads _ inside _ last
      · exact .inr (condensed.closed listed last)
  refine ⟨?_, ?_, ?_, ?_⟩
  · intro other listed u mem w
    rcases mem_append.mp listed with old | new
    · exact condensed.components other old u mem w
    obtain rfl := mem_singleton.mp new
    constructor
    · intro mem'
      exact (mutually u mem).symm.trans (mutually w mem')
    intro both
    rcases within u w mem both.1 with inside | listed'
    · exact inside
    · exact absurd (condensed.closed_walk listed' both.2) (fresh u mem)
  · intro other listed
    rcases mem_append.mp listed with old | new
    · exact condensed.nonempty other old
    · rw [mem_singleton.mp new]
      exact ne_nil_of_mem rooted
  · rw [flatten_append, flatten_singleton]
    refine nodup_append.mpr ⟨condensed.distinct, distinct, ?_⟩
    rintro u listed w mem rfl
    exact fresh u mem listed
  · intro before other after split u mem w step
    rcases eq_nil_or_concat after with rfl | ⟨rest, last, rfl⟩
    · obtain ⟨rfl, same⟩ := append_inj' split rfl
      obtain rfl := singleton_inj.mp same
      exact leads u mem w step
    rw [concat_eq_append, ← cons_append, ← append_assoc] at split
    obtain ⟨same, -⟩ := append_inj' split rfl
    exact condensed.ordered before other rest same u mem w step

/-- An edge between two components goes back in the list. -/
theorem index_lt {i j : Nat} {first second : List Node} {u w : Node}
    (here : sccs[i]? = some first) (there : sccs[j]? = some second) (inFirst : u ∈ first)
    (inSecond : w ∈ second) (step : edge u w) (apart : i ≠ j) : j < i := by
  obtain ⟨inside, rfl⟩ := List.getElem?_eq_some_iff.mp here
  obtain ⟨inside', rfl⟩ := List.getElem?_eq_some_iff.mp there
  have disjoint := (nodup_flatten.mp condensed.distinct).2
  rw [pairwise_iff_getElem] at disjoint
  have split : sccs = sccs.take i ++ sccs[i] :: sccs.drop (i + 1) := by
    rw [← drop_eq_getElem_cons inside, take_append_drop]
  rcases condensed.ordered _ _ _ split u inFirst w step with same | earlier
  · rcases Nat.lt_or_gt_of_ne apart with less | greater
    · exact absurd inSecond (disjoint i j inside inside' less same)
    · exact greater
  obtain ⟨scc, listed, mem⟩ := mem_flatten.mp earlier
  obtain ⟨place, short, rfl⟩ := mem_take_iff_getElem.mp listed
  by_contra notLess
  have less : place < j := by omega
  exact disjoint place j _ inside' less mem inSecond

end

end Condensed

end

section

variable {Node : Type}

/-- An edge between nodes that are still active. -/
def Live (edge : Node → Node → Prop) (active : Node → Prop) (first second : Node) : Prop :=
  active first ∧ active second ∧ edge first second

/-- The active nodes are whole components. -/
def Whole (edge : Node → Node → Prop) (active : Node → Prop) : Prop :=
  ∀ first second, active first → Mutual edge first second → active second

section Components

variable {edge : Node → Node → Prop} {active : Node → Prop}

theorem Live.edges {first second : Node} (walk : ReflTransGen (Live edge active) first second) :
    ReflTransGen edge first second := ReflTransGen.mono (fun _ _ step => step.2.2) _ _ walk

theorem Whole.walk (whole : Whole edge active) {first second : Node} (here : active first)
    (walk : ReflTransGen edge first second) (back : ReflTransGen edge second first) :
    ReflTransGen (Live edge active) first second := by
  induction walk with
  | refl => exact .refl
  | tail before last ih =>
    rename_i middle node
    have returns : ReflTransGen edge middle first := .head last back
    exact (ih returns).tail
      ⟨whole first middle here ⟨before, returns⟩, whole first node here ⟨before.tail last, back⟩, last⟩

theorem Whole.mutual_iff (whole : Whole edge active) {first second : Node} (here : active first) :
    Mutual (Live edge active) first second ↔ Mutual edge first second := by
  constructor
  · intro mutually
    exact ⟨Live.edges mutually.1, Live.edges mutually.2⟩
  intro mutually
  exact ⟨whole.walk here mutually.1 mutually.2,
    whole.walk (whole first second here mutually) mutually.2 mutually.1⟩

end Components

section Colors

variable [LinearOrder Node] {edge : Node → Node → Prop} {active : Node → Prop} {color : Node → Node}

/-- Each active node has the color of an active node that reaches it and is no smaller. -/
structure Colored (edge : Node → Node → Prop) (active : Node → Prop) (color : Node → Node) : Prop where
  atLeast : ∀ node, active node → node ≤ color node
  source : ∀ node, active node → active (color node)
  reaches : ∀ node, active node → ReflTransGen (Live edge active) (color node) node

theorem Colored.raise (colored : Colored edge active color) {first second : Node}
    (live : Live edge active first second) (less : color second < color first) :
    Colored edge active (Function.update color second (color first)) where
  atLeast node here := by
    by_cases same : node = second
    · rw [same, update_self]
      exact (colored.atLeast second live.2.1).trans less.le
    · rw [update_of_ne same]
      exact colored.atLeast node here
  source node here := by
    by_cases same : node = second
    · rw [same, update_self]
      exact colored.source first live.1
    · rw [update_of_ne same]
      exact colored.source node here
  reaches node here := by
    by_cases same : node = second
    · rw [same, update_self]
      exact (colored.reaches first live.1).tail live
    · rw [update_of_ne same]
      exact colored.reaches node here

/-- The colors grow along the live edges. -/
structure Saturated (edge : Node → Node → Prop) (active : Node → Prop) (color : Node → Node) : Prop
    extends Colored edge active color where
  grows : ∀ first second, Live edge active first second → color first ≤ color second

namespace Saturated

section

variable (saturated : Saturated edge active color)
include saturated

theorem grows_walk {first second : Node}
    (walk : ReflTransGen (Live edge active) first second) : color first ≤ color second := by
  induction walk with
  | refl => exact le_rfl
  | tail _ last ih => exact ih.trans (saturated.grows _ _ last)

theorem color_color {node : Node} (here : active node) : color (color node) = color node :=
  le_antisymm (saturated.grows_walk (saturated.reaches node here))
    (saturated.atLeast _ (saturated.source node here))

theorem color_eq_of_mutual {first second : Node}
    (mutually : Mutual (Live edge active) first second) : color first = color second :=
  le_antisymm (saturated.grows_walk mutually.1) (saturated.grows_walk mutually.2)

theorem color_of_greatest {node : Node} (here : active node)
    (greatest : ∀ other, active other → other ≤ node) : color node = node :=
  le_antisymm (greatest _ (saturated.source node here)) (saturated.atLeast node here)

theorem isGreatest (whole : Whole edge active) {node : Node}
    (here : active node) (back : ReflTransGen (Live edge active) node (color node)) :
    IsGreatest {other | Mutual edge node other} (color node) := by
  have mutually := (whole.mutual_iff here).mp ⟨back, saturated.reaches node here⟩
  refine ⟨mutually, ?_⟩
  intro other same
  have live := (whole.mutual_iff here).mpr same
  rw [saturated.color_eq_of_mutual live]
  exact saturated.atLeast other (whole node other here same)

end

end Saturated

/-- Each marked node reaches its color. -/
structure Marked (edge : Node → Node → Prop) (active : Node → Prop) (color : Node → Node)
    (found : Node → Prop) : Prop where
  roots : ∀ node, active node → color node = node → found node
  reaches : ∀ node, active node → found node → ReflTransGen (Live edge active) node (color node)

omit [LinearOrder Node] in
theorem Marked.mark {found : Node → Prop} (marked : Marked edge active color found)
    {first second : Node} (live : Live edge active first second) (same : color first = color second)
    (there : found second) : Marked edge active color fun node => node = first ∨ found node where
  roots node here root := .inr (marked.roots node here root)
  reaches node here either := by
    rcases either with rfl | old
    · rw [same]
      exact .head live (marked.reaches second live.2.1 there)
    · exact marked.reaches node here old

/-- The marks spread backward along the live edges of one color. -/
structure Spread (edge : Node → Node → Prop) (active : Node → Prop) (color : Node → Node)
    (found : Node → Prop) : Prop extends Marked edge active color found where
  spreads : ∀ first second, Live edge active first second → color first = color second →
    found second → found first

namespace Spread

variable {found : Node → Prop}

/-- Exactly the nodes that reach their colors are marked. -/
theorem found_iff (spread : Spread edge active color found) (saturated : Saturated edge active color)
    {node : Node} (here : active node) :
    found node ↔ ReflTransGen (Live edge active) node (color node) := by
  constructor
  · exact spread.reaches node here
  intro walk
  have along (middle : Node) (rest : ReflTransGen (Live edge active) middle (color node))
      (before : color node ≤ color middle) : found middle ∧ color middle = color node := by
    induction rest using ReflTransGen.head_induction_on with
    | refl =>
      have same := saturated.color_color here
      exact ⟨spread.roots _ (saturated.source node here) same, same⟩
    | head first _ ih =>
      have grown := saturated.grows _ _ first
      obtain ⟨marked, same⟩ := ih (before.trans grown)
      have equal := le_antisymm (grown.trans_eq same) before
      exact ⟨spread.spreads _ _ first (equal.trans same.symm) marked, equal⟩
  exact (along node walk le_rfl).1

/-- The nodes that are not marked are whole components. -/
theorem whole_rest (spread : Spread edge active color found) (saturated : Saturated edge active color)
    (whole : Whole edge active) : Whole edge fun node => active node ∧ ¬ found node := by
  rintro first second ⟨here, unmarked⟩ mutually
  have there := whole first second here mutually
  refine ⟨there, ?_⟩
  intro marked
  have live := (whole.mutual_iff here).mpr mutually
  have walk := (spread.found_iff saturated there).mp marked
  rw [← saturated.color_eq_of_mutual live] at walk
  exact unmarked ((spread.found_iff saturated here).mpr (live.1.trans walk))

end Spread

end Colors

end

end Codegraph.Library
