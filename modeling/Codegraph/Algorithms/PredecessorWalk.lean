import Codegraph.Algorithms.AllPairs
import Codegraph.Library.Single

namespace Codegraph

open Library List Relaxing Single

/-- The weight of an edge as the float that it is. -/
def singleWeight (data : EdgeData) : Single := .ofBits data.weight

theorem singleWeight_finite {data : EdgeData} (finite : isFinite data.weight = true) :
    ∃ count, singleWeight data = .finite count := by
  have exponent : (data.weight.extractLsb' 23 8).toNat ≠ 255 := by
    intro same
    exact of_decide_eq_true finite (BitVec.eq_of_toNat_eq same)
  rw [singleWeight, Single.ofBits, if_neg exponent]
  exact ⟨_, rfl⟩

namespace CodeGraph

/-- Consecutive nodes of the path are joined by edges. -/
def IsWalk (code : CodeGraph) (source target : NodeId) (path : List NodeId) : Prop :=
  path.head? = some source ∧ path.getLast? = some target ∧
    path.IsChain fun first second => ∃ data, (first, second, data) ∈ code.edges

/-- The search halts, and a path that it returns is a walk between its ends. -/
def FindsWalk (policy : HeapPolicy Single) (code : CodeGraph) (source target : NodeId) : Prop :=
  ∃ bound, ∀ fuel, bound ≤ fuel → ∃ result,
    code.weightedShortestPath policy singleWeight fuel source target = some result ∧
      ∀ path cost, result = some (path, cost) → code.IsWalk source target path

/-- Every round trip that the search may make on the way to the target keeps the cost. -/
def RoundTripsKeepCost (code : CodeGraph) (source target : NodeId) : Prop :=
  ∀ sourceIdx targetIdx, code.resolve source = some sourceIdx → code.resolve target = some targetIdx →
      Harmless Single.key (code.weighted singleWeight) sourceIdx (some targetIdx)

variable {code : CodeGraph}

theorem weighted_single (finite : code.FiniteWeights) (node : Nat) (edge : Nat × Single)
    (listed : edge ∈ code.weighted singleWeight node) : ∃ count, edge.2 = .finite count := by
  obtain ⟨link, mem, -, rfl⟩ := mem_weighted.mp listed
  exact singleWeight_finite (finite link mem)

theorem explore_halts_single (finite : code.FiniteWeights) (policy : HeapPolicy Single)
    (goal : Option Nat) {source : Nat} (stored : source ∈ code.graph.slots) :
    ∃ fuel result, Relaxing.explore policy (code.weighted singleWeight) goal fuel 0
      (.start source) = some result := by
  have closed : ∀ node ∈ code.graph.slots.toFinset,
      ∀ edge ∈ code.weighted singleWeight node, edge.1 ∈ code.graph.slots.toFinset := by
    intro node _ edge listed
    obtain ⟨link, mem, -, rfl⟩ := mem_weighted.mp listed
    exact mem_toFinset.mpr (link_slots mem).2
  exact explore_halts (single_falling (weighted_single finite)) closed
    (mem_toFinset.mpr stored)

theorem single_finite : Single.key (Costing.zero : Single) < Single.key (Costing.infinity : Single) :=
  key_lt_of_less rfl

theorem nameOf_of_resolve (consistent : Consistent code) {id : NodeId} {slot : Nat}
    (resolved : code.resolve id = some slot) : code.nameOf slot = id := by
  obtain ⟨data, found, named⟩ := (consistent.mapped id slot).mp resolved
  rwa [nameOf, nodeIdFor, found]

theorem chain_stored {Cost : Type} {weigh : EdgeData → Cost} {slots : List Nat} {source : Nat}
    (starts : slots.head? = some source) (stored : source ∈ code.graph.slots)
    (chain : slots.IsChain (Adjacent (code.weighted weigh))) : ∀ slot ∈ slots, slot ∈ code.graph.slots := by
  induction slots generalizing source with
  | nil => exact fun slot mem => absurd mem not_mem_nil
  | cons first slots ih =>
    obtain rfl := Option.some.inj starts
    rw [forall_mem_cons]
    refine ⟨stored, ?_⟩
    cases slots with
    | nil => exact fun slot mem => absurd mem not_mem_nil
    | cons second slots =>
      rw [isChain_cons_cons] at chain
      obtain ⟨⟨weight, listed⟩, rest⟩ := chain
      obtain ⟨link, mem, -, same⟩ := mem_weighted.mp listed
      obtain rfl : second = link.target := congrArg Prod.fst same
      exact ih rfl (link_slots mem).2 rest

theorem isWalk_of_slots {Cost : Type} {weigh : EdgeData → Cost} {slots : List Nat}
    {source target : Nat} (starts : slots.head? = some source)
    (ends : slots.getLast? = some target) (stored : source ∈ code.graph.slots)
    (chain : slots.IsChain (Adjacent (code.weighted weigh))) :
    code.IsWalk (code.nameOf source) (code.nameOf target) (slots.filterMap code.nodeIdFor) := by
  have named : slots.filterMap code.nodeIdFor = slots.map code.nameOf := by
    rw [← filterMap_eq_map]
    exact filterMap_congr fun slot mem => nodeIdFor_eq (chain_stored starts stored chain slot mem)
  rw [named]
  refine ⟨by rw [head?_map, starts]; rfl, by rw [getLast?_map, ends]; rfl, ?_⟩
  rw [isChain_map]
  refine chain.imp fun first second adjacent => ?_
  obtain ⟨weight, listed⟩ := adjacent
  obtain ⟨link, mem, rfl, same⟩ := mem_weighted.mp listed
  obtain rfl : second = link.target := congrArg Prod.fst same
  refine ⟨link.weight, ?_⟩
  rw [edges_eq_map]
  exact mem_map_of_mem mem

/-- A call with the weight -1. -/
def rewardingCall : List Edit :=
  [.addNode caller, .addNode callee, .addEdge caller.id callee.id ⟨.calls, {}, 0xBF800000⟩]

/-- A function that calls itself, with the least finite weight. -/
def rewardingSelfCall : List Edit :=
  [.addNode caller, .addNode callee, .addEdge caller.id caller.id ⟨.calls, {}, 0xFF7FFFFF⟩,
    .addEdge caller.id callee.id ⟨.calls, {}, 0x3F800000⟩]

theorem walkBack_loop {prev : Dict Nat Nat} {node : Nat} (loop : prev.get node = some node)
    (fuel : Nat) (path : List Nat) : Relaxing.walkBack prev fuel node path = none := by
  induction fuel generalizing path with
  | zero => rfl
  | succ fuel ih =>
    rw [Relaxing.walkBack, loop]
    exact ih _

end CodeGraph

end Codegraph
