import Codegraph.Graph.View
import Codegraph.Library.Modularity
import Codegraph.Library.Tally
import Mathlib.Algebra.Order.Ring.Rat
import Mathlib.Data.List.GetD
import Mathlib.Data.List.Sort

namespace Codegraph.Communities

open Library

/-- The neighbours of each node with the weights of the edges. -/
abbrev AdjList := List (List (Nat × ℚ))

/-- The most passes of one level. -/
def maxPasses : Nat := 10

/-- The most levels of coarsening. -/
def maxLevels : Nat := 10

/-- The calls are read in both directions, and calls of a node to itself are left out. -/
def addLink (positions : List Nat) (read : EdgeData → ℚ) (adj : AdjList) (link : Link EdgeData) : AdjList :=
  match link.weight.kind with
  | .calls | .unresolvedCall _ =>
    let source := positions.idxOf link.source
    let target := positions.idxOf link.target
    if source = target then adj
    else
      (adj.modify source fun neighbors => neighbors ++ [(target, read link.weight)]).modify target
        fun neighbors => neighbors ++ [(source, read link.weight)]
  | _ => adj

def buildAdjacency (read : EdgeData → ℚ) (code : CodeGraph) : AdjList × List NodeId :=
  (code.graph.links.foldl (addLink code.graph.slots read) (code.graph.slots.map fun _ => []),
    code.graph.slots.filterMap code.nodeIdFor)

/-- The total weight, where each edge is listed at both ends. -/
def totalWeight (adj : AdjList) : ℚ := (adj.flatMap fun neighbors => neighbors.map Prod.snd).sum / 2

def degree (adj : AdjList) : List ℚ := adj.map fun neighbors => (neighbors.map Prod.snd).sum

section Shuffle

/-- One step of the generator. -/
def nextRandom (state : UInt64) : UInt64 := state * 6364136223846793005 + 1

def swap (slice : List Nat) (first second : Nat) : List Nat :=
  (slice.set first (slice.getD second 0)).set second (slice.getD first 0)

/-- The last places are drawn first. -/
def shuffleFrom : Nat → UInt64 → List Nat → List Nat
  | 0, _, slice => slice
  | i + 1, state, slice =>
    let state := nextRandom state
    shuffleFrom i state (swap slice (i + 1) ((state >>> 33).toNat % (i + 2)))

def shuffleWithSeed (slice : List Nat) (seed : UInt64) : List Nat :=
  shuffleFrom (slice.length - 1) (seed + 1) slice

end Shuffle

section LocalMoves

/-- The community of each node, the degrees of each community, and whether the pass moved a node. -/
structure MoveState where
  community : List Nat
  sigmaTot : List ℚ
  moved : Bool := false
deriving DecidableEq

namespace MoveState

variable (adj : AdjList) (resolution : ℚ) (state : MoveState) (node : Nat)

def nodeComm : Nat := state.community.getD node 0

/-- The weight from the node to each neighbouring community. -/
def commWeights : Dict Nat ℚ :=
  (adj.getD node []).foldl (fun weights entry =>
    weights.update (state.community.getD entry.1 0) 0 (· + entry.2)) ∅

def removeCost : ℚ :=
  let m := totalWeight adj
  let k := (degree adj).getD node 0
  (state.commWeights adj node).getD (state.nodeComm node) 0 / m -
    resolution * (state.sigmaTot.getD (state.nodeComm node) 0 - k) * k / (2 * m * m)

def insertGain (targetComm : Nat) (kInTarget : ℚ) : ℚ :=
  let m := totalWeight adj
  kInTarget / m -
    resolution * state.sigmaTot.getD targetComm 0 * (degree adj).getD node 0 / (2 * m * m)

def gain (candidate : Nat × ℚ) : ℚ :=
  state.insertGain adj resolution node candidate.1 candidate.2 - state.removeCost adj resolution node

/-- The neighbouring communities in ascending order. -/
def candidates : List (Nat × ℚ) :=
  ((state.commWeights adj node).entries.map fun entry => (entry.1, entry.2)).insertionSort
    fun first second => first.1 ≤ second.1

/-- The larger gain wins, and of two equal ones the community with the smaller number. -/
def better (best : ℚ × Nat) (candidate : Nat × ℚ) : ℚ × Nat :=
  let gain := state.gain adj resolution node candidate
  if candidate.1 = state.nodeComm node then best
  else if best.1 < gain ∨ gain = best.1 ∧ candidate.1 < best.2 then (gain, candidate.1)
  else best

def best : ℚ × Nat :=
  (state.candidates adj node).foldl (state.better adj resolution node) (0, state.nodeComm node)

/-- The node leaves its community for another one, and its degree goes with it. -/
def moveTo (target : Nat) : MoveState :=
  let k := (degree adj).getD node 0
  let without := state.sigmaTot.modify (state.nodeComm node) (· - k)
  { community := state.community.set node target
    sigmaTot := without.modify target (· + k)
    moved := true }

def visit : MoveState :=
  let target := (state.best adj resolution node).2
  if target ≠ state.nodeComm node then state.moveTo adj node target else state

variable (order : List Nat)

def pass : MoveState :=
  order.foldl (fun state node => state.visit adj resolution node) { state with moved := false }

end MoveState

/-- The passes end with one that moves no node. -/
def movePasses (adj : AdjList) (resolution : ℚ) (order : List Nat) : Nat → MoveState → MoveState × Bool
  | 0, state => (state, false)
  | passes + 1, state =>
    let after := state.pass adj resolution order
    if after.moved then ((movePasses adj resolution order passes after).1, true)
    else (after, false)

def sigmaTotOf (adj : AdjList) (community : List Nat) : List ℚ :=
  (community.zipIdx.foldl (fun sigmaTot entry =>
    sigmaTot.modify entry.1 (· + (degree adj).getD entry.2 0))
    (List.replicate (community.max?.getD 0 + 1) 0))

def visitOrder (adj : AdjList) (seed : UInt64) : List Nat :=
  shuffleWithSeed (List.range adj.length) seed

def localMoves (adj : AdjList) (community : List Nat) (resolution : ℚ) (seed : UInt64) : List Nat × Bool :=
  if adj.length = 0 ∨ totalWeight adj = 0 then (community, false)
  else
    let (final, improved) := movePasses adj resolution (visitOrder adj seed) maxPasses
      ⟨community, sigmaTotOf adj community, false⟩
    (final.community, improved)

end LocalMoves

section Coarsening

/-- The communities are numbered in the order in which they first occur. -/
def renumber (community : List Nat) : Dict Nat Nat × List Nat :=
  community.foldl (fun (labels, mapping) label =>
    let labels := if (labels.get label).isSome then labels else labels.set label labels.keys.length
    (labels, mapping ++ [labels.getD label 0])) (∅, [])

def coarsen (adj : AdjList) (community : List Nat) : AdjList × List Nat :=
  let (labels, mapping) := renumber community
  let superAdj := adj.zipIdx.foldl (fun superAdj entry =>
    entry.1.foldl (fun superAdj neighbor =>
      superAdj.modify (mapping.getD entry.2 0) fun row : Dict Nat ℚ =>
        row.update (mapping.getD neighbor.1 0) 0 (· + neighbor.2)) superAdj)
    (List.replicate labels.keys.length ∅)
  (superAdj.map fun row => row.entries.map fun entry => (entry.1, entry.2), mapping)

end Coarsening

section Score

/-- The weight inside each community, counted from both ends, and the degrees of each community. -/
structure CommunitySums where
  internal : Dict Nat ℚ := ∅
  degree : Dict Nat ℚ := ∅

def CommunitySums.add (adj : AdjList) (community : List Nat) (sums : CommunitySums)
    (entry : List (Nat × ℚ) × Nat) : CommunitySums :=
  let label := community.getD entry.2 0
  { internal := entry.1.foldl (fun internal neighbor =>
      if community.getD neighbor.1 0 = label then internal.update label 0 (· + neighbor.2)
      else internal) sums.internal
    degree := sums.degree.update label 0 (· + (Communities.degree adj).getD entry.2 0) }

def computeModularity (adj : AdjList) (community : List Nat) (resolution : ℚ) : ℚ :=
  let m := totalWeight adj
  if m = 0 then 0
  else
    let sums := adj.zipIdx.foldl (CommunitySums.add adj community) {}
    let q := sums.internal.entries.foldl (fun q entry => q + entry.2 / 2 / (2 * m)) 0
    sums.degree.entries.foldl (fun q entry => q - resolution * (entry.2 / (2 * m)) ^ 2) q

end Score

section Levels

/-- The communities of the original nodes, and the coarser graph with the nodes that its nodes
stand for. -/
structure Level where
  community : List Nat
  adj : AdjList
  toOrig : List (List Nat)

/-- A node of the coarser graph gives its community to the nodes that it stands for. -/
def spread (count : Nat) (toOrig : List (List Nat)) (levelComm : List Nat) : List Nat :=
  toOrig.zipIdx.foldl (fun community entry =>
    entry.1.foldl (fun community orig => community.set orig (levelComm.getD entry.2 0)) community)
    (List.replicate count 0)

def mergeOrig (toOrig : List (List Nat)) (mapping : List Nat) (count : Nat) : List (List Nat) :=
  toOrig.zipIdx.foldl (fun merged entry =>
    merged.modify (mapping.getD entry.2 0) (· ++ entry.1)) (List.replicate count [])

def levels (count : Nat) (resolution : ℚ) (seed : UInt64) : Nat → Level → List Nat
  | 0, level => level.community
  | left + 1, level =>
    let (levelComm, improved) := localMoves level.adj (List.range level.adj.length) resolution seed
    if improved then
      let community := spread count level.toOrig levelComm
      let (coarsened, mapping) := coarsen level.adj levelComm
      if level.adj.length ≤ coarsened.length then community
      else levels count resolution seed left
        ⟨community, coarsened, mergeOrig level.toOrig mapping coarsened.length⟩
    else level.community

/-- The communities of the nodes, the modularity and the number of communities. -/
structure CommunityResult where
  assignments : List (NodeId × Nat)
  modularity : ℚ
  communityCount : Nat

def louvain (read : EdgeData → ℚ) (code : CodeGraph) (resolution : ℚ) (seed : UInt64) : CommunityResult :=
  let (adj, nodeIds) := buildAdjacency read code
  if adj.length = 0 then ⟨[], 0, 0⟩
  else
    let (labels, community) := renumber (levels adj.length resolution seed maxLevels
      ⟨List.range adj.length, adj, (List.range adj.length).map fun node => [node]⟩)
    ⟨nodeIds.zip community, computeModularity adj community resolution, labels.keys.length⟩

end Levels

open Finset

/-- The weight that the list of the first node gives the second one. -/
def weightBetween (adj : AdjList) (first second : Nat) : ℚ := listedWeight (adj.getD first []) second

/-- Each edge is listed from both ends. -/
def Undirected (adj : AdjList) : Prop :=
  ∀ first second, weightBetween adj first second = weightBetween adj second first

/-- Every listed neighbour is a node of the graph. -/
def Inside (adj : AdjList) : Prop := ∀ neighbors ∈ adj, ∀ entry ∈ neighbors, entry.1 < adj.length

instance (adj : AdjList) : Decidable (Inside adj) :=
  inferInstanceAs (Decidable (∀ neighbors ∈ adj, ∀ entry ∈ neighbors, entry.1 < adj.length))

def communityOf (community : List Nat) (node : Nat) : Nat := community.getD node 0

/-- The modularity of Newman for the nodes of the list. -/
def newman (adj : AdjList) (resolution : ℚ) (community : List Nat) : ℚ :=
  modularity (range adj.length) (weightBetween adj) resolution (communityOf community)

variable {adj : AdjList}

theorem Inside.mem_range (inside : Inside adj) (node : Nat) (entry : Nat × ℚ)
    (mem : entry ∈ adj.getD node []) : entry.1 ∈ range adj.length := by
  rw [Finset.mem_range]
  rcases lt_or_ge node adj.length with stored | beyond
  · rw [List.getD_eq_getElem _ _ stored] at mem
    exact inside _ (List.getElem_mem stored) entry mem
  · rw [List.getD_eq_default _ _ beyond] at mem
    exact absurd mem List.not_mem_nil

theorem listedWeight_relabel (inside : Inside adj) (label : Nat → Nat) (node group : Nat) :
    listedWeight ((adj.getD node []).map fun entry => (label entry.1, entry.2)) group =
      ∑ other ∈ range adj.length with label other = group, weightBetween adj node other := by
  refine Eq.trans ?_ (sum_listedWeight (inside.mem_range node) fun other => label other = group).symm
  rw [listedWeight, List.filter_map, List.map_map]
  rfl

theorem degree_getD (adj : AdjList) (node : Nat) :
    (degree adj).getD node 0 = ((adj.getD node []).map Prod.snd).sum :=
  List.getD_map (f := fun neighbors : List (Nat × ℚ) => (neighbors.map Prod.snd).sum) (d := []) ..

theorem weightedDegree_eq (inside : Inside adj) (node : Nat) :
    weightedDegree (range adj.length) (weightBetween adj) node = (degree adj).getD node 0 := by
  rw [degree_getD]
  exact sum_listedWeight_all (inside.mem_range node)

theorem doubleWeight_eq (inside : Inside adj) :
    doubleWeight (range adj.length) (weightBetween adj) = 2 * totalWeight adj := by
  unfold doubleWeight totalWeight
  rw [sum_congr rfl fun node _ => (weightedDegree_eq inside node).trans (degree_getD adj node),
    sum_range_getD (fun neighbors : List (Nat × ℚ) => (neighbors.map Prod.snd).sum),
    List.flatMap_def, List.sum_flatten, List.map_map, mul_div_cancel₀ _ two_ne_zero]
  rfl

/-- The weights that the score adds to the inside of each community. -/
def internalPairs (community : List Nat) (entry : List (Nat × ℚ) × Nat) : List (Nat × ℚ) :=
  (entry.1.filter fun neighbor =>
    communityOf community neighbor.1 = communityOf community entry.2).map fun neighbor =>
      (communityOf community entry.2, neighbor.2)

def degreePair (adj : AdjList) (community : List Nat) (entry : List (Nat × ℚ) × Nat) : Nat × ℚ :=
  (communityOf community entry.2, (degree adj).getD entry.2 0)

/-- The two sums of the score are tallies. -/
theorem foldl_add (adj : AdjList) (community : List Nat) (entries : List (List (Nat × ℚ) × Nat))
    (sums : CommunitySums) : entries.foldl (CommunitySums.add adj community) sums =
      ⟨(entries.flatMap (internalPairs community)).foldl addTo sums.internal,
        (entries.map (degreePair adj community)).foldl addTo sums.degree⟩ := by
  induction entries generalizing sums with
  | nil => rfl
  | cons entry entries ih =>
    rw [List.foldl_cons, ih, List.flatMap_cons, List.foldl_append, List.map_cons, List.foldl_cons]
    congr 2
    rw [internalPairs, List.foldl_map, List.foldl_filter]
    simp only [decide_eq_true_eq]
    rfl

theorem foldl_plus {Item : Type} (items : List Item) (value : Item → ℚ) (start : ℚ) :
    items.foldl (fun total item => total + value item) start = start + (items.map value).sum := by
  induction items generalizing start with
  | nil => exact (add_zero start).symm
  | cons item items ih =>
    rw [List.foldl_cons, ih, List.map_cons, List.sum_cons]
    ring

theorem foldl_minus {Item : Type} (items : List Item) (value : Item → ℚ) (start : ℚ) :
    items.foldl (fun total item => total - value item) start = start - (items.map value).sum := by
  induction items generalizing start with
  | nil => exact (sub_zero start).symm
  | cons item items ih =>
    rw [List.foldl_cons, ih, List.map_cons, List.sum_cons]
    ring

section Score

variable (community : List Nat)

theorem sum_internal (inside : Inside adj) (node : Nat) :
    ((((adj.getD node []).filter fun neighbor =>
      communityOf community neighbor.1 = communityOf community node).map Prod.snd).sum) =
      ∑ other ∈ range adj.length, if communityOf community node = communityOf community other then
        weightBetween adj node other else 0 := by
  rw [← sum_listedWeight (inside.mem_range node) fun other =>
    communityOf community other = communityOf community node, sum_filter]
  apply sum_congr rfl
  intro other _
  simp only [eq_comm]
  rfl

theorem listedWeight_internal (inside : Inside adj) (label : Nat) :
    listedWeight (adj.zipIdx.flatMap (internalPairs community)) label =
      ∑ node ∈ range adj.length, if communityOf community node = label then
        ∑ other ∈ range adj.length, (if communityOf community node = communityOf community other then
          weightBetween adj node other else 0) else 0 := by
  rw [listedWeight_flatMap, sum_zipIdx _ adj []]
  apply sum_congr rfl
  intro node _
  rw [internalPairs, listedWeight_const, sum_internal community inside]

theorem listedWeight_degree (inside : Inside adj) (label : Nat) :
    listedWeight (adj.zipIdx.map (degreePair adj community)) label =
      groupDegree (range adj.length) (weightBetween adj) (communityOf community) label := by
  rw [← List.flatMap_singleton' (adj.zipIdx.map _), List.flatMap_map, listedWeight_flatMap,
    sum_zipIdx _ adj [], groupDegree, sum_filter]
  apply sum_congr rfl
  intro node _
  rw [weightedDegree_eq inside, listedWeight_cons]
  exact add_zero _

/-- The communities of the nodes. -/
def labels (adj : AdjList) : Finset Nat := (range adj.length).image (communityOf community)

theorem mem_labels {node : Nat} (stored : node ∈ range adj.length) :
    communityOf community node ∈ labels community adj := mem_image_of_mem _ stored

theorem zipIdx_inside {entry : List (Nat × ℚ) × Nat} (mem : entry ∈ adj.zipIdx) :
    entry.2 ∈ range adj.length := by
  rw [Finset.mem_range]
  exact (List.mem_zipIdx' mem).1

/-- The score halves the weight inside the communities once more. -/
theorem computeModularity_eq (inside : Inside adj) (resolution : ℚ) (connected : totalWeight adj ≠ 0) :
    computeModularity adj community resolution = newman adj resolution community -
      innerWeight (range adj.length) (weightBetween adj) (communityOf community) /
        (4 * totalWeight adj) := by
  have inner : ∑ label ∈ labels community adj,
      listedWeight (adj.zipIdx.flatMap (internalPairs community)) label =
        innerWeight (range adj.length) (weightBetween adj) (communityOf community) := by
    simp_rw [listedWeight_internal community inside]
    rw [sum_comm]
    apply sum_congr rfl
    intro node stored
    rw [sum_ite_eq, if_pos (mem_labels community stored)]
  have internalKeys (key : Nat)
      (mem : key ∈ (tally (adj.zipIdx.flatMap (internalPairs community))).keys) :
      key ∈ labels community adj := by
    obtain ⟨pair, listed, rfl⟩ := (isSome_tally _ _).mp
      (Option.isSome_iff_exists.mpr ((Dict.mem_keys_iff _ _).mp mem))
    obtain ⟨entry, stored, inPairs⟩ := List.mem_flatMap.mp listed
    obtain ⟨neighbor, -, rfl⟩ := List.mem_map.mp inPairs
    exact mem_labels community (zipIdx_inside stored)
  have degreeKeys (key : Nat)
      (mem : key ∈ (tally (adj.zipIdx.map (degreePair adj community))).keys) :
      key ∈ labels community adj := by
    obtain ⟨pair, listed, rfl⟩ := (isSome_tally _ _).mp
      (Option.isSome_iff_exists.mpr ((Dict.mem_keys_iff _ _).mp mem))
    obtain ⟨entry, stored, rfl⟩ := List.mem_map.mp listed
    exact mem_labels community (zipIdx_inside stored)
  rw [computeModularity, newman, if_neg connected, foldl_add]
  rw [foldl_minus, foldl_plus, zero_add, ← tally, ← tally, sum_entries (tally _) (fun _ weight => weight / 2 / (2 * totalWeight adj)) (by simp)
      internalKeys,
    sum_entries (tally _) (fun _ weight => resolution * (weight / (2 * totalWeight adj)) ^ 2) (by simp)
      degreeKeys]
  simp_rw [getD_tally, listedWeight_degree community inside]
  rw [modularity_eq resolution _ (labels community adj) fun node stored =>
    mem_labels community stored, doubleWeight_eq inside, ← sum_div, ← sum_div, inner, mul_sum]
  field_simp
  ring

end Score

/-- The score is the modularity of Newman exactly when no weight lies inside the communities. -/
theorem computeModularity_eq_newman_iff (adj : AdjList) (community : List Nat) (resolution : ℚ)
    (inside : Inside adj) (positive : 0 < totalWeight adj) :
    computeModularity adj community resolution = newman adj resolution community ↔
      innerWeight (range adj.length) (weightBetween adj) (communityOf community) = 0 := by
  rw [computeModularity_eq community inside resolution positive.ne', sub_eq_self, div_eq_zero_iff]
  exact or_iff_left (by positivity)

/-- Two nodes that call each other. -/
def couple : AdjList := [[(1, 1)], [(0, 1)]]

theorem computeModularity_couple : computeModularity couple [0, 1] 1 = newman couple 1 [0, 1] ↔
      innerWeight (range couple.length) (weightBetween couple) (communityOf [0, 1]) = 0 :=
  computeModularity_eq_newman_iff couple [0, 1] 1 (by decide) (by decide +kernel)

theorem couple_undirected : Undirected couple := by
  intro first second
  match first, second with
  | 0, 0 | 0, 1 | 1, 0 | 1, 1 => rfl
  | 0, second + 2 | 1, second + 2 | first + 2, 0 | first + 2, 1 | first + 2, second + 2 =>
    simp [weightBetween, couple, listedWeight]

/-- The score of a couple in one community is not its modularity. -/
theorem computeModularity_ne_newman : ¬ ∀ (adj : AdjList) (community : List Nat) (resolution : ℚ),
    Inside adj → Undirected adj → community.length = adj.length → 0 < totalWeight adj →
      computeModularity adj community resolution = newman adj resolution community := by
  intro always
  have same := always couple [0, 0] 1 (by decide) couple_undirected rfl (by decide +kernel)
  have apart : computeModularity couple [0, 0] 1 ≠ newman couple 1 [0, 0] := by decide +kernel
  exact apart same

end Codegraph.Communities
