import Codegraph.Algorithms.EssentialEdges
import Codegraph.Library.BestFirst
import Codegraph.Library.ExactCosts

namespace Codegraph

open Library List

section Model

variable {Cost : Type} [Costing Cost]

/-- The distances between the positions of the stored nodes. An absent one is infinite. -/
abbrev DistanceMatrix (Cost : Type) := Dict (Nat × Nat) Cost

namespace DistanceMatrix

def entry (dist : DistanceMatrix Cost) (i j : Nat) : Cost := dist.getD (i, j) Costing.infinity

def initial (n : Nat) : DistanceMatrix Cost :=
  (List.range n).foldl (fun dist i => dist.set (i, i) Costing.zero) ∅

/-- A distance is only replaced by a smaller one. -/
def lower (dist : DistanceMatrix Cost) (i j : Nat) (cost : Cost) : DistanceMatrix Cost :=
  if Costing.less cost (dist.entry i j) then dist.set (i, j) cost else dist

def addEdge {Weight : Type} (weigh : Weight → Cost) (indices : List Nat)
    (dist : DistanceMatrix Cost) (link : Link Weight) : DistanceMatrix Cost :=
  match indices.idxOf? link.source, indices.idxOf? link.target with
  | some i, some j => dist.lower i j (weigh link.weight)
  | _, _ => dist

/-- The ways between all positions may go through one more position. -/
def relaxThrough (n : Nat) (dist : DistanceMatrix Cost) (k : Nat) : DistanceMatrix Cost :=
  (List.range n).foldl (fun dist i => (List.range n).foldl (fun dist j =>
    dist.lower i j (Costing.add (dist.entry i k) (dist.entry k j))) dist) dist

def floydWarshall (n : Nat) (dist : DistanceMatrix Cost) : DistanceMatrix Cost :=
  (List.range n).foldl (relaxThrough n) dist

end DistanceMatrix

namespace CodeGraph

variable (policy : HeapPolicy Cost) (weigh : EdgeData → Cost) (code : CodeGraph)

/-- The targets of the edges of a node with their costs, the edge that was added last first. -/
def weighted (slot : Nat) : List (Nat × Cost) :=
  (code.graph.edgesFrom slot).map fun link => (link.target, weigh link.weight)

/-- The loops may only go round as often as the fuel. -/
def weightedShortestPath (fuel : Nat) (source target : NodeId) : Option (Option (List NodeId × Cost)) :=
  match code.resolve source, code.resolve target with
  | some sourceIdx, some targetIdx => do
    let (found, state) ← Relaxing.explore policy (code.weighted weigh) (some targetIdx) fuel 0
      (.start sourceIdx)
    match found with
    | none => some none
    | some cost => do
      let path ← Relaxing.walkBack state.prev fuel targetIdx [targetIdx]
      some (some (path.filterMap code.nodeIdFor, cost))
  | _, _ => some none

/-- The paths that go one edge further and come to no node again. -/
def extendPath (entry : Cost × List Nat) : List (Cost × List Nat) :=
  match entry.2.getLast? with
  | none => []
  | some current => ((code.weighted weigh current).filter fun edge => edge.1 ∉ entry.2).map
      fun edge => (Costing.add entry.1 edge.2, entry.2 ++ [edge.1])

def kShortestPaths (fuel : Nat) (source target : NodeId) (k : Nat) : Option (List (List NodeId × Cost)) :=
  if k = 0 then some []
  else match code.resolve source, code.resolve target with
    | some sourceIdx, some targetIdx => do
      let results ← bestFirst policy (code.extendPath weigh)
        (fun path => path.getLast? = some targetIdx) k fuel 0 [(Costing.zero, [sourceIdx])] []
      some (results.map fun result => (result.2.filterMap code.nodeIdFor, result.1))
    | _, _ => some []

/-- The distances between different nodes that are finite. -/
def allPairsDistances : Dict (NodeId × NodeId) Cost :=
  let indices := code.graph.slots
  let n := indices.length
  if n = 0 ∨ n > 2000 then ∅
  else
    let direct := code.graph.links.foldl (DistanceMatrix.addEdge weigh indices) (.initial n)
    let dist := direct.floydWarshall n
    (List.range n).foldl (fun result i => (List.range n).foldl (fun result j =>
      if i ≠ j ∧ Costing.less (dist.entry i j) Costing.infinity then
        match (indices[i]?).bind code.nodeIdFor, (indices[j]?).bind code.nodeIdFor with
        | some sourceId, some targetId => result.set (sourceId, targetId) (dist.entry i j)
        | _, _ => result
      else result) result) ∅

/-- The other nodes that have a distance. -/
def foundNodes (order : HashOrder Nat) (nodeIdx : Nat) (dist : Dict Nat Cost) : List (NodeId × Cost) :=
  ((order.iterate dist.keys.toFinset).filter (· ≠ nodeIdx)).filterMap fun slot =>
    (dist.get slot).bind fun cost => (code.nodeIdFor slot).map fun id => (id, cost)

/-- The nodes that a search from a node finds, the nearest ones first. -/
def nearestNeighbors (order : HashOrder Nat) (fuel : Nat) (node : NodeId) (count : Nat) :
    Option (List (NodeId × Cost)) :=
  match code.resolve node with
  | none => some []
  | some nodeIdx => do
    let (_, state) ← Relaxing.explore policy (code.weighted weigh) none fuel 0 (.start nodeIdx)
    some (((code.foundNodes order nodeIdx state.dist).mergeSort fun first second =>
      !Costing.less second.2 first.2).take count)

end CodeGraph

end Model

namespace DistanceMatrix

section Folds

variable {Item : Type} {step : DistanceMatrix Exact → Item → DistanceMatrix Exact}

/-- Steps that only lower distances end with smaller ones. -/
theorem foldl_descends (descends : ∀ dist item, (step dist item).entry ≤ dist.entry)
    (items : List Item) (dist : DistanceMatrix Exact) :
    (items.foldl step dist).entry ≤ dist.entry := by
  induction items generalizing dist with
  | nil => exact le_rfl
  | cons item items ih => exact (ih _).trans (descends dist item)

/-- What one of the steps reaches is reached at the end. -/
theorem foldl_meets (descends : ∀ dist item, (step dist item).entry ≤ dist.entry)
    {items : List Item} {item : Item} (mem : item ∈ items) (dist : DistanceMatrix Exact) :
    ∃ middle : DistanceMatrix Exact, middle.entry ≤ dist.entry ∧
      (items.foldl step dist).entry ≤ (step middle item).entry := by
  obtain ⟨before, after, rfl⟩ := append_of_mem mem
  refine ⟨before.foldl step dist, foldl_descends descends before dist, ?_⟩
  rw [foldl_append, foldl_cons]
  exact foldl_descends descends after _

end Folds

variable (dist : DistanceMatrix Exact)

theorem entry_set (i j i' j' : Nat) (cost : Exact) :
    entry (Dict.set dist (i, j) cost) i' j' = if i' = i ∧ j' = j then cost else dist.entry i' j' := by
  unfold entry
  rw [Dict.getD_set]
  simp only [Prod.mk.injEq]

theorem lower_entry (i j : Nat) (cost : Exact) (i' j' : Nat) : (dist.lower i j cost).entry i' j' =
      if i' = i ∧ j' = j then min cost (dist.entry i j) else dist.entry i' j' := by
  unfold lower
  split
  · rename_i smaller
    rw [entry_set, min_eq_left ((exact_less _ _).mp smaller).le]
  rename_i larger
  rw [exact_less, not_lt] at larger
  rw [min_eq_right larger]
  split
  · rename_i same
    rw [same.1, same.2]
  · rfl

theorem lower_descends (i j : Nat) (cost : Exact) : (dist.lower i j cost).entry ≤ dist.entry := by
  intro i' j'
  rw [lower_entry]
  split
  · rename_i same
    rw [same.1, same.2]
    exact min_le_right _ _
  · exact le_rfl

theorem lower_meets (i j : Nat) (cost : Exact) : (dist.lower i j cost).entry i j ≤ cost := by
  rw [lower_entry, if_pos ⟨rfl, rfl⟩]
  exact min_le_left _ _

theorem relaxThrough_eq (n : Nat) (dist : DistanceMatrix Exact) (k : Nat) :
    relaxThrough n dist k = ((List.range n).product (List.range n)).foldl (fun dist place =>
      dist.lower place.1 place.2 (Costing.add (dist.entry place.1 k) (dist.entry k place.2))) dist := by
  rw [relaxThrough, List.product, foldl_flatMap]
  simp only [foldl_map]

theorem relaxThrough_descends (n : Nat) (dist : DistanceMatrix Exact) (k : Nat) :
    (relaxThrough n dist k).entry ≤ dist.entry := by
  rw [relaxThrough_eq]
  exact foldl_descends (fun _ _ => lower_descends _ _ _ _) _ _

/-- After a round no way through the position is shorter than the distances were before it. -/
theorem relaxThrough_meets {n i j : Nat} (row : i < n) (column : j < n)
    (dist : DistanceMatrix Exact) (k : Nat) :
    (relaxThrough n dist k).entry i j ≤ dist.entry i k + dist.entry k j := by
  have mem := mem_product.mpr ⟨List.mem_range.mpr row, List.mem_range.mpr column⟩
  rw [relaxThrough_eq]
  obtain ⟨middle, small, met⟩ := @foldl_meets _ (fun dist place =>
    lower dist place.1 place.2 (Costing.add (dist.entry place.1 k) (dist.entry k place.2)))
    (fun _ _ => lower_descends _ _ _ _) _ _ mem dist
  exact (met i j).trans ((lower_meets _ _ _ _).trans (add_le_add (small i k) (small k j)))

section Walks

variable {edges : Nat → List (Nat × Exact)} {indices : List Nat}

/-- Every finite distance is the cost of a walk. -/
def Sound (edges : Nat → List (Nat × Exact)) (indices : List Nat) (dist : DistanceMatrix Exact) : Prop :=
  ∀ i j, dist.entry i j ≠ ⊤ → ∃ source target, indices[i]? = some source ∧
    indices[j]? = some target ∧ CostWalk edges source (dist.entry i j) target

/-- No walk through the first positions is cheaper than the distance of its ends. -/
def Complete (edges : Nat → List (Nat × Exact)) (indices : List Nat) (k : Nat)
    (dist : DistanceMatrix Exact) : Prop :=
  ∀ i j source target cost, indices[i]? = some source → indices[j]? = some target →
    Through edges (· ∈ indices.take k) source cost target → dist.entry i j ≤ cost

variable {dist : DistanceMatrix Exact}

theorem Sound.lower (sound : Sound edges indices dist) {i j : Nat}
    {cost : Exact} (walk : cost ≠ ⊤ → ∃ source target, indices[i]? = some source ∧
      indices[j]? = some target ∧ CostWalk edges source cost target) :
    Sound edges indices (dist.lower i j cost) := by
  intro i' j' finite
  rw [lower_entry] at finite ⊢
  split
  · rename_i same
    rw [if_pos same] at finite
    obtain ⟨rfl, rfl⟩ := same
    rcases min_choice cost (dist.entry i' j') with least | least
    · rw [least] at finite ⊢
      exact walk finite
    · rw [least] at finite ⊢
      exact sound i' j' finite
  rename_i other
  rw [if_neg other] at finite
  exact sound i' j' finite

theorem Sound.relaxThrough {n k : Nat}
    (sound : Sound edges indices dist) : Sound edges indices (dist.relaxThrough n k) := by
  rw [relaxThrough_eq]
  refine List.foldlRecOn _ _ sound fun dist sound place _ => sound.lower fun finite => ?_
  obtain ⟨finite, finite'⟩ := WithTop.add_ne_top.mp finite
  obtain ⟨source, middle, first, second, walk⟩ := sound place.1 k finite
  obtain ⟨middle', target, second', third, walk'⟩ := sound k place.2 finite'
  obtain rfl := Option.some.inj (second.symm.trans second')
  exact ⟨source, target, first, third, walk.trans walk'⟩

theorem Complete.relaxThrough {k : Nat} (early : k < indices.length)
    (complete : Complete edges indices k dist) :
    Complete edges indices (k + 1) (dist.relaxThrough indices.length k) := by
  intro i j source target cost first last through
  have here := getElem?_eq_getElem early
  have wider : Through edges (fun node => node ∈ indices.take k ∨ node = indices[k]) source cost
      target := by
    refine through.mono fun node _ mem => ?_
    rw [take_add_one, here, mem_append] at mem
    exact mem.imp_right mem_singleton.mp
  rcases wider.split with direct | ⟨cost', cost'', before, after, small⟩
  · exact (relaxThrough_descends _ _ _ i j).trans (complete i j source target cost first last direct)
  have row := (List.getElem?_eq_some_iff.mp first).1
  have column := (List.getElem?_eq_some_iff.mp last).1
  refine (relaxThrough_meets row column dist k).trans (le_trans ?_ small)
  exact add_le_add (complete i k _ _ _ first here before) (complete k j _ _ _ here last after)

/-- The rounds end with walks through all positions. -/
theorem floydWarshall_spec (sound : Sound edges indices dist) (complete : Complete edges indices 0 dist) :
    Sound edges indices (dist.floydWarshall indices.length) ∧
      Complete edges indices indices.length (dist.floydWarshall indices.length) := by
  have rounds (k : Nat) (within : k ≤ indices.length) :
      Sound edges indices ((List.range k).foldl (relaxThrough indices.length) dist) ∧
        Complete edges indices k ((List.range k).foldl (relaxThrough indices.length) dist) := by
    induction k with
    | zero => exact ⟨sound, complete⟩
    | succ k ih =>
      obtain ⟨sound, complete⟩ := ih (by omega)
      rw [range_succ, foldl_append]
      exact ⟨sound.relaxThrough, complete.relaxThrough within⟩
  exact rounds indices.length le_rfl

end Walks

theorem initial_entry (n i j : Nat) :
    (initial n : DistanceMatrix Exact).entry i j = if i < n ∧ i = j then 0 else ⊤ := by
  unfold initial
  induction n with
  | zero => rw [if_neg fun both => absurd both.1 (Nat.not_lt_zero i)]; rfl
  | succ n ih =>
    rw [range_succ, foldl_append, foldl_cons, foldl_nil, entry_set, ih]
    by_cases last : i = n ∧ j = n
    · rw [if_pos last, if_pos ⟨by omega, by omega⟩]
      rfl
    rw [if_neg last]
    refine if_congr ?_ rfl rfl
    omega

/-- A node stands at its only position. -/
theorem idxOf?_of_getElem? {indices : List Nat} (distinct : indices.Nodup) {i slot : Nat}
    (here : indices[i]? = some slot) : indices.idxOf? slot = some i := by
  obtain ⟨inside, rfl⟩ := List.getElem?_eq_some_iff.mp here
  refine idxOf?_eq_some_iff.mpr ⟨inside, rfl, fun j earlier same => ?_⟩
  have position := (distinct.getElem_inj_iff).mp same
  omega

section Edges

variable {Weight : Type} {weigh : Weight → Exact} {graph : StableGraph Nat Weight}
variable {edges : Nat → List (Nat × Exact)} {links : List (Link Weight)} {indices : List Nat}

theorem addEdge_descends (dist : DistanceMatrix Exact) (link : Link Weight) :
    (dist.addEdge weigh indices link).entry ≤ dist.entry := by
  unfold addEdge
  split
  · exact lower_descends _ _ _ _
  · exact le_rfl

theorem sound_direct (listed : ∀ link ∈ links, (link.target, weigh link.weight) ∈ edges link.source)
    (n : Nat) (size : n = indices.length) :
    Sound edges indices (links.foldl (addEdge weigh indices) (initial n)) := by
  refine List.foldlRecOn _ _ (fun i j finite => ?_) fun dist sound link mem => ?_
  · rw [initial_entry] at finite ⊢
    split at finite
    · rename_i both
      obtain ⟨inside, rfl⟩ := both
      rw [if_pos ⟨inside, rfl⟩]
      have here := getElem?_eq_getElem (size ▸ inside)
      exact ⟨_, _, here, here, .stay⟩
    · exact absurd rfl finite
  unfold addEdge
  split
  · rename_i i j first last
    obtain ⟨row, atSource, -⟩ := idxOf?_eq_some_iff.mp first
    obtain ⟨column, atTarget, -⟩ := idxOf?_eq_some_iff.mp last
    exact sound.lower fun _ => ⟨link.source, link.target, List.getElem?_eq_some_iff.mpr ⟨row, atSource⟩,
      List.getElem?_eq_some_iff.mpr ⟨column, atTarget⟩, .edge (listed link mem)⟩
  · exact sound

theorem complete_direct (distinct : indices.Nodup)
    (listed : ∀ slot, ∀ edge ∈ edges slot, ∃ link ∈ links, link.source = slot ∧
      edge = (link.target, weigh link.weight)) (dist : DistanceMatrix Exact) :
    Complete edges indices 0 (links.foldl (addEdge weigh indices) dist) := by
  intro i j source target cost first last through
  cases through with
  | edge here =>
    obtain ⟨link, mem, rfl, rfl⟩ := listed _ _ here
    obtain ⟨middle, -, met⟩ := @foldl_meets _ (addEdge weigh indices) addEdge_descends _ _ mem dist
    refine (met i j).trans ?_
    rw [addEdge, idxOf?_of_getElem? distinct first, idxOf?_of_getElem? distinct last]
    exact lower_meets _ _ _ _
  | step here inner rest => exact absurd inner not_mem_nil

end Edges

end DistanceMatrix

namespace CodeGraph

variable {code : CodeGraph}

theorem mem_weighted {Cost : Type} {weigh : EdgeData → Cost} {slot : Nat} {edge : Nat × Cost} :
    edge ∈ code.weighted weigh slot ↔
      ∃ link ∈ code.graph.links, link.source = slot ∧ edge = (link.target, weigh link.weight) := by
  rw [weighted, mem_map]
  constructor
  · rintro ⟨link, mem, rfl⟩
    obtain ⟨listed, same⟩ := (code.graph.mem_edgesFrom slot link).mp mem
    exact ⟨link, listed, same, rfl⟩
  · rintro ⟨link, listed, same, rfl⟩
    exact ⟨link, (code.graph.mem_edgesFrom slot link).mpr ⟨listed, same⟩, rfl⟩

/-- The distances between the slots of a graph. -/
def distances {Cost : Type} [Costing Cost] (weigh : EdgeData → Cost) (code : CodeGraph) :
    DistanceMatrix Cost :=
  (code.graph.links.foldl (DistanceMatrix.addEdge weigh code.graph.slots)
    (.initial code.graph.slots.length)).floydWarshall code.graph.slots.length

variable {weigh : EdgeData → Exact}

open DistanceMatrix in
/-- The matrix holds the distance between any two nodes. -/
theorem distances_spec {i j source target : Nat}
    (first : code.graph.slots[i]? = some source) (last : code.graph.slots[j]? = some target)
    (apart : source ≠ target) :
    IsDistance (code.weighted weigh) source target ((code.distances weigh).entry i j) := by
  have sound : DistanceMatrix.Sound (code.weighted weigh) code.graph.slots (code.graph.links.foldl
      (DistanceMatrix.addEdge weigh code.graph.slots) (.initial code.graph.slots.length)) :=
    sound_direct (fun link mem => mem_weighted.mpr ⟨link, mem, rfl, rfl⟩) _ rfl
  have complete : Complete (code.weighted weigh) code.graph.slots 0 (code.graph.links.foldl
      (DistanceMatrix.addEdge weigh code.graph.slots) (.initial code.graph.slots.length)) :=
    complete_direct code.graph.slots_nodup (fun slot edge => mem_weighted.mp) _
  obtain ⟨sound', complete'⟩ := floydWarshall_spec sound complete
  constructor
  · intro cost walk
    obtain ⟨cost', small, through⟩ := walk.through.resolve_left apart
    refine (complete' i j source target cost' first last (through.mono ?_)).trans small
    rintro node ⟨before, weight, listed⟩ -
    obtain ⟨link, mem, -, same⟩ := mem_weighted.mp listed
    obtain rfl : node = link.target := congrArg Prod.fst same
    rw [take_length]
    exact (link_slots mem).2
  intro finite
  obtain ⟨source', target', first', last', walk⟩ := sound' i j finite
  obtain rfl := Option.some.inj (first.symm.trans first')
  obtain rfl := Option.some.inj (last.symm.trans last')
  exact walk

/-- The id of the node at a position. -/
def idAt (code : CodeGraph) (i : Nat) : Option NodeId := (code.graph.slots[i]?).bind code.nodeIdFor

theorem idAt_eq {i slot : Nat} (here : code.graph.slots[i]? = some slot) :
    code.idAt i = some (code.nameOf slot) := by
  rw [idAt, here, Option.bind_some, nodeIdFor_eq (mem_of_getElem? here)]

theorem idAt_unique (consistent : Consistent code) {i j : Nat} {id : NodeId}
    (named : code.idAt i = some id) (named' : code.idAt j = some id) : i = j := by
  obtain ⟨slot, here, name⟩ := Option.bind_eq_some_iff.mp named
  obtain ⟨slot', here', name'⟩ := Option.bind_eq_some_iff.mp named'
  have mem := mem_of_getElem? here
  have mem' := mem_of_getElem? here'
  rw [nodeIdFor_eq mem] at name
  rw [nodeIdFor_eq mem'] at name'
  have same := nameOf_injOn consistent mem mem'
    (Option.some.inj (name.trans name'.symm))
  obtain ⟨inside, -⟩ := List.getElem?_eq_some_iff.mp here
  exact (getElem?_inj inside code.graph.slots_nodup).mp (by rw [here, here', same])

/-- The entry of a pair of positions. -/
def pairEntry {Cost : Type} [Costing Cost] (weigh : EdgeData → Cost) (code : CodeGraph)
    (place : Nat × Nat) : Option ((NodeId × NodeId) × Cost) :=
  if place.1 ≠ place.2 ∧
      Costing.less ((code.distances weigh).entry place.1 place.2) Costing.infinity = true then
    (code.idAt place.1).bind fun source => (code.idAt place.2).map fun target =>
      ((source, target), (code.distances weigh).entry place.1 place.2)
  else none

theorem allPairsDistances_eq {Cost : Type} [Costing Cost] (weigh : EdgeData → Cost)
    (filled : ¬(code.graph.slots.length = 0 ∨ code.graph.slots.length > 2000)) :
    code.allPairsDistances weigh = Dict.ofList (((List.range code.graph.slots.length).product
      (List.range code.graph.slots.length)).filterMap (code.pairEntry weigh)) := by
  rw [allPairsDistances, if_neg filled]
  rw [Dict.ofList, List.product, foldl_filterMap, foldl_flatMap]
  simp only [foldl_map]
  congr 1
  funext result i
  congr 1
  funext result j
  by_cases finite : i ≠ j ∧ Costing.less ((code.distances weigh).entry i j) Costing.infinity = true
  · have pair : code.pairEntry weigh (i, j) = (code.idAt i).bind fun source =>
        (code.idAt j).map fun target => ((source, target), (code.distances weigh).entry i j) :=
      if_pos finite
    rw [pair]
    refine (if_pos finite).trans ?_
    change (match code.idAt i, code.idAt j with
      | some source, some target => Dict.set result (source, target) _
      | _, _ => result) = _
    cases code.idAt i with
    | none => rfl
    | some source =>
      cases code.idAt j with
      | none => rfl
      | some target => rfl
  have pair : code.pairEntry weigh (i, j) = none := if_neg finite
  rw [pair]
  exact if_neg finite

theorem pairEntry_ids {place : Nat × Nat}
    {entry : (NodeId × NodeId) × Exact} (found : code.pairEntry weigh place = some entry) :
    code.idAt place.1 = some entry.1.1 ∧ code.idAt place.2 = some entry.1.2 := by
  unfold pairEntry at found
  split at found
  · obtain ⟨source, atSource, found⟩ := Option.bind_eq_some_iff.mp found
    obtain ⟨target, atTarget, rfl⟩ := Option.map_eq_some_iff.mp found
    exact ⟨atSource, atTarget⟩
  · nomatch found

theorem pairEntry_keys (consistent : Consistent code) :
    ((((List.range code.graph.slots.length).product (List.range code.graph.slots.length)).filterMap
      (code.pairEntry weigh)).map Prod.fst).Nodup := by
  rw [map_filterMap]
  refine (nodup_range.product nodup_range).filterMap fun place place' key found found' => ?_
  obtain ⟨entry, here, rfl⟩ := Option.map_eq_some_iff.mp (Option.mem_def.mp found)
  obtain ⟨entry', here', same⟩ := Option.map_eq_some_iff.mp (Option.mem_def.mp found')
  obtain ⟨first, second⟩ := pairEntry_ids here
  obtain ⟨first', second'⟩ := pairEntry_ids here'
  rw [same] at first' second'
  exact Prod.ext (idAt_unique consistent first first') (idAt_unique consistent second second')

/-- The map holds the finite distances between different nodes. -/
theorem get_allPairsDistances (consistent : Consistent code)
    (small : code.graph.slots.length ≤ 2000) {i j source target : Nat}
    (first : code.graph.slots[i]? = some source) (last : code.graph.slots[j]? = some target)
    (apart : i ≠ j) :
    (code.allPairsDistances weigh).get (code.nameOf source, code.nameOf target) =
      reported ((code.distances weigh).entry i j) := by
  obtain ⟨row, -⟩ := List.getElem?_eq_some_iff.mp first
  obtain ⟨column, -⟩ := List.getElem?_eq_some_iff.mp last
  have here : code.pairEntry weigh (i, j) = (reported ((code.distances weigh).entry i j)).map
      fun distance => ((code.nameOf source, code.nameOf target), distance) := by
    by_cases infinite : (code.distances weigh).entry i j = ⊤
    · rw [show reported ((code.distances weigh).entry i j) = none from if_pos infinite]
      refine if_neg fun both => ?_
      have below := (exact_less _ _).mp both.2
      exact absurd (infinite ▸ below) (lt_irrefl _)
    rw [show reported ((code.distances weigh).entry i j) = some _ from if_neg infinite]
    refine (if_pos ⟨apart, (exact_less _ _).mpr (lt_top_iff_ne_top.mpr infinite)⟩).trans ?_
    rw [idAt_eq first, idAt_eq last]
    rfl
  rw [allPairsDistances_eq weigh (by omega)]
  ext distance
  rw [Dict.get_ofList (pairEntry_keys consistent), mem_filterMap]
  constructor
  · rintro ⟨place, -, found⟩
    obtain ⟨first', last'⟩ := pairEntry_ids found
    have same : place = (i, j) := Prod.ext (idAt_unique consistent first' (idAt_eq first))
      (idAt_unique consistent last' (idAt_eq last))
    rw [same, here] at found
    obtain ⟨value, finite, pair⟩ := Option.map_eq_some_iff.mp found
    exact finite.trans (congrArg some (congrArg Prod.snd pair))
  intro found
  refine ⟨(i, j), mem_product.mpr ⟨List.mem_range.mpr row, List.mem_range.mpr column⟩, ?_⟩
  rw [here, found]
  rfl

end CodeGraph

end Codegraph
