import Codegraph.Traversal.Layered

namespace Codegraph

open Library TraversalState List List.Nodup Set CsrSnapshot CodeGraph

namespace CodeGraph

/-- The nodes at the other ends of the edges of a node in a direction, each as often as its edges. -/
def neighborIds (code : CodeGraph) (direction : TraversalDirection) (id : NodeId) : List NodeId :=
  let outgoing := (code.edges.filter fun edge => edge.1 = id).map fun edge => edge.2.1
  let incoming := (code.edges.filter fun edge => edge.2.1 = id).map fun edge => edge.1
  match direction with
  | .outgoing => outgoing
  | .incoming => incoming
  | .both => outgoing ++ incoming

/-- So many steps in the direction are needed to get from one node to another. -/
def Apart (code : CodeGraph) (direction : TraversalDirection) (start target : NodeId) (count : Nat) : Prop :=
  Distance (fun first second => second ∈ code.neighborIds direction first) start target count

/-- The stored nodes within so many steps. -/
def within (code : CodeGraph) (direction : TraversalDirection) (start : NodeId) (maxDepth : Nat) :
    Set NodeId :=
  {id | (code.getNode start).isSome ∧ ∃ d ≤ maxDepth, code.Apart direction start id d}

end CodeGraph

/-- What the documentation promises of two walks from a node. -/
structure Agree (code : CodeGraph) (start : NodeId) (config : TraversalConfig)
    (petgraph csr : TraversalResult) : Prop where
  distinct : petgraph.nodes.Nodup ∧ csr.nodes.Nodup
  ordered : ∀ nodes ∈ [petgraph.nodes, csr.nodes], nodes.Pairwise fun first second => ∀ d d',
    code.Apart config.direction start first d → code.Apart config.direction start second d' → d ≤ d'
  near : ∀ id, id ∈ petgraph.nodes ∨ id ∈ csr.nodes →
    id ∈ code.within config.direction start config.maxDepth
  truncated : petgraph.wasTruncated = csr.wasTruncated
  complete : petgraph.wasTruncated = false →
    (∀ id, id ∈ petgraph.nodes ↔ id ∈ code.within config.direction start config.maxDepth) ∧
    (∀ id, id ∈ csr.nodes ↔ id ∈ code.within config.direction start config.maxDepth) ∧
    petgraph.edges.Perm csr.edges ∧ petgraph.depthReached = csr.depthReached
  collected : (∀ edge ∈ petgraph.edges, edge.1 ∈ petgraph.nodes ∧ edge.2 ∈ petgraph.nodes) ∧
    ∀ edge ∈ csr.edges, edge.1 ∈ csr.nodes ∧ edge.2 ∈ csr.nodes

/-- The vertices stand for the nodes and their neighbours for the neighbours of the nodes. -/
structure Renders (code : CodeGraph) (direction : TraversalDirection) (neighbors : Nat → List Nat)
    (idOf : Nat → Option NodeId) : Prop where
  listed : ∀ v id, idOf v = some id →
    ((neighbors v).map idOf).Perm ((code.neighborIds direction id).map some)
  unique : ∀ v w id, idOf v = some id → idOf w = some id → v = w

namespace Renders

variable {code : CodeGraph} {direction : TraversalDirection} {neighbors : Nat → List Nat}
  {idOf : Nat → Option NodeId}

section

variable (renders : Renders code direction neighbors idOf)
include renders

theorem closed (v : Nat) (known : (idOf v).isSome)
    (w : Nat) (member : w ∈ neighbors v) : (idOf w).isSome := by
  obtain ⟨id, named⟩ := Option.isSome_iff_exists.mp known
  have mapped := (renders.listed v id named).mem_iff.mp (mem_map_of_mem member)
  obtain ⟨other, _, same⟩ := mem_map.mp mapped
  rw [← same]
  rfl

theorem distance_iff {start target : Nat}
    {first second : NodeId} (named : idOf start = some first) (named' : idOf target = some second)
    (count : Nat) :
    Distance (Adjacent neighbors) start target count ↔ code.Apart direction first second count := by
  apply Distance.follow (fun v id => idOf v = some id) ?_ ?_ ?_ ?_ named named'
  · intro v w id known adjacent
    have mapped := (renders.listed v id known).mem_iff.mp (mem_map_of_mem adjacent)
    obtain ⟨other, member, same⟩ := mem_map.mp mapped
    exact ⟨other, same.symm, member⟩
  · intro v id other known member
    have mapped := (renders.listed v id known).mem_iff.mpr (mem_map_of_mem member)
    obtain ⟨w, adjacent, same⟩ := mem_map.mp mapped
    exact ⟨w, same, adjacent⟩
  · intro v id other known known'
    exact Option.some.inj (known.symm.trans known')
  · exact fun v w id known known' => renders.unique v w id known known'

theorem edges_perm {vertices : List Nat} {ids : List NodeId} (named : ids.map some = vertices.map idOf) :
    ((expandSerial neighbors vertices).filterMap (nameEdge idOf)).Perm
      (ids.flatMap fun id => (code.neighborIds direction id).map fun other => (id, other)) := by
  induction vertices generalizing ids with
  | nil =>
    rw [map_nil, map_eq_nil_iff] at named
    subst named
    exact List.Perm.refl _
  | cons v vertices ih =>
    cases ids with
    | nil => simp at named
    | cons id ids =>
      rw [map_cons, map_cons, List.cons.injEq] at named
      obtain ⟨known, rest⟩ := named
      unfold expandSerial at ih ⊢
      rw [flatMap_cons, filterMap_append, flatMap_cons]
      apply List.Perm.append _ (ih rest)
      have pairs : ((neighbors v).map fun nbr => (v, nbr)).filterMap (nameEdge idOf) =
          ((neighbors v).map idOf).filterMap fun other => other.map fun second => (id, second) := by
        rw [filterMap_map, filterMap_map]
        congr 1
        funext w
        simp [nameEdge, ← known]
      have named : (code.neighborIds direction id).map (fun other => (id, other)) =
          ((code.neighborIds direction id).map some).filterMap
            fun other => other.map fun second => (id, second) := by
        rw [filterMap_map, ← filterMap_eq_map]
        rfl
      rw [pairs, named]
      exact (renders.listed v id known.symm).filterMap _

end

end Renders

/-- The parts of a result that the nodes within the maximal depth determine. -/
structure Collected (code : CodeGraph) (start : NodeId) (config : TraversalConfig)
    (result : TraversalResult) : Prop where
  distinct : result.nodes.Nodup
  ordered : result.nodes.Pairwise fun first second => ∀ d d',
    code.Apart config.direction start first d → code.Apart config.direction start second d' → d ≤ d'
  near : ∀ id ∈ result.nodes, id ∈ code.within config.direction start config.maxDepth
  truncated : result.wasTruncated = true ↔
    max 1 config.maxNodes < (code.within config.direction start config.maxDepth).ncard
  complete : result.wasTruncated = false →
    (∀ id, id ∈ result.nodes ↔ id ∈ code.within config.direction start config.maxDepth) ∧
    (∃ expanded : List NodeId, expanded.Nodup ∧
      (∀ id, id ∈ expanded ↔ ∃ d < config.maxDepth, code.Apart config.direction start id d) ∧
      result.edges.Perm (expanded.flatMap fun id =>
        (code.neighborIds config.direction id).map fun other => (id, other))) ∧
    (∃ id, code.Apart config.direction start id result.depthReached) ∧
    result.depthReached ≤ config.maxDepth ∧
    ∀ id d, code.Apart config.direction start id d → d ≤ config.maxDepth → d ≤ result.depthReached
  collected : (∀ edge ∈ result.edges, edge.1 ∈ result.nodes ∧ edge.2 ∈ result.nodes) ↔
    result.wasTruncated = false

instance : Finite NodeId :=
  Finite.of_injective (fun id : NodeId => id.hash.toFin) fun first second same => by
    cases first
    cases second
    rw [NodeId.mk.injEq]
    exact BitVec.eq_of_toFin_eq same

/-- Two lists of names are equal when they name the same vertices. -/
theorem mem_of_map_some {idOf : Nat → Option NodeId} {nodes : List NodeId} {vertices : List Nat}
    (same : nodes.map some = vertices.map idOf) (id : NodeId) :
    id ∈ nodes ↔ ∃ v ∈ vertices, idOf v = some id := by
  rw [← mem_map, ← same, mem_map]
  simp

variable {code : CodeGraph} {neighbors : Nat → List Nat} {idOf : Nat → Option NodeId}
  {start : NodeId} {v : Nat} {config : TraversalConfig} {state : TraversalState}

theorem near_iff (renders : Renders code config.direction neighbors idOf)
    (named : idOf v = some start) (id : NodeId) (d : Nat) :
    code.Apart config.direction start id d ↔
      ∃ w, idOf w = some id ∧ Distance (Adjacent neighbors) v w d := by
  constructor
  · intro distance
    have follows (first second : NodeId) (w : Nat) (known : idOf w = some first)
        (member : second ∈ code.neighborIds config.direction first) :
        ∃ w', idOf w' = some second ∧ Adjacent neighbors w w' := by
      have mapped := (renders.listed w first known).mem_iff.mpr (mem_map_of_mem member)
      obtain ⟨w', adjacent, same⟩ := mem_map.mp mapped
      exact ⟨w', same, adjacent⟩
    obtain ⟨w, known, _⟩ := distance.reached.follow (fun id w => idOf w = some id) follows named
    exact ⟨w, known, (renders.distance_iff named known d).mpr distance⟩
  · intro ⟨w, known, distance⟩
    exact (renders.distance_iff named known d).mp distance

theorem collected_of_traversed (stored : (code.getNode start).isSome)
    (renders : Renders code config.direction neighbors idOf) (named : idOf v = some start)
    (traversed : Traversed neighbors idOf config.maxNodes v config.maxDepth state) :
    Collected code start config state.result := by
  have mem (id : NodeId) : id ∈ state.resultNodes ↔
      ∃ w ∈ state.visited.members, idOf w = some id := mem_of_map_some traversed.nodes id
  have visited {w : Nat} {id : NodeId} (known : idOf w = some id) :
      id ∈ state.resultNodes ↔ w ∈ state.visited.members := by
    rw [mem]
    constructor
    · intro ⟨w', member, known'⟩
      rwa [renders.unique w w' id known known']
    · exact fun member => ⟨w, member, known⟩
  have count : state.resultNodes.length = state.visited.members.length := by
    have lengths := congrArg List.length traversed.nodes
    simpa using lengths
  have distinct : state.resultNodes.Nodup := by
    have mapped : (state.resultNodes.map some).Nodup := by
      rw [traversed.nodes]
      apply map_on _ state.visited.nodup
      intro w member w' _ same
      obtain ⟨id, known⟩ := Option.isSome_iff_exists.mp (traversed.named w member)
      exact renders.unique w w' id known (same ▸ known)
    exact of_map some mapped
  have near : ∀ id ∈ state.resultNodes, id ∈ code.within config.direction start config.maxDepth := by
    intro id member
    obtain ⟨w, here, known⟩ := (mem id).mp member
    obtain ⟨d, close, distance⟩ := traversed.near w here
    exact ⟨stored, d, close, (renders.distance_iff named known d).mp distance⟩
  have size : (state.resultNodes.toFinset : Set NodeId).ncard = state.resultNodes.length := by
    rw [ncard_coe_finset, toFinset_card_of_nodup distinct]
  have nonempty := length_pos_iff.mpr traversed.nonempty
  have cut (truncated : state.wasTruncated = true) :
      max 1 config.maxNodes < (code.within config.direction start config.maxDepth).ncard ∧
        ∃ edge ∈ state.resultEdges, edge.2 ∉ state.resultNodes := by
    obtain ⟨full, u, w, missing, ⟨d, close, distance⟩, ⟨first, second⟩, listed, name⟩ :=
      traversed.stopped truncated
    have known := ((nameEdge_eq_some idOf (u, w) first second).mp name).2
    have absent : second ∉ state.resultNodes := fun member => missing ((visited known).mp member)
    refine ⟨?_, (first, second), listed, absent⟩
    have inside : insert second (state.resultNodes.toFinset : Set NodeId) ⊆
        code.within config.direction start config.maxDepth := by
      intro id member
      rcases mem_insert_iff.mp member with same | old
      · rw [same]
        exact ⟨stored, d, close, (renders.distance_iff named known d).mp distance⟩
      · exact near id (mem_toFinset.mp old)
    have larger := ncard_le_ncard inside (Set.toFinite _)
    rw [ncard_insert_of_notMem (by simpa using absent) (Set.toFinite _), size, count] at larger
    omega
  have complete (untruncated : state.wasTruncated = false) (id : NodeId) :
      id ∈ state.resultNodes ↔ id ∈ code.within config.direction start config.maxDepth := by
    constructor
    · exact near id
    intro ⟨_, d, close, apart⟩
    obtain ⟨w, known, distance⟩ := (near_iff renders named id d).mp apart
    exact (visited known).mpr ((traversed.complete untruncated).2.1 w d distance close)
  refine ⟨distinct, ?_, near, ?_, ?_, ?_⟩
  · have mapped : (state.resultNodes.map some).Pairwise fun first second => ∀ id id', first = some id →
        second = some id' → ∀ d d', code.Apart config.direction start id d →
          code.Apart config.direction start id' d' → d ≤ d' := by
      rw [traversed.nodes, pairwise_map]
      apply traversed.sorted.imp
      intro w w' ordered id id' known known' d d' apart apart'
      exact ordered d d' ((renders.distance_iff named known d).mpr apart)
        ((renders.distance_iff named known' d').mpr apart')
    rw [pairwise_map] at mapped
    exact mapped.imp fun ordered => ordered _ _ rfl rfl
  · constructor
    · exact fun truncated => (cut truncated).1
    intro many
    by_contra untruncated
    have untruncated := Bool.not_eq_true _ ▸ untruncated
    have same : code.within config.direction start config.maxDepth =
        (state.resultNodes.toFinset : Set NodeId) := by
      ext id
      rw [← complete untruncated id]
      simp
    rw [same, size, count] at many
    have small := (traversed.complete untruncated).1
    omega
  · intro untruncated
    obtain ⟨_, _, ⟨expanded, nodup, members, edges⟩, ⟨w, deepest⟩, bound, highest⟩ :=
      traversed.complete untruncated
    have expandedNamed : ∀ w ∈ expanded, (idOf w).isSome := by
      intro w member
      obtain ⟨d, less, distance⟩ := (members w).mp member
      exact traversed.named w ((traversed.complete untruncated).2.1 w d distance (le_of_lt less))
    obtain ⟨ids, _, idsNamed⟩ := mapM_some expandedNamed
    refine ⟨complete untruncated, ⟨ids, ?_, ?_, ?_⟩, ?_, bound, ?_⟩
    · have mapped : (ids.map some).Nodup := by
        rw [← idsNamed]
        apply map_on _ nodup
        intro w member w' _ same
        obtain ⟨id, known⟩ := Option.isSome_iff_exists.mp (expandedNamed w member)
        exact renders.unique w w' id known (same ▸ known)
      exact of_map some mapped
    · intro id
      rw [mem_of_map_some idsNamed.symm]
      constructor
      · intro ⟨w, member, known⟩
        obtain ⟨d, less, distance⟩ := (members w).mp member
        exact ⟨d, less, (renders.distance_iff named known d).mp distance⟩
      intro ⟨d, less, apart⟩
      obtain ⟨w, known, distance⟩ := (near_iff renders named id d).mp apart
      exact ⟨w, (members w).mpr ⟨d, less, distance⟩, known⟩
    · change state.resultEdges.Perm _
      rw [edges]
      exact renders.edges_perm idsNamed.symm
    · have member := (traversed.complete untruncated).2.1 w _ deepest bound
      obtain ⟨id, known⟩ := Option.isSome_iff_exists.mp (traversed.named w member)
      exact ⟨id, (renders.distance_iff named known _).mp deepest⟩
    · intro id d apart close
      obtain ⟨w, _, distance⟩ := (near_iff renders named id d).mp apart
      exact highest w d distance close
  · change (∀ edge ∈ state.resultEdges, edge.1 ∈ state.resultNodes ∧ edge.2 ∈ state.resultNodes) ↔
      state.wasTruncated = false
    constructor
    · intro collected
      by_contra truncated
      obtain ⟨_, edge, listed, absent⟩ := cut (Bool.not_eq_false _ ▸ truncated)
      exact absent (collected edge listed).2
    intro untruncated edge listed
    obtain ⟨_, all, ⟨expanded, _, members, edges⟩, _⟩ := traversed.complete untruncated
    rw [edges, mem_filterMap] at listed
    obtain ⟨pair, member, name⟩ := listed
    obtain ⟨known, known'⟩ := (nameEdge_eq_some idOf pair edge.1 edge.2).mp name
    obtain ⟨here, adjacent⟩ := (mem_expandSerial neighbors expanded pair).mp member
    obtain ⟨d, less, distance⟩ := (members pair.1).mp here
    obtain ⟨d', close, distance'⟩ := distance.after adjacent
    rw [visited known, visited known']
    exact ⟨all pair.1 d distance (le_of_lt less), all pair.2 d' distance' (by omega)⟩

theorem nodeIdFor_unique (consistent : CodeGraph.Consistent code) {slot slot' : Nat} {id : NodeId}
    (named : code.nodeIdFor slot = some id) (named' : code.nodeIdFor slot' = some id) :
    slot = slot' := by
  obtain ⟨node, found, same⟩ := Option.map_eq_some_iff.mp named
  obtain ⟨node', found', same'⟩ := Option.map_eq_some_iff.mp named'
  exact (consistent.unique found found' (same.trans same'.symm)).1

theorem ends_eq (consistent : CodeGraph.Consistent code) {near far : Link EdgeData → Nat}
    {nearId farId : NodeId × NodeId × EdgeData → NodeId}
    (names : ∀ link edge, CodeGraph.edgeBetween code.nodeIdFor link = some edge →
      code.nodeIdFor (near link) = some (nearId edge) ∧ code.nodeIdFor (far link) = some (farId edge))
    {slot : Nat} {id : NodeId} (named : code.nodeIdFor slot = some id)
    {links : List (Link EdgeData)} (stored : ∀ link ∈ links, link ∈ code.graph.links) :
    ((links.filter fun link => near link = slot).map far).map code.nodeIdFor =
      (((links.filterMap (CodeGraph.edgeBetween code.nodeIdFor)).filter fun edge =>
        nearId edge = id).map farId).map some := by
  induction links with
  | nil => rfl
  | cons link links ih =>
    have rest := ih fun other member => stored other (mem_cons_of_mem link member)
    obtain ⟨⟨source, foundSource⟩, target, foundTarget⟩ := code.linked (stored link mem_cons_self)
    have between : CodeGraph.edgeBetween code.nodeIdFor link =
        some (source.id, target.id, link.weight) := by
      simp [CodeGraph.edgeBetween, CodeGraph.nodeIdFor, foundSource, foundTarget]
    obtain ⟨nearName, farName⟩ := names link _ between
    rw [filterMap_cons_some between]
    by_cases here : near link = slot
    · have same : nearId (source.id, target.id, link.weight) = id := by
        rw [here, named] at nearName
        exact (Option.some.inj nearName).symm
      rw [filter_cons_of_pos (by simpa using here), filter_cons_of_pos (by simpa using same)]
      simp only [map_cons, rest, farName]
    have apart : nearId (source.id, target.id, link.weight) ≠ id := fun same =>
      here (nodeIdFor_unique consistent (same ▸ nearName) named)
    rw [filter_cons_of_neg (by simpa using here), filter_cons_of_neg (by simpa using apart), rest]

theorem edgeBetween_names {link : Link EdgeData} {edge : NodeId × NodeId × EdgeData}
    (between : CodeGraph.edgeBetween code.nodeIdFor link = some edge) :
    code.nodeIdFor link.source = some edge.1 ∧ code.nodeIdFor link.target = some edge.2.1 := by
  obtain ⟨source, first, rest⟩ := Option.bind_eq_some_iff.mp between
  obtain ⟨target, second, rfl⟩ := Option.map_eq_some_iff.mp rest
  exact ⟨first, second⟩

theorem petgraph_renders (consistent : CodeGraph.Consistent code) (direction : TraversalDirection) :
    Renders code direction (petgraphNeighbors code direction) code.nodeIdFor := by
  constructor
  · intro slot id named
    have outgoing := ends_eq consistent (fun _ _ between => edgeBetween_names between) named
      (fun _ member => member)
    have incoming := ends_eq consistent (fun _ _ between => (edgeBetween_names between).symm) named
      (fun _ member => member)
    have out : ((code.graph.successors slot).map code.nodeIdFor).Perm
        (((code.edges.filter fun edge => edge.1 = id).map fun edge => edge.2.1).map some) := by
      rw [StableGraph.successors, StableGraph.edgesFrom, CodeGraph.edges, ← outgoing]
      exact ((reverse_perm _).map _).map _
    have inc : ((code.graph.predecessors slot).map code.nodeIdFor).Perm
        (((code.edges.filter fun edge => edge.2.1 = id).map fun edge => edge.1).map some) := by
      rw [StableGraph.predecessors, StableGraph.edgesTo, CodeGraph.edges, ← incoming]
      exact ((reverse_perm _).map _).map _
    cases direction with
    | outgoing => exact out
    | incoming => exact inc
    | both =>
      change ((code.graph.successors slot ++ code.graph.predecessors slot).map _).Perm
        ((_ ++ _ : List NodeId).map some)
      rw [map_append, map_append]
      exact out.append inc
  · exact fun slot slot' id named named' => nodeIdFor_unique consistent named named'

theorem csr_renders (consistent : CodeGraph.Consistent code) (direction : TraversalDirection) :
    Renders code direction (csrNeighbors (CsrSnapshot.build code) direction)
      (CsrSnapshot.build code).idOf := by
  have represents := build_represents code
  have petgraph := petgraph_renders consistent direction
  have rows {row ends : List (Nat × EdgeKindTag)}
      (listed : (row.map fun other => ((bfsRelabel code.graph)[other.1]?, other.2)).Perm
        (ends.map fun other => (some other.1, other.2))) :
      ((row.map Prod.fst).map (CsrSnapshot.build code).idOf).Perm
        ((ends.map Prod.fst).map code.nodeIdFor) := by
    have mapped := listed.map fun other => other.1.bind code.nodeIdFor
    rw [map_map, map_map] at mapped
    rw [map_map, map_map]
    have left : (fun other : Option Nat × EdgeKindTag => other.1.bind code.nodeIdFor) ∘
        (fun other : Nat × EdgeKindTag => ((bfsRelabel code.graph)[other.1]?, other.2)) =
          (CsrSnapshot.build code).idOf ∘ Prod.fst := by
      funext other
      exact (represents.named other.1).symm
    rwa [left] at mapped
  constructor
  · intro v id named
    obtain ⟨slot, node, here, found, same⟩ := (represents.idOf_eq_some v id).mp named
    have inside : v < (CsrSnapshot.build code).n := (represents.idOf_isSome v).mp (by rw [named]; rfl)
    have known : code.nodeIdFor slot = some id := by simp [CodeGraph.nodeIdFor, found, same]
    apply List.Perm.trans _ (petgraph.listed slot id known)
    have out : (((CsrSnapshot.build code).outNeighbours v).map (CsrSnapshot.build code).idOf).Perm
        ((code.graph.successors slot).map code.nodeIdFor) := by
      have entries := rows (represents.outgoing v slot here)
      unfold CsrSnapshot.outRow CsrSnapshot.outEnds at entries
      rwa [map_fst_zip (le_of_eq (represents.outLengths v inside)),
        map_map (f := fun link : Link EdgeData => _)] at entries
    have inc : (((CsrSnapshot.build code).inNeighbours v).map (CsrSnapshot.build code).idOf).Perm
        ((code.graph.predecessors slot).map code.nodeIdFor) := by
      have entries := rows (represents.incoming v slot here)
      unfold CsrSnapshot.inRow CsrSnapshot.inEnds at entries
      rwa [map_fst_zip (le_of_eq (represents.inLengths v inside)),
        map_map (f := fun link : Link EdgeData => _)] at entries
    cases direction with
    | outgoing => exact out
    | incoming => exact inc
    | both =>
      change ((_ ++ _ : List Nat).map _).Perm
        ((code.graph.successors slot ++ code.graph.predecessors slot).map _)
      rw [map_append, map_append]
      exact out.append inc
  intro v w id named named'
  have left := (represents.vertexOf_eq_some consistent id v).mpr named
  rw [(represents.vertexOf_eq_some consistent id w).mpr named'] at left
  exact (Option.some.inj left).symm

theorem traversePetgraph_collected (consistent : CodeGraph.Consistent code) (start : NodeId)
    (config : TraversalConfig) (stored : (code.getNode start).isSome) :
    Collected code start config (traversePetgraph code start config) := by
  obtain ⟨node, found⟩ := Option.isSome_iff_exists.mp stored
  obtain ⟨slot, here, named⟩ := (getNode_eq_some consistent start node).mp found
  have known : code.nodeIdFor slot = some start := by simp [CodeGraph.nodeIdFor, here, named]
  have resolved : code.resolve start = some slot := by
    rw [← named]
    exact consistent.slot here
  have renders := petgraph_renders consistent config.direction
  have traversed := layers_traversed renders.closed config.maxDepth
    (start_layered (petgraphNeighbors code config.direction) config.maxNodes known)
  rw [zero_add] at traversed
  rw [traversePetgraph, resolved]
  exact collected_of_traversed stored renders known traversed

theorem traverseCsr_collected (chunking : Chunking) (consistent : CodeGraph.Consistent code)
    (start : NodeId) (config : TraversalConfig) (stored : (code.getNode start).isSome) :
    Collected code start config (traverseCsr chunking (CsrSnapshot.build code) start config) := by
  have represents := build_represents code
  obtain ⟨vertex, numbered⟩ :=
    Option.isSome_iff_exists.mp ((represents.vertexOf_isSome consistent start).mpr stored)
  have known := (represents.vertexOf_eq_some consistent start vertex).mp numbered
  have renders := csr_renders consistent config.direction
  have traversed := layers_traversed renders.closed config.maxDepth
    (start_layered (csrNeighbors (CsrSnapshot.build code) config.direction) config.maxNodes known)
  rw [zero_add] at traversed
  rw [traverseCsr, numbered, expandCsr_eq]
  exact collected_of_traversed stored renders known traversed

/-- Two walks that collected what they should agree in everything that does not depend on where they
were cut off. -/
theorem Collected.same {first second : TraversalResult} (left : Collected code start config first)
    (right : Collected code start config second) :
    first.wasTruncated = second.wasTruncated ∧ (first.wasTruncated = false →
      first.edges.Perm second.edges ∧ first.depthReached = second.depthReached) := by
  have truncated : first.wasTruncated = second.wasTruncated := by
    rw [Bool.eq_iff_iff, left.truncated, right.truncated]
  refine ⟨truncated, ?_⟩
  intro untruncated
  obtain ⟨_, ⟨expanded, nodup, members, edges⟩, ⟨id, deepest⟩, bound, highest⟩ :=
    left.complete untruncated
  obtain ⟨_, ⟨expanded', nodup', members', edges'⟩, ⟨id', deepest'⟩, bound', highest'⟩ :=
    right.complete (truncated ▸ untruncated)
  have sources : expanded.Perm expanded' := by
    rw [perm_ext_iff_of_nodup nodup nodup']
    intro other
    rw [members, members']
  exact ⟨edges.trans ((sources.flatMap_right _).trans edges'.symm),
    Nat.le_antisymm (highest' id _ deepest bound) (highest id' _ deepest' bound')⟩

/-- A function calls another one. -/
def oneCall : List (CodeGraph.Operation Unit) :=
  [.addNode { id := ⟨1⟩, kind := .function, name := "caller" },
    .addNode { id := ⟨2⟩, kind := .function, name := "callee" },
    .addEdge ⟨1⟩ ⟨2⟩ { kind := .calls, weight := 0 }]

end Codegraph
