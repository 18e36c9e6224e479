import Codegraph.Graph.View

namespace Codegraph

open Library List GraphView

namespace GraphView

/-- The same nodes and the same edges, each as often. -/
structure SameAs (view view' : GraphView) : Prop where
  nodes : view.nodes = view'.nodes
  edges : view.edges.Perm view'.edges

def addNodes (view : GraphView) (nodes : List NodeData) : GraphView := nodes.foldl addNode view

def addEdges (view : GraphView) (edges : List (NodeId × NodeId × EdgeData)) : GraphView :=
  edges.foldl (fun view edge => view.addEdge edge.1 edge.2.1 edge.2.2) view

/-- The edge is accepted between the nodes of the view. -/
def allows (view : GraphView) (edge : NodeId × NodeId × EdgeData) : Bool :=
  view.accepts edge.1 edge.2.1 edge.2.2

theorem allows_congr {view view' : GraphView} (same : view.nodes = view'.nodes) :
    view.allows = view'.allows := by
  funext edge
  unfold allows accepts
  rw [same]

variable (view : GraphView)

theorem addNodes_edges (nodes : List NodeData) :
    (view.addNodes nodes).edges = view.edges := by
  induction nodes generalizing view with
  | nil => rfl
  | cons data nodes ih => exact ih (view.addNode data)

/-- The last node of an id stays. -/
theorem addNodes_nodes (nodes : List NodeData) (id : NodeId) :
    (view.addNodes nodes).nodes id =
      ((nodes.reverse.find? fun data => data.id = id).map NodeData.unstamped).or
        (view.nodes id) := by
  induction nodes generalizing view with
  | nil => rfl
  | cons data nodes ih =>
    change ((view.addNode data).addNodes nodes).nodes id = _
    rw [ih, reverse_cons, find?_append, Option.map_or, Option.or_assoc]
    congr 1
    by_cases here : data.id = id
    · subst here
      simp [addNode]
    · have there : id ≠ data.id := fun same => here same.symm
      simp [addNode, here, there]

/-- Rejected edges leave no trace. -/
theorem addEdges_eq (edges : List (NodeId × NodeId × EdgeData)) :
    view.addEdges edges = { view with edges := view.edges ++ edges.filter view.allows } := by
  induction edges generalizing view with
  | nil => simp [addEdges]
  | cons edge edges ih =>
    change (view.addEdge edge.1 edge.2.1 edge.2.2).addEdges edges = _
    rw [ih]
    by_cases allowed : view.allows edge = true
    · have added : view.addEdge edge.1 edge.2.1 edge.2.2 =
          { view with edges := view.edges ++ [edge] } := if_pos allowed
      have same : GraphView.allows { view with edges := view.edges ++ [edge] } = view.allows :=
        allows_congr rfl
      rw [added, same, filter_cons_of_pos allowed]
      simp
    · have kept : view.addEdge edge.1 edge.2.1 edge.2.2 = view := if_neg allowed
      rw [kept, filter_cons_of_neg allowed]

/-- Nodes of distinct ids may be added in any order. -/
theorem addNodes_empty_nodes {nodes : List NodeData} (distinct : (nodes.map NodeData.id).Nodup)
    (id : NodeId) (data : NodeData) :
    (empty.addNodes nodes).nodes id = some data ↔
      ∃ stored ∈ nodes, stored.id = id ∧ stored.unstamped = data := by
  rw [addNodes_nodes]
  change Option.or _ none = _ ↔ _
  rw [Option.or_none, Option.map_eq_some_iff]
  constructor
  · intro ⟨stored, found, same⟩
    have named := find?_some found
    exact ⟨stored, mem_reverse.mp (mem_of_find?_eq_some found), by simpa using named, same⟩
  intro ⟨stored, mem, named, same⟩
  cases found : nodes.reverse.find? fun data => data.id = id with
  | none =>
    have absent := find?_eq_none.mp found stored (mem_reverse.mpr mem)
    simp [named] at absent
  | some other =>
    have listed := mem_reverse.mp (mem_of_find?_eq_some found)
    have named' : other.id = id := by simpa using find?_some found
    have equal := inj_on_of_nodup_map distinct listed mem (named'.trans named.symm)
    exact ⟨other, rfl, by rw [equal, same]⟩

end GraphView

/-- The ids may be listed in any order when a graph is saved. -/
structure OverlaySnapshot.Saves (snap : OverlaySnapshot) (code : CodeGraph) : Prop where
  version : snap.schemaVersion = overlaySchemaVersion
  nodes : snap.nodes.Perm code.snapshotNodes
  edges : snap.edges.Perm code.snapshotEdges

namespace CodeGraph

variable {code : CodeGraph}

theorem view_addNodes (policy : SlotPolicy) (consistent : Consistent code)
    (nodes : List NodeData) : (code.addNodes policy nodes).view = code.view.addNodes nodes := by
  induction nodes generalizing code with
  | nil => rfl
  | cons data nodes ih =>
    change ((code.addNode policy data).addNodes policy nodes).view = _
    rw [ih (addNode_consistent policy consistent data), view_addNode policy consistent]
    rfl

/-- The edge with the ids of its ends. -/
def overlayEntry (edge : OverlayEdge) : NodeId × NodeId × EdgeData :=
  (edge.source, edge.target, edge.data)

theorem view_replay (policy : SlotPolicy) (nodes : List NodeData) (edges : List OverlayEdge) :
    (replay policy nodes edges).view =
      (GraphView.empty.addNodes nodes).addEdges (edges.map overlayEntry) := by
  have loaded {code : CodeGraph} (consistent : Consistent code) :
      (edges.foldl (fun code edge => (code.addEdge edge.source edge.target edge.data).1) code).view =
        code.view.addEdges (edges.map overlayEntry) := by
    induction edges generalizing code with
    | nil => rfl
    | cons edge edges ih =>
      rw [foldl_cons, ih (addEdge_consistent consistent _ _ _), view_addEdge consistent]
      rfl
  rw [replay, loaded (addNodes_consistent policy new_consistent nodes),
    view_addNodes policy new_consistent, view_new]

section

variable (consistent : Consistent code)
include consistent

/-- The saved nodes have the ids of the graph. -/
theorem snapshotNodes_ids : code.snapshotNodes.map NodeData.id = code.allNodeIds := by
  rw [snapshotNodes, map_filterMap]
  have known (id : NodeId) (mem : id ∈ code.allNodeIds) : (code.getNode id).map NodeData.id = some id := by
    obtain ⟨slot, mapped⟩ := (Dict.mem_keys_iff code.indexMap id).mp mem
    obtain ⟨data, found, named⟩ := (consistent.mapped id slot).mp mapped
    rw [(getNode_eq_some consistent id data).mpr ⟨slot, found, named⟩, Option.map_some, named]
  rw [filterMap_congr known, filterMap_some]

theorem mem_snapshotNodes (data : NodeData) :
    data ∈ code.snapshotNodes ↔ ∃ slot, code.graph.node slot = some data := by
  rw [snapshotNodes, mem_filterMap]
  constructor
  · intro ⟨id, _, found⟩
    obtain ⟨slot, here, _⟩ := (getNode_eq_some consistent id data).mp found
    exact ⟨slot, here⟩
  intro ⟨slot, found⟩
  have listed := (Dict.mem_keys_iff code.indexMap data.id).mpr ⟨slot, consistent.slot found⟩
  exact ⟨data.id, listed, (getNode_eq_some consistent data.id data).mpr ⟨slot, found, rfl⟩⟩

/-- The slot of an edge's end holds the node with an id exactly when the id's slot is that end. -/
theorem at_slot_iff {id : NodeId} {slot place : Nat}
    {node : NodeData} (mapped : code.indexMap.get id = some slot)
    (found : code.graph.node place = some node) : place = slot ↔ node.id = id := by
  obtain ⟨stored, here, named⟩ := (consistent.mapped id slot).mp mapped
  constructor
  · intro same
    rw [same, here] at found
    cases found
    exact named
  · intro same
    exact (consistent.unique found here (same.trans named.symm)).1

theorem no_slot {id : NodeId} {place : Nat} {node : NodeData} (unmapped : code.indexMap.get id = none)
    (found : code.graph.node place = some node) : node.id ≠ id := by
  intro same
  have known := consistent.slot found
  rw [same, unmapped] at known
  contradiction

variable (id : NodeId)

/-- The outgoing edges of a node are the edges that start at it, from the last to the first. -/
theorem getEdgesFrom_eq : (code.getEdgesFrom id).map (fun edge => (id, edge.1, edge.2)) =
      (group Prod.fst code.edges id).reverse := by
  rw [getEdgesFrom, group, edges, filter_filterMap]
  cases mapped : code.indexMap.get id with
  | none =>
    symm
    rw [map_nil, reverse_eq_nil_iff, filterMap_eq_nil_iff]
    intro link mem
    obtain ⟨⟨source, foundSource⟩, target, foundTarget⟩ := code.linked mem
    simp [edgeBetween, nodeIdFor, foundSource, foundTarget, Option.filter_some,
      no_slot consistent mapped foundSource]
  | some slot =>
    dsimp only
    rw [StableGraph.edgesFrom, filterMap_reverse, map_reverse, filterMap_filter, map_filterMap]
    congr 1
    apply filterMap_congr
    intro link mem
    obtain ⟨⟨source, foundSource⟩, target, foundTarget⟩ := code.linked mem
    have here := at_slot_iff consistent mapped foundSource
    by_cases atSource : source.id = id <;>
      simp [edgeBetween, nodeIdFor, foundSource, foundTarget, here, atSource, Option.filter_some]

/-- The incoming edges of a node are the edges that end at it, from the last to the first. -/
theorem getEdgesTo_eq : (code.getEdgesTo id).map (fun edge => (edge.1, id, edge.2)) =
      (group (fun edge => edge.2.1) code.edges id).reverse := by
  rw [getEdgesTo, group, edges, filter_filterMap]
  cases mapped : code.indexMap.get id with
  | none =>
    symm
    rw [map_nil, reverse_eq_nil_iff, filterMap_eq_nil_iff]
    intro link mem
    obtain ⟨⟨source, foundSource⟩, target, foundTarget⟩ := code.linked mem
    simp [edgeBetween, nodeIdFor, foundSource, foundTarget, Option.filter_some,
      no_slot consistent mapped foundTarget]
  | some slot =>
    dsimp only
    rw [StableGraph.edgesTo, filterMap_reverse, map_reverse, filterMap_filter, map_filterMap]
    congr 1
    apply filterMap_congr
    intro link mem
    obtain ⟨⟨source, foundSource⟩, target, foundTarget⟩ := code.linked mem
    have here := at_slot_iff consistent mapped foundTarget
    by_cases atTarget : target.id = id <;>
      simp [edgeBetween, nodeIdFor, foundSource, foundTarget, here, atTarget, Option.filter_some]

theorem mem_getEdgesFrom (other : NodeId × EdgeData) :
    other ∈ code.getEdgesFrom id ↔ (id, other.1, other.2) ∈ code.edges := by
  have apart : Function.Injective fun edge : NodeId × EdgeData => (id, edge.1, edge.2) :=
    fun _ _ same => congrArg Prod.snd same
  rw [← mem_map_of_injective apart, getEdgesFrom_eq consistent, mem_reverse, mem_group]
  exact and_iff_left rfl

theorem mem_getEdgesTo (other : NodeId × EdgeData) :
    other ∈ code.getEdgesTo id ↔ (other.1, id, other.2) ∈ code.edges := by
  have apart : Function.Injective fun edge : NodeId × EdgeData => (edge.1, id, edge.2) :=
    fun _ _ same => Prod.ext (congrArg (·.1) same) (congrArg (·.2.2) same)
  rw [← mem_map_of_injective apart, getEdgesTo_eq consistent, mem_reverse, mem_group]
  exact and_iff_left rfl

/-- The saved edges are the edges of the graph, each as often. -/
theorem snapshotEdges_perm : (code.snapshotEdges.map overlayEntry).Perm code.edges := by
  have grouped : (code.snapshotEdges.map overlayEntry).Perm
      (code.allNodeIds.flatMap (group Prod.fst code.edges)) := by
    rw [snapshotEdges, map_flatMap]
    apply List.Perm.flatMap_left
    intro id _
    rw [map_map]
    change ((code.getEdgesFrom id).map fun edge => (id, edge.1, edge.2)).Perm _
    rw [getEdgesFrom_eq consistent id]
    exact reverse_perm _
  have covered : ∀ edge ∈ code.edges, edge.1 ∈ code.allNodeIds := by
    intro edge mem
    obtain ⟨link, _, source, target, foundSource, _, rfl⟩ := (mem_edges edge).mp mem
    exact (Dict.mem_keys_iff code.indexMap source.id).mpr ⟨_, consistent.slot foundSource⟩
  exact grouped.trans (flatMap_group_perm Prod.fst code.indexMap.nodupKeys covered)

end

/-- A loaded graph has the saved nodes and those saved edges that they allow. -/
theorem view_replay_saved (policy : SlotPolicy) (consistent : Consistent code)
    {snap : OverlaySnapshot} (saves : snap.Saves code) :
    (replay policy snap.nodes snap.edges).view.SameAs
      { code.view with edges := code.view.edges.filter code.view.allows } := by
  have distinct : (snap.nodes.map NodeData.id).Nodup := by
    rw [(saves.nodes.map NodeData.id).nodup_iff, snapshotNodes_ids consistent]
    exact code.indexMap.nodupKeys
  have nodes' : (GraphView.empty.addNodes snap.nodes).nodes = code.view.nodes := by
    funext id
    ext data
    rw [addNodes_empty_nodes distinct, view_nodes consistent]
    simp only [saves.nodes.mem_iff, mem_snapshotNodes consistent]
    constructor
    · intro ⟨stored, ⟨slot, found⟩, same⟩
      exact ⟨slot, stored, found, same⟩
    · intro ⟨slot, stored, found, same⟩
      exact ⟨stored, ⟨slot, found⟩, same⟩
  rw [view_replay, addEdges_eq]
  refine ⟨nodes', ?_⟩
  rw [addNodes_edges, allows_congr nodes']
  change List.Perm ([] ++ _) _
  rw [nil_append]
  exact ((saves.edges.map overlayEntry).trans (snapshotEdges_perm consistent)).filter _

end CodeGraph

end Codegraph
