import Codegraph.Graph.Consistency

namespace Codegraph

open Library List Function StableGraph

/-- The nodes and the edges of a graph, without slots, indices and revision stamps. -/
structure GraphView where
  nodes : NodeId → Option NodeData
  edges : List (NodeId × NodeId × EdgeData)

namespace GraphView

def empty : GraphView := ⟨fun _ => none, []⟩

/-- A node replaces the one with its id, whose edges stay. -/
def addNode (view : GraphView) (data : NodeData) : GraphView :=
  { view with nodes := Function.update view.nodes data.id (some data.unstamped) }

/-- The kinds of both ends allow the edge and its weight is finite. -/
def accepts (view : GraphView) (source target : NodeId) (data : EdgeData) : Bool :=
  match view.nodes source, view.nodes target with
  | some sourceNode, some targetNode =>
    data.kind.validFor sourceNode.kind targetNode.kind && isFinite data.weight
  | _, _ => false

def addEdge (view : GraphView) (source target : NodeId) (data : EdgeData) : GraphView :=
  if view.accepts source target data then
    { view with edges := view.edges ++ [(source, target, data)] }
  else view

/-- The edges of a removed node go with it. -/
def removeNode (view : GraphView) (id : NodeId) : GraphView where
  nodes := Function.update view.nodes id none
  edges := view.edges.filter fun edge => edge.1 ≠ id && edge.2.1 ≠ id

end GraphView

namespace CodeGraph

/-- The id of the node at a slot. -/
def nodeIdFor (code : CodeGraph) (slot : Nat) : Option NodeId := (code.graph.node slot).map NodeData.id

/-- An edge with the ids of its ends. -/
def edgeBetween (name : Nat → Option NodeId) (link : Link EdgeData) : Option (NodeId × NodeId × EdgeData) :=
  (name link.source).bind fun source =>
    (name link.target).map fun target => (source, target, link.weight)

def edges (code : CodeGraph) : List (NodeId × NodeId × EdgeData) :=
  code.graph.links.filterMap (edgeBetween code.nodeIdFor)

/-- An edge of any kind joins two nodes. -/
def Edge (code : CodeGraph) (first second : NodeId) : Prop := ∃ data, (first, second, data) ∈ code.edges

def view (code : CodeGraph) : GraphView where
  nodes id := (code.getNode id).map NodeData.unstamped
  edges := code.edges

variable {code : CodeGraph}

theorem getNode_eq_some (consistent : Consistent code) (id : NodeId) (data : NodeData) :
    code.getNode id = some data ↔ ∃ slot, code.graph.node slot = some data ∧ data.id = id := by
  unfold getNode
  constructor
  · intro found
    obtain ⟨slot, known, stored⟩ := Option.bind_eq_some_iff.mp found
    obtain ⟨data', stored', named⟩ := (consistent.mapped id slot).mp known
    rw [stored] at stored'
    cases stored'
    exact ⟨slot, stored, named⟩
  intro ⟨slot, stored, named⟩
  rwa [← named, consistent.slot stored]

theorem view_nodes (consistent : Consistent code) (id : NodeId) (data : NodeData) :
    code.view.nodes id = some data ↔ ∃ slot stored, code.graph.node slot = some stored ∧ stored.id = id ∧
        stored.unstamped = data := by
  change (code.getNode id).map NodeData.unstamped = some data ↔ _
  rw [Option.map_eq_some_iff]
  constructor
  · intro ⟨stored, found, same⟩
    obtain ⟨slot, here, named⟩ := (getNode_eq_some consistent id stored).mp found
    exact ⟨slot, stored, here, named, same⟩
  · intro ⟨slot, stored, here, named, same⟩
    exact ⟨stored, (getNode_eq_some consistent id stored).mpr ⟨slot, here, named⟩, same⟩

theorem view_congr {code code' : CodeGraph} (mapped : code'.indexMap = code.indexMap)
    (links : code'.graph.links = code.graph.links)
    (contents : ∀ slot, (code'.graph.node slot).map NodeData.unstamped =
      (code.graph.node slot).map NodeData.unstamped) : code'.view = code.view := by
  have names : code'.nodeIdFor = code.nodeIdFor := by
    funext slot
    have same := congrArg (Option.map NodeData.id) (contents slot)
    rwa [Option.map_map, Option.map_map] at same
  have nodes (id : NodeId) : code'.view.nodes id = code.view.nodes id := by
    change ((code'.indexMap.get id).bind code'.graph.node).map NodeData.unstamped =
      ((code.indexMap.get id).bind code.graph.node).map NodeData.unstamped
    rw [mapped]
    cases code.indexMap.get id with
    | none => rfl
    | some slot => exact contents slot
  have edges : code'.edges = code.edges := by
    unfold CodeGraph.edges
    rw [links, names]
  unfold view
  congr 1
  funext id
  exact nodes id

theorem view_touchSlot (code : CodeGraph) (rev slot : Nat) : (code.touchSlot rev slot).view = code.view := by
  unfold touchSlot
  split
  · rename_i data found
    refine view_congr (by rfl) (by rfl) fun other => ?_
    rw [node_setNode _ _ found]
    split
    · rename_i same
      rw [same, found]
      rfl
    · rfl
  · rfl

theorem view_touchNode (code : CodeGraph) (rev : Nat) (id : NodeId) :
    (touchNode rev code id).view = code.view := by
  unfold touchNode
  split
  · exact view_touchSlot code rev _
  · rfl

theorem view_foldl_touchNode (code : CodeGraph) (rev : Nat) (ids : List NodeId) :
    (ids.foldl (touchNode rev) code).view = code.view := by
  induction ids generalizing code with
  | nil => rfl
  | cons id ids ih => rw [foldl_cons, ih, view_touchNode]

theorem view_new : new.view = GraphView.empty := rfl

/-- A replaced node keeps its id, so the edges stay. -/
theorem view_setNode (consistent : Consistent code) {slot : Nat}
    {old data : NodeData} (found : code.graph.node slot = some old) (same : data.id = old.id)
    (indices : Indices) (revision : Nat) :
    ({ code with
        graph := code.graph.setNode slot data
        indices := indices
        revision := revision } : CodeGraph).view = code.view.addNode data := by
  have names (other : Nat) : ((code.graph.setNode slot data).node other).map NodeData.id =
      (code.graph.node other).map NodeData.id := by
    rw [node_setNode _ _ found]
    split
    · rename_i here
      rw [here, found, Option.map_some, Option.map_some, same]
    · rfl
  have nodes (id : NodeId) :
      ((code.indexMap.get id).bind (code.graph.setNode slot data).node).map NodeData.unstamped =
        update code.view.nodes data.id (some data.unstamped) id := by
    by_cases here : id = data.id
    · subst here
      rw [update_self, same, consistent.slot found, Option.bind_some,
        node_setNode _ _ found, if_pos rfl, Option.map_some]
    rw [update_of_ne here]
    change _ = ((code.indexMap.get id).bind code.graph.node).map NodeData.unstamped
    cases known : code.indexMap.get id with
    | none => rfl
    | some other =>
      obtain ⟨stored, foundOther, named⟩ := (consistent.mapped id other).mp known
      rw [Option.bind_some, Option.bind_some, node_setNode _ _ found, if_neg ?_]
      intro slots
      rw [slots, found] at foundOther
      cases foundOther
      exact here (named.symm.trans same.symm)
  unfold view GraphView.addNode
  congr 1
  · funext id
    exact nodes id
  · unfold edges
    congr 1
    unfold nodeIdFor
    funext link
    rw [show (fun other => ((code.graph.setNode slot data).node other).map NodeData.id) =
      fun other => (code.graph.node other).map NodeData.id from funext names]

/-- The ends of an edge are stored. -/
theorem linked (code : CodeGraph) {link : Link EdgeData} (mem : link ∈ code.graph.links) :
    (∃ source, code.graph.node link.source = some source) ∧
      ∃ target, code.graph.node link.target = some target :=
  ⟨Option.isSome_iff_exists.mp (code.graph.wired link mem).1,
    Option.isSome_iff_exists.mp (code.graph.wired link mem).2⟩

theorem view_addNode (policy : SlotPolicy) (consistent : Consistent code)
    (data : NodeData) : (code.addNode policy data).view = code.view.addNode data := by
  unfold addNode
  split
  · rename_i slot known
    obtain ⟨old, found, named⟩ := (consistent.mapped data.id slot).mp known
    rw [found]
    exact view_setNode consistent found (by exact named.symm) _ _
  rename_i unknown
  have fresh := nextSlot_free policy code.graph
  have kept {slot : Nat} {old : NodeData} (found : code.graph.node slot = some old) :
      (code.graph.addNode policy (data.stamp code.bumpRevision code.bumpRevision)).node slot =
        code.graph.node slot := by
    rw [node_addNode, if_neg ?_]
    intro same
    rw [same, fresh] at found
    contradiction
  unfold view GraphView.addNode
  congr 1
  · funext id
    change (((code.indexMap.set data.id _).get id).bind _).map _ = _
    rw [Dict.get_set]
    by_cases here : id = data.id
    · subst here
      rw [if_pos rfl, update_self, Option.bind_some, node_addNode, if_pos rfl]
      rfl
    rw [if_neg here, update_of_ne here]
    change _ = ((code.indexMap.get id).bind code.graph.node).map NodeData.unstamped
    cases known : code.indexMap.get id with
    | none => rfl
    | some slot =>
      obtain ⟨stored, found, -⟩ := (consistent.mapped id slot).mp known
      rw [Option.bind_some, Option.bind_some, kept found]
  · apply filterMap_congr
    intro link mem
    obtain ⟨⟨source, foundSource⟩, target, foundTarget⟩ := code.linked mem
    unfold edgeBetween nodeIdFor
    rw [kept foundSource, kept foundTarget]

theorem addEdge_rejected {source target : NodeId} {data : EdgeData}
    {error : GraphError} (rejected : (code.addEdge source target data).2 = .error error) :
    (code.addEdge source target data).1 = code := by
  unfold addEdge at rejected ⊢
  split
  · rfl
  split
  · rfl
  split
  · split
    · split <;> rfl
    split
    · rfl
    · simp_all
  · rfl

theorem view_addEdge (consistent : Consistent code) (source target : NodeId) (data : EdgeData) :
    (code.addEdge source target data).1.view = code.view.addEdge source target data := by
  have unknown (id : NodeId) (missing : code.indexMap.get id = none) : code.view.nodes id = none := by
    change ((code.indexMap.get id).bind _).map _ = none
    rw [missing]
    rfl
  have known {id : NodeId} {slot : Nat} (mapped : code.indexMap.get id = some slot) :
      ∃ node, code.graph.node slot = some node ∧ node.id = id ∧
        code.view.nodes id = some node.unstamped := by
    obtain ⟨node, found, named⟩ := (consistent.mapped id slot).mp mapped
    exact ⟨node, found, named, (view_nodes consistent id _).mpr ⟨slot, node, found, named, rfl⟩⟩
  unfold addEdge GraphView.addEdge GraphView.accepts
  cases mapped : code.indexMap.get source with
  | none => simp [unknown source mapped]
  | some sourceSlot =>
    obtain ⟨sourceNode, foundSource, namedSource, viewSource⟩ := known mapped
    cases mapped' : code.indexMap.get target with
    | none => simp [unknown target mapped', viewSource]
    | some targetSlot =>
      obtain ⟨targetNode, foundTarget, namedTarget, viewTarget⟩ := known mapped'
      dsimp only
      rw [foundSource, foundTarget, viewSource, viewTarget]
      by_cases valid : data.kind.validFor sourceNode.kind targetNode.kind = true
      · by_cases finite : isFinite data.weight = true
        · have accepted : (data.kind.validFor sourceNode.unstamped.kind
              targetNode.unstamped.kind && isFinite data.weight) = true := by
            rwa [finite, Bool.and_true]
          rw [if_pos accepted]
          simp only [valid, finite, Bool.not_true, Bool.false_eq_true, if_false]
          rw [view_touchSlot, view_touchSlot]
          unfold view
          congr 1
          · funext id
            change ((code.indexMap.get id).bind (StableGraph.node _)).map _ = _
            unfold getNode
            congr 2
            funext slot
            exact node_addEdge _ _ _ _ _
          · unfold edges nodeIdFor
            simp only [node_addEdge]
            rw [links_addEdge _ _ (by rw [foundSource]; rfl)
              (by rw [foundTarget]; rfl), filterMap_append]
            congr 1
            simp [edgeBetween, foundSource, foundTarget, namedSource, namedTarget]
        · have refused : ¬ (data.kind.validFor sourceNode.unstamped.kind
              targetNode.unstamped.kind && isFinite data.weight) = true := by
            simp [finite]
          rw [if_neg refused]
          simp [valid, finite]
      · have refused : ¬ (data.kind.validFor sourceNode.unstamped.kind
            targetNode.unstamped.kind && isFinite data.weight) = true := by
          rw [Bool.and_eq_true]
          exact fun both => valid both.1
        rw [if_neg refused]
        simp only [valid, Bool.not_false, if_true]
        split <;> rfl

/-- An edge of the view joins the ids of stored nodes. -/
theorem mem_edges (edge : NodeId × NodeId × EdgeData) :
    edge ∈ code.edges ↔ ∃ link ∈ code.graph.links, ∃ source target,
      code.graph.node link.source = some source ∧ code.graph.node link.target = some target ∧
        edge = (source.id, target.id, link.weight) := by
  rw [edges, mem_filterMap]
  constructor
  · intro ⟨link, mem, joined⟩
    obtain ⟨⟨source, foundSource⟩, target, foundTarget⟩ := code.linked mem
    refine ⟨link, mem, source, target, foundSource, foundTarget, ?_⟩
    simpa [edgeBetween, nodeIdFor, foundSource, foundTarget, eq_comm] using joined
  intro ⟨link, mem, source, target, foundSource, foundTarget, joined⟩
  refine ⟨link, mem, ?_⟩
  simp [edgeBetween, nodeIdFor, foundSource, foundTarget, joined]

theorem view_removeNode (consistent : Consistent code) (id : NodeId) :
    (code.removeNode id).1.view = code.view.removeNode id := by
  unfold removeNode
  cases known : code.indexMap.get id with
  | none =>
    have absent {node : NodeData} {slot : Nat} (found : code.graph.node slot = some node) :
        node.id ≠ id := by
      intro same
      have mapped := consistent.slot found
      rw [same, known] at mapped
      contradiction
    have noNode : code.view.nodes id = none := by
      change ((code.indexMap.get id).bind _).map _ = none
      rw [known]
      rfl
    have noEdge : code.view.edges.filter (fun edge => edge.1 ≠ id && edge.2.1 ≠ id) = code.view.edges := by
      rw [filter_eq_self]
      intro edge mem
      obtain ⟨link, -, source, target, foundSource, foundTarget, rfl⟩ := (mem_edges edge).mp mem
      simp [absent foundSource, absent foundTarget]
    rw [GraphView.removeNode, noEdge, ← noNode, update_eq_self]
  | some slot =>
    obtain ⟨removed, found, named⟩ := (consistent.mapped id slot).mp known
    have others {node : NodeData} {place : Nat} (stored : code.graph.node place = some node) :
        place = slot ↔ node.id = id := by
      constructor
      · intro same
        rw [same, found] at stored
        cases stored
        exact named
      · intro same
        exact (consistent.unique stored found (same.trans named.symm)).1
    dsimp only
    rw [found]
    dsimp only
    rw [view_foldl_touchNode]
    unfold view GraphView.removeNode
    congr 1
    · funext other
      change (((code.indexMap.remove id).get other).bind _).map _ = _
      rw [Dict.get_remove]
      by_cases same : other = id
      · rw [if_pos same, same, update_self]
        rfl
      rw [if_neg same, update_of_ne same]
      change _ = ((code.indexMap.get other).bind code.graph.node).map NodeData.unstamped
      cases mapped : code.indexMap.get other with
      | none => rfl
      | some place =>
        obtain ⟨stored, here, named'⟩ := (consistent.mapped other place).mp mapped
        rw [Option.bind_some, Option.bind_some, node_removeNode, if_neg ?_]
        exact fun slots => same (named'.symm.trans ((others here).mp slots))
    · unfold edges
      change List.filterMap _ (code.graph.links.filter _) = _
      rw [filterMap_filter, filter_filterMap]
      apply filterMap_congr
      intro link mem
      obtain ⟨⟨source, foundSource⟩, target, foundTarget⟩ := code.linked mem
      have left := others foundSource
      have right := others foundTarget
      simp only [edgeBetween, nodeIdFor, node_removeNode, foundSource, foundTarget, left, right]
      by_cases atSource : source.id = id
      · simp [atSource, Option.filter_some]
      by_cases atTarget : target.id = id
      · simp [atTarget, Option.filter_some]
      · simp [left, right, atSource, atTarget, Option.filter_some]

end CodeGraph

end Codegraph
