import Codegraph.Graph.Validity

namespace Codegraph

open Library List GraphView

/-- A follower of the events knows only the view. -/
def GraphEvent.onView (view : GraphView) : GraphEvent → GraphView
  | .nodeAdded data => view.addNode data
  | .nodeRemoved id => view.removeNode id
  | .edgeAdded source target data => view.addEdge source target data
  | .edgeRemoved source target kind =>
    { view with
      edges := view.edges.filter fun edge => ¬ (edge.1 = source ∧ edge.2.1 = target ∧ edge.2.2.kind = kind) }
  | .fileReindexed _ => view

namespace GraphView

/-- A known node is in the file. -/
def inFile (view : GraphView) (path : String) (id : NodeId) : Bool :=
  (view.nodes id).any fun data => data.filePath = path

/-- The nodes are gone, and the edges at them. -/
def without (view : GraphView) (gone : NodeId → Bool) : GraphView where
  nodes id := if gone id then none else view.nodes id
  edges := view.edges.filter fun edge => !gone edge.1 && !gone edge.2.1

/-- The nodes of a file and their edges are replaced. -/
def replaceFile (view : GraphView) (path : String) (nodes : List NodeData)
    (edges : List (NodeId × NodeId × EdgeData)) : GraphView :=
  ((view.without (view.inFile path)).addNodes nodes).addEdges edges

theorem foldl_removeNode (view : GraphView) (ids : List NodeId) :
    (ids.map GraphEvent.nodeRemoved).foldl GraphEvent.onView view = view.without fun id => decide (id ∈ ids) := by
  induction ids generalizing view with
  | nil => simp [without]
  | cons id ids ih =>
    rw [map_cons, foldl_cons, ih, GraphEvent.onView, without, without, removeNode]
    congr 1
    · funext other
      by_cases here : other = id
      · simp [here]
      · simp [here, Function.update_of_ne]
    · rw [filter_filter]
      refine filter_congr fun edge _ => ?_
      simp only [mem_cons]
      grind

section Replaced

variable {view : GraphView} {path : String} {nodes : List NodeData} {edges : List (NodeId × NodeId × EdgeData)}

theorem replaceFile_nodes (id : NodeId) : (view.replaceFile path nodes edges).nodes id =
    ((nodes.reverse.find? fun data => data.id = id).map NodeData.unstamped).or
      ((view.without (view.inFile path)).nodes id) := by
  rw [replaceFile, addEdges_eq, addNodes_nodes]

theorem find?_reverse_eq_none {id : NodeId} (absent : ¬ ∃ data ∈ nodes, data.id = id) :
    (nodes.reverse.find? fun data => data.id = id) = none :=
  find?_eq_none.mpr fun data mem same => absent ⟨data, mem_reverse.mp mem, of_decide_eq_true same⟩

variable (own : ∀ data ∈ nodes, data.filePath = path)
include own

/-- After its replacement, the file holds the new nodes. -/
theorem inFile_replaceFile : (view.replaceFile path nodes edges).inFile path =
    fun id => decide (∃ data ∈ nodes, data.id = id) := by
  funext id
  rw [inFile, replaceFile_nodes]
  by_cases listed : ∃ data ∈ nodes, data.id = id
  · obtain ⟨data, found⟩ : ∃ data, nodes.reverse.find? (fun data => data.id = id) = some data := by
      obtain ⟨data, mem, same⟩ := listed
      exact Option.isSome_iff_exists.mp (find?_isSome.mpr ⟨data, mem_reverse.mpr mem, decide_eq_true same⟩)
    rw [found, decide_eq_true listed]
    exact decide_eq_true (own data (mem_reverse.mp (mem_of_find?_eq_some found)))
  rw [find?_reverse_eq_none listed, decide_eq_false listed, Option.map_none, Option.none_or, without]
  dsimp only
  split
  · rfl
  · rename_i outside
    exact Bool.eq_false_iff.mpr outside

variable (free : ∀ data ∈ nodes, ∀ stored, view.nodes data.id = some stored → stored.filePath = path)
include free

/-- Without the new nodes, the rest of the view is left. -/
theorem without_replaceFile (known : ∀ edge ∈ view.edges, ∃ source target,
      view.nodes edge.1 = some source ∧ view.nodes edge.2.1 = some target)
    (touches : ∀ edge ∈ edges, ∃ data ∈ nodes, data.id = edge.1 ∨ data.id = edge.2.1) :
    (view.replaceFile path nodes edges).without ((view.replaceFile path nodes edges).inFile path) =
      view.without (view.inFile path) := by
  rw [inFile_replaceFile own]
  unfold without
  congr 1
  · funext id
    split
    · rename_i listed
      obtain ⟨data, mem, rfl⟩ := of_decide_eq_true listed
      cases found : view.nodes data.id with
      | none => simp
      | some stored => simp [inFile, found, free data mem stored found]
    · rename_i absent
      rw [replaceFile_nodes, find?_reverse_eq_none (fun listed => absent (decide_eq_true listed)), Option.map_none,
        Option.none_or]
      rfl
  rw [replaceFile, addEdges_eq, addNodes_edges]
  have added (allowed : NodeId × NodeId × EdgeData → Bool) : (edges.filter allowed).filter (fun edge =>
      !decide (∃ data ∈ nodes, data.id = edge.1) && !decide (∃ data ∈ nodes, data.id = edge.2.1)) = [] := by
    refine filter_eq_nil_iff.mpr fun edge mem => ?_
    obtain ⟨data, listed, source | target⟩ := touches edge (mem_filter.mp mem).1
    · simp [show ∃ data ∈ nodes, data.id = edge.1 from ⟨data, listed, source⟩]
    · simp [show ∃ data ∈ nodes, data.id = edge.2.1 from ⟨data, listed, target⟩]
  have kept {id : NodeId} {stored : NodeData} (found : view.nodes id = some stored)
      (outside : (!view.inFile path id) = true) : (!decide (∃ data ∈ nodes, data.id = id)) = true := by
    rw [Bool.not_eq_true', decide_eq_false_iff_not]
    rintro ⟨data, mem, rfl⟩
    simp [inFile, found, free data mem stored found] at outside
  dsimp only
  rw [filter_append, added, append_nil]
  refine filter_eq_self.mpr fun edge mem => ?_
  obtain ⟨stored, outside⟩ := mem_filter.mp mem
  obtain ⟨source, target, fromSource, toTarget⟩ := known edge stored
  rw [Bool.and_eq_true] at outside ⊢
  exact ⟨kept fromSource outside.1, kept toTarget outside.2⟩

end Replaced

end GraphView

namespace CodeGraph

variable (policy : SlotPolicy) {code : CodeGraph}

theorem view_removeNodes (consistent : Consistent code) (ids : List NodeId) :
    (code.removeNodes ids).view = (ids.map GraphEvent.nodeRemoved).foldl GraphEvent.onView code.view := by
  induction ids generalizing code with
  | nil => rfl
  | cons id ids ih =>
    rw [map_cons, foldl_cons, GraphEvent.onView, ← view_removeNode consistent id]
    exact ih (removeNode_consistent consistent id)

theorem allows_known {edge : NodeId × NodeId × EdgeData} (allowed : code.view.allows edge = true) :
    (code.containsNode edge.1 && code.containsNode edge.2.1) = true := by
  by_contra unknown
  have missing (id : NodeId) (absent : code.containsNode id ≠ true) : code.view.nodes id = none := by
    have absent : code.indexMap.get id = none := Option.not_isSome_iff_eq_none.mp absent
    change ((code.indexMap.get id).bind _).map _ = none
    rw [absent]
    rfl
  rw [allows, accepts] at allowed
  rw [Bool.and_eq_true, not_and_or] at unknown
  rcases unknown with unknown | unknown <;> simp [missing _ unknown] at allowed

theorem view_addKnownEdges (consistent : Consistent code) (edges : List (NodeId × NodeId × EdgeData)) :
    (code.addKnownEdges edges).view = code.view.addEdges edges := by
  induction edges generalizing code with
  | nil => rfl
  | cons edge edges ih =>
    change ((code.addKnownEdge edge).addKnownEdges edges).view =
      (code.view.addEdge edge.1 edge.2.1 edge.2.2).addEdges edges
    rw [@ih (code.addKnownEdge edge) (addKnownEdges_consistent consistent [edge]), addKnownEdge]
    split
    · rw [view_addEdge consistent]
    · rename_i unknown
      have refused : ¬ code.view.allows edge = true := fun allowed => unknown (allows_known allowed)
      rw [show code.view.addEdge edge.1 edge.2.1 edge.2.2 = code.view from if_neg refused]

/-- Whoever replays the reported events on the view has the view of the updated graph. -/
theorem updateFileEvents_replay {ParsedFile : Type} (operations : List (Operation ParsedFile))
    (path content : String) (adapter : LanguageAdapter ParsedFile) :
    ((run policy operations).updateFile policy path content adapter).view =
      ((run policy operations).updateFileEvents policy path content adapter).foldl GraphEvent.onView
        (run policy operations).view := by
  have consistent := run_consistent policy operations
  generalize run policy operations = code at consistent
  have cleared := removeNodes_consistent consistent (code.nodesOfFile path)
  rw [updateFileEvents, foldl_append, foldl_append, ← view_removeNodes consistent, updateFile]
  cases adapter.parseFile path content with
  | none => rfl
  | some parsed =>
    let nodes := adapter.extractNodes parsed
    have stored := addNodes_consistent policy cleared nodes
    dsimp only
    rw [foldl_append, foldl_map, foldl_map, view_addKnownEdges stored]
    change _ = GraphView.addEdges (GraphView.addNodes _ nodes) _
    rw [← view_addNodes policy cleared, addEdges_eq, addEdges_eq, filter_filter]
    congr 2
    refine filter_congr fun edge _ => ?_
    rw [Bool.eq_iff_iff, Bool.and_eq_true]
    exact ⟨fun allowed => ⟨allowed, allows_known allowed⟩, And.left⟩

theorem mem_nodesOfFile (path : String) (id : NodeId) :
    decide (id ∈ code.nodesOfFile path) = code.view.inFile path id := by
  have mapped : id ∈ code.allNodeIds ↔ (code.indexMap.get id).isSome := by
    rw [allNodeIds, Dict.mem_keys_iff, Option.isSome_iff_exists]
  have here : code.view.inFile path id =
      ((code.getNode id).map fun data => decide (data.filePath = path)).getD false := by
    change ((code.getNode id).map NodeData.unstamped).any _ = _
    cases code.getNode id <;> rfl
  rw [here, Bool.eq_iff_iff, decide_eq_true_iff, nodesOfFile, mem_filter, mapped, and_iff_right_iff_imp]
  intro found
  cases known : code.indexMap.get id with
  | none => simp [getNode, known] at found
  | some slot => rfl

/-- The update of a file that can be read replaces the file in the view. -/
theorem view_updateFile {ParsedFile : Type} (consistent : Consistent code) (path content : String)
    (adapter : LanguageAdapter ParsedFile) {parsed : ParsedFile}
    (read : adapter.parseFile path content = some parsed) :
    (code.updateFile policy path content adapter).view =
      code.view.replaceFile path (adapter.extractNodes parsed)
        (adapter.extractEdges parsed (adapter.extractNodes parsed)) := by
  have cleared := removeNodes_consistent consistent (code.nodesOfFile path)
  rw [updateFile, read]
  dsimp only
  rw [view_addKnownEdges (addNodes_consistent policy cleared _), view_addNodes policy cleared,
    view_removeNodes consistent, foldl_removeNode, funext (mem_nodesOfFile path)]
  rfl

/-- A file that is read again as it is changes nothing. -/
theorem updateFile_idempotent {ParsedFile : Type} (operations : List (Operation ParsedFile))
    (path content : String) (adapter : LanguageAdapter ParsedFile) {parsed : ParsedFile}
    (read : adapter.parseFile path content = some parsed)
    (own : ∀ data ∈ adapter.extractNodes parsed, data.filePath = path)
    (free : ∀ data ∈ adapter.extractNodes parsed, ∀ stored,
      (run policy operations).getNode data.id = some stored → stored.filePath = path)
    (touches : ∀ edge ∈ adapter.extractEdges parsed (adapter.extractNodes parsed),
      ∃ data ∈ adapter.extractNodes parsed, data.id = edge.1 ∨ data.id = edge.2.1) :
    (((run policy operations).updateFile policy path content adapter).updateFile policy path content adapter).view =
      ((run policy operations).updateFile policy path content adapter).view := by
  have consistent := run_consistent policy operations
  generalize run policy operations = code at consistent free
  rw [view_updateFile policy (updateFile_consistent policy consistent path content adapter) path content adapter read,
    view_updateFile policy consistent path content adapter read]
  rw [replaceFile, without_replaceFile own (fun data mem stored found => ?_) (fun edge mem => ?_) touches]
  · rfl
  · obtain ⟨held, here, rfl⟩ := Option.map_eq_some_iff.mp found
    exact free data mem held here
  · obtain ⟨source, target, fromSource, toTarget, -⟩ := edge_ends consistent mem
    exact ⟨_, _, view_nodes_of_getNode fromSource, view_nodes_of_getNode toTarget⟩

/-- Every file is the call of one function by another one. -/
def oneCallFile : LanguageAdapter Unit where
  parseFile _ _ := some ()
  parseFileLenient _ _ := some ()
  extractNodes _ := [caller, callee]
  extractEdges _ _ := [(caller.id, callee.id, ⟨.calls, {}, 0⟩)]
  extractCallSites _ _ := []

theorem updateFile_idempotent_oneCall :
    let once := (run .fresh ([] : List (Operation Unit))).updateFile .fresh "" "" oneCallFile
    (once.updateFile .fresh "" "" oneCallFile).view = once.view := by
  have unknown (id : NodeId) : (run .fresh ([] : List (Operation Unit))).getNode id = none := rfl
  have own : ∀ data ∈ [caller, callee], data.filePath = "" := by decide
  have touches : ∀ edge ∈ [(caller.id, callee.id, (⟨.calls, {}, 0⟩ : EdgeData))],
      ∃ data ∈ [caller, callee], data.id = edge.1 ∨ data.id = edge.2.1 := by decide
  exact @updateFile_idempotent .fresh Unit [] "" "" oneCallFile () rfl own
    (fun data _ stored found => absurd found (by rw [unknown]; exact nofun)) touches

end CodeGraph

end Codegraph
