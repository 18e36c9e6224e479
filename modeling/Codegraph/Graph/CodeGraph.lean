/-
This file defines the code graph, the operations that change it, and how it is saved and loaded.
-/

import Codegraph.Graph.Nodes
import Codegraph.Library.StableGraph

namespace Codegraph

open Library

inductive GraphError where
  | nodeNotFound (id : NodeId)
  | wrongSourceKind (edge : EdgeKind) (got : NodeKind) (id : NodeId)
  | wrongTargetKind (edge : EdgeKind) (got : NodeKind) (id : NodeId)
  | nonFiniteWeight (edge : EdgeKind) (weight : Weight)
deriving DecidableEq

/-- The graph with the slot of each id and the indices derived from the nodes. -/
structure CodeGraph where
  graph : StableGraph NodeData EdgeData
  indexMap : Dict NodeId Nat
  indices : Indices
  revision : Nat

namespace CodeGraph

def new : CodeGraph := ⟨.empty, ∅, {}, 0⟩

/-- The revision stops at the largest 64-bit number. -/
def bumpRevision (code : CodeGraph) : Nat := min (code.revision + 1) (2 ^ 64 - 1)

def resolve (code : CodeGraph) (id : NodeId) : Option Nat := code.indexMap.get id

/-- The node at a slot is marked as modified. -/
def touchSlot (rev : Nat) (code : CodeGraph) (slot : Nat) : CodeGraph :=
  match code.graph.node slot with
  | some data => { code with graph := code.graph.setNode slot (data.stamp data.birthRevision rev) }
  | none => code

def touchNode (rev : Nat) (code : CodeGraph) (id : NodeId) : CodeGraph :=
  match code.indexMap.get id with
  | some slot => code.touchSlot rev slot
  | none => code

/-- A node with a known id replaces the stored one and keeps its birth revision. -/
def addNode (policy : SlotPolicy) (code : CodeGraph) (data : NodeData) : CodeGraph :=
  let rev := code.bumpRevision
  match code.indexMap.get data.id with
  | some slot =>
    match code.graph.node slot with
    | some old =>
      let data := data.stamp old.birthRevision rev
      { code with
        graph := code.graph.setNode slot data
        indices := (code.indices.removeNode old).insertNode data
        revision := rev }
    | none => code
  | none =>
    let data := data.stamp rev rev
    { graph := code.graph.addNode policy data
      indexMap := code.indexMap.set data.id (code.graph.nextSlot policy)
      indices := code.indices.insertNode data
      revision := rev }

def getNode (code : CodeGraph) (id : NodeId) : Option NodeData :=
  (code.indexMap.get id).bind code.graph.node

/-- An edge is stored when both ends are, their kinds allow it and its weight is finite. -/
def addEdge (code : CodeGraph) (source target : NodeId) (data : EdgeData) :
    CodeGraph × Except GraphError Unit :=
  match code.indexMap.get source with
  | none => (code, .error (.nodeNotFound source))
  | some sourceSlot =>
    match code.indexMap.get target with
    | none => (code, .error (.nodeNotFound target))
    | some targetSlot =>
      match code.graph.node sourceSlot, code.graph.node targetSlot with
      | some sourceNode, some targetNode =>
        if !data.kind.validFor sourceNode.kind targetNode.kind then
          if !data.kind.validSource sourceNode.kind then
            (code, .error (.wrongSourceKind data.kind sourceNode.kind source))
          else (code, .error (.wrongTargetKind data.kind targetNode.kind target))
        else if !isFinite data.weight then
          (code, .error (.nonFiniteWeight data.kind data.weight))
        else
          let rev := code.bumpRevision
          let added := { code with
            graph := code.graph.addEdge sourceSlot targetSlot data
            revision := rev }
          ((added.touchSlot rev sourceSlot).touchSlot rev targetSlot, .ok ())
      | _, _ => (code, .error (.nodeNotFound source))

/-- The outgoing edges of a node with the ids of their targets. -/
def getEdgesFrom (code : CodeGraph) (id : NodeId) : List (NodeId × EdgeData) :=
  match code.indexMap.get id with
  | none => []
  | some slot => (code.graph.edgesFrom slot).filterMap fun link =>
    (code.graph.node link.target).map fun data => (data.id, link.weight)

def getEdgesTo (code : CodeGraph) (id : NodeId) : List (NodeId × EdgeData) :=
  match code.indexMap.get id with
  | none => []
  | some slot => (code.graph.edgesTo slot).filterMap fun link =>
    (code.graph.node link.source).map fun data => (data.id, link.weight)

/-- The neighbours that stay are marked as modified. -/
def removeNode (code : CodeGraph) (id : NodeId) : CodeGraph × Option NodeData :=
  match code.indexMap.get id with
  | none => (code, none)
  | some slot =>
    let neighbors := (code.graph.neighbors slot).filterMap fun other =>
      (code.graph.node other).map NodeData.id
    let unmapped := { code with indexMap := code.indexMap.remove id }
    match code.graph.node slot with
    | none => (unmapped, none)
    | some removed =>
      let rev := code.bumpRevision
      let removedGraph := { unmapped with
        graph := code.graph.removeNode slot
        indices := code.indices.removeNode removed
        revision := rev }
      (neighbors.foldl (touchNode rev) removedGraph, some removed)

/-- The entries of the node in the indices follow its metadata. -/
def updateNodeMetadata (code : CodeGraph) (id : NodeId)
    (change : Dict String String → Dict String String) : CodeGraph × Bool :=
  match code.indexMap.get id with
  | none => (code, false)
  | some slot =>
    match code.graph.node slot with
    | none => (code, false)
    | some old =>
      let rev := code.bumpRevision
      let data := ({ old with metadata := change old.metadata } : NodeData).stamp old.birthRevision rev
      ({ code with
          graph := code.graph.setNode slot data
          indices := (code.indices.removeNode old).insertNode data
          revision := rev },
        true)

def allNodeIds (code : CodeGraph) : List NodeId := code.indexMap.keys

def containsNode (code : CodeGraph) (id : NodeId) : Bool := (code.indexMap.get id).isSome

def nodesInModule (code : CodeGraph) (path : String) : List NodeId := code.indices.nodesInModule path

def rebuildIndices (code : CodeGraph) : CodeGraph :=
  { code with indices := .rebuildFromGraph code.graph.nodeWeights }

/-- The nodes of a file. -/
def nodesOfFile (code : CodeGraph) (path : String) : List NodeId :=
  code.allNodeIds.filter fun id =>
    ((code.getNode id).map fun data => decide (data.filePath = path)).getD false

def removeNodes (code : CodeGraph) (ids : List NodeId) : CodeGraph :=
  ids.foldl (fun code id => (code.removeNode id).1) code

def addNodes (policy : SlotPolicy) (code : CodeGraph) (nodes : List NodeData) : CodeGraph :=
  nodes.foldl (addNode policy) code

/-- An edge between unknown nodes is dropped, and so is a rejected one. -/
def addKnownEdge (code : CodeGraph) (edge : NodeId × NodeId × EdgeData) : CodeGraph :=
  if code.containsNode edge.1 && code.containsNode edge.2.1 then
    (code.addEdge edge.1 edge.2.1 edge.2.2).1
  else code

def addKnownEdges (code : CodeGraph) (edges : List (NodeId × NodeId × EdgeData)) : CodeGraph :=
  edges.foldl addKnownEdge code

/-- The nodes of the changed file are replaced by the ones extracted from its new content. -/
def updateFile {ParsedFile : Type} (policy : SlotPolicy) (code : CodeGraph) (path content : String)
    (adapter : LanguageAdapter ParsedFile) : CodeGraph :=
  let cleared := code.removeNodes (code.nodesOfFile path)
  match adapter.parseFile path content with
  | none => cleared
  | some parsed =>
    let nodes := adapter.extractNodes parsed
    (cleared.addNodes policy nodes).addKnownEdges (adapter.extractEdges parsed nodes)

/-- The events that the update of a file reports. -/
def updateFileEvents {ParsedFile : Type} (policy : SlotPolicy) (code : CodeGraph)
    (path content : String) (adapter : LanguageAdapter ParsedFile) : List GraphEvent :=
  let removed := (code.nodesOfFile path).map GraphEvent.nodeRemoved
  let cleared := code.removeNodes (code.nodesOfFile path)
  let added :=
    match adapter.parseFile path content with
    | none => []
    | some parsed =>
      let nodes := adapter.extractNodes parsed
      let stored := cleared.addNodes policy nodes
      nodes.map GraphEvent.nodeAdded ++
        ((adapter.extractEdges parsed nodes).filter fun edge =>
          stored.containsNode edge.1 && stored.containsNode edge.2.1).map
          fun edge => .edgeAdded edge.1 edge.2.1 edge.2.2
  removed ++ added ++ [.fileReindexed path]

end CodeGraph

def overlaySchemaVersion : Nat := 2

/-- An edge names its ends by id. -/
structure OverlayEdge where
  source : NodeId
  target : NodeId
  data : EdgeData

structure OverlaySnapshot where
  schemaVersion : Nat
  workspaceRoot : String
  baseRef : Option String
  nodes : List NodeData
  edges : List OverlayEdge

inductive OverlayError where
  | schemaMismatch (expected found : Nat)
deriving DecidableEq

structure LoadedSnapshot where
  workspaceRoot : String
  baseRef : Option String
  graph : CodeGraph

namespace CodeGraph

/-- The nodes in the order in which the ids are listed. -/
def snapshotNodes (code : CodeGraph) : List NodeData := code.allNodeIds.filterMap code.getNode

/-- Each edge is listed at its source. -/
def snapshotEdges (code : CodeGraph) : List OverlayEdge :=
  code.allNodeIds.flatMap fun id => (code.getEdgesFrom id).map fun edge => ⟨id, edge.1, edge.2⟩

def saveBaseSnapshot (code : CodeGraph) (workspaceRoot : String) (baseRef : Option String) :
    OverlaySnapshot :=
  ⟨overlaySchemaVersion, workspaceRoot, baseRef, code.snapshotNodes, code.snapshotEdges⟩

def saveSnapshotBincode (code : CodeGraph) (workspaceRoot : String) : OverlaySnapshot :=
  ⟨overlaySchemaVersion, workspaceRoot, none, code.snapshotNodes, code.snapshotEdges⟩

/-- The nodes are added first and then the edges, of which the rejected ones are dropped. -/
def replay (policy : SlotPolicy) (nodes : List NodeData) (edges : List OverlayEdge) : CodeGraph :=
  edges.foldl (fun code edge => (code.addEdge edge.source edge.target edge.data).1)
    (new.addNodes policy nodes)

def loadBaseSnapshot (policy : SlotPolicy) (snap : OverlaySnapshot) : Except OverlayError LoadedSnapshot :=
  if snap.schemaVersion ≠ overlaySchemaVersion then
    .error (.schemaMismatch overlaySchemaVersion snap.schemaVersion)
  else .ok ⟨snap.workspaceRoot, snap.baseRef, replay policy snap.nodes snap.edges⟩

def loadSnapshotBincode (policy : SlotPolicy) (snap : OverlaySnapshot) : Except OverlayError LoadedSnapshot :=
  if snap.schemaVersion ≠ overlaySchemaVersion then
    .error (.schemaMismatch overlaySchemaVersion snap.schemaVersion)
  else .ok ⟨snap.workspaceRoot, snap.baseRef, replay policy snap.nodes snap.edges⟩

end CodeGraph

end Codegraph
