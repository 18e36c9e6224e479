import Codegraph.Library.Dict

namespace Codegraph.Sync

open Library

abbrev NodeId := String

/-- A path is relative to the root of the project. -/
abbrev Path := String

abbrev Content := String

abbrev Hash := String

/-- A language is the text of its column. -/
abbrev Language := String

inductive EdgeKind where
  | contains
  | calls
  | imports
  | «exports»
  | «extends»
  | implements
  | references
  | typeOf
  | returns
  | instantiates
  | overrides
  | decorates
  | reads
  | writes
  | aliases
deriving DecidableEq

inductive Json where
  | string (text : String)
  | bool (value : Bool)
  | other (text : String)
deriving DecidableEq

abbrev Metadata := Dict String Json

structure Node where
  id : NodeId
  name : String
  qualifiedName : String
  filePath : Path
  language : Language
  startLine : Nat
  startColumn : Nat
deriving DecidableEq

structure Edge where
  source : NodeId
  target : NodeId
  kind : EdgeKind
  metadata : Option Metadata
  line : Option Nat
  column : Option Nat
deriving DecidableEq

structure UnresolvedReference where
  fromNodeId : NodeId
  referenceName : String
  referenceKind : EdgeKind
  line : Nat
  column : Nat
  filePath : Option Path
  language : Option Language
  metadata : Option Metadata
deriving DecidableEq

structure FileRecord where
  path : Path
  contentHash : Hash
  language : Language
  size : Nat
  modifiedAt : Int
  nodeCount : Nat
  errors : List String
deriving DecidableEq

structure Store where
  nodes : List Node
  edges : List Edge
  unresolvedRefs : List UnresolvedReference
  files : List FileRecord
deriving DecidableEq

namespace Store

def empty : Store := ⟨[], [], [], []⟩

def getFileByPath (store : Store) (path : Path) : Option FileRecord := store.files.find? (·.path = path)

def getNodesByFile (store : Store) (path : Path) : List Node := store.nodes.filter (·.filePath = path)

def getNodeById (store : Store) (id : NodeId) : Option Node := store.nodes.find? (·.id = id)

/-- The rows that name a deleted node are deleted with it. -/
def deleteNodes (store : Store) (doomed : Node → Bool) : Store :=
  let gone := (store.nodes.filter doomed).map Node.id
  { store with
    nodes := store.nodes.filter (!doomed ·)
    edges := store.edges.filter fun edge => edge.source ∉ gone ∧ edge.target ∉ gone
    unresolvedRefs := store.unresolvedRefs.filter fun reference => reference.fromNodeId ∉ gone }

def deleteNodesByFile (store : Store) (path : Path) : Store := store.deleteNodes (·.filePath = path)

def deleteFile (store : Store) (path : Path) : Store :=
  { store.deleteNodesByFile path with files := store.files.filter (·.path ≠ path) }

/-- A node without a qualified name has its name there. -/
def rowOf (node : Node) : Node :=
  { node with qualifiedName := if node.qualifiedName = "" then node.name else node.qualifiedName }

def required (node : Node) : Bool := node.id ≠ "" ∧ node.name ≠ "" ∧ node.filePath ≠ ""

/-- A node replaces the row of its id, and what names that row goes with it. -/
def insertNode (store : Store) (node : Node) : Store :=
  if required node then
    let rest := store.deleteNodes (·.id = node.id)
    { rest with nodes := rest.nodes ++ [rowOf node] }
  else store

def insertNodes (store : Store) (nodes : List Node) : Store := nodes.foldl insertNode store

/-- The columns of the unique index. -/
def identity (edge : Edge) : NodeId × NodeId × EdgeKind × Option Nat × Option Nat :=
  (edge.source, edge.target, edge.kind, edge.line, edge.column)

/-- An edge that has a row already is ignored. -/
def insertEdge (store : Store) (edge : Edge) : Store :=
  if store.edges.any (identity · = identity edge) then store
  else { store with edges := store.edges ++ [edge] }

/-- An edge without its two nodes is skipped. -/
def insertEdges (store : Store) (edges : List Edge) : Store :=
  (edges.filter fun edge =>
    edge.source ∈ store.nodes.map Node.id ∧ edge.target ∈ store.nodes.map Node.id).foldl
      insertEdge store

def insertUnresolvedRefsBatch (store : Store) (references : List UnresolvedReference) : Store :=
  { store with unresolvedRefs := store.unresolvedRefs ++ references }

/-- The record of a path is updated in place. -/
def upsertFile (store : Store) (record : FileRecord) : Store :=
  if store.files.any (·.path = record.path) then
    { store with files := store.files.map fun other =>
        if other.path = record.path then record else other }
  else { store with files := store.files ++ [record] }

/-- Every row that has the columns of the reference is deleted. -/
def deleteSpecificResolvedReference (store : Store) (reference : UnresolvedReference) : Store :=
  { store with
    unresolvedRefs := store.unresolvedRefs.filter fun other => ¬(
      other.fromNodeId = reference.fromNodeId ∧ other.referenceName = reference.referenceName ∧
        other.referenceKind = reference.referenceKind ∧ other.line = reference.line ∧
        other.column = reference.column) }

end Store

/-- Containment is not written as a reference. -/
def referenceKindForRemovedTarget : EdgeKind → Option EdgeKind
  | .contains => none
  | .instantiates => some .calls
  | other => some other

/-- The text of a metadata field that is not empty. -/
def writtenName (metadata : Option Metadata) : Option String :=
  match metadata.bind (·.get "referenceName") with
  | some (.string name) => if name = "" then none else some name
  | _ => none

def isCompilerOnly (metadata : Option Metadata) : Bool :=
  match metadata.bind (·.get "compilerOnly") with
  | some (.bool value) => value
  | _ => false

/-- A reference is restored as it was written, or under the name of its target. -/
def restoredReferenceName (edge : Edge) (target : Node) : String :=
  (writtenName edge.metadata).getD target.name

/-- What the resolver and the compiler add to the metadata is left out. -/
def referenceMetadata (edge : Edge) : Option Metadata :=
  match edge.metadata with
  | none => none
  | some metadata =>
    let rest := (((((metadata.remove "confidence").remove "resolvedBy").remove
      "referenceName").remove "compiler").remove "treeSitterTarget").remove "treeSitterResolvedBy"
    if rest.keys = [] then none else some rest

/-- Two edges with one key are restored as one reference. -/
abbrev RestoreKey := NodeId × String × EdgeKind × Nat × Nat

namespace Store

/-- The reference behind an edge from another file into a removed node. -/
def restored (store : Store) (path : Path) (edge : Edge) : Option (RestoreKey × UnresolvedReference) :=
  match referenceKindForRemovedTarget edge.kind with
  | none => none
  | some kind =>
    if isCompilerOnly edge.metadata then none
    else
      match store.getNodeById edge.source with
      | none => none
      | some source =>
        if source.filePath = path then none
        else
          match (store.getNodesByFile path).find? (·.id = edge.target) with
          | none => none
          | some target =>
            let line := edge.line.getD source.startLine
            let column := edge.column.getD source.startColumn
            some ((source.id, target.name, kind, line, column),
              ⟨source.id, restoredReferenceName edge target, kind, line, column,
                some source.filePath, some source.language, referenceMetadata edge⟩)

/-- The first reference of each key is kept. -/
def firstOfKeys (seen : List RestoreKey) : List (RestoreKey × UnresolvedReference) → List UnresolvedReference
  | [] => []
  | (key, reference) :: rest =>
    if key ∈ seen then firstOfKeys seen rest else reference :: firstOfKeys (key :: seen) rest

def getIncomingEdgesForTargets (store : Store) (ids : List NodeId) : List Edge :=
  store.edges.filter (·.target ∈ ids)

def restoredRefs (store : Store) (path : Path) : List UnresolvedReference :=
  firstOfKeys [] ((store.getIncomingEdgesForTargets
    ((store.getNodesByFile path).map Node.id)).filterMap (store.restored path))

/-- The references into a file outlive its nodes. -/
def restoreUnresolvedRefsForRemovedTargets (path : Path) (store : Store) : Store :=
  store.insertUnresolvedRefsBatch (store.restoredRefs path)

end Store

end Codegraph.Sync
