import Codegraph.Library.Buckets
import Codegraph.Library.Text

namespace Codegraph

open Library

/-- The hash that names a node of the graph. -/
structure NodeId where
  hash : BitVec 64
deriving DecidableEq

/-- The hash orders the ids. -/
def NodeId.le (first second : NodeId) : Bool := first.hash.toNat ≤ second.hash.toNat

inductive NodeKind where
  | function
  | struct
  | enum
  | module
  | trait
  | enumVariant
  | field
  | typeAlias
  | constant
  | interface
deriving DecidableEq

inductive Visibility where
  | pub
  | crate
  | super
  | priv
deriving DecidableEq

/-- The location of an item in its file. -/
structure SourceSpan where
  file : String := ""
  startLine : Nat := 0
  startCol : Nat := 0
  endLine : Nat := 0
  endCol : Nat := 0
  byteRange : Nat × Nat := (0, 0)
deriving DecidableEq

structure NodeData where
  id : NodeId
  kind : NodeKind
  name : String
  qualifiedName : String := ""
  filePath : String := ""
  span : SourceSpan := {}
  visibility : Visibility := .priv
  metadata : Dict String String := ∅
  birthRevision : Nat := 0
  lastModifiedRevision : Nat := 0

/-- The revisions at which the node appeared and was last modified. -/
def NodeData.stamp (data : NodeData) (birth modified : Nat) : NodeData :=
  { data with birthRevision := birth, lastModifiedRevision := modified }

/-- The revision stamps say when a node changed and nothing else about it. -/
def NodeData.unstamped (data : NodeData) : NodeData := data.stamp 0 0

inductive EdgeKind where
  | calls
  | unresolvedCall (name : String)
  | usesType
  | references
  | contains
  | implements
  | externalCall (crate path : String)
  | extends
  | returns
  | typeOf
deriving DecidableEq

namespace EdgeKind

/-- The node kinds that an edge of the kind may start at. -/
def validSource : EdgeKind → NodeKind → Bool
  | .calls, source | .unresolvedCall _, source | .usesType, source | .externalCall _ _, source
  | .returns, source => source = .function
  | .contains, source => source ∈ [.module, .struct, .enum, .trait, .interface]
  | .implements, source => source ∈ [.struct, .enum]
  | .references, _ | .extends, _ | .typeOf, _ => true

/-- The node kinds between which an edge of the kind is allowed. -/
def validFor : EdgeKind → NodeKind → NodeKind → Bool
  | .calls, source, target => source = .function && target = .function
  | .unresolvedCall _, source, _ => source = .function
  | .usesType, source, target =>
    source = .function && target ∈ [.struct, .enum, .trait, .interface, .typeAlias]
  | .references, _, _ => true
  | .contains, source, _ => source ∈ [.module, .struct, .enum, .trait, .interface]
  | .implements, source, target => source ∈ [.struct, .enum] && target ∈ [.trait, .interface]
  | .externalCall _ _, source, _ => source = .function
  | .extends, _, _ => true
  | .returns, source, _ => source = .function
  | .typeOf, _, _ => true

end EdgeKind

/-- The bits of a single-precision float. -/
abbrev Weight := BitVec 32

/-- A float is finite when its exponent bits are not all ones. -/
def isFinite (weight : Weight) : Bool := weight.extractLsb' 23 8 ≠ 0xFF#8

structure EdgeData where
  kind : EdgeKind
  sourceSpan : SourceSpan := {}
  weight : Weight
deriving DecidableEq

/-- The text before the last `::` of a text that has one. -/
def beforeLastSeparator : List Char → Option (List Char)
  | [] => none
  | c :: rest =>
    match beforeLastSeparator rest with
    | some head => some (c :: head)
    | none => if c = ':' ∧ rest.head? = some ':' then some [] else none

/-- A top-level item has the empty module path. -/
def modulePathOf (qualifiedName : String) : String :=
  match beforeLastSeparator qualifiedName.toList with
  | some path => String.ofList path
  | none => ""

structure Indices where
  byKindName : Buckets (NodeKind × String) NodeId := ∅
  byMetadataKey : Buckets String NodeId := ∅
  byModulePath : Buckets String NodeId := ∅

namespace Indices

def insertNode (indices : Indices) (data : NodeData) : Indices where
  byKindName := indices.byKindName.push (data.kind, data.name) data.id
  byMetadataKey := Buckets.addAll indices.byMetadataKey data.metadata.keys data.id
  byModulePath := Buckets.add indices.byModulePath (modulePathOf data.qualifiedName) data.id

def removeNode (indices : Indices) (data : NodeData) : Indices where
  byKindName := Buckets.drop indices.byKindName (data.kind, data.name) data.id
  byMetadataKey := Buckets.dropAll indices.byMetadataKey data.metadata.keys data.id
  byModulePath := Buckets.drop indices.byModulePath (modulePathOf data.qualifiedName) data.id

def rebuildFromGraph (nodes : List NodeData) : Indices := nodes.foldl insertNode {}

/-- The set of a bucket is listed in the order of the ids. -/
def bucketIds (bucket : List NodeId) : List NodeId := bucket.mergeSort NodeId.le

/-- The modules whose path lies in a half-open range, in the order of their paths. -/
def moduleRange (indices : Indices) (lower upper : String) : List (Sigma fun _ : String => List NodeId) :=
  (indices.byModulePath.entries.filter fun entry => lower ≤ entry.1 && entry.1 < upper).mergeSort
    fun first second => first.1 ≤ second.1

/-- The upper end of the range bumps the last character of the lower end. -/
def nodesInModule (indices : Indices) (path : String) : List NodeId :=
  bucketIds (indices.byModulePath.getD path []) ++
    (indices.moduleRange (path ++ "::") (path ++ ":;")).flatMap fun entry => bucketIds entry.2

end Indices

/-- A change of the graph. -/
inductive GraphEvent where
  | nodeAdded (data : NodeData)
  | nodeRemoved (id : NodeId)
  | edgeAdded (source target : NodeId) (data : EdgeData)
  | edgeRemoved (source target : NodeId) (kind : EdgeKind)
  | fileReindexed (path : String)

/-- How a call expression is written. -/
inductive CallSiteKind where
  | bare
  | qualified
  | methodCall
deriving DecidableEq

/-- A call expression whose target is still to be found. -/
structure CallSite where
  callerId : NodeId
  filePath : String
  name : String
  pathSegments : List String := []
  line : Nat := 0
  byteOffset : Nat := 0
  kind : CallSiteKind := .bare
deriving DecidableEq

/-- An adapter parses a file and extracts the nodes, the edges and the call sites of the parsed
file. -/
structure LanguageAdapter (ParsedFile : Type) where
  parseFile : String → String → Option ParsedFile
  parseFileLenient : String → String → Option ParsedFile
  extractNodes : ParsedFile → List NodeData
  extractEdges : ParsedFile → List NodeData → List (NodeId × NodeId × EdgeData)
  extractCallSites : ParsedFile → List NodeData → List CallSite

end Codegraph
