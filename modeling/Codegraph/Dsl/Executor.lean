import Codegraph.Dsl.PathSearch
import Codegraph.LabelReachability.Targets
import Codegraph.Traversal.Agreement

namespace Codegraph.Dsl

open Library List

/-- The order in which a hash set lists its members, the case folding of texts, the chunks of a
parallel walk and the dominators that petgraph computes from a root. -/
structure Runtime where
  iterate : Finset NodeId → List NodeId
  distinct : ∀ set, (iterate set).Nodup
  listed : ∀ set id, id ∈ iterate set ↔ id ∈ set
  toLowercase : String → String
  chunking : Chunking
  immediatelyDominatedBy : StableGraph NodeData EdgeData → Nat → Nat → List Nat
  immediateDominator : StableGraph NodeData EdgeData → Nat → Nat → Option Nat

/-- The members in the order of their hashes. -/
def sortedMembers (set : Finset NodeId) : List NodeId :=
  (Quot.liftOn (set.image NodeId.hash).val (List.insertionSort (· ≤ ·)) fun first second same =>
    (((perm_insertionSort _ first).trans same).trans
      (perm_insertionSort _ second).symm).eq_of_pairwise' (pairwise_insertionSort _ _)
        (pairwise_insertionSort _ _)).map NodeId.mk

theorem sortedMembers_eq (set : Finset NodeId) : (sortedMembers set : Multiset NodeId) = set.val := by
  have named : (sortedMembers set : Multiset NodeId) = (set.image NodeId.hash).val.map NodeId.mk := by
    unfold sortedMembers
    induction (set.image NodeId.hash).val using Quotient.inductionOn with
    | h hashes => exact Quot.sound ((perm_insertionSort _ hashes).map NodeId.mk)
  have distinct : Set.InjOn NodeId.hash set := by
    intro first _ second _ same
    exact congrArg NodeId.mk same
  rw [named, Finset.image_val_of_injOn distinct, Multiset.map_map]
  exact Multiset.map_id set.val

/-- The members come in the order of their hashes, and no node has dominators. -/
def Runtime.sorted : Runtime where
  iterate := sortedMembers
  distinct set := Multiset.coe_nodup.mp (sortedMembers_eq set ▸ set.nodup)
  listed set id := by rw [← Multiset.mem_coe, sortedMembers_eq, Finset.mem_val]
  toLowercase := String.toLower
  chunking := workerChunking 1
  immediatelyDominatedBy _ _ _ := []
  immediateDominator _ _ _ := none

structure QueryConfig where
  maxNodes : Nat := 50

structure QueryResult where
  nodes : List NodeId := []
  wasTruncated : Bool := false
  totalBeforeTruncation : Nat := 0
deriving DecidableEq

/-- Only so many nodes are returned. -/
def QueryResult.capped (maxNodes : Nat) (nodes : List NodeId) : QueryResult :=
  ⟨nodes.take maxNodes, decide (maxNodes < nodes.length), nodes.length⟩

structure QueryEngine where
  code : CodeGraph
  runtime : Runtime

def csrSizeThreshold : Nat := 1024

/-- A large graph is walked over its snapshot. -/
def traverse (engine : QueryEngine) (start : NodeId) (config : TraversalConfig) : TraversalResult :=
  if csrSizeThreshold ≤ engine.code.graph.nodeCount || config.parallel then
    traverseCsr engine.runtime.chunking (.build engine.code) start config
  else traversePetgraph engine.code start config

def isCall : EdgeKind → Bool
  | .calls | .unresolvedCall _ => true
  | _ => false

/-- The ends of the call edges at a node. -/
def callNeighbors (code : CodeGraph) (incoming : Bool) (id : NodeId) : List NodeId :=
  let edges := if incoming then code.getEdgesTo id else code.getEdgesFrom id
  (edges.filter fun edge => isCall edge.2.kind).map Prod.fst

/-- The nodes that wait and the visited ones, which are the reached ones. -/
structure ReachState where
  visited : Finset NodeId
  queue : List NodeId

/-- The loop is left when as many nodes are reached as are allowed. -/
def reachStep (neighbors : NodeId → List NodeId) (maxNodes : Nat) (state : ReachState) : Option ReachState :=
  match state.queue with
  | [] => none
  | current :: queue =>
    if current ∈ state.visited then some ⟨state.visited, queue⟩
    else if maxNodes ≤ (insert current state.visited).card then some ⟨insert current state.visited, []⟩
    else
      some ⟨insert current state.visited,
        queue ++ (neighbors current).filter fun other => other ∉ insert current state.visited⟩

namespace QueryEngine

variable (engine : QueryEngine) (config : QueryConfig)

/-- The name contains the text when letter case is ignored. -/
def findByName (name : String) : List NodeData :=
  let lower := engine.runtime.toLowercase name
  engine.code.graph.nodeWeights.filter fun data =>
    decide (lower.toList <:+: (engine.runtime.toLowercase data.name).toList)

def applySelectFn (name : String) : Finset NodeId :=
  (((engine.findByName name).filter fun data => data.kind = .function).map NodeData.id).toFinset

def applySelectType (name : String) : Finset NodeId :=
  (((engine.findByName name).filter fun data =>
    data.kind ∈ [.struct, .enum, .trait]).map NodeData.id).toFinset

def applyCallers (set : Finset NodeId) : Finset NodeId :=
  set.biUnion fun id => (callNeighbors engine.code true id).toFinset

def applyCallees (set : Finset NodeId) : Finset NodeId :=
  set.biUnion fun id => (callNeighbors engine.code false id).toFinset

/-- Each node is expanded by itself along the outgoing edges. -/
def applyDepth (depth : Nat) (set : Finset NodeId) : Finset NodeId :=
  set.biUnion fun id =>
    (traverse engine id
      { maxDepth := depth, maxNodes := config.maxNodes, direction := .outgoing }).nodes.toFinset

/-- A filter keeps the stored nodes that pass it. -/
def retain (passes : NodeData → Bool) (set : Finset NodeId) : Finset NodeId :=
  set.filter fun id => ((engine.code.getNode id).map passes).getD false

def applyFilter (kind : NodeKind) (set : Finset NodeId) : Finset NodeId :=
  engine.retain (fun data => data.kind = kind) set

def applySince (revision : Nat) (set : Finset NodeId) : Finset NodeId :=
  engine.retain (fun data => revision ≤ data.lastModifiedRevision) set

/-- The fuel pays for the edges of every node. -/
def applyCallReachability (incoming : Bool) (set : Finset NodeId) : Finset NodeId :=
  (loop (reachStep (callNeighbors engine.code incoming) config.maxNodes)
    (worklistMeasure engine.code.graph.links.length (engine.code.allNodeIds.length + set.card)
      set.card) ⟨∅, engine.runtime.iterate set⟩).visited

def applyPreconditions (set : Finset NodeId) : Finset NodeId :=
  engine.applyCallReachability config true set

def applyTaint (set : Finset NodeId) : Finset NodeId := engine.applyCallReachability config false set

def applyReachableVia (pattern : List PatternAtom) (direction : ClosureDirection)
    (set : Finset NodeId) : Finset NodeId :=
  set.biUnion fun seed => (reachableTargets engine.code seed pattern direction).toFinset

def applyPipeOp (set : Finset NodeId) : DslOp → Finset NodeId
  | .selectFn name => engine.applySelectFn name
  | .selectType name => engine.applySelectType name
  | .callers => engine.applyCallers set
  | .callees => engine.applyCallees set
  | .depth limit => engine.applyDepth config limit.val set
  | .filter kind => engine.applyFilter kind set
  | .show _ => set
  | .taint _ => engine.applyTaint config set
  | .preconditions => engine.applyPreconditions config set
  | .since revision => engine.applySince revision set
  | .reachableVia pattern direction => engine.applyReachableVia pattern direction set

/-- The working set after some operators. -/
def pipe (ops : List DslOp) (set : Finset NodeId) : Finset NodeId :=
  ops.foldl (engine.applyPipeOp config) set

def finish (set : Finset NodeId) : QueryResult := .capped config.maxNodes (engine.runtime.iterate set)

def execute (ops : List DslOp) : QueryResult := engine.finish config (engine.pipe config ops ∅)

def executePipeFrom (seed : List NodeId) (ops : List DslOp) : QueryResult :=
  engine.finish config (engine.pipe config ops seed.toFinset)

def combineSetOp (op : SetOp) (left right : QueryResult) : QueryResult :=
  let leftNodes := left.nodes.toFinset
  let rightNodes := right.nodes.toFinset
  engine.finish config
    (match op with
    | .union => leftNodes ∪ rightNodes
    | .intersect => leftNodes ∩ rightNodes
    | .diff => leftNodes \ rightNodes)

end QueryEngine

/-- The names of unresolved and external calls are not compared. -/
def edgeKindMatches : EdgeKind → EdgeKind → Bool
  | .unresolvedCall _, .unresolvedCall _ | .externalCall _ _, .externalCall _ _ => true
  | actual, expected => actual = expected

/-- The inner nodes have the kind and one of the steps may follow the edge. -/
def pathMatchesFilters (code : CodeGraph) (options : PathOptions) (path : List NodeId) : Bool :=
  (match options.intermediateKind with
    | none => true
    | some kind => path.tail.dropLast.all fun id =>
      ((code.getNode id).map fun data => decide (data.kind = kind)).getD false) &&
  (match options.viaEdge with
    | none => true
    | some required => (path.zip path.tail).any fun step =>
      (code.getEdgesFrom step.1).any fun edge =>
        edge.1 = step.2 && edgeKindMatches edge.2.kind required)

/-- The loop is left when as many nodes are collected as are allowed. -/
def gatherUntil {Item : Type} (maxNodes : Nat) (visit : Item → Finset NodeId → Finset NodeId) :
    List Item → Finset NodeId → Finset NodeId
  | [], nodes => nodes
  | item :: items, nodes =>
    if maxNodes ≤ (visit item nodes).card then visit item nodes
    else gatherUntil maxNodes visit items (visit item nodes)

def addPath (path : List NodeId) (nodes : Finset NodeId) : Finset NodeId := nodes ∪ path.toFinset

/-- A path has at most so many steps unless the query says otherwise. -/
def defaultMaxDepth : Nat := 32

def candidatePaths (code : CodeGraph) (options : PathOptions) (maxNodes : Nat)
    (source target : NodeId) : List (List NodeId) :=
  let maxDepth := options.maxDepth.getD defaultMaxDepth
  match options.mode with
  | .shortest => (findPath code source target maxDepth).toList
  | .allSimple => allSimplePathsBounded code source target maxDepth maxNodes

namespace QueryEngine

variable (engine : QueryEngine) (config : QueryConfig)

def executePathQuery (options : PathOptions) (sources targets : List NodeId) : QueryResult :=
  let paths source target :=
    (candidatePaths engine.code options config.maxNodes source target).filter
      (pathMatchesFilters engine.code options)
  engine.finish config
    (gatherUntil config.maxNodes (fun source nodes =>
      gatherUntil config.maxNodes (fun target nodes =>
        gatherUntil config.maxNodes addPath (paths source target) nodes) targets nodes) sources ∅)

def executeMultiPath (sources targets : List NodeId) (maxDepth : Option Nat) : QueryResult :=
  let starts := engine.runtime.iterate sources.toFinset
  engine.finish config
    (gatherUntil config.maxNodes addPath
      (targets.filterMap fun target =>
        findPathMultiSource engine.code starts target (maxDepth.getD defaultMaxDepth)) ∅)

end QueryEngine

/-- A flag is set by any value that is not empty, false or zero. -/
def metadataFlag (node : NodeData) (key : String) : Bool :=
  match node.metadata.get key with
  | none => false
  | some value =>
    let trimmed := Text.trim value.toList
    trimmed ≠ [] && trimmed.map Char.toLower ≠ "false".toList && trimmed ≠ ['0']

def classifyFunctionEntrypoint (node : NodeData) : Option EntrypointKind :=
  if metadataFlag node "test" then some .test
  else if metadataFlag node "bench" then some .bench
  else if metadataFlag node "no_mangle" || metadataFlag node "extern" then some .ffiExport
  else if node.name = "main" then some .main
  else if node.visibility = .pub then some .publicApi
  else none

/-- The functions that are entry points with their kinds, ordered by their ids. -/
def classifyEntrypoints (code : CodeGraph) : List (NodeId × EntrypointKind) :=
  (code.graph.nodeWeights.filterMap fun node =>
    if node.kind = .function then (classifyFunctionEntrypoint node).map fun kind => (node.id, kind)
    else none).mergeSort fun first second => first.1.le second.1

/-- The types that implement each trait. A trait that nothing implements has an entry as well. -/
def traitHierarchies (code : CodeGraph) : Dict NodeId (Finset NodeId) :=
  let traits := (code.graph.nodeWeights.filter fun node => node.kind = .trait).foldl
    (fun (hierarchies : Dict NodeId (Finset NodeId)) node => hierarchies.set node.id ∅) ∅
  code.graph.links.foldl (fun hierarchies link =>
    if link.weight.kind = .implements then
      match code.nodeIdFor link.source, code.nodeIdFor link.target with
      | some source, some target =>
        hierarchies.set target (insert source ((hierarchies.get target).getD ∅))
      | _, _ => hierarchies
    else hierarchies) traits

/-- The immediate dominators that are known and the slots whose subtrees are not visited yet. -/
structure DominatorState where
  idom : Dict Nat Nat
  frontier : List Nat

/-- The slot that was added last is visited first. -/
def dominatorStep (engine : QueryEngine) (root : Nat) (state : DominatorState) : Option DominatorState :=
  match state.frontier.reverse with
  | [] => none
  | slot :: rest =>
    let graph := engine.code.graph
    some {
      idom :=
        match engine.runtime.immediateDominator graph root slot with
        | some parent => state.idom.set slot parent
        | none => state.idom
      frontier := rest.reverse ++ engine.runtime.immediatelyDominatedBy graph root slot }

/-- The immediate dominator of each slot below the root. -/
def buildDominators (engine : QueryEngine) (root : Nat) : Dict Nat Nat :=
  (loop (dominatorStep engine root) engine.code.graph.nodeCount
    ⟨∅, engine.runtime.immediatelyDominatedBy engine.code.graph root root⟩).idom

/-- The dominators above a slot, up to the root. -/
def dominatorsChain (idom : Dict Nat Nat) (root : Nat) : Nat → Nat → List Nat
  | 0, _ => []
  | fuel + 1, slot =>
    match idom.get slot with
    | none => []
    | some parent => parent :: if parent = root then [] else dominatorsChain idom root fuel parent

namespace QueryEngine

variable (engine : QueryEngine) (config : QueryConfig)

def executeEntrypoints (kindFilter : Option EntrypointKind) : QueryResult :=
  .capped config.maxNodes (((classifyEntrypoints engine.code).filter fun summary =>
    match kindFilter with
    | none => true
    | some want => summary.2 = want).map Prod.fst)

def executeTraitImplsOf (seeds : List NodeId) : QueryResult :=
  let hierarchies := traitHierarchies engine.code
  engine.finish config ((hierarchies.keys.toFinset.filter fun id => id ∈ seeds).biUnion fun id =>
    (hierarchies.get id).getD ∅)

/-- The function `main`, or the function with the most incoming edges and then the smallest id. -/
def pickDominatorRoot : Option Nat :=
  let main := (engine.findByName "main").findSome? fun node =>
    if node.kind = .function ∧ node.name = "main" then engine.code.resolve node.id else none
  match main with
  | some slot => some slot
  | none =>
    let functions := engine.code.graph.nodeWeights.filter fun node => node.kind = .function
    (functions.foldl (fun (best : Option (Nat × NodeId × Nat)) node =>
      match engine.code.resolve node.id with
      | none => best
      | some slot =>
        let fanIn := (engine.code.getEdgesTo node.id).length
        match best with
        | none => some (fanIn, node.id, slot)
        | some (bestFanIn, bestId, bestSlot) =>
          if bestFanIn < fanIn ∨ fanIn = bestFanIn ∧ node.id.hash < bestId.hash then
            some (fanIn, node.id, slot)
          else some (bestFanIn, bestId, bestSlot)) none).map fun best => best.2.2

def executeDominatorsOf (seeds : List NodeId) : QueryResult :=
  match engine.pickDominatorRoot with
  | none => {}
  | some root =>
    let idom := buildDominators engine root
    let ancestors := (seeds.filterMap engine.code.resolve).flatMap
      (dominatorsChain idom root idom.keys.length)
    engine.finish config (ancestors.filterMap engine.code.nodeIdFor).toFinset

/-- The nodes that a seed dominates. -/
def executeDominatesOf (seeds : List NodeId) : QueryResult :=
  match engine.pickDominatorRoot with
  | none => {}
  | some root =>
    let idom := buildDominators engine root
    let seedSlots := seeds.filterMap engine.code.resolve
    if seedSlots = [] then {}
    else
      engine.finish config ((engine.code.graph.slots.filter fun slot =>
        (dominatorsChain idom root idom.keys.length slot).any (· ∈ seedSlots)).filterMap
          engine.code.nodeIdFor).toFinset

mutual

def executeExpr : Expr → QueryResult
  | .pipe ops => engine.execute config ops
  | .entrypoints kindFilter => engine.executeEntrypoints config kindFilter
  | .pathQuery options source target =>
    engine.executePathQuery config options (executeExpr source).nodes (executeExpr target).nodes
  | .setOp op left right => engine.combineSetOp config op (executeExpr left) (executeExpr right)
  | .dominatorsOf inner => engine.executeDominatorsOf config (executeExpr inner).nodes
  | .dominatesOf inner => engine.executeDominatesOf config (executeExpr inner).nodes
  | .traitImplsOf inner => engine.executeTraitImplsOf config (executeExpr inner).nodes
  | .pipeFrom base ops => engine.executePipeFrom config (executeExpr base).nodes ops
  | .multiPath sources target maxDepth =>
    engine.executeMultiPath config (executeSources sources) (executeExpr target).nodes maxDepth

def executeSources : List Expr → List NodeId
  | [] => []
  | source :: sources => (executeExpr source).nodes ++ executeSources sources

end

end QueryEngine

section

variable {engine : QueryEngine} {config : QueryConfig}

/-- The neighbours are the ends of the call edges in the direction. -/
theorem mem_callNeighbors {code : CodeGraph} (consistent : CodeGraph.Consistent code)
    (incoming : Bool) (source target : NodeId) :
    target ∈ callNeighbors code incoming source ↔ ∃ kind, isCall kind ∧
      code.Labelled (if incoming then .incoming else .outgoing) source kind target := by
  have along : callNeighbors code incoming source =
      ((edgesAlong code (if incoming then .incoming else .outgoing) source).filter
        fun edge => isCall edge.2.kind).map Prod.fst := by
    cases incoming <;> rfl
  rw [along, mem_map]
  constructor
  · intro ⟨edge, mem, same⟩
    obtain ⟨listed, call⟩ := mem_filter.mp mem
    exact ⟨edge.2.kind, call, (mem_edgesAlong consistent source target _).mp ⟨edge, listed, same, rfl⟩⟩
  intro ⟨kind, call, labelled⟩
  obtain ⟨edge, listed, same, equal⟩ := (mem_edgesAlong consistent source target kind).mpr labelled
  exact ⟨edge, mem_filter.mpr ⟨listed, by rw [equal]; exact call⟩, same⟩

section

variable (consistent : CodeGraph.Consistent engine.code)
include consistent

theorem traverse_collected (start : NodeId)
    (config : TraversalConfig) (stored : (engine.code.getNode start).isSome) :
    Collected engine.code start config (traverse engine start config) := by
  unfold traverse
  split
  · exact traverseCsr_collected engine.runtime.chunking consistent start config stored
  · exact traversePetgraph_collected consistent start config stored

theorem traverse_absent (start : NodeId)
    (config : TraversalConfig) (absent : ¬ (engine.code.getNode start).isSome) :
    (traverse engine start config).nodes = [] := by
  unfold traverse
  split
  · have unknown : (CsrSnapshot.build engine.code).vertexOf start = none := by
      rwa [← Option.not_isSome_iff_eq_none,
        (CsrSnapshot.build_represents engine.code).vertexOf_isSome consistent]
    rw [traverseCsr, unknown]
    rfl
  have unresolved : engine.code.resolve start = none := by
    cases resolved : engine.code.resolve start with
    | none => rfl
    | some slot =>
      obtain ⟨node, found, _⟩ := (consistent.mapped start slot).mp resolved
      apply absurd _ absent
      rw [CodeGraph.getNode, show engine.code.indexMap.get start = some slot from resolved,
        Option.bind_some, found]
      rfl
  rw [traversePetgraph, unresolved]
  rfl

theorem traverse_near (start id : NodeId)
    (config : TraversalConfig) (mem : id ∈ (traverse engine start config).nodes) :
    id ∈ engine.code.within config.direction start config.maxDepth := by
  by_cases stored : (engine.code.getNode start).isSome
  · exact (traverse_collected consistent start config stored).near id mem
  · rw [traverse_absent consistent start config stored] at mem
    exact absurd mem not_mem_nil

end

theorem mem_retain (passes : NodeData → Bool) (set : Finset NodeId) (id : NodeId) :
    id ∈ engine.retain passes set ↔ id ∈ set ∧ ∃ data, engine.code.getNode id = some data ∧ passes data := by
  rw [QueryEngine.retain, Finset.mem_filter]
  cases engine.code.getNode id <;> simp

/-- The order of the stored nodes does not matter to a selector. -/
theorem applySelectFn_eq (name : String) :
    engine.applySelectFn name = (((engine.code.graph.nodes.entries.map Sigma.snd).filter fun data =>
      decide ((engine.runtime.toLowercase name).toList <:+:
        (engine.runtime.toLowercase data.name).toList) && data.kind = .function).map
          NodeData.id).toFinset := by
  apply toFinset_eq_of_perm
  rw [QueryEngine.findByName, StableGraph.nodeWeights, filter_filter]
  simp only [Bool.and_comm]
  exact (((mergeSort_perm _ _).map _).filter _).map _

end

end Codegraph.Dsl
