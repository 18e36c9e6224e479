import Codegraph.Csr.Multigraph

namespace Codegraph

open Library List

inductive TraversalDirection where
  | outgoing
  | incoming
  | both
deriving DecidableEq

structure TraversalConfig where
  maxDepth : Nat := 3
  maxNodes : Nat := 100
  direction : TraversalDirection := .outgoing
  parallel : Bool := false

structure TraversalResult where
  nodes : List NodeId
  edges : List (NodeId × NodeId)
  depthReached : Nat
  wasTruncated : Bool
  cyclesDetectedAt : List NodeId
deriving DecidableEq

def TraversalResult.empty : TraversalResult := ⟨[], [], 0, false, []⟩

def parallelThreshold : Nat := 64

/-- The collected nodes and the layers of the walk. -/
structure TraversalState where
  resultNodes : List NodeId
  resultEdges : List (NodeId × NodeId)
  cyclesDetectedAt : List NodeId
  visited : ListSet Nat
  wasTruncated : Bool
  maxDepthReached : Nat
  current : List Nat
  next : List Nat

namespace TraversalState

def start (id : NodeId) (v : Nat) : TraversalState where
  resultNodes := [id]
  resultEdges := []
  cyclesDetectedAt := []
  visited := ListSet.empty.insert v
  wasTruncated := false
  maxDepthReached := 0
  current := [v]
  next := []

/-- A new vertex is collected unless the number of nodes is used up. -/
def collect (idOf : Nat → Option NodeId) (maxNodes : Nat) (state : TraversalState) (nbr : Nat) :
    TraversalState :=
  if maxNodes ≤ state.resultNodes.length then { state with wasTruncated := true }
  else
    { state with
      visited := state.visited.insert nbr
      resultNodes := state.resultNodes ++ (idOf nbr).toList
      next := state.next ++ [nbr] }

/-- The edge is recorded before its end is looked at. After a truncation the loops are left. -/
def follow (idOf : Nat → Option NodeId) (maxNodes : Nat) (state : TraversalState)
    (edge : Nat × Nat) : TraversalState :=
  if state.wasTruncated then state
  else
    match idOf edge.1, idOf edge.2 with
    | some curId, some nbrId =>
      let recorded := { state with resultEdges := state.resultEdges ++ [(curId, nbrId)] }
      if edge.2 ∈ state.visited.members then
        { recorded with cyclesDetectedAt := state.cyclesDetectedAt ++ [nbrId] }
      else recorded.collect idOf maxNodes edge.2
    | _, _ => state.collect idOf maxNodes edge.2

/-- The next layer becomes the current one. -/
def advance (depth : Nat) (state : TraversalState) : TraversalState :=
  if state.wasTruncated then state
  else
    { state with
      current := state.next
      next := []
      maxDepthReached := if state.next = [] then state.maxDepthReached else depth + 1 }

/-- The layers from a depth on, until one is empty or the walk was truncated. -/
def layers (expand : List Nat → List (Nat × Nat)) (idOf : Nat → Option NodeId) (maxNodes : Nat) :
    Nat → Nat → TraversalState → TraversalState
  | 0, _, state => state
  | remaining + 1, depth, state =>
    if state.current = [] || state.wasTruncated then state
    else
      let entered := { state with maxDepthReached := depth }
      let expanded := (expand state.current).foldl (follow idOf maxNodes) entered
      layers expand idOf maxNodes remaining (depth + 1) (expanded.advance depth)

def result (state : TraversalState) : TraversalResult :=
  ⟨state.resultNodes, state.resultEdges, state.maxDepthReached, state.wasTruncated, state.cyclesDetectedAt⟩

end TraversalState

/-- The edges from the vertices of a layer, vertex by vertex. -/
def expandSerial (neighbors : Nat → List Nat) (current : List Nat) : List (Nat × Nat) :=
  current.flatMap fun v => (neighbors v).map fun nbr => (v, nbr)

/-- The slots at the other ends of the edges of a node. -/
def petgraphNeighbors (code : CodeGraph) (direction : TraversalDirection) (slot : Nat) : List Nat :=
  match direction with
  | .outgoing => code.graph.successors slot
  | .incoming => code.graph.predecessors slot
  | .both => code.graph.successors slot ++ code.graph.predecessors slot

def traversePetgraph (code : CodeGraph) (start : NodeId) (config : TraversalConfig) : TraversalResult :=
  match code.resolve start with
  | none => .empty
  | some startIdx =>
    (TraversalState.layers (expandSerial (petgraphNeighbors code config.direction))
      code.nodeIdFor config.maxNodes config.maxDepth 0 (.start start startIdx)).result

def csrNeighbors (snapshot : CsrSnapshot) (direction : TraversalDirection) (v : Nat) : List Nat :=
  match direction with
  | .outgoing => snapshot.outNeighbours v
  | .incoming => snapshot.inNeighbours v
  | .both => snapshot.outNeighbours v ++ snapshot.inNeighbours v

/-- A layer is cut into consecutive chunks, one for each task. -/
structure Chunking where
  chunks : List Nat → List (List Nat)
  whole : ∀ layer, (chunks layer).flatten = layer

/-- The tasks list their edges in the order of the chunks. -/
def expandParallel (chunking : Chunking) (neighbors : Nat → List Nat) (current : List Nat) :
    List (Nat × Nat) :=
  ((chunking.chunks current).map (expandSerial neighbors)).flatten

/-- A layer is expanded by tasks when it is large enough and the caller asks for it. -/
def expandCsr (chunking : Chunking) (snapshot : CsrSnapshot) (config : TraversalConfig)
    (current : List Nat) : List (Nat × Nat) :=
  if config.parallel && parallelThreshold ≤ current.length then
    expandParallel chunking (csrNeighbors snapshot config.direction) current
  else expandSerial (csrNeighbors snapshot config.direction) current

def traverseCsr (chunking : Chunking) (snapshot : CsrSnapshot) (start : NodeId)
    (config : TraversalConfig) : TraversalResult :=
  match snapshot.vertexOf start with
  | none => .empty
  | some startV =>
    (TraversalState.layers (expandCsr chunking snapshot config) snapshot.idOf config.maxNodes
      config.maxDepth 0 (.start start startV)).result

/-- With so many workers every chunk but the last holds at least 64 vertices. -/
def chunkSize (available count : Nat) : Nat := max 64 (count / max (min (max count 1) available) 1)

/-- The consecutive parts of a size, of which only the last may be smaller. -/
def chunksOf (size : Nat) : Nat → List Nat → List (List Nat)
  | 0, _ | _, [] => []
  | fuel + 1, layer => layer.take size :: chunksOf size fuel (layer.drop size)

theorem chunksOf_flatten {size : Nat} (positive : 0 < size) (fuel : Nat) (layer : List Nat)
    (enough : layer.length ≤ fuel) : (chunksOf size fuel layer).flatten = layer := by
  induction fuel generalizing layer with
  | zero =>
    rw [length_eq_zero_iff.mp (Nat.le_zero.mp enough)]
    rfl
  | succ fuel ih =>
    cases layer with
    | nil => rfl
    | cons first rest =>
      rw [chunksOf, flatten_cons, ih _ (by
        rw [length_drop]
        rw [length_cons] at enough ⊢
        omega), take_append_drop]
      simp

/-- The chunks depend on the number of workers that the machine offers. -/
def workerChunking (available : Nat) : Chunking where
  chunks layer := chunksOf (chunkSize available layer.length) layer.length layer
  whole layer :=
    chunksOf_flatten (Nat.lt_of_lt_of_le (by decide : 0 < 64) (Nat.le_max_left _ _)) _ _
      (Nat.le_refl _)

theorem expandParallel_eq (chunking : Chunking) (neighbors : Nat → List Nat) :
    expandParallel chunking neighbors = expandSerial neighbors := by
  funext current
  unfold expandParallel
  conv => right; rw [← chunking.whole current]
  generalize chunking.chunks current = chunks
  induction chunks with
  | nil => rfl
  | cons chunk chunks ih =>
    rw [map_cons, flatten_cons, flatten_cons, ih]
    exact flatMap_append.symm

/-- The tasks list the edges that the serial loop lists. -/
theorem expandCsr_eq (chunking : Chunking) (snapshot : CsrSnapshot) (config : TraversalConfig) :
    expandCsr chunking snapshot config = expandSerial (csrNeighbors snapshot config.direction) := by
  funext current
  unfold expandCsr
  split
  · rw [expandParallel_eq]
  · rfl

end Codegraph
