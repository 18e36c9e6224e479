import Codegraph.Library.Layers
import Codegraph.Library.ListSet
import Codegraph.Traverser.Store

namespace Codegraph.Traverser

open Library Sync

inductive Direction where
  | outgoing
  | incoming
  | both
deriving DecidableEq

structure TraversalOptions where
  maxDepth : Option Nat
  edgeKinds : Option (List EdgeKind)
  nodeKinds : Option (List NodeKind)
  direction : Option Direction
  limit : Option Nat
  includeStart : Option Bool

def defaultLimit : Nat := 1000

/-- No depth bound stands for an infinite one. -/
structure ResolvedOptions where
  maxDepth : Option Nat
  edgeKinds : List EdgeKind
  nodeKinds : List NodeKind
  direction : Direction
  limit : Nat
  includeStart : Bool

namespace ResolvedOptions

def resolve (options : TraversalOptions) : ResolvedOptions where
  maxDepth := options.maxDepth
  edgeKinds := options.edgeKinds.getD []
  nodeKinds := options.nodeKinds.getD []
  direction := options.direction.getD .outgoing
  limit := options.limit.getD defaultLimit
  includeStart := options.includeStart.getD true

def depthReached (options : ResolvedOptions) (depth : Nat) : Bool := options.maxDepth.any (· ≤ depth)

/-- An empty list of node kinds filters nothing. -/
def nodeAdmitted (options : ResolvedOptions) (node : Node) : Bool :=
  options.nodeKinds = [] ∨ node.kind ∈ options.nodeKinds

end ResolvedOptions

structure Subgraph where
  nodes : Dict NodeId Node
  edges : List Edge
  roots : List NodeId

namespace Subgraph

def empty : Subgraph := ⟨∅, [], []⟩

end Subgraph

/-- The opposite endpoint of an edge. -/
def otherEndpoint (edge : Edge) (nodeId : NodeId) : NodeId :=
  if edge.source = nodeId then edge.target else edge.source

namespace Store

def getAdjacentEdges (store : Store) (nodeId : NodeId) (direction : Direction)
    (edgeKinds : List EdgeKind) : List Edge :=
  let kinds := if edgeKinds = [] then none else some edgeKinds
  match direction with
  | .outgoing => store.getOutgoingEdges nodeId kinds
  | .incoming => store.getIncomingEdges nodeId kinds
  | .both => store.getOutgoingEdges nodeId kinds ++ store.getIncomingEdges nodeId kinds

/-- The neighbours that were not visited are fetched together. -/
def neighborNodes (store : Store) (visited : ListSet NodeId) (nodeId : NodeId)
    (edges : List Edge) : Dict NodeId Node :=
  store.getNodesByIds
    ((edges.map (otherEndpoint · nodeId)).filter (· ∉ visited.members))

/-- The edges that lead away from a node in the direction of the traversal. -/
def adjacent (store : Store) (options : ResolvedOptions) (nodeId : NodeId) : List Edge :=
  store.getAdjacentEdges nodeId options.direction options.edgeKinds

/-- The edge is followed from one end to the other in the direction of the traversal. -/
def Directed (direction : Direction) (edge : Edge) (source target : NodeId) : Prop :=
  (direction ≠ .incoming ∧ edge.source = source ∧ edge.target = target) ∨
    (direction ≠ .outgoing ∧ edge.target = source ∧ edge.source = target)

/-- An edge of an allowed kind leads from a node to a stored node of an allowed kind. -/
def Leads (store : Store) (options : ResolvedOptions) (edge : Edge) (source target : NodeId) : Prop :=
  edge ∈ store.edges ∧ (options.edgeKinds = [] ∨ edge.kind ∈ options.edgeKinds) ∧
    Directed options.direction edge source target ∧ ∃ node, store.getNodeById target = some node ∧
        (options.nodeKinds = [] ∨ node.kind ∈ options.nodeKinds)

/-- Some edge leads from the one node to the other. -/
def Neighbors (store : Store) (options : ResolvedOptions) (source target : NodeId) : Prop :=
  ∃ edge, store.Leads options edge source target

/-- The depth bound allows so many steps. -/
def WithinDepth (options : ResolvedOptions) (count : Nat) : Prop :=
  ∀ bound, options.maxDepth = some bound → count ≤ bound

/-- The node should be returned when no limit stops the traversal. -/
def InReach (store : Store) (options : ResolvedOptions) (startId id : NodeId) : Prop :=
  store.Stored startId ∧ (id = startId → options.includeStart = true) ∧
    ∃ count, WithinDepth options count ∧ Hops (store.Neighbors options) startId count id

/-- Fewer nodes than the limit should be returned. -/
def FewInReach (store : Store) (options : ResolvedOptions) (startId : NodeId) : Prop :=
  ∃ ids : List NodeId, (∀ id, store.InReach options startId id → id ∈ ids) ∧ ids.length < options.limit

/-- The returned edges discover the returned nodes other than the start, one edge for each. -/
def Discovers (store : Store) (options : ResolvedOptions) (startId : NodeId) (graph : Subgraph) : Prop :=
  ∃ ends : List NodeId, ends.Nodup ∧ (∀ id, id ∈ ends ↔ id ∈ graph.nodes.keys ∧ id ≠ startId) ∧
      List.Forall₂ (fun edge id => ∃ parent, (parent = startId ∨ parent ∈ graph.nodes.keys) ∧
        store.Leads options edge parent id) graph.edges ends

/-- The graph is within the limit, its edges discover its nodes, and without the limit's help it
holds the nodes in reach. -/
structure Conforms (store : Store) (options : ResolvedOptions) (startId : NodeId)
    (graph : Subgraph) : Prop where
  limit : graph.nodes.keys.length ≤ options.limit
  discovers : store.Discovers options startId graph
  exact : store.FewInReach options startId → ∀ id, id ∈ graph.nodes.keys ↔ store.InReach options startId id

/-- The traversal has all the nodes that it may return before it starts. -/
def StopsAtStart (options : ResolvedOptions) : Prop :=
  options.limit = if options.includeStart then 1 else 0

variable {store : Store} {options : ResolvedOptions} {startId : NodeId}

theorem get_neighborNodes {visited : ListSet NodeId} {nodeId : NodeId} {edges : List Edge}
    {edge : Edge} (mem : edge ∈ edges) (fresh : otherEndpoint edge nodeId ∉ visited.members) :
    (store.neighborNodes visited nodeId edges).get (otherEndpoint edge nodeId) =
      store.getNodeById (otherEndpoint edge nodeId) := by
  rw [neighborNodes, get_getNodesByIds, if_pos]
  exact List.mem_filter.mpr
    ⟨List.mem_map_of_mem mem (f := (otherEndpoint · nodeId)), by simpa using fresh⟩

theorem mem_adjacent {nodeId : NodeId} {edge : Edge} :
    edge ∈ store.adjacent options nodeId ↔ edge ∈ store.edges ∧
      (options.edgeKinds = [] ∨ edge.kind ∈ options.edgeKinds) ∧
        ((options.direction ≠ .incoming ∧ edge.source = nodeId) ∨
          (options.direction ≠ .outgoing ∧ edge.target = nodeId)) := by
  have kinds : kindAdmitted (if options.edgeKinds = [] then none else some options.edgeKinds)
      edge.kind = true ↔ (options.edgeKinds = [] ∨ edge.kind ∈ options.edgeKinds) := by
    cases options.edgeKinds <;> simp [kindAdmitted]
  unfold adjacent getAdjacentEdges
  cases options.direction <;> simp [kinds] <;> tauto

theorem leads_iff {edge : Edge} {source target : NodeId} :
    store.Leads options edge source target ↔ edge ∈ store.adjacent options source ∧
      otherEndpoint edge source = target ∧
        ∃ node, store.getNodeById target = some node ∧ options.nodeAdmitted node = true := by
  have ends : ((options.direction ≠ .incoming ∧ edge.source = source) ∨
      (options.direction ≠ .outgoing ∧ edge.target = source)) ∧
        otherEndpoint edge source = target ↔ Directed options.direction edge source target := by
    unfold Directed otherEndpoint
    split <;> cases options.direction <;> grind
  unfold Leads ResolvedOptions.nodeAdmitted
  rw [mem_adjacent, ← ends]
  simp only [decide_eq_true_eq, and_assoc]

theorem Neighbors.stored {source target : NodeId}
    (neighbors : store.Neighbors options source target) : store.Stored target := by
  obtain ⟨_, _, _, _, node, found, _⟩ := neighbors
  rw [Stored, found]
  rfl

theorem hops_stored (present : store.Stored startId) {count : Nat} {id : NodeId}
    (hops : Hops (store.Neighbors options) startId count id) : store.Stored id := by
  cases hops with
  | start => exact present
  | step _ last => exact last.stored

theorem withinDepth_zero (options : ResolvedOptions) : WithinDepth options 0 := fun _ _ => Nat.zero_le _

theorem WithinDepth.mono {count other : Nat} (within : WithinDepth options count)
    (smaller : other ≤ count) : WithinDepth options other :=
  fun bound found => le_trans smaller (within bound found)

/-- Below the depth bound one more step is allowed. -/
theorem withinDepth_succ {depth : Nat} (open' : ¬ options.depthReached depth = true) :
    WithinDepth options (depth + 1) := by
  intro bound found
  unfold ResolvedOptions.depthReached at open'
  rw [found, Option.any_some, decide_eq_true_eq] at open'
  omega

theorem not_depthReached {depth : Nat} (within : WithinDepth options (depth + 1)) :
    ¬ options.depthReached depth = true := by
  unfold ResolvedOptions.depthReached
  cases found : options.maxDepth with
  | none => exact Bool.false_ne_true
  | some bound =>
    have deeper := within bound found
    rw [Option.any_some, decide_eq_true_eq]
    omega

theorem StopsAtStart.not_few (stops : StopsAtStart options) (present : store.Stored startId) :
    ¬ store.FewInReach options startId := by
  rintro ⟨ids, covers, few⟩
  unfold StopsAtStart at stops
  split at stops
  · rename_i included
    have listed := covers startId ⟨present, fun _ => included, 0, withinDepth_zero _, .start⟩
    have nonempty := List.length_pos_of_mem listed
    omega
  · omega

end Store

end Codegraph.Traverser
