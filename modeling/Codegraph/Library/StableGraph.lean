import Codegraph.Library.Dict

namespace Codegraph.Library

open List Dict

/-- A new node takes any slot that no stored node has, which may be the slot of a removed one. -/
structure SlotPolicy where
  pick : Nat → List Nat → Nat
  free : ∀ count live, pick count live ∉ live

/-- No slot is used twice. -/
def SlotPolicy.fresh : SlotPolicy where
  pick _ live := live.sum + 1
  free _ live member := by
    have bound := le_sum_of_mem member
    omega

structure Link (Weight : Type) where
  source : Nat
  target : Nat
  weight : Weight
deriving DecidableEq

/-- Both ends of every edge are stored nodes. -/
structure StableGraph (Node Weight : Type) where
  nodes : Dict Nat Node
  links : List (Link Weight)
  added : Nat
  wired : ∀ link ∈ links, (nodes.get link.source).isSome ∧ (nodes.get link.target).isSome

namespace StableGraph

variable {Node Weight : Type}

def empty : StableGraph Node Weight := ⟨∅, [], 0, by simp⟩

def node (graph : StableGraph Node Weight) (slot : Nat) : Option Node := graph.nodes.get slot

/-- The stored nodes in the order of their slots. -/
def nodeWeights (graph : StableGraph Node Weight) : List Node :=
  (graph.nodes.entries.mergeSort fun first second => first.1 ≤ second.1).map Sigma.snd

/-- The edge that was added last comes first. -/
def edgesFrom (graph : StableGraph Node Weight) (slot : Nat) : List (Link Weight) :=
  (graph.links.filter fun link => link.source = slot).reverse

def edgesTo (graph : StableGraph Node Weight) (slot : Nat) : List (Link Weight) :=
  (graph.links.filter fun link => link.target = slot).reverse

/-- The slots of the stored nodes in ascending order. -/
def slots (graph : StableGraph Node Weight) : List Nat :=
  graph.nodes.keys.mergeSort fun first second => first ≤ second

def nodeCount (graph : StableGraph Node Weight) : Nat := graph.nodes.keys.length

/-- The slot of the next node. -/
def nextSlot (policy : SlotPolicy) (graph : StableGraph Node Weight) : Nat :=
  policy.pick graph.added graph.nodes.keys

theorem nextSlot_free (policy : SlotPolicy) (graph : StableGraph Node Weight) :
    graph.node (graph.nextSlot policy) = none := by
  have absent := policy.free graph.added graph.nodes.keys
  cases found : graph.node (graph.nextSlot policy) with
  | none => rfl
  | some node => exact absurd ((mem_keys_iff _ _).mpr ⟨node, found⟩) absent

theorem isSome_set (nodes : Dict Nat Node) (slot other : Nat) (node : Node)
    (stored : (nodes.get other).isSome) : ((nodes.set slot node).get other).isSome := by
  rw [get_set]
  split
  · rfl
  · exact stored

def addNode (policy : SlotPolicy) (graph : StableGraph Node Weight) (node : Node) :
    StableGraph Node Weight where
  nodes := graph.nodes.set (graph.nextSlot policy) node
  links := graph.links
  added := graph.added + 1
  wired link member :=
    ⟨isSome_set _ _ _ _ (graph.wired link member).1, isSome_set _ _ _ _ (graph.wired link member).2⟩

/-- The weight of a stored node is replaced. -/
def setNode (graph : StableGraph Node Weight) (slot : Nat) (node : Node) :
    StableGraph Node Weight where
  nodes := if (graph.node slot).isSome then graph.nodes.set slot node else graph.nodes
  links := graph.links
  added := graph.added
  wired link member := by
    split
    · exact ⟨isSome_set _ _ _ _ (graph.wired link member).1, isSome_set _ _ _ _ (graph.wired link member).2⟩
    · exact graph.wired link member

/-- Parallel edges are kept. An edge needs two stored ends. -/
def addEdge (graph : StableGraph Node Weight) (source target : Nat) (weight : Weight) :
    StableGraph Node Weight :=
  if stored : (graph.node source).isSome ∧ (graph.node target).isSome then
    { graph with
      links := graph.links ++ [⟨source, target, weight⟩]
      wired := by
        intro link member
        rcases mem_append.mp member with old | new
        · exact graph.wired link old
        · rw [mem_singleton.mp new]
          exact stored }
  else graph

/-- Every edge at the removed node goes with it. -/
def removeNode (graph : StableGraph Node Weight) (slot : Nat) : StableGraph Node Weight where
  nodes := graph.nodes.remove slot
  links := graph.links.filter fun link => link.source ≠ slot && link.target ≠ slot
  added := graph.added
  wired link member := by
    obtain ⟨old, apart⟩ := mem_filter.mp member
    simp only [ne_eq, decide_not, Bool.and_eq_true, Bool.not_eq_true', decide_eq_false_iff_not]
      at apart
    rw [Dict.get_remove, Dict.get_remove, if_neg apart.1, if_neg apart.2]
    exact graph.wired link old

def successors (graph : StableGraph Node Weight) (slot : Nat) : List Nat :=
  (graph.edgesFrom slot).map Link.target

def predecessors (graph : StableGraph Node Weight) (slot : Nat) : List Nat :=
  (graph.edgesTo slot).map Link.source

/-- The slots at the other end of an edge of the node. -/
def neighbors (graph : StableGraph Node Weight) (slot : Nat) : List Nat :=
  graph.successors slot ++ graph.predecessors slot

@[simp] theorem node_empty (slot : Nat) : (empty : StableGraph Node Weight).node slot = none := by
  simp [node, empty]

theorem node_addNode (policy : SlotPolicy) (graph : StableGraph Node Weight) (node : Node)
    (slot : Nat) : (graph.addNode policy node).node slot =
      if slot = graph.nextSlot policy then some node else graph.node slot :=
  get_set graph.nodes (graph.nextSlot policy) slot node

variable (graph : StableGraph Node Weight)

theorem node_setNode {slot : Nat} {old : Node} (node : Node)
    (stored : graph.node slot = some old) (other : Nat) :
    (graph.setNode slot node).node other = if other = slot then some node else graph.node other := by
  change Dict.get (if (graph.node slot).isSome then graph.nodes.set slot node else graph.nodes)
    other = _
  rw [if_pos (by rw [stored]; rfl)]
  exact get_set graph.nodes slot other node

@[simp] theorem node_addEdge (source target : Nat) (weight : Weight) (slot : Nat) :
    (graph.addEdge source target weight).node slot = graph.node slot := by
  unfold addEdge
  split <;> rfl

theorem node_removeNode (slot other : Nat) :
    (graph.removeNode slot).node other = if other = slot then none else graph.node other :=
  get_remove graph.nodes slot other

theorem links_addEdge {source target : Nat} (weight : Weight)
    (storedSource : (graph.node source).isSome) (storedTarget : (graph.node target).isSome) :
    (graph.addEdge source target weight).links = graph.links ++ [⟨source, target, weight⟩] := by
  rw [addEdge, dif_pos ⟨storedSource, storedTarget⟩]

theorem mem_edgesFrom (slot : Nat) (link : Link Weight) :
    link ∈ graph.edgesFrom slot ↔ link ∈ graph.links ∧ link.source = slot := by
  simp [edgesFrom]

theorem mem_edgesTo (slot : Nat) (link : Link Weight) :
    link ∈ graph.edgesTo slot ↔ link ∈ graph.links ∧ link.target = slot := by
  simp [edgesTo]

theorem mem_slots (slot : Nat) : slot ∈ graph.slots ↔ (graph.node slot).isSome := by
  rw [slots, node, (mergeSort_perm graph.nodes.keys _).mem_iff, mem_keys_iff, Option.isSome_iff_exists]

theorem slots_nodup : graph.slots.Nodup :=
  (mergeSort_perm graph.nodes.keys _).nodup_iff.mpr graph.nodes.nodupKeys

theorem length_slots : graph.slots.length = graph.nodeCount :=
  (mergeSort_perm graph.nodes.keys _).length_eq

theorem neighbors_stored {slot other : Nat} (mem : other ∈ graph.neighbors slot) : other ∈ graph.slots := by
  rw [mem_slots]
  rcases mem_append.mp mem with after | before
  · obtain ⟨link, listed, rfl⟩ := mem_map.mp after
    exact (graph.wired link ((mem_edgesFrom graph slot link).mp listed).1).2
  · obtain ⟨link, listed, rfl⟩ := mem_map.mp before
    exact (graph.wired link ((mem_edgesTo graph slot link).mp listed).1).1

theorem mem_nodeWeights (node : Node) : node ∈ graph.nodeWeights ↔ ∃ slot, graph.node slot = some node := by
  rw [nodeWeights, mem_map]
  constructor
  · intro ⟨entry, mem, same⟩
    subst same
    have listed := (mergeSort_perm graph.nodes.entries _).mem_iff.mp mem
    exact ⟨entry.1, (mem_entries_iff _ _ _).mp listed⟩
  intro ⟨slot, stored⟩
  have listed := (mem_entries_iff _ _ _).mpr stored
  exact ⟨_, (mergeSort_perm graph.nodes.entries _).mem_iff.mpr listed, rfl⟩

/-- The stored nodes have distinct names when no two slots hold nodes of one name. -/
theorem nodeWeights_nodup {Name : Type} (name : Node → Name)
    (apart : ∀ slot slot' node node', graph.node slot = some node → graph.node slot' = some node' →
      name node = name node' → slot = slot') : (graph.nodeWeights.map name).Nodup := by
  unfold nodeWeights
  have permuted := mergeSort_perm graph.nodes.entries
    fun first second => first.1 ≤ second.1
  rw [map_map, (permuted.map _).nodup_iff]
  have slots : (graph.nodes.entries.map Sigma.fst).Nodup := graph.nodes.nodupKeys
  apply List.Nodup.map_on _ (List.Nodup.of_map Sigma.fst slots)
  intro first mem second mem' same
  have stored := (mem_entries_iff graph.nodes first.1 first.2).mp mem
  have stored' := (mem_entries_iff graph.nodes second.1 second.2).mp mem'
  obtain ⟨slot, node⟩ := first
  obtain ⟨slot', node'⟩ := second
  obtain rfl := apart slot slot' node node' stored stored' same
  rw [stored] at stored'
  cases stored'
  rfl

end StableGraph

end Codegraph.Library
