import Codegraph.Library.Iteration
import Codegraph.Traverser.Options

namespace Codegraph.Traverser

open Library Sync List Store

structure TraversalStep where
  node : Node
  edge : Option Edge
  depth : Nat

structure BreadthFirst where
  nodes : Dict NodeId Node
  edges : List Edge
  visited : ListSet NodeId
  queue : List TraversalStep

namespace BreadthFirst

/-- Structural edges come before references. -/
def priority (edge : Edge) : Nat :=
  match edge.kind with
  | .contains => 0
  | .calls => 1
  | _ => 2

/-- Edges of one priority keep their order. -/
def prioritized (edges : List Edge) : List Edge :=
  edges.filter (priority · = 0) ++ edges.filter (priority · = 1) ++ edges.filter (priority · = 2)

/-- A neighbour that was not visited is recorded and waits, once for each edge. -/
def discover (options : ResolvedOptions) (neighbors : Dict NodeId Node) (nodeId : NodeId)
    (depth : Nat) (state : BreadthFirst) (edge : Edge) : BreadthFirst :=
  if otherEndpoint edge nodeId ∈ state.visited.members then state
  else
    match neighbors.get (otherEndpoint edge nodeId) with
    | none => state
    | some next =>
      if options.nodeAdmitted next then
        { state with
          nodes := state.nodes.set next.id next
          queue := state.queue ++ [⟨next, some edge, depth + 1⟩] }
      else state

/-- The node is visited along the edge that led to it first. -/
def mark (current : TraversalStep) (state : BreadthFirst) : BreadthFirst :=
  { state with
    visited := state.visited.insert current.node.id
    edges := state.edges ++ current.edge.toList }

def expand (store : Store) (options : ResolvedOptions) (current : TraversalStep)
    (state : BreadthFirst) : BreadthFirst :=
  let edges := prioritized (store.adjacent options current.node.id)
  edges.foldl
    (discover options (store.neighborNodes state.visited current.node.id edges) current.node.id
      current.depth) state

def visit (store : Store) (options : ResolvedOptions) (current : TraversalStep)
    (state : BreadthFirst) : BreadthFirst :=
  if current.node.id ∈ state.visited.members then state
  else if options.depthReached current.depth then mark current state
  else expand store options current (mark current state)

/-- The limit is tested before a node is taken from the queue. -/
def step (store : Store) (options : ResolvedOptions) (state : BreadthFirst) : Option BreadthFirst :=
  match state.queue with
  | [] => none
  | current :: rest =>
    if state.nodes.keys.length < options.limit then
      some (visit store options current { state with queue := rest })
    else none

def start (options : ResolvedOptions) (startNode : Node) : BreadthFirst where
  nodes := if options.includeStart then Dict.set ∅ startNode.id startNode else ∅
  edges := []
  visited := .empty
  queue := [⟨startNode, none, 0⟩]

end BreadthFirst

namespace Store

/-- Every node is expanded once and puts at most two steps for each edge into the queue. -/
def breadthFuel (store : Store) : Nat := worklistMeasure (2 * store.edges.length) store.nodes.length 1

def breadthFirst (store : Store) (options : ResolvedOptions) (startNode : Node) : BreadthFirst :=
  loop (BreadthFirst.step store options) store.breadthFuel (.start options startNode)

def traverseBfs (store : Store) (startId : NodeId) (options : TraversalOptions) : Subgraph :=
  match store.getNodeById startId with
  | none => .empty
  | some startNode =>
    let final := store.breadthFirst (.resolve options) startNode
    ⟨final.nodes, final.edges, [startId]⟩

end Store

namespace BreadthFirst

variable {store : Store} {options : ResolvedOptions} {startId : NodeId}

theorem mem_prioritized {edges : List Edge} {edge : Edge} : edge ∈ prioritized edges ↔ edge ∈ edges := by
  have levels : priority edge = 0 ∨ priority edge = 1 ∨ priority edge = 2 := by
    unfold priority
    split <;> simp
  simp only [prioritized, mem_append, mem_filter, decide_eq_true_eq]
  tauto

theorem length_prioritized (edges : List Edge) : (prioritized edges).length = edges.length := by
  unfold prioritized
  induction edges with
  | nil => rfl
  | cons edge edges ih =>
    have levels : priority edge = 0 ∨ priority edge = 1 ∨ priority edge = 2 := by
      unfold priority
      split <;> simp
    simp only [length_append] at ih
    rcases levels with level | level | level <;>
      simp [level] <;> omega

theorem length_adjacent (nodeId : NodeId) :
    (store.adjacent options nodeId).length ≤ 2 * store.edges.length := by
  have rows (query : Query) : (store.rows query).length ≤ store.edges.length := by
    rw [Store.rows, (store.arranged query _).length_eq]
    exact length_filter_le ..
  unfold Store.adjacent Store.getAdjacentEdges
  cases options.direction with
  | outgoing => exact le_trans (rows _) (by omega)
  | incoming => exact le_trans (rows _) (by omega)
  | both =>
    rw [length_append]
    have first := rows (.outgoing [nodeId]
      (if options.edgeKinds = [] then none else some options.edgeKinds))
    have second := rows (.incoming [nodeId]
      (if options.edgeKinds = [] then none else some options.edgeKinds))
    exact le_trans (Nat.add_le_add first second) (by omega)

/-- What the edges of a node put into the queue. -/
structure Discovered (store : Store) (options : ResolvedOptions) (nodeId : NodeId) (depth : Nat)
    (edges : List Edge) (before after : BreadthFirst) (new : List TraversalStep) : Prop where
  queue : after.queue = before.queue ++ new
  visited : after.visited = before.visited
  kept : after.edges = before.edges
  nodes : ∀ id, id ∈ after.nodes.keys ↔ id ∈ before.nodes.keys ∨ ∃ step ∈ new, step.node.id = id
  listed : ∀ step ∈ new, step.depth = depth + 1 ∧
    store.getNodeById step.node.id = some step.node ∧ step.node.id ∉ before.visited.members ∧
      ∃ edge, step.edge = some edge ∧ store.Leads options edge nodeId step.node.id
  all : ∀ edge ∈ edges, ∀ id, store.Leads options edge nodeId id →
    id ∈ before.visited.members ∨ ∃ step ∈ new, step.node.id = id
  length : new.length ≤ edges.length

theorem expand_discovered (store : Store) (options : ResolvedOptions) (current : TraversalStep)
    (state : BreadthFirst) :
    ∃ new, Discovered store options current.node.id current.depth
      (prioritized (store.adjacent options current.node.id)) state
      (expand store options current state) new := by
  have known (edge : Edge) (mem : edge ∈ prioritized (store.adjacent options current.node.id))
      (fresh : otherEndpoint edge current.node.id ∉ state.visited.members) :=
    @get_neighborNodes store _ _ _ _ mem fresh
  have listed (edge : Edge) (mem : edge ∈ prioritized (store.adjacent options current.node.id)) :
      edge ∈ store.adjacent options current.node.id := mem_prioritized.mp mem
  unfold expand
  simp only
  generalize store.neighborNodes state.visited current.node.id
    (prioritized (store.adjacent options current.node.id)) = neighbors at known
  generalize prioritized (store.adjacent options current.node.id) = edges at known listed ⊢
  induction edges using List.reverseRecOn with
  | nil => exact ⟨[], by simp, rfl, rfl, by simp, by simp, by simp, by simp⟩
  | append_singleton edges last ih =>
    obtain ⟨new, before⟩ := ih
      (fun edge mem => known edge (mem_append_left _ mem))
      (fun edge mem => listed edge (mem_append_left _ mem))
    rw [foldl_append, foldl_cons, foldl_nil]
    generalize edges.foldl (discover options neighbors current.node.id current.depth) state =
      middle at before ⊢
    have keep (passed : ∀ id, store.Leads options last current.node.id id →
        id ∈ state.visited.members) : Discovered store options current.node.id current.depth
          (edges ++ [last]) state middle new := by
      refine ⟨before.queue, before.visited, before.kept, before.nodes, before.listed, ?_, ?_⟩
      · intro edge mem id leads
        rcases mem_append.mp mem with earlier | here
        · exact before.all edge earlier id leads
        · rw [mem_singleton.mp here] at leads
          exact .inl (passed id leads)
      · rw [length_append]
        exact Nat.le_add_right_of_le before.length
    rw [discover, before.visited]
    split
    · rename_i seen
      refine ⟨new, keep fun id leads => ?_⟩
      rwa [← (leads_iff.mp leads).2.1]
    rename_i fresh
    rw [known last (by simp) fresh]
    cases found : store.getNodeById (otherEndpoint last current.node.id) with
    | none =>
      refine ⟨new, keep fun id leads => ?_⟩
      obtain ⟨_, same, node, found', _⟩ := leads_iff.mp leads
      rw [← same, found] at found'
      contradiction
    | some next =>
      simp only
      have same := getNodeById_id found
      split
      · rename_i admitted
        have leads := leads_iff.mpr ⟨listed last (by simp), same.symm, next, same ▸ found, admitted⟩
        refine ⟨new ++ [⟨next, some last, current.depth + 1⟩], ?_, rfl, before.kept, ?_, ?_, ?_, ?_⟩
        · simp [before.queue]
        · intro id
          have keys : id ∈ (middle.nodes.set next.id next).keys ↔
              id = next.id ∨ id ∈ middle.nodes.keys := by
            simp only [Dict.mem_keys_iff, Dict.get_set]
            by_cases equal : id = next.id <;> simp [equal]
          simp only [keys, before.nodes, mem_append, mem_singleton]
          constructor
          · rintro (rfl | old | ⟨step, mem, rfl⟩)
            · exact .inr ⟨_, .inr rfl, rfl⟩
            · exact .inl old
            · exact .inr ⟨step, .inl mem, rfl⟩
          rintro (old | ⟨step, mem | rfl, rfl⟩)
          · exact .inr (.inl old)
          · exact .inr (.inr ⟨step, mem, rfl⟩)
          · exact .inl rfl
        · intro step mem
          rcases mem_append.mp mem with earlier | here
          · exact before.listed step earlier
          · rw [mem_singleton.mp here]
            exact ⟨rfl, same ▸ found, same ▸ fresh, last, rfl, leads⟩
        · intro edge mem id leads'
          rcases mem_append.mp mem with earlier | here
          · rcases before.all edge earlier id leads' with seen | ⟨step, mem', reached⟩
            · exact .inl seen
            · exact .inr ⟨step, mem_append_left _ mem', reached⟩
          rw [mem_singleton.mp here] at leads'
          refine .inr ⟨_, mem_append_right _ mem_cons_self, ?_⟩
          exact same.trans (leads_iff.mp leads').2.1
        · rw [length_append, length_append]
          exact Nat.add_le_add_right before.length 1
      · rename_i refused
        refine ⟨new, keep fun id leads => ?_⟩
        obtain ⟨_, same', node, found', admitted⟩ := leads_iff.mp leads
        rw [← same', found] at found'
        cases found'
        exact absurd admitted refused

/-- The step leads to the start or along an edge from a visited node to another one. -/
def Led (store : Store) (options : ResolvedOptions) (startId : NodeId) (visited : ListSet NodeId)
    (step : TraversalStep) : Prop :=
  (step.edge = none ∧ step.node.id = startId) ∨ (step.node.id ≠ startId ∧ ∃ edge, step.edge = some edge ∧
      ∃ parent ∈ visited.members, store.Leads options edge parent step.node.id)

/-- The visited nodes have their distances, and what they lead to waits in the order of depth. -/
structure Sound (store : Store) (options : ResolvedOptions) (startId : NodeId)
    (state : BreadthFirst) : Prop where
  entries : ∀ step ∈ state.queue, store.getNodeById step.node.id = some step.node ∧
    Store.WithinDepth options step.depth ∧ Hops (store.Neighbors options) startId step.depth step.node.id
  led : ∀ step ∈ state.queue, Led store options startId state.visited step
  sorted : state.queue.Pairwise fun first second => first.depth ≤ second.depth
  near : ∀ first ∈ state.queue.head?, ∀ step ∈ state.queue, step.depth ≤ first.depth + 1
  labelled : ∀ id ∈ state.visited.members, store.Stored id ∧ ∃ depth,
    Store.WithinDepth options depth ∧ Distance (store.Neighbors options) startId id depth
  closed : ∀ id ∈ state.visited.members, ∀ depth,
    Distance (store.Neighbors options) startId id depth → Store.WithinDepth options (depth + 1) →
      ∀ next, store.Neighbors options id next → next ∈ state.visited.members ∨
        ∃ step ∈ state.queue, step.node.id = next ∧ step.depth ≤ depth + 1
  begun : startId ∈ state.visited.members ∨ ∃ step ∈ state.queue, step.node.id = startId ∧ step.depth = 0
  nodes : ∀ id, id ∈ state.nodes.keys ↔ (id = startId ∧ options.includeStart = true) ∨
    (id ≠ startId ∧ (id ∈ state.visited.members ∨ ∃ step ∈ state.queue, step.node.id = id))
  edges : ∃ ends : List NodeId, ends.Nodup ∧ (∀ id, id ∈ ends ↔ id ∈ state.visited.members ∧ id ≠ startId) ∧
      List.Forall₂ (fun edge id => ∃ parent ∈ state.visited.members,
        store.Leads options edge parent id) state.edges ends

variable {state : BreadthFirst}

theorem Sound.covered (sound : state.Sound store options startId) {depth : Nat} {id : NodeId}
    (distance : Distance (store.Neighbors options) startId id depth)
    (within : Store.WithinDepth options depth) :
    id ∈ state.visited.members ∨ ∃ step ∈ state.queue, step.depth ≤ depth := by
  induction depth generalizing id with
  | zero =>
    rw [Distance.zero_iff.mp distance]
    rcases sound.begun with seen | ⟨step, mem, _, zero⟩
    · exact .inl seen
    · exact .inr ⟨step, mem, Nat.le_of_eq zero⟩
  | succ depth ih =>
    obtain ⟨middle, before, last⟩ := distance.before
    rcases ih before (within.mono (Nat.le_succ depth)) with seen | ⟨step, mem, shallow⟩
    · rcases sound.closed middle seen depth before within id last with seen' | waits
      · exact .inl seen'
      · obtain ⟨step, mem, _, shallow⟩ := waits
        exact .inr ⟨step, mem, shallow⟩
    · exact .inr ⟨step, mem, Nat.le_succ_of_le shallow⟩

variable {current : TraversalStep} {rest : List TraversalStep}

section

variable (sound : state.Sound store options startId)
include sound

/-- The first step that waits leads to a new node along a shortest way. -/
theorem Sound.popped (queued : state.queue = current :: rest)
    (fresh : current.node.id ∉ state.visited.members) :
    Distance (store.Neighbors options) startId current.node.id current.depth := by
  have first : current ∈ state.queue := by rw [queued]; exact mem_cons_self
  obtain ⟨_, within, hops⟩ := sound.entries current first
  obtain ⟨least, shorter, distance⟩ := Distance.exists hops
  have sorted := sound.sorted
  rw [queued, pairwise_cons] at sorted
  rcases sound.covered distance (within.mono shorter) with seen | ⟨step, mem, shallow⟩
  · exact absurd seen fresh
  rw [queued] at mem
  have order : current.depth ≤ step.depth := by
    rcases mem_cons.mp mem with same | later
    · rw [same]
    · exact sorted.1 step later
  obtain rfl : least = current.depth := by omega
  exact distance

theorem Sound.start_marked (queued : state.queue = current :: rest) :
    startId = current.node.id ∨ startId ∈ state.visited.members := by
  rcases sound.begun with seen | ⟨step, mem, same, zero⟩
  · exact .inr seen
  have first : current ∈ state.queue := by rw [queued]; exact mem_cons_self
  have sorted := sound.sorted
  rw [queued, pairwise_cons] at sorted
  rw [queued] at mem
  have shallow : current.depth = 0 := by
    rcases mem_cons.mp mem with here | later
    · rwa [← here]
    · have order := sorted.1 step later
      omega
  obtain ⟨_, _, hops⟩ := sound.entries current first
  rw [shallow] at hops
  cases hops' : hops
  exact .inl rfl

theorem Sound.drop (queued : state.queue = current :: rest) (seen : current.node.id ∈ state.visited.members) :
    BreadthFirst.Sound store options startId { state with queue := rest } := by
  have later (step : TraversalStep) (mem : step ∈ rest) : step ∈ state.queue := by
    rw [queued]
    exact mem_cons_of_mem _ mem
  have sorted := sound.sorted
  rw [queued, pairwise_cons] at sorted
  refine ⟨fun step mem => sound.entries step (later step mem),
    fun step mem => sound.led step (later step mem), sorted.2, ?_, sound.labelled, ?_, ?_, ?_,
    sound.edges⟩
  · intro first head step mem
    have bound := sound.near current (by rw [queued]; rfl) step (later step mem)
    have order := sorted.1 first (mem_of_mem_head? head)
    omega
  · intro id mem depth distance within next neighbors
    rcases sound.closed id mem depth distance within next neighbors with old | waits
    · exact .inl old
    obtain ⟨step, waiting, same, shallow⟩ := waits
    rw [queued] at waiting
    rcases mem_cons.mp waiting with here | waiting
    · rw [← same, here]
      exact .inl seen
    · exact .inr ⟨step, waiting, same, shallow⟩
  · rcases sound.begun with old | ⟨step, waiting, same, zero⟩
    · exact .inl old
    rw [queued] at waiting
    rcases mem_cons.mp waiting with here | waiting
    · rw [← same, here]
      exact .inl seen
    · exact .inr ⟨step, waiting, same, zero⟩
  · intro id
    rw [sound.nodes, queued]
    refine or_congr_right (and_congr_right fun _ => ?_)
    constructor
    · rintro (old | ⟨step, waiting, rfl⟩)
      · exact .inl old
      · rcases mem_cons.mp waiting with here | waiting
        · rw [here]
          exact .inl seen
        · exact .inr ⟨step, waiting, rfl⟩
    rintro (old | ⟨step, waiting, rfl⟩)
    · exact .inl old
    · exact .inr ⟨step, mem_cons_of_mem _ waiting, rfl⟩

theorem Sound.advance {rest new : List TraversalStep} {edges : List Edge} {after : BreadthFirst}
    (queued : state.queue = current :: rest) (fresh : current.node.id ∉ state.visited.members)
    (discovered : Discovered store options current.node.id current.depth edges
      (mark current { state with queue := rest }) after new)
    (allowed : new ≠ [] → Store.WithinDepth options (current.depth + 1))
    (all : Store.WithinDepth options (current.depth + 1) → ∀ next,
      store.Neighbors options current.node.id next →
        next = current.node.id ∨ next ∈ state.visited.members ∨ ∃ step ∈ new, step.node.id = next) :
    after.Sound store options startId := by
  have first : current ∈ state.queue := by rw [queued]; exact mem_cons_self
  have later (step : TraversalStep) (mem : step ∈ rest) : step ∈ state.queue := by
    rw [queued]
    exact mem_cons_of_mem _ mem
  have distance := sound.popped queued fresh
  obtain ⟨stored, within, hops⟩ := sound.entries current first
  have queue : after.queue = rest ++ new := discovered.queue
  have visited (id : NodeId) : id ∈ after.visited.members ↔
      id = current.node.id ∨ id ∈ state.visited.members := by
    rw [discovered.visited]
    exact ListSet.mem_insert ..
  have started := (visited startId).mpr (sound.start_marked queued)
  have sorted := sound.sorted
  rw [queued, pairwise_cons] at sorted
  have window (step : TraversalStep) (mem : step ∈ after.queue) :
      current.depth ≤ step.depth ∧ step.depth ≤ current.depth + 1 := by
    rw [queue] at mem
    rcases mem_append.mp mem with old | late
    · exact ⟨sorted.1 step old, sound.near current (by rw [queued]; rfl) step (later step old)⟩
    · rw [(discovered.listed step late).1]
      omega
  have led (step : TraversalStep) (mem : step ∈ after.queue) :
      Led store options startId after.visited step := by
    rw [queue] at mem
    rcases mem_append.mp mem with old | late
    · rcases sound.led step (later step old) with root | ⟨apart, edge, same, parent, seen, leads⟩
      · exact .inl root
      · exact .inr ⟨apart, edge, same, parent, (visited parent).mpr (.inr seen), leads⟩
    obtain ⟨_, _, unseen, edge, same, leads⟩ := discovered.listed step late
    refine .inr ⟨?_, edge, same, current.node.id, (visited _).mpr (.inl rfl), leads⟩
    intro equal
    rw [equal] at unseen
    rw [discovered.visited] at started
    exact unseen started
  refine ⟨?_, led, ?_, ?_, ?_, ?_, .inl started, ?_, ?_⟩
  · intro step mem
    rw [queue] at mem
    rcases mem_append.mp mem with old | late
    · exact sound.entries step (later step old)
    obtain ⟨depth, found, _, edge, _, leads⟩ := discovered.listed step late
    rw [depth]
    exact ⟨found, allowed (ne_nil_of_mem late), .step hops ⟨edge, leads⟩⟩
  · rw [queue, pairwise_append]
    refine ⟨sorted.2, ?_, ?_⟩
    · apply pairwise_of_forall_mem_list
      intro step mem step' mem'
      rw [(discovered.listed step mem).1, (discovered.listed step' mem').1]
    intro step old step' late
    have bound := (window step (by rw [queue]; exact mem_append_left _ old)).2
    rwa [(discovered.listed step' late).1]
  · intro head isHead step mem
    have lower := (window head (mem_of_mem_head? isHead)).1
    have upper := (window step mem).2
    omega
  · intro id mem
    rcases (visited id).mp mem with here | old
    · rw [here, Store.Stored, stored]
      exact ⟨rfl, current.depth, within, distance⟩
    · exact sound.labelled id old
  · intro id mem depth distance' within' next neighbors
    rw [visited, queue]
    rcases (visited id).mp mem with here | old
    · rw [here] at neighbors distance'
      rw [distance'.unique distance] at within' ⊢
      rcases all within' next neighbors with same | seen | ⟨step, late, same⟩
      · exact .inl (.inl same)
      · exact .inl (.inr seen)
      · refine .inr ⟨step, mem_append_right _ late, same, ?_⟩
        exact Nat.le_of_eq (discovered.listed step late).1
    rcases sound.closed id old depth distance' within' next neighbors with seen | waits
    · exact .inl (.inr seen)
    obtain ⟨step, waiting, same, shallow⟩ := waits
    rw [queued] at waiting
    rcases mem_cons.mp waiting with here | waiting
    · rw [here] at same
      exact .inl (.inl same.symm)
    · exact .inr ⟨step, mem_append_left _ waiting, same, shallow⟩
  · intro id
    have before : id ∈ (mark current { state with queue := rest }).nodes.keys ↔
        id ∈ state.nodes.keys := Iff.rfl
    rw [discovered.nodes, before, sound.nodes, visited, queued, queue]
    constructor
    · rintro ((root | ⟨apart, seen | ⟨step, waiting, same⟩⟩) | ⟨step, late, same⟩)
      · exact .inl root
      · exact .inr ⟨apart, .inl (.inr seen)⟩
      · refine .inr ⟨apart, ?_⟩
        rcases mem_cons.mp waiting with here | waiting
        · rw [here] at same
          exact .inl (.inl same.symm)
        · exact .inr ⟨step, mem_append_left _ waiting, same⟩
      · refine .inr ⟨?_, .inr ⟨step, mem_append_right _ late, same⟩⟩
        rintro rfl
        have unseen := (discovered.listed step late).2.2.1
        rw [same, ← discovered.visited] at unseen
        exact unseen started
    rintro (root | ⟨apart, (here | seen) | ⟨step, waiting, same⟩⟩)
    · exact .inl (.inl root)
    · exact .inl (.inr ⟨apart, .inr ⟨current, mem_cons_self, here.symm⟩⟩)
    · exact .inl (.inr ⟨apart, .inl seen⟩)
    · rcases mem_append.mp waiting with old | late
      · exact .inl (.inr ⟨apart, .inr ⟨step, mem_cons_of_mem _ old, same⟩⟩)
      · exact .inr ⟨step, late, same⟩
  · obtain ⟨ends, nodup, listed, joined⟩ := sound.edges
    have joined' : List.Forall₂ (fun edge id => ∃ parent ∈ after.visited.members,
        store.Leads options edge parent id) state.edges ends :=
      joined.imp fun edge id led => led.imp fun parent both =>
        ⟨(visited parent).mpr (.inr both.1), both.2⟩
    have kept : after.edges = state.edges ++ current.edge.toList := discovered.kept
    rcases sound.led current first with ⟨none, root⟩ | ⟨apart, edge, same, parent, seen, leads⟩
    · refine ⟨ends, nodup, ?_, ?_⟩
      · intro id
        rw [listed, visited, root]
        tauto
      · rw [kept, none]
        simpa using joined'
    refine ⟨ends ++ [current.node.id], ?_, ?_, ?_⟩
    · rw [← concat_eq_append]
      exact nodup.concat fun mem => fresh ((listed _).mp mem).1
    · intro id
      rw [mem_append, mem_singleton, listed, visited]
      constructor
      · rintro (⟨old, other⟩ | here)
        · exact ⟨.inr old, other⟩
        · rw [here]
          exact ⟨.inl rfl, apart⟩
      rintro ⟨here | old, other⟩
      · exact .inr here
      · exact .inl ⟨old, other⟩
    rw [kept, same]
    exact rel_append joined' (.cons
      ⟨parent, (visited parent).mpr (.inr seen), leads⟩ .nil)

theorem Sound.size_le : state.visited.size ≤ store.nodes.length := by
  have inside : state.visited.members ⊆ store.nodes.map Node.id := by
    intro id mem
    obtain ⟨node, found⟩ := Option.isSome_iff_exists.mp (sound.labelled id mem).1
    obtain ⟨listed, rfl⟩ := getNodeById_eq.mp found
    exact mem_map_of_mem listed
  have shorter := (subperm_of_subset state.visited.nodup inside).length_le
  rwa [length_map] at shorter

end

/-- A node other than the start waits for its visit. -/
def Pending (startId : NodeId) (state : BreadthFirst) : Prop :=
  ∃ step ∈ state.queue, step.node.id ∉ state.visited.members ∧ step.node.id ≠ startId

/-- The iterations that are left. -/
def effort (store : Store) (state : BreadthFirst) : Nat :=
  worklistMeasure (2 * store.edges.length) (store.nodes.length - state.visited.size)
    state.queue.length

/-- A map that gains no key does not get larger. -/
theorem keys_length_le {first second : Dict NodeId Node}
    (inside : ∀ id, id ∈ first.keys → id ∈ second.keys) : first.keys.length ≤ second.keys.length :=
  (subperm_of_subset first.nodupKeys fun id mem => inside id mem).length_le

theorem Sound.visit (sound : state.Sound store options startId) (queued : state.queue = current :: rest)
    (room : state.nodes.keys.length < options.limit) :
    let after := visit store options current { state with queue := rest }
    after.Sound store options startId ∧ after.effort store < state.effort store ∧
      (after.nodes.keys.length < options.limit ∨ after.Pending startId) := by
  unfold BreadthFirst.visit
  simp only
  by_cases seen : current.node.id ∈ state.visited.members
  · rw [if_pos seen]
    refine ⟨sound.drop queued seen, ?_, .inl room⟩
    apply worklistMeasure_idle (le_refl _)
    rw [queued]
    exact Nat.lt_succ_self _
  rw [if_neg seen]
  -- The capped node and the expanded one differ only in what they put into the queue.
  have visited {edges : List Edge} {after : BreadthFirst} {new : List TraversalStep}
      (discovered : Discovered store options current.node.id current.depth edges
        (mark current { state with queue := rest }) after new)
      (short : new.length ≤ 2 * store.edges.length)
      (allowed : new ≠ [] → Store.WithinDepth options (current.depth + 1))
      (all : Store.WithinDepth options (current.depth + 1) → ∀ next,
        store.Neighbors options current.node.id next → next = current.node.id ∨
          next ∈ state.visited.members ∨ ∃ step ∈ new, step.node.id = next) :
      after.Sound store options startId ∧ after.effort store < state.effort store ∧
        (after.nodes.keys.length < options.limit ∨ after.Pending startId) := by
    have sound' := sound.advance queued seen discovered allowed all
    refine ⟨sound', ?_, ?_⟩
    · have grown : after.visited.size = state.visited.size + 1 := by
        rw [discovered.visited]
        unfold mark ListSet.insert ListSet.size
        rw [dif_neg seen, length_append, length_singleton]
      have bound := sound'.size_le
      apply worklistMeasure_productive
      · omega
      rw [discovered.queue, queued, length_append]
      change rest.length + new.length ≤ rest.length + 1 + _
      omega
    cases new with
    | nil =>
      left
      refine lt_of_le_of_lt (keys_length_le fun id mem => ?_) room
      simpa [mark] using (discovered.nodes id).mp mem
    | cons step later =>
      right
      have listed := discovered.listed step mem_cons_self
      refine ⟨step, ?_, ?_, ?_⟩
      · rw [discovered.queue]
        exact mem_append_right _ mem_cons_self
      · rw [discovered.visited]
        exact listed.2.2.1
      intro root
      have started := (ListSet.mem_insert ..).mpr (sound.start_marked queued)
      rw [← root] at started
      exact listed.2.2.1 started
  by_cases capped : options.depthReached current.depth = true
  · rw [if_pos capped]
    have still : Discovered store options current.node.id current.depth []
        (mark current { state with queue := rest }) (mark current { state with queue := rest })
        [] :=
      ⟨by simp, rfl, rfl, by simp, by simp, by simp, le_refl _⟩
    refine visited still (Nat.zero_le _) (fun impossible => absurd rfl impossible) ?_
    exact fun within => absurd capped (not_depthReached within)
  rw [if_neg capped]
  obtain ⟨new, discovered⟩ := expand_discovered store options current
    (mark current { state with queue := rest })
  refine visited discovered ?_ (fun _ => withinDepth_succ capped) ?_
  · refine le_trans discovered.length ?_
    rw [length_prioritized]
    exact length_adjacent _
  intro _ next neighbors
  obtain ⟨edge, leads⟩ := neighbors
  have mem := mem_prioritized.mpr (leads_iff.mp leads).1
  rcases discovered.all edge mem next leads with old | late
  · exact or_assoc.mp (.inl ((ListSet.mem_insert ..).mp old))
  · exact .inr (.inr late)

theorem step_sound {after : BreadthFirst} (sound : state.Sound store options startId)
    (moved : step store options state = some after) :
    after.Sound store options startId ∧ after.effort store < state.effort store ∧
      (after.nodes.keys.length < options.limit ∨ after.Pending startId) := by
  unfold step at moved
  cases queued : state.queue with
  | nil =>
    rw [queued] at moved
    contradiction
  | cons current rest =>
    rw [queued] at moved
    simp only at moved
    split at moved
    · rename_i room
      cases moved
      exact sound.visit queued room
    · contradiction

theorem start_sound {startNode : Node} (stored : store.getNodeById startId = some startNode) :
    (start options startNode).Sound store options startId := by
  have same := getNodeById_id stored
  have only (step : TraversalStep) (mem : step ∈ (start options startNode).queue) :
      step = ⟨startNode, none, 0⟩ := mem_singleton.mp mem
  refine ⟨?_, ?_, pairwise_singleton _ _, ?_, by simp [start], by simp [start], ?_, ?_, ?_⟩
  · intro step mem
    rw [only step mem]
    exact ⟨same ▸ stored, withinDepth_zero _, same ▸ .start⟩
  · intro step mem
    rw [only step mem]
    exact .inl ⟨rfl, same⟩
  · intro first head step mem
    rw [only step mem]
    exact Nat.zero_le _
  · exact .inr ⟨_, mem_singleton_self _, same, rfl⟩
  · intro id
    have queue : (∃ step ∈ (start options startNode).queue, step.node.id = id) ↔ id = startId := by
      constructor
      · rintro ⟨step, mem, rfl⟩
        rwa [only step mem]
      · rintro rfl
        exact ⟨_, mem_singleton_self _, same⟩
    rw [queue, Dict.mem_keys_iff]
    unfold start
    cases options.includeStart <;> simp [Dict.get_set, same]
  · exact ⟨[], nodup_nil, by simp [start], .nil⟩

end BreadthFirst

namespace Store

variable {store : Store} {options : ResolvedOptions} {startId : NodeId}

theorem breadthFirst_halts {startNode : Node} (stored : store.getNodeById startId = some startNode) :
    Halts (BreadthFirst.step store options) (.start options startNode)
      (store.breadthFirst options startNode) := by
  have keeps (before after : BreadthFirst) (sound : before.Sound store options startId)
      (moved : BreadthFirst.step store options before = some after) :
      after.Sound store options startId := (BreadthFirst.step_sound sound moved).1
  have falls (before after : BreadthFirst) (sound : before.Sound store options startId)
      (moved : BreadthFirst.step store options before = some after) :
      after.effort store < before.effort store := (BreadthFirst.step_sound sound moved).2.1
  exact halts_loop keeps falls _ _ (BreadthFirst.start_sound stored) (le_refl _)

end Store

namespace BreadthFirst

variable {store : Store} {options : ResolvedOptions} {startId : NodeId} {state : BreadthFirst}

section

variable (sound : state.Sound store options startId)
include sound

theorem Sound.inReach (present : store.Stored startId) {id : NodeId} (mem : id ∈ state.nodes.keys) :
    store.InReach options startId id := by
  rcases (sound.nodes id).mp mem with ⟨root, included⟩ | ⟨apart, seen | ⟨step, waiting, rfl⟩⟩
  · rw [root]
    exact ⟨present, fun _ => included, 0, withinDepth_zero _, .start⟩
  · obtain ⟨_, depth, within, distance⟩ := sound.labelled id seen
    exact ⟨present, fun root => absurd root apart, depth, within, distance.reached⟩
  · obtain ⟨_, within, hops⟩ := sound.entries step waiting
    exact ⟨present, fun root => absurd root apart, step.depth, within, hops⟩

/-- When nothing waits, every node in reach is recorded. -/
theorem Sound.exhaustive (empty : state.queue = [])
    {id : NodeId} (reached : store.InReach options startId id) : id ∈ state.nodes.keys := by
  obtain ⟨_, included, count, within, hops⟩ := reached
  obtain ⟨least, shorter, distance⟩ := Distance.exists hops
  rw [sound.nodes]
  by_cases root : id = startId
  · exact .inl ⟨root, included root⟩
  rcases sound.covered distance (within.mono shorter) with seen | ⟨step, mem, _⟩
  · exact .inr ⟨root, .inl seen⟩
  · rw [empty] at mem
    contradiction

theorem Sound.discovers (empty : state.queue = [])
    (roots : List NodeId) : store.Discovers options startId ⟨state.nodes, state.edges, roots⟩ := by
  obtain ⟨ends, nodup, listed, joined⟩ := sound.edges
  have keys (id : NodeId) (apart : id ≠ startId) : id ∈ state.nodes.keys ↔ id ∈ state.visited.members := by
    rw [sound.nodes, empty]
    simp [apart]
  refine ⟨ends, nodup, fun id => ?_, ?_⟩
  · rw [listed]
    exact and_congr_left fun apart => (keys id apart).symm
  refine joined.imp fun edge id led => led.imp fun parent both => ⟨?_, both.2⟩
  by_cases root : parent = startId
  · exact .inl root
  · exact .inr ((keys parent root).mpr both.1)

/-- A node that still waits has no edge. -/
theorem Sound.not_discovers (pending : state.Pending startId) (roots : List NodeId) :
    ¬ store.Discovers options startId ⟨state.nodes, state.edges, roots⟩ := by
  rintro ⟨found, _, listed, joined⟩
  obtain ⟨ends, nodup, seen, joined'⟩ := sound.edges
  obtain ⟨step, waiting, fresh, apart⟩ := pending
  have inside : step.node.id :: ends ⊆ found := by
    intro id mem
    rw [listed]
    rcases mem_cons.mp mem with here | mem
    · rw [here]
      exact ⟨(sound.nodes _).mpr (.inr ⟨apart, .inr ⟨step, waiting, rfl⟩⟩), apart⟩
    · obtain ⟨visited, other⟩ := (seen id).mp mem
      exact ⟨(sound.nodes _).mpr (.inr ⟨other, .inl visited⟩), other⟩
  have distinct := nodup_cons.mpr ⟨fun mem => fresh ((seen _).mp mem).1, nodup⟩
  have longer := (subperm_of_subset distinct inside).length_le
  have length := joined.length_eq
  have length' := joined'.length_eq
  rw [length_cons] at longer
  simp only at length
  omega

end

end BreadthFirst

namespace Store

variable {store : Store} {options : ResolvedOptions} {startId : NodeId}

theorem empty_conforms (absent : ¬ store.Stored startId) : store.Conforms options startId .empty := by
  refine ⟨Nat.zero_le _, ⟨[], nodup_nil, by simp [Subgraph.empty], .nil⟩, ?_⟩
  intro _ id
  simp [Subgraph.empty, InReach, absent]

theorem stopped_conforms {startNode : Node} (stored : store.getNodeById startId = some startNode)
    (stops : StopsAtStart options) (roots : List NodeId) :
    store.Conforms options startId
      ⟨(BreadthFirst.start options startNode).nodes, [], roots⟩ := by
  have same := getNodeById_id stored
  have present : store.Stored startId := by rw [Stored, stored]; rfl
  refine ⟨?_, ⟨[], nodup_nil, ?_, .nil⟩, fun few => absurd few (stops.not_few present)⟩
  · rw [stops]
    unfold BreadthFirst.start
    cases options.includeStart <;> simp [Dict.set]
  intro id
  have keys : id ∈ (BreadthFirst.start options startNode).nodes.keys → id = startId := by
    intro mem
    rw [(BreadthFirst.start_sound stored).nodes] at mem
    rcases mem with both | ⟨_, seen | ⟨step, waiting, here⟩⟩
    · exact both.1
    · simp [BreadthFirst.start] at seen
    · rwa [← here, mem_singleton.mp waiting]
  simp only [not_mem_nil, false_iff, not_and, not_not]
  exact keys

/-- The final state stops the loop. -/
theorem breadthFirst_final {startNode : Node} (stored : store.getNodeById startId = some startNode) :
    (store.breadthFirst options startNode).Sound store options startId ∧
      ((store.breadthFirst options startNode).queue = [] ∨
        options.limit ≤ (store.breadthFirst options startNode).nodes.keys.length) ∧
      ((store.breadthFirst options startNode).nodes.keys.length < options.limit ∨
        (store.breadthFirst options startNode).Pending startId ∨
          (store.breadthFirst options startNode) = .start options startNode) := by
  have halts := @breadthFirst_halts store options startId startNode stored
  have keeps (before after : BreadthFirst)
      (inv : before.Sound store options startId ∧ (before.nodes.keys.length < options.limit ∨
        before.Pending startId ∨ before = .start options startNode))
      (moved : BreadthFirst.step store options before = some after) :
      after.Sound store options startId ∧ (after.nodes.keys.length < options.limit ∨
        after.Pending startId ∨ after = .start options startNode) := by
    obtain ⟨sound, _, bounded⟩ := BreadthFirst.step_sound inv.1 moved
    exact ⟨sound, bounded.imp_right .inl⟩
  obtain ⟨sound, bounded⟩ := halts.preserves keeps
    ⟨BreadthFirst.start_sound stored, .inr (.inr rfl)⟩
  refine ⟨sound, ?_, bounded⟩
  have ended := halts.ended
  unfold BreadthFirst.step at ended
  split at ended
  · left
    assumption
  right
  split at ended
  · contradiction
  · omega

/-- A breadth-first traversal conforms if the limit cannot stop it on the way. -/
theorem traverseBfs_conforms {options : TraversalOptions}
    (fits : store.Stored startId → StopsAtStart (.resolve options) ∨
      store.FewInReach (.resolve options) startId) :
    store.Conforms (.resolve options) startId (store.traverseBfs startId options) := by
  unfold traverseBfs
  cases stored : store.getNodeById startId with
  | none =>
    apply empty_conforms
    rw [Stored, stored]
    exact Bool.false_ne_true
  | some startNode =>
    have present : store.Stored startId := by rw [Stored, stored]; rfl
    obtain ⟨sound, stopped, bounded⟩ := @breadthFirst_final store (.resolve options) startId startNode stored
    rcases fits present with stops | few
    · have stuck : BreadthFirst.step store (.resolve options)
          (.start (.resolve options) startNode) = none := by
        unfold BreadthFirst.step BreadthFirst.start
        simp only
        rw [if_neg]
        rw [stops]
        cases (ResolvedOptions.resolve options).includeStart <;> simp [Dict.set]
      have same := (@breadthFirst_halts store (.resolve options) startId startNode stored).unique (.done stuck)
      simp only [same]
      exact stopped_conforms stored stops [startId]
    obtain ⟨ids, covers, fewer⟩ := few
    have inside : (store.breadthFirst (.resolve options) startNode).nodes.keys ⊆ ids :=
      fun id mem => covers id (sound.inReach present mem)
    have short : (store.breadthFirst (.resolve options) startNode).nodes.keys.length ≤
        ids.length := (subperm_of_subset
      (store.breadthFirst (.resolve options) startNode).nodes.nodupKeys inside).length_le
    have empty := stopped.resolve_right (by omega)
    refine ⟨?_, sound.discovers empty [startId], fun _ id => ?_⟩
    · exact Nat.le_of_lt (lt_of_le_of_lt short fewer)
    · exact ⟨sound.inReach present, sound.exhaustive empty⟩

/-- A conforming breadth-first traversal was not stopped on the way. -/
theorem traverseBfs_fits {options : TraversalOptions}
    (conforms : store.Conforms (.resolve options) startId (store.traverseBfs startId options))
    (present : store.Stored startId) :
    StopsAtStart (.resolve options) ∨ store.FewInReach (.resolve options) startId := by
  obtain ⟨startNode, stored⟩ := Option.isSome_iff_exists.mp present
  obtain ⟨sound, stopped, bounded⟩ := @breadthFirst_final store (.resolve options) startId startNode stored
  have limit := conforms.limit
  have discovers := conforms.discovers
  simp only [traverseBfs, stored] at limit discovers
  rcases bounded with room | pending | same
  · right
    have empty := stopped.resolve_right (by omega)
    exact ⟨_, fun id reached => sound.exhaustive empty reached, room⟩
  · exact absurd discovers (sound.not_discovers pending [startId])
  left
  have full := stopped.resolve_left (by rw [same]; simp [BreadthFirst.start])
  rw [same] at full limit
  unfold StopsAtStart
  unfold BreadthFirst.start at full limit
  cases included : (ResolvedOptions.resolve options).includeStart <;>
    simp_all [Dict.set]
  omega

end Store

end Codegraph.Traverser
