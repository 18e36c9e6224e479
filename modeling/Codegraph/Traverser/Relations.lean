import Codegraph.Library.Iteration
import Codegraph.Library.Layers
import Codegraph.Library.ListSet
import Codegraph.Traverser.Store

namespace Codegraph.Traverser

open Library Sync List ListSet

/-- The edge kinds that callers and callees are followed along. -/
def relationEdgeKinds : List EdgeKind := [.calls, .references, .imports]

structure NodeRef where
  node : Node
  edge : Edge
deriving DecidableEq

/-- The end of an edge that the walk goes to. -/
def nextId (incoming : Bool) (edge : Edge) : NodeId := if incoming then edge.source else edge.target

/-- The end of an edge that the walk comes from. -/
def lastId (incoming : Bool) (edge : Edge) : NodeId := if incoming then edge.target else edge.source

/-- The layers up to the depth are walked and the frontier is the last of them. -/
structure RelationWalk where
  result : List NodeRef
  visited : ListSet NodeId
  frontier : List NodeId
  depth : Nat

/-- The nodes that one layer has met so far. -/
structure RelationLayer where
  result : List NodeRef
  visited : ListSet NodeId
  emitted : ListSet NodeId
  nextFrontier : List NodeId

namespace RelationWalk

/-- The ids that are new to the walk, each once. -/
def wanted (incoming : Bool) (visited : ListSet NodeId) (edges : List Edge) : ListSet NodeId :=
  edges.foldl (fun next edge =>
    if nextId incoming edge ∈ visited.members ∨ nextId incoming edge ∈ next.members then next
    else next.insert (nextId incoming edge)) .empty

/-- The first edge to a new stored node is listed with it. -/
def emit (incoming : Bool) (nextNodes : Dict NodeId Node) (layer : RelationLayer) (edge : Edge) :
    RelationLayer :=
  if nextId incoming edge ∈ layer.visited.members ∨ nextId incoming edge ∈ layer.emitted.members
  then layer
  else
    match nextNodes.get (nextId incoming edge) with
    | none => layer
    | some node =>
      { result := layer.result ++ [⟨node, edge⟩]
        visited := layer.visited.insert (nextId incoming edge)
        emitted := layer.emitted.insert (nextId incoming edge)
        nextFrontier := layer.nextFrontier ++ [nextId incoming edge] }

def frontierEdges (store : Store) (incoming : Bool) (frontier : List NodeId)
    (kinds : List EdgeKind) : List Edge :=
  if incoming then store.getIncomingEdgesForTargets frontier (some kinds)
  else store.getOutgoingEdgesForSources frontier (some kinds)

/-- The layer after the frontier. -/
def nextLayer (store : Store) (incoming : Bool) (edges : List Edge) (walk : RelationWalk) : RelationLayer :=
  edges.foldl
    (emit incoming (store.getNodesByIds (wanted incoming walk.visited edges).members))
    ⟨walk.result, walk.visited, .empty, []⟩

def step (store : Store) (maxDepth : Nat) (incoming : Bool) (kinds : List EdgeKind)
    (walk : RelationWalk) : Option RelationWalk :=
  if walk.depth < maxDepth ∧ walk.frontier ≠ [] then
    if frontierEdges store incoming walk.frontier kinds = [] then none
    else if (wanted incoming walk.visited
        (frontierEdges store incoming walk.frontier kinds)).members = [] then none
    else
      let layer := nextLayer store incoming
        (frontierEdges store incoming walk.frontier kinds) walk
      some ⟨layer.result, layer.visited, layer.nextFrontier, walk.depth + 1⟩
  else none

def start (startId : NodeId) : RelationWalk := ⟨[], ListSet.empty.insert startId, [startId], 0⟩

end RelationWalk

namespace Store

/-- The walk ends after the last layer at the latest. -/
def traverseRelationLayers (store : Store) (startId : NodeId) (maxDepth : Nat) (incoming : Bool)
    (kinds : List EdgeKind) : List NodeRef :=
  if maxDepth = 0 then []
  else (loop (RelationWalk.step store maxDepth incoming kinds) maxDepth (.start startId)).result

def getCallers (store : Store) (id : NodeId) (maxDepth : Nat) : List NodeRef :=
  store.traverseRelationLayers id maxDepth true relationEdgeKinds

def getCallees (store : Store) (id : NodeId) (maxDepth : Nat) : List NodeRef :=
  store.traverseRelationLayers id maxDepth false relationEdgeKinds

/-- An edge of an admitted kind joins two stored nodes. -/
def Linked (store : Store) (kinds : Option (List EdgeKind)) (source target : NodeId) : Prop :=
  store.Stored source ∧ store.Stored target ∧ ∃ edge ∈ store.edges,
    edge.source = source ∧ edge.target = target ∧ kindAdmitted kinds edge.kind = true

/-- A step of the walk, against the edges for callers and along them for callees. -/
def Steps (store : Store) (incoming : Bool) (kinds : Option (List EdgeKind)) (near far : NodeId) : Prop :=
  if incoming then store.Linked kinds far near else store.Linked kinds near far

end Store

namespace RelationWalk

variable {store : Store} {incoming : Bool} {kinds : List EdgeKind} {startId : NodeId}
  {maxDepth : Nat}

theorem mem_frontierEdges {frontier : List NodeId} {edge : Edge} :
    edge ∈ frontierEdges store incoming frontier kinds ↔ edge ∈ store.edges ∧
      lastId incoming edge ∈ frontier ∧ kindAdmitted (some kinds) edge.kind = true := by
  unfold frontierEdges lastId
  cases incoming <;> simp

theorem mem_wanted {visited : ListSet NodeId} {edges : List Edge} {id : NodeId} :
    id ∈ (wanted incoming visited edges).members ↔
      id ∉ visited.members ∧ ∃ edge ∈ edges, nextId incoming edge = id := by
  unfold wanted
  induction edges using List.reverseRecOn with
  | nil => simp
  | append_singleton edges last ih =>
    rw [foldl_append, foldl_cons, foldl_nil]
    split
    · rename_i known
      rw [ih]
      constructor
      · rintro ⟨fresh, edge, listed, same⟩
        exact ⟨fresh, edge, mem_append_left _ listed, same⟩
      rintro ⟨fresh, edge, listed, same⟩
      rcases mem_append.mp listed with earlier | here
      · exact ⟨fresh, edge, earlier, same⟩
      rw [mem_singleton.mp here] at same
      rw [same] at known
      rcases known with seen | known
      · exact absurd seen fresh
      · exact ih.mp known
    rename_i unknown
    rw [mem_insert, ih]
    constructor
    · rintro (same | ⟨fresh, edge, listed, same⟩)
      · rw [same]
        exact ⟨fun seen => unknown (.inl seen), last, by simp, rfl⟩
      · exact ⟨fresh, edge, mem_append_left _ listed, same⟩
    rintro ⟨fresh, edge, listed, same⟩
    rcases mem_append.mp listed with earlier | here
    · exact .inr ⟨fresh, edge, earlier, same⟩
    · rw [mem_singleton.mp here] at same
      exact .inl same.symm

/-- What the edges of a layer added to the walk. -/
structure Emitted (store : Store) (incoming : Bool) (edges : List Edge) (walk : RelationWalk)
    (layer : RelationLayer) (new : List NodeRef) : Prop where
  result : layer.result = walk.result ++ new
  nextFrontier : layer.nextFrontier = new.map (·.node.id)
  visited : ∀ id, id ∈ layer.visited.members ↔ id ∈ walk.visited.members ∨ id ∈ new.map (·.node.id)
  emitted : ∀ id ∈ layer.emitted.members, id ∈ layer.visited.members
  nodup : (new.map (·.node.id)).Nodup
  listed : ∀ ref ∈ new, ref.edge ∈ edges ∧ nextId incoming ref.edge = ref.node.id ∧
    ref.node.id ∉ walk.visited.members ∧ store.getNodeById ref.node.id = some ref.node
  all : ∀ edge ∈ edges, store.Stored (nextId incoming edge) → nextId incoming edge ∈ layer.visited.members

theorem nextLayer_emitted (store : Store) (incoming : Bool) (edges : List Edge) (walk : RelationWalk) :
    ∃ new, Emitted store incoming edges walk (nextLayer store incoming edges walk) new := by
  have known (edge : Edge) (mem : edge ∈ edges)
      (fresh : nextId incoming edge ∉ walk.visited.members) :
      (store.getNodesByIds (wanted incoming walk.visited edges).members).get
        (nextId incoming edge) = store.getNodeById (nextId incoming edge) := by
    rw [Store.get_getNodesByIds, if_pos (mem_wanted.mpr ⟨fresh, edge, mem, rfl⟩)]
  unfold nextLayer
  generalize store.getNodesByIds (wanted incoming walk.visited edges).members = nextNodes at known
  induction edges using List.reverseRecOn with
  | nil => exact ⟨[], by simp, by simp, by simp, by simp, by simp, by simp, by simp⟩
  | append_singleton edges last ih =>
    obtain ⟨new, before⟩ := ih fun edge mem fresh => known edge (mem_append_left _ mem) fresh
    rw [foldl_append, foldl_cons, foldl_nil]
    generalize edges.foldl (emit incoming nextNodes) _ = layer at before ⊢
    have kept (ref : NodeRef) (mem : ref ∈ new) := before.listed ref mem
    have keep (passed : store.Stored (nextId incoming last) →
        nextId incoming last ∈ layer.visited.members) :
        Emitted store incoming (edges ++ [last]) walk layer new := by
      refine ⟨before.result, before.nextFrontier, before.visited, before.emitted, before.nodup, ?_, ?_⟩
      · intro ref mem
        obtain ⟨listed, rest⟩ := kept ref mem
        exact ⟨mem_append_left _ listed, rest⟩
      intro edge mem stored
      rcases mem_append.mp mem with earlier | here
      · exact before.all edge earlier stored
      · rw [mem_singleton.mp here] at stored ⊢
        exact passed stored
    unfold emit
    split
    · rename_i seen
      exact ⟨new, keep fun _ => seen.elim id (before.emitted _)⟩
    rename_i unseen
    have fresh : nextId incoming last ∉ layer.visited.members := fun seen => unseen (.inl seen)
    have outside : nextId incoming last ∉ walk.visited.members := fun seen =>
      fresh ((before.visited _).mpr (.inl seen))
    rw [known last (by simp) outside]
    cases stored : store.getNodeById (nextId incoming last) with
    | none =>
      refine ⟨new, keep fun present => ?_⟩
      rw [Store.Stored, stored] at present
      contradiction
    | some node =>
      have same := Store.getNodeById_id stored
      refine ⟨new ++ [⟨node, last⟩], ?_, ?_, ?_, ?_, ?_, ?_, ?_⟩
      · simp [before.result]
      · simp [before.nextFrontier, same]
      · intro id
        simp only [mem_insert, before.visited, map_append, mem_append,
          map_cons, map_nil, mem_singleton, same]
        tauto
      · intro id mem
        simp only [mem_insert] at mem ⊢
        exact mem.imp_right (before.emitted id)
      · rw [map_append, map_cons, map_nil, ← concat_eq_append]
        apply before.nodup.concat
        rw [same]
        exact fun mem => fresh ((before.visited _).mpr (.inr mem))
      · intro ref mem
        rcases mem_append.mp mem with earlier | here
        · obtain ⟨listed, rest⟩ := kept ref earlier
          exact ⟨mem_append_left _ listed, rest⟩
        rw [mem_singleton.mp here]
        simp only
        rw [same]
        exact ⟨by simp, rfl, outside, stored⟩
      · intro edge mem stored'
        simp only [mem_insert]
        rcases mem_append.mp mem with earlier | here
        · exact .inr (before.all edge earlier stored')
        · rw [mem_singleton.mp here]
          exact .inl rfl

/-- The visited nodes are the layers up to the depth, and each listed edge comes from the layer
before that of its node. -/
structure Sound (store : Store) (incoming : Bool) (kinds : List EdgeKind) (startId : NodeId)
    (walk : RelationWalk) : Prop where
  visited : ∀ id, id ∈ walk.visited.members ↔
    ∃ count ≤ walk.depth, Distance (store.Steps incoming (some kinds)) startId id count
  frontier : ∀ id, id ∈ walk.frontier ↔ Distance (store.Steps incoming (some kinds)) startId id walk.depth
  nodup : (walk.result.map (·.node.id)).Nodup
  listed : ∀ id, id ∈ walk.result.map (·.node.id) ↔ id ≠ startId ∧ id ∈ walk.visited.members
  sorted : walk.result.Pairwise fun first second => ∀ count count',
    Distance (store.Steps incoming (some kinds)) startId first.node.id count →
      Distance (store.Steps incoming (some kinds)) startId second.node.id count' → count ≤ count'
  joined : ∀ ref ∈ walk.result, store.getNodeById ref.node.id = some ref.node ∧
    ref.edge ∈ store.edges ∧ kindAdmitted (some kinds) ref.edge.kind = true ∧
      nextId incoming ref.edge = ref.node.id ∧ ∃ count, Distance (store.Steps incoming (some kinds)) startId
            (lastId incoming ref.edge) count ∧
          Distance (store.Steps incoming (some kinds)) startId ref.node.id (count + 1)

theorem steps_iff {options : Option (List EdgeKind)} {near far : NodeId} :
    store.Steps incoming options near far ↔ store.Stored near ∧ store.Stored far ∧
      ∃ edge ∈ store.edges, lastId incoming edge = near ∧ nextId incoming edge = far ∧
        kindAdmitted options edge.kind = true := by
  unfold Store.Steps Store.Linked lastId nextId
  cases incoming with
  | false => simp
  | true =>
    simp only [if_true]
    constructor
    · rintro ⟨first, second, edge, mem, source, target, kind⟩
      exact ⟨second, first, edge, mem, target, source, kind⟩
    · rintro ⟨first, second, edge, mem, target, source, kind⟩
      exact ⟨second, first, edge, mem, source, target, kind⟩

theorem distance_stored {options : Option (List EdgeKind)} (present : store.Stored startId)
    {id : NodeId} {count : Nat} (distance : Distance (store.Steps incoming options) startId id count) :
    store.Stored id := by
  cases distance.reached with
  | start => exact present
  | step _ last => exact (steps_iff.mp last).2.1

theorem start_sound : (start startId).Sound store incoming kinds startId := by
  have only (id : NodeId) : id ∈ (start startId).visited.members ↔ id = startId := by simp [start]
  refine ⟨?_, ?_, nodup_nil, ?_, List.Pairwise.nil, ?_⟩
  · intro id
    rw [only]
    constructor
    · rintro rfl
      exact ⟨0, le_refl _, Distance.zero _ _⟩
    rintro ⟨count, within, distance⟩
    obtain rfl := Nat.le_zero.mp within
    exact Distance.zero_iff.mp distance
  · intro id
    rw [show (start startId).depth = 0 from rfl, Distance.zero_iff]
    exact mem_singleton
  · intro id
    rw [only]
    simp [start]
  · intro ref mem
    contradiction

theorem Sound.next_iff {walk : RelationWalk} (sound : walk.Sound store incoming kinds startId)
    (present : store.Stored startId) {id : NodeId} :
    Distance (store.Steps incoming (some kinds)) startId id (walk.depth + 1) ↔
      store.Stored id ∧ id ∉ walk.visited.members ∧
        ∃ edge ∈ frontierEdges store incoming walk.frontier kinds, nextId incoming edge = id := by
  rw [Distance.next_iff]
  have far : (∀ least ≤ walk.depth, ¬ Distance (store.Steps incoming (some kinds)) startId id least) ↔
        id ∉ walk.visited.members := by
    rw [sound.visited]
    simp
  rw [far]
  constructor
  · rintro ⟨⟨middle, distance, last⟩, fresh⟩
    obtain ⟨_, stored, edge, mem, finish, same, kind⟩ := steps_iff.mp last
    refine ⟨stored, fresh, edge, mem_frontierEdges.mpr ⟨mem, ?_, kind⟩, same⟩
    rwa [finish, sound.frontier]
  rintro ⟨stored, fresh, edge, mem, same⟩
  obtain ⟨mem, finish, kind⟩ := mem_frontierEdges.mp mem
  rw [sound.frontier] at finish
  exact ⟨⟨_, finish, steps_iff.mpr
    ⟨distance_stored present finish, stored, edge, mem, rfl, same, kind⟩⟩, fresh⟩

theorem step_sound {walk after : RelationWalk} (present : store.Stored startId)
    (sound : walk.Sound store incoming kinds startId)
    (moved : step store maxDepth incoming kinds walk = some after) :
    after.Sound store incoming kinds startId ∧ walk.depth < maxDepth ∧ after.depth = walk.depth + 1 := by
  unfold step at moved
  split at moved
  swap
  · contradiction
  rename_i going
  split at moved
  · contradiction
  split at moved
  · contradiction
  cases moved
  obtain ⟨new, emitted⟩ := nextLayer_emitted store incoming
    (frontierEdges store incoming walk.frontier kinds) walk
  generalize nextLayer store incoming (frontierEdges store incoming walk.frontier kinds) walk =
    layer at emitted ⊢
  have layered (id : NodeId) : id ∈ new.map (·.node.id) ↔
      Distance (store.Steps incoming (some kinds)) startId id (walk.depth + 1) := by
    rw [sound.next_iff present]
    constructor
    · intro late
      obtain ⟨ref, mem, rfl⟩ := mem_map.mp late
      obtain ⟨listed, same, fresh, stored⟩ := emitted.listed ref mem
      refine ⟨?_, fresh, ref.edge, listed, same⟩
      rw [Store.Stored, stored]
      rfl
    · rintro ⟨stored, fresh, edge, mem, rfl⟩
      exact ((emitted.visited _).mp (emitted.all edge mem stored)).resolve_left fresh
  refine ⟨⟨?_, ?_, ?_, ?_, ?_, ?_⟩, going.1, rfl⟩
  · intro id
    rw [emitted.visited, sound.visited, layered]
    constructor
    · rintro (⟨count, within, distance⟩ | distance)
      · exact ⟨count, Nat.le_succ_of_le within, distance⟩
      · exact ⟨walk.depth + 1, le_refl _, distance⟩
    rintro ⟨count, within, distance⟩
    rcases Nat.lt_or_eq_of_le within with below | same
    · exact .inl ⟨count, Nat.le_of_lt_succ below, distance⟩
    · rw [same] at distance
      exact .inr distance
  · intro id
    rw [emitted.nextFrontier, layered]
  · rw [emitted.result, map_append, nodup_append']
    refine ⟨sound.nodup, emitted.nodup, ?_⟩
    intro id earlier later
    obtain ⟨ref, mem, rfl⟩ := mem_map.mp later
    exact (emitted.listed ref mem).2.2.1 ((sound.listed _).mp earlier).2
  · intro id
    rw [emitted.result, map_append, mem_append, sound.listed, emitted.visited]
    constructor
    · rintro (⟨apart, seen⟩ | late)
      · exact ⟨apart, .inl seen⟩
      · refine ⟨?_, .inr late⟩
        rintro rfl
        have zero := ((layered id).mp late).unique (Distance.zero _ _)
        contradiction
    rintro ⟨apart, seen | late⟩
    · exact .inl ⟨apart, seen⟩
    · exact .inr late
  · change layer.result.Pairwise _
    rw [emitted.result, pairwise_append]
    refine ⟨sound.sorted, ?_, ?_⟩
    · apply pairwise_of_forall_mem_list
      intro first mem second mem' count count' distance distance'
      rw [distance.unique ((layered _).mp (mem_map_of_mem mem)),
        distance'.unique ((layered _).mp (mem_map_of_mem mem'))]
    intro first mem second mem' count count' distance distance'
    obtain ⟨least, within, nearer⟩ := (sound.visited _).mp
      ((sound.listed _).mp (mem_map_of_mem mem)).2
    have earlier := distance.unique nearer
    have later := distance'.unique ((layered _).mp (mem_map_of_mem mem'))
    omega
  · intro ref mem
    change ref ∈ layer.result at mem
    rw [emitted.result] at mem
    rcases mem_append.mp mem with earlier | late
    · exact sound.joined ref earlier
    obtain ⟨listed, same, fresh, stored⟩ := emitted.listed ref late
    obtain ⟨edge, finish, kind⟩ := mem_frontierEdges.mp listed
    exact ⟨stored, edge, kind, same, walk.depth, (sound.frontier _).mp finish,
      (layered _).mp (mem_map_of_mem late)⟩

theorem Sound.complete {walk : RelationWalk} (present : store.Stored startId)
    (sound : walk.Sound store incoming kinds startId)
    (ended : step store maxDepth incoming kinds walk = none) {id : NodeId} {count : Nat}
    (distance : Distance (store.Steps incoming (some kinds)) startId id count)
    (within : count ≤ maxDepth) : id ∈ walk.visited.members := by
  rw [sound.visited]
  by_cases near : count ≤ walk.depth
  · exact ⟨count, near, distance⟩
  exfalso
  obtain ⟨far, layer⟩ := distance.layer (Nat.lt_of_not_le near)
  obtain ⟨stored, fresh, edge, mem, same⟩ := (sound.next_iff present).mp layer
  have frontier : walk.frontier ≠ [] := by
    intro empty
    have finish := (mem_frontierEdges.mp mem).2.1
    rw [empty] at finish
    contradiction
  have wanted := mem_wanted.mpr ⟨fresh, edge, mem, same⟩
  rw [step, if_pos ⟨by omega, frontier⟩, if_neg (ne_nil_of_mem mem), if_neg (ne_nil_of_mem wanted)] at ended
  contradiction

end RelationWalk

namespace Store

variable {store : Store}

theorem traverseRelationLayers_sound {startId : NodeId} (present : store.Stored startId)
    (maxDepth : Nat) (incoming : Bool) (kinds : List EdgeKind) :
    ∃ walk : RelationWalk, walk.Sound store incoming kinds startId ∧
      walk.result = store.traverseRelationLayers startId maxDepth incoming kinds ∧
        ∀ id, id ∈ walk.visited.members ↔ ∃ count ≤ maxDepth,
          Distance (store.Steps incoming (some kinds)) startId id count := by
  have keeps (before after : RelationWalk)
      (inv : before.Sound store incoming kinds startId ∧ before.depth ≤ maxDepth)
      (moved : RelationWalk.step store maxDepth incoming kinds before = some after) :
      after.Sound store incoming kinds startId ∧ after.depth ≤ maxDepth := by
    obtain ⟨sound, below, deeper⟩ := RelationWalk.step_sound present inv.1 moved
    exact ⟨sound, by omega⟩
  have falls (before after : RelationWalk)
      (inv : before.Sound store incoming kinds startId ∧ before.depth ≤ maxDepth)
      (moved : RelationWalk.step store maxDepth incoming kinds before = some after) :
      maxDepth - after.depth < maxDepth - before.depth := by
    obtain ⟨_, below, deeper⟩ := RelationWalk.step_sound present inv.1 moved
    omega
  have begins : (RelationWalk.start startId).Sound store incoming kinds startId ∧
      (RelationWalk.start startId).depth ≤ maxDepth :=
    ⟨RelationWalk.start_sound, Nat.zero_le _⟩
  have halts := halts_loop keeps falls maxDepth _ begins (Nat.sub_le _ _)
  obtain ⟨sound, bounded⟩ := halts.preserves keeps begins
  refine ⟨_, sound, ?_, ?_⟩
  · unfold traverseRelationLayers
    split
    · rename_i zero
      rw [zero]
      rfl
    · rfl
  intro id
  constructor
  · intro seen
    obtain ⟨count, within, distance⟩ := (sound.visited id).mp seen
    exact ⟨count, le_trans within bounded, distance⟩
  · rintro ⟨count, within, distance⟩
    exact sound.complete present halts.ended distance within

end Store

end Codegraph.Traverser
