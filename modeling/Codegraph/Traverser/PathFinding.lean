import Codegraph.Library.QueueSearch
import Codegraph.Traverser.Relations

namespace Codegraph.Traverser

open Library Sync List Dict ListSet

/-- The first step of a path has no edge. -/
structure PathStep where
  node : Node
  edge : Option Edge
deriving DecidableEq

structure PathSearch where
  visited : ListSet NodeId
  cameFrom : Dict NodeId (NodeId × Edge)
  nodeCache : Dict NodeId Node
  queue : List NodeId

/-- The search goes on until it has a path. -/
inductive PathState where
  | searching (search : PathSearch)
  | found (path : List PathStep)

namespace PathSearch

/-- A target is met for the first time. -/
def discover (nodeId : NodeId) (edge : Edge) (node : Node) (search : PathSearch) : PathSearch :=
  { search with
    visited := search.visited.insert edge.target
    nodeCache := search.nodeCache.set edge.target node
    cameFrom := search.cameFrom.set edge.target (nodeId, edge) }

def enqueue (target : NodeId) (search : PathSearch) : PathSearch :=
  { search with queue := search.queue ++ [target] }

/-- The edges are followed until one leads to the target. -/
def followEdges (nextNodes : Dict NodeId Node) (nodeId toId : NodeId) :
    List Edge → PathSearch → PathSearch × Bool
  | [], search => (search, false)
  | edge :: rest, search =>
    if edge.target ∈ search.visited.members then followEdges nextNodes nodeId toId rest search
    else
      match nextNodes.get edge.target with
      | none => followEdges nextNodes nodeId toId rest search
      | some node =>
        if edge.target = toId then (search.discover nodeId edge node, true)
        else followEdges nextNodes nodeId toId rest
          ((search.discover nodeId edge node).enqueue edge.target)

/-- The steps from a node back to the start, each node taken out of the cache. -/
def walkBack (fromId : NodeId) (cameFrom : Dict NodeId (NodeId × Edge)) :
    Nat → NodeId → Dict NodeId Node → List PathStep → List PathStep
  | 0, _, _, reverse => reverse
  | maxSteps + 1, current, nodeCache, reverse =>
    match nodeCache.get current with
    | none => reverse
    | some node =>
      if current = fromId then reverse ++ [⟨node, none⟩]
      else
        match cameFrom.get current with
        | none => reverse
        | some (parent, edge) =>
          walkBack fromId cameFrom maxSteps parent (nodeCache.remove current)
            (reverse ++ [⟨node, some edge⟩])

def reconstructPath (fromId toId : NodeId) (cameFrom : Dict NodeId (NodeId × Edge))
    (nodeCache : Dict NodeId Node) : List PathStep :=
  (walkBack fromId cameFrom (cameFrom.keys.length + 1) toId nodeCache []).reverse

/-- The targets that were not visited are fetched together. -/
def nextNodes (store : Store) (visited : ListSet NodeId) (edges : List Edge) : Dict NodeId Node :=
  store.getNodesByIds ((edges.map Edge.target).filter (· ∉ visited.members))

def step (store : Store) (kinds : Option (List EdgeKind)) (fromId toId : NodeId) :
    PathState → Option PathState
  | .found _ => none
  | .searching search =>
    match search.queue with
    | [] => none
    | nodeId :: rest =>
      let edges := store.getOutgoingEdges nodeId kinds
      match followEdges (nextNodes store search.visited edges) nodeId toId edges
          { search with queue := rest } with
      | (search, true) => some (.found (reconstructPath fromId toId search.cameFrom search.nodeCache))
      | (search, false) => some (.searching search)

def start (fromNode : Node) : PathSearch :=
  ⟨ListSet.empty.insert fromNode.id, ∅, Dict.set ∅ fromNode.id fromNode, [fromNode.id]⟩

end PathSearch

/-- No kinds mean all kinds. -/
def chosenKinds (edgeKinds : List EdgeKind) : Option (List EdgeKind) :=
  if edgeKinds = [] then none else some edgeKinds

namespace Store

/-- Every stored node is expanded at most once. -/
def findPath (store : Store) (fromId toId : NodeId) (edgeKinds : List EdgeKind) : Option (List PathStep) :=
  match store.getNodeById fromId, store.getNodeById toId with
  | some fromNode, some _ =>
    if fromId = toId then some [⟨fromNode, none⟩]
    else
      match loop (PathSearch.step store (chosenKinds edgeKinds) fromId toId)
          (store.nodes.length + 2) (.searching (.start fromNode)) with
      | .found path => some path
      | .searching _ => none
  | _, _ => none

/-- Each step after the first is joined to the one before it by its edge. -/
inductive Joined (store : Store) (kinds : Option (List EdgeKind)) (fromId : NodeId) :
    NodeId → List PathStep → Prop
  | start {node : Node} (stored : store.getNodeById fromId = some node) :
      Joined store kinds fromId fromId [⟨node, none⟩]
  | step {middle : NodeId} {path : List PathStep} {edge : Edge} {node : Node}
      (before : Joined store kinds fromId middle path) (listed : edge ∈ store.edges)
      (source : edge.source = middle) (kind : kindAdmitted kinds edge.kind = true)
      (stored : store.getNodeById edge.target = some node) :
      Joined store kinds fromId edge.target (path ++ [⟨node, some edge⟩])

/-- The stored nodes that the edges of a node lead to. -/
def nextIds (store : Store) (kinds : Option (List EdgeKind)) (id : NodeId) : List NodeId :=
  ((store.getOutgoingEdges id kinds).map Edge.target).filter (store.Stored ·)

variable {store : Store} {kinds : Option (List EdgeKind)} {fromId toId : NodeId}

theorem mem_nextIds {first second : NodeId} :
    second ∈ store.nextIds kinds first ↔ store.Stored second ∧ ∃ edge ∈ store.edges,
      edge.source = first ∧ edge.target = second ∧ kindAdmitted kinds edge.kind = true := by
  rw [nextIds, mem_filter, mem_map, decide_eq_true_eq, and_comm]
  refine and_congr_right fun _ => exists_congr fun edge => ?_
  rw [mem_getOutgoingEdges]
  tauto

/-- From a stored node the search takes the steps of the graph. -/
theorem hops_nextIds (present : store.Stored fromId) {count : Nat} {id : NodeId} :
    Hops (fun first second => second ∈ store.nextIds kinds first) fromId count id ↔
      Hops (store.Linked kinds) fromId count id := by
  constructor
  · intro hops
    have stored : store.Stored id ∧ Hops (store.Linked kinds) fromId count id := by
      induction hops with
      | start => exact ⟨present, .start⟩
      | step _ last ih =>
        obtain ⟨stored, edge⟩ := mem_nextIds.mp last
        exact ⟨stored, .step ih.2 ⟨ih.1, stored, edge⟩⟩
    exact stored.2
  intro hops
  induction hops with
  | start => exact .start
  | step _ last ih => exact .step ih (mem_nextIds.mpr last.2)

end Store

namespace PathSearch

/-- The predecessors without their edges are those of a plain search. -/
structure Mirrors (search : PathSearch) (plain : QueueSearch NodeId) : Prop where
  visited : search.visited = plain.visited
  queue : search.queue = plain.queue
  cameFrom : ∀ id, plain.predecessor.get id = (search.cameFrom.get id).map Prod.fst

/-- Every visited node is stored and cached, and every predecessor comes with an edge. -/
structure Backed (store : Store) (kinds : Option (List EdgeKind)) (search : PathSearch) : Prop where
  cached : ∀ id ∈ search.visited.members, store.Stored id ∧ search.nodeCache.get id = store.getNodeById id
  edges : ∀ id parent edge, search.cameFrom.get id = some (parent, edge) → edge ∈ store.edges ∧
    edge.source = parent ∧ edge.target = id ∧ kindAdmitted kinds edge.kind = true
  led : ∀ id parent edge, search.cameFrom.get id = some (parent, edge) → id ∈ search.visited.members

variable {store : Store} {kinds : Option (List EdgeKind)} {fromId toId : NodeId}

variable {search : PathSearch}

theorem Backed.discover (backed : search.Backed store kinds) {nodeId : NodeId} {edge : Edge} {node : Node}
    (stored : store.getNodeById edge.target = some node) (listed : edge ∈ store.edges)
    (source : edge.source = nodeId) (kind : kindAdmitted kinds edge.kind = true) :
    (search.discover nodeId edge node).Backed store kinds := by
  refine ⟨?_, ?_, ?_⟩
  · intro id mem
    simp only [PathSearch.discover, mem_insert, get_set] at mem ⊢
    split
    · rename_i same
      rw [same, Store.Stored, stored]
      exact ⟨rfl, rfl⟩
    · rename_i apart
      exact backed.cached id (mem.resolve_left apart)
  · intro id parent other found
    simp only [PathSearch.discover, get_set] at found
    split at found
    · rename_i same
      cases found
      exact ⟨listed, source, same.symm, kind⟩
    · exact backed.edges id parent other found
  intro id parent other found
  simp only [PathSearch.discover, get_set, mem_insert] at found ⊢
  split at found
  · rename_i same
    exact .inl same
  · exact .inr (backed.led id parent other found)

/-- What was visited before keeps its predecessor. -/
theorem discover_kept (nodeId : NodeId) {edge : Edge} (node : Node)
    (fresh : edge.target ∉ search.visited.members) {id : NodeId}
    (mem : id ∈ search.visited.members) :
    id ∈ (search.discover nodeId edge node).visited.members ∧
      (search.discover nodeId edge node).cameFrom.get id = search.cameFrom.get id := by
  refine ⟨(mem_insert ..).mpr (.inr mem), get_set_ne _ _ ?_⟩
  rintro rfl
  exact fresh mem

variable {plain : QueueSearch NodeId}

theorem Mirrors.meet (mirrors : search.Mirrors plain) {nodeId : NodeId} {edge : Edge} (node : Node)
    (fresh : edge.target ∉ search.visited.members) :
    ((search.discover nodeId edge node).enqueue edge.target).Mirrors
      (plain.meet nodeId edge.target) := by
  have absent := mirrors.visited ▸ fresh
  rw [QueueSearch.meet, if_neg absent]
  refine ⟨?_, ?_, fun id => ?_⟩
  · simp only [enqueue, PathSearch.discover, mirrors.visited]
  · simp only [enqueue, PathSearch.discover, mirrors.queue]
  simp only [enqueue, PathSearch.discover, get_set]
  split
  · rfl
  · exact mirrors.cameFrom id

/-- What the edges of a node, up to the target, did to the search. -/
structure Followed (store : Store) (kinds : Option (List EdgeKind)) (nodeId toId : NodeId)
    (edges : List Edge) (before : PathSearch) (plain : QueueSearch NodeId) (after : PathSearch)
    (done : Bool) : Prop where
  backed : after.Backed store kinds
  kept : ∀ id ∈ before.visited.members, id ∈ after.visited.members ∧
    after.cameFrom.get id = before.cameFrom.get id
  going : done = false → toId ∉ after.visited.members ∧ after.Mirrors
    (((edges.map Edge.target).filter (store.Stored ·)).foldl (QueueSearch.meet nodeId) plain)
  found : done = true → ∃ edge, after.cameFrom.get toId = some (nodeId, edge)

theorem followEdges_followed {nextNodes : Dict NodeId Node} {nodeId : NodeId} {edges : List Edge}
    (known : ∀ edge ∈ edges, edge.target ∉ search.visited.members →
      nextNodes.get edge.target = store.getNodeById edge.target)
    (listed : ∀ edge ∈ edges, edge ∈ store.edges ∧ edge.source = nodeId ∧
      kindAdmitted kinds edge.kind = true)
    (mirrors : search.Mirrors plain) (backed : search.Backed store kinds)
    (fresh : toId ∉ search.visited.members) :
    Followed store kinds nodeId toId edges search plain
      (followEdges nextNodes nodeId toId edges search).1
      (followEdges nextNodes nodeId toId edges search).2 := by
  induction edges generalizing search plain with
  | nil =>
    exact ⟨backed, fun id mem => ⟨mem, rfl⟩, fun _ => ⟨fresh, mirrors⟩,
      fun impossible => absurd impossible Bool.false_ne_true⟩
  | cons edge rest ih =>
    have known' := fun other mem => known other (mem_cons_of_mem edge mem)
    have listed' := fun other mem => listed other (mem_cons_of_mem edge mem)
    unfold followEdges
    by_cases seen : edge.target ∈ search.visited.members
    · rw [if_pos seen]
      have followed := ih known' listed' mirrors backed fresh
      refine ⟨followed.backed, followed.kept, fun going => ?_, followed.found⟩
      have stored := (backed.cached _ seen).1
      have same : plain.meet nodeId edge.target = plain := by
        rw [QueueSearch.meet, if_pos (mirrors.visited ▸ seen)]
      rw [map_cons, filter_cons_of_pos (by simpa using stored), foldl_cons, same]
      exact followed.going going
    rw [if_neg seen, known edge mem_cons_self seen]
    cases stored : store.getNodeById edge.target with
    | none =>
      have followed := ih known' listed' mirrors backed fresh
      refine ⟨followed.backed, followed.kept, fun going => ?_, followed.found⟩
      have absent : ¬ store.Stored edge.target := by
        rw [Store.Stored, stored]
        exact Bool.false_ne_true
      rw [map_cons, filter_cons_of_neg (by simpa using absent)]
      exact followed.going going
    | some node =>
      obtain ⟨mem, source, kind⟩ := listed edge mem_cons_self
      have present : store.Stored edge.target := by
        rw [Store.Stored, stored]
        rfl
      have backed' := backed.discover stored mem source kind
      simp only
      by_cases last : edge.target = toId
      · rw [if_pos last]
        refine ⟨backed', fun id => discover_kept nodeId node seen, fun impossible => ?_,
          fun _ => ⟨edge, ?_⟩⟩
        · exact absurd impossible.symm Bool.false_ne_true
        · rw [← last]
          exact get_set_self ..
      rw [if_neg last]
      have unseen (id : NodeId)
          (absent : id ∉
            ((search.discover nodeId edge node).enqueue edge.target).visited.members) :
          id ∉ search.visited.members := fun old =>
        absent (discover_kept nodeId node seen old).1
      have fresh' : toId ∉ (search.discover nodeId edge node).visited.members := by
        rw [PathSearch.discover, mem_insert, not_or]
        exact ⟨fun same => last same.symm, fresh⟩
      have followed := ih
        (fun other mem absent => known' other mem (unseen _ absent)) listed'
        (mirrors.meet node seen) ⟨backed'.cached, backed'.edges, backed'.led⟩ fresh'
      refine ⟨followed.backed, ?_, fun going => ?_, followed.found⟩
      · intro id mem
        obtain ⟨here, same⟩ := discover_kept nodeId node seen mem
        obtain ⟨there, same'⟩ := followed.kept id here
        exact ⟨there, same'.trans same⟩
      · rw [map_cons, filter_cons_of_pos (by simpa using present), foldl_cons]
        exact followed.going going

/-- The steps that the search takes from a node. -/
abbrev Away (store : Store) (kinds : Option (List EdgeKind)) (first second : NodeId) : Prop :=
  second ∈ store.nextIds kinds first

theorem walkBack_joined {after : PathSearch}
    (sound : plain.Sound (store.nextIds kinds) fromId) (backed : after.Backed store kinds)
    (agrees : ∀ id ∈ plain.visited.members, plain.predecessor.get id = (after.cameFrom.get id).map Prod.fst)
    (stored : ∀ id ∈ plain.visited.members, store.Stored id) {count : Nat} {current : NodeId}
    (visited : current ∈ plain.visited.members)
    (distance : Distance (Away store kinds) fromId current count) {maxSteps : Nat}
    (enough : count + 1 ≤ maxSteps) {nodeCache : Dict NodeId Node}
    (cached : ∀ id ∈ plain.visited.members, ∀ nearer ≤ count,
      Distance (Away store kinds) fromId id nearer → nodeCache.get id = store.getNodeById id)
    (reverse : List PathStep) :
    ∃ path, store.Joined kinds fromId current path ∧ path.length = count + 1 ∧
      walkBack fromId after.cameFrom maxSteps current nodeCache reverse = reverse ++ path.reverse := by
  induction count generalizing current maxSteps nodeCache reverse with
  | zero =>
    obtain ⟨maxSteps, rfl⟩ : ∃ fewer, maxSteps = fewer + 1 := ⟨maxSteps - 1, by omega⟩
    obtain ⟨node, found⟩ := Option.isSome_iff_exists.mp (stored current visited)
    have here := cached current visited 0 (le_refl _) distance
    rw [Distance.zero_iff] at distance
    subst distance
    refine ⟨[⟨node, none⟩], .start found, rfl, ?_⟩
    rw [walkBack, here, found]
    simp
  | succ count ih =>
    obtain ⟨maxSteps, rfl⟩ : ∃ fewer, maxSteps = fewer + 1 := ⟨maxSteps - 1, by omega⟩
    have apart : current ≠ fromId := by
      rintro rfl
      have zero := distance.unique (Distance.zero _ _)
      contradiction
    rcases sound.led current visited with same | ⟨before, mem, led, _, other, first, last⟩
    · exact absurd same apart
    obtain rfl : other = count := Nat.succ.inj (last.unique distance)
    obtain ⟨node, found⟩ := Option.isSome_iff_exists.mp (stored current visited)
    have here := cached current visited (other + 1) (le_refl _) distance
    rw [agrees current visited, Option.map_eq_some_iff] at led
    obtain ⟨⟨parent, edge⟩, came, same⟩ := led
    simp only at same
    subst same
    obtain ⟨listed, source, target, kind⟩ := backed.edges current parent edge came
    have cached' : ∀ id ∈ plain.visited.members, ∀ nearer ≤ other,
        Distance (Away store kinds) fromId id nearer →
          (nodeCache.remove current).get id = store.getNodeById id := by
      intro id mem' nearer within distance'
      rw [get_remove, if_neg]
      · exact cached id mem' nearer (Nat.le_succ_of_le within) distance'
      · rintro rfl
        have both := distance.unique distance'
        omega
    obtain ⟨path, joined, length, walked⟩ := ih mem first (Nat.le_of_succ_le_succ enough)
      cached' (reverse ++ [⟨node, some edge⟩])
    rw [← target] at found
    refine ⟨path ++ [⟨node, some edge⟩], ?_, ?_, ?_⟩
    · rw [← target]
      exact .step joined listed source kind found
    · rw [length_append, length]
      rfl
    rw [walkBack, here, ← target, found, target]
    simp only
    rw [if_neg apart, came]
    simp only
    rw [walked]
    simp

/-- The search mirrors a sound plain search that has not met the target. -/
structure Sound (store : Store) (kinds : Option (List EdgeKind)) (fromId toId : NodeId)
    (search : PathSearch) : Prop where
  plain : ∃ plain, search.Mirrors plain ∧ plain.Sound (store.nextIds kinds) fromId
  backed : search.Backed store kinds
  fresh : toId ∉ search.visited.members

/-- The path is joined, and no walk to the target is shorter. -/
def Shortest (store : Store) (kinds : Option (List EdgeKind)) (fromId toId : NodeId)
    (path : List PathStep) : Prop :=
  store.Joined kinds fromId toId path ∧
    ∀ count, Hops (Away store kinds) fromId count toId → path.length ≤ count + 1

/-- A state of the loop is a sound search or the result. -/
def Good (store : Store) (kinds : Option (List EdgeKind)) (fromId toId : NodeId) : PathState → Prop
  | .searching search => search.Sound store kinds fromId toId
  | .found path => Shortest store kinds fromId toId path

/-- The nodes that can still be expanded. -/
def remaining (store : Store) : PathState → Nat
  | .searching search => store.nodes.length - search.visited.size + search.queue.length + 1
  | .found _ => 0

theorem Backed.size_le (backed : search.Backed store kinds) : search.visited.size ≤ store.nodes.length := by
  have inside : search.visited.members ⊆ store.nodes.map Node.id := by
    intro id mem
    obtain ⟨node, found⟩ := Option.isSome_iff_exists.mp (backed.cached id mem).1
    obtain ⟨listed, rfl⟩ := Store.getNodeById_eq.mp found
    exact mem_map_of_mem listed
  have shorter := (subperm_of_subset search.visited.nodup inside).length_le
  rwa [length_map] at shorter

theorem reconstructPath_shortest {search after : PathSearch} {nodeId : NodeId}
    {rest : List NodeId} {edges : List Edge} {edge : Edge}
    (sound : search.Sound store kinds fromId toId) (mirrors : search.Mirrors plain)
    (plainSound : plain.Sound (store.nextIds kinds) fromId) (queued : search.queue = nodeId :: rest)
    (followed : Followed store kinds nodeId toId edges { search with queue := rest }
      { plain with queue := rest } after true)
    (came : after.cameFrom.get toId = some (nodeId, edge)) :
    Shortest store kinds fromId toId
      (reconstructPath fromId toId after.cameFrom after.nodeCache) := by
  have queued' : plain.queue = nodeId :: rest := by rw [← mirrors.queue, queued]
  have visited : nodeId ∈ plain.visited.members :=
    plainSound.waiting nodeId (by rw [queued']; exact mem_cons_self)
  have fresh := mirrors.visited ▸ sound.fresh
  have kept (id : NodeId) (mem : id ∈ plain.visited.members) : id ∈ after.visited.members ∧
      after.cameFrom.get id = search.cameFrom.get id :=
    followed.kept id (by rw [mirrors.visited]; exact mem)
  obtain ⟨depth, distance⟩ := plainSound.reached nodeId visited
  obtain ⟨trace, traced, traceLength⟩ := plainSound.traced visited distance
  -- The predecessors include the target itself and all nodes behind it.
  have enough : depth + 1 ≤ after.cameFrom.keys.length := by
    have bound := traced.length_le plainSound visited
    have subset : toId :: plain.predecessor.keys ⊆ after.cameFrom.keys := by
      intro id mem
      rw [mem_keys_iff]
      rcases mem_cons.mp mem with rfl | mem
      · exact ⟨_, came⟩
      obtain ⟨parent, found⟩ := (mem_keys_iff _ _).mp mem
      rw [mirrors.cameFrom, Option.map_eq_some_iff] at found
      obtain ⟨⟨source, other⟩, found, _⟩ := found
      have old := sound.backed.led id source other found
      exact ⟨_, ((kept id (mirrors.visited ▸ old)).2).trans found⟩
    have absent : toId ∉ plain.predecessor.keys := by
      intro mem
      obtain ⟨parent, found⟩ := (mem_keys_iff _ _).mp mem
      rw [mirrors.cameFrom, Option.map_eq_some_iff] at found
      obtain ⟨⟨source, other⟩, found, _⟩ := found
      exact sound.fresh (sound.backed.led toId source other found)
    have nodup := nodup_cons.mpr ⟨absent, plain.predecessor.nodupKeys⟩
    have longer := (subperm_of_subset nodup subset).length_le
    rw [length_cons] at longer
    omega
  have apart : toId ≠ fromId := by
    rintro rfl
    exact fresh plainSound.start
  have last := followed.backed.led toId nodeId edge came
  obtain ⟨stored, cachedTo⟩ := followed.backed.cached toId last
  obtain ⟨node, found⟩ := Option.isSome_iff_exists.mp stored
  obtain ⟨listed, source, target, kind⟩ := followed.backed.edges toId nodeId edge came
  have cached : ∀ id ∈ plain.visited.members, ∀ nearer ≤ depth,
      Distance (Away store kinds) fromId id nearer →
        (after.nodeCache.remove toId).get id = store.getNodeById id := by
    intro id mem _ _ _
    rw [get_remove, if_neg]
    · exact (followed.backed.cached id (kept id mem).1).2
    · rintro rfl
      exact fresh mem
  obtain ⟨path, joined, length, walked⟩ := walkBack_joined plainSound followed.backed
    (fun id mem => by rw [(kept id mem).2, mirrors.cameFrom])
    (fun id mem => (followed.backed.cached id (kept id mem).1).1) visited distance
    enough cached [⟨node, some edge⟩]
  have rebuilt : reconstructPath fromId toId after.cameFrom after.nodeCache =
      path ++ [⟨node, some edge⟩] := by
    rw [reconstructPath, walkBack, cachedTo, found]
    simp only
    rw [if_neg apart, came]
    simp only [nil_append]
    rw [walked]
    simp
  rw [rebuilt]
  refine ⟨?_, ?_⟩
  · rw [← target] at found ⊢
    exact .step joined listed source kind found
  intro count hops
  have farther := plainSound.far queued' distance fresh hops
  rw [length_append, length]
  exact Nat.succ_le_succ farther

theorem step_good {before after : PathState} (good : Good store kinds fromId toId before)
    (moved : step store kinds fromId toId before = some after) :
    Good store kinds fromId toId after ∧ remaining store after < remaining store before := by
  cases before with
  | found path => contradiction
  | searching search =>
    obtain ⟨⟨plain, mirrors, plainSound⟩, backed, fresh⟩ := good
    unfold step at moved
    cases queued : search.queue with
    | nil =>
      simp only [queued] at moved
      contradiction
    | cons nodeId rest =>
      simp only [queued] at moved
      have queued' : plain.queue = nodeId :: rest := by rw [← mirrors.queue, queued]
      have known : ∀ edge ∈ store.getOutgoingEdges nodeId kinds, edge.target ∉ search.visited.members →
            (nextNodes store search.visited (store.getOutgoingEdges nodeId kinds)).get
              edge.target = store.getNodeById edge.target := by
        intro edge mem absent
        rw [nextNodes, Store.get_getNodesByIds, if_pos]
        exact mem_filter.mpr ⟨mem_map_of_mem mem, by simpa using absent⟩
      have popped : PathSearch.Mirrors { search with queue := rest }
          { plain with queue := rest } := ⟨mirrors.visited, rfl, mirrors.cameFrom⟩
      have followed : Followed store kinds nodeId toId (store.getOutgoingEdges nodeId kinds)
          { search with queue := rest } { plain with queue := rest }
          (followEdges (nextNodes store search.visited (store.getOutgoingEdges nodeId kinds))
            nodeId toId (store.getOutgoingEdges nodeId kinds) { search with queue := rest }).1
          (followEdges (nextNodes store search.visited (store.getOutgoingEdges nodeId kinds))
            nodeId toId (store.getOutgoingEdges nodeId kinds) { search with queue := rest }).2 :=
        followEdges_followed known
          (fun edge mem => (Store.mem_getOutgoingEdges ..).mp mem) popped
          ⟨backed.cached, backed.edges, backed.led⟩ fresh
      cases ran : followEdges (nextNodes store search.visited
          (store.getOutgoingEdges nodeId kinds)) nodeId toId
          (store.getOutgoingEdges nodeId kinds) { search with queue := rest } with
      | mk reached done =>
        rw [ran] at moved followed
        cases done with
        | true =>
          cases moved
          obtain ⟨edge, came⟩ := followed.found rfl
          refine ⟨reconstructPath_shortest ⟨⟨plain, mirrors, plainSound⟩, backed, fresh⟩
            mirrors plainSound queued followed came, Nat.succ_pos _⟩
        | false =>
          cases moved
          obtain ⟨absent, mirrors'⟩ := followed.going rfl
          refine ⟨⟨⟨_, mirrors', plainSound.expand queued'⟩, followed.backed, absent⟩, ?_⟩
          obtain ⟨new, met⟩ := QueueSearch.foldl_meet nodeId (store.nextIds kinds nodeId)
            { plain with queue := rest }
          have grew : reached.visited.size = search.visited.size + new.length := by
            rw [mirrors'.visited, mirrors.visited]
            exact met.size
          have length : reached.queue.length = rest.length + new.length := by
            rw [mirrors'.queue, ← length_append]
            exact congrArg List.length met.queue
          have room : reached.visited.size ≤ store.nodes.length := followed.backed.size_le
          simp only [remaining, queued, length_cons]
          omega

end PathSearch

namespace Store

variable {store : Store}

/-- The target has a walk of admitted edges between stored nodes from the start. -/
def ReachableAlong (store : Store) (edgeKinds : List EdgeKind) (fromId toId : NodeId) : Prop :=
  store.Stored fromId ∧ store.Stored toId ∧
    ∃ count, Hops (store.Linked (chosenKinds edgeKinds)) fromId count toId

theorem Joined.hops {kinds : Option (List EdgeKind)} {fromId toId : NodeId} {path : List PathStep}
    (joined : store.Joined kinds fromId toId path) : store.Stored toId ∧
      ∃ count, path.length = count + 1 ∧ Hops (store.Linked kinds) fromId count toId := by
  induction joined with
  | start stored =>
    refine ⟨?_, 0, rfl, .start⟩
    rw [Stored, stored]
    rfl
  | @step middle path edge node _ listed source kind stored ih =>
    obtain ⟨present, count, length, hops⟩ := ih
    have stored' : store.Stored edge.target := by
      rw [Stored, stored]
      rfl
    refine ⟨stored', count + 1, ?_, .step hops ⟨present, stored', edge, listed, source, rfl, kind⟩⟩
    rw [length_append, length]
    rfl

/-- The search returns a shortest joined path if the target is reachable and nothing otherwise. -/
theorem findPath_spec (store : Store) (fromId toId : NodeId) (edgeKinds : List EdgeKind) :
    ((store.findPath fromId toId edgeKinds).isSome ↔ store.ReachableAlong edgeKinds fromId toId) ∧
    ∀ path, store.findPath fromId toId edgeKinds = some path →
      store.Joined (chosenKinds edgeKinds) fromId toId path ∧ ∀ count,
        Hops (store.Linked (chosenKinds edgeKinds)) fromId count toId → path.length ≤ count + 1 := by
  unfold findPath
  cases foundFrom : store.getNodeById fromId with
  | none =>
    have absent : ¬ store.Stored fromId := by
      rw [Stored, foundFrom]
      exact Bool.false_ne_true
    simp [ReachableAlong, absent]
  | some fromNode =>
    cases foundTo : store.getNodeById toId with
    | none =>
      have absent : ¬ store.Stored toId := by
        rw [Stored, foundTo]
        exact Bool.false_ne_true
      simp [ReachableAlong, absent]
    | some toNode =>
      have presentFrom : store.Stored fromId := by rw [Stored, foundFrom]; rfl
      have presentTo : store.Stored toId := by rw [Stored, foundTo]; rfl
      simp only
      by_cases same : fromId = toId
      · subst same
        rw [if_pos rfl]
        refine ⟨⟨fun _ => ⟨presentFrom, presentTo, 0, .start⟩, fun _ => rfl⟩, ?_⟩
        intro path found
        cases found
        exact ⟨.start foundFrom, fun count _ => Nat.le_add_left 1 count⟩
      rw [if_neg same]
      have sameId := getNodeById_id foundFrom
      have begins : PathSearch.Good store (chosenKinds edgeKinds) fromId toId
          (.searching (.start fromNode)) := by
        refine ⟨⟨.start fromId, ⟨?_, ?_, ?_⟩, QueueSearch.start_sound _ _⟩, ⟨?_, ?_, ?_⟩, ?_⟩
        · simp only [PathSearch.start, QueueSearch.start, sameId]
        · simp only [PathSearch.start, QueueSearch.start, sameId]
        · exact fun id => rfl
        · intro id mem
          simp only [PathSearch.start, mem_insert, members_empty,
            not_mem_nil, or_false, sameId] at mem ⊢
          rw [mem, get_set_self, foundFrom]
          exact ⟨presentFrom, rfl⟩
        · intro id parent edge came
          simp [PathSearch.start] at came
        · intro id parent edge came
          simp [PathSearch.start] at came
        · simp only [PathSearch.start, mem_insert, members_empty,
            not_mem_nil, or_false, sameId]
          exact fun equal => same equal.symm
      have room : PathSearch.remaining store (.searching (.start fromNode)) ≤ store.nodes.length + 2 := by
        change store.nodes.length - _ + 1 + 1 ≤ _
        omega
      have halts := halts_loop
        (fun _ _ good moved => (PathSearch.step_good good moved).1)
        (fun _ _ good moved => (PathSearch.step_good good moved).2) _ _ begins room
      have good := halts.preserves (fun _ _ good moved => (PathSearch.step_good good moved).1)
        begins
      have ended := halts.ended
      revert good ended
      cases loop (PathSearch.step store (chosenKinds edgeKinds) fromId toId)
          (store.nodes.length + 2) (.searching (.start fromNode)) with
      | found path =>
        intro good _
        obtain ⟨joined, shortest⟩ := good
        refine ⟨⟨fun _ => ⟨presentFrom, presentTo, ?_⟩, fun _ => rfl⟩, ?_⟩
        · obtain ⟨_, count, _, hops⟩ := joined.hops
          exact ⟨count, hops⟩
        intro other found
        cases found
        exact ⟨joined, fun count hops => shortest count ((hops_nextIds presentFrom).mpr hops)⟩
      | searching search =>
        intro good ended
        obtain ⟨⟨plain, mirrors, plainSound⟩, _, fresh⟩ := good
        have empty : search.queue = [] := by
          cases queued : search.queue with
          | nil => rfl
          | cons nodeId rest =>
            simp only [PathSearch.step, queued] at ended
            split at ended <;> contradiction
        refine ⟨⟨fun found => by contradiction, ?_⟩, fun path found => by contradiction⟩
        rintro ⟨_, _, count, hops⟩
        have visited := plainSound.complete (by rw [← mirrors.queue, empty])
          ((hops_nextIds presentFrom).mpr hops)
        rw [← mirrors.visited] at visited
        exact absurd visited fresh

/-- The node is so many relation edges away from the callee. -/
abbrev DistanceTo (store : Store) (callee caller : NodeId) (count : Nat) : Prop :=
  Distance (fun near far => store.Linked (some relationEdgeKinds) far near) callee caller count

/-- The list holds each caller within the depth once, nearer ones first, and each with an edge to a
node one step nearer. -/
structure ListsCallers (store : Store) (callee : NodeId) (maxDepth : Nat) (refs : List NodeRef) : Prop where
  once : (refs.map (·.node.id)).Nodup
  exact : ∀ id, id ∈ refs.map (·.node.id) ↔ id ≠ callee ∧ ∃ count, 1 ≤ count ∧ count ≤ maxDepth ∧
    Hops (store.Linked (some relationEdgeKinds)) id count callee
  sorted : refs.Pairwise fun first second => ∀ count count',
    store.DistanceTo callee first.node.id count → store.DistanceTo callee second.node.id count' →
      count ≤ count'
  joined : ∀ ref ∈ refs, store.getNodeById ref.node.id = some ref.node ∧ ref.edge ∈ store.edges ∧
    ref.edge.kind ∈ relationEdgeKinds ∧ ref.edge.source = ref.node.id ∧ ∃ count,
      store.DistanceTo callee ref.edge.target count ∧ store.DistanceTo callee ref.node.id (count + 1)

theorem listed_iff {startId id : NodeId} (present : store.Stored startId) (maxDepth : Nat)
    (incoming : Bool) (kinds : List EdgeKind) :
    id ∈ (store.traverseRelationLayers startId maxDepth incoming kinds).map (·.node.id) ↔
      id ≠ startId ∧ ∃ count, 1 ≤ count ∧ count ≤ maxDepth ∧
        Hops (store.Steps incoming (some kinds)) startId count id := by
  obtain ⟨walk, sound, result, visited⟩ := traverseRelationLayers_sound present maxDepth incoming kinds
  rw [← result, sound.listed, visited]
  refine and_congr_right fun apart => ?_
  constructor
  · rintro ⟨count, within, distance⟩
    refine ⟨count, ?_, within, distance.reached⟩
    by_contra zero
    obtain rfl : count = 0 := by omega
    exact apart (Distance.zero_iff.mp distance)
  rintro ⟨count, _, within, hops⟩
  obtain ⟨least, shorter, distance⟩ := Distance.exists hops
  exact ⟨least, le_trans shorter within, distance⟩

theorem getCallers_lists {callee : NodeId} (present : store.Stored callee) (maxDepth : Nat) :
    store.ListsCallers callee maxDepth (store.getCallers callee maxDepth) := by
  obtain ⟨walk, sound, result, _⟩ :=
    traverseRelationLayers_sound present maxDepth true relationEdgeKinds
  have same : walk.result = store.getCallers callee maxDepth := result
  refine ⟨same ▸ sound.nodup, ?_, same ▸ sound.sorted, ?_⟩
  · intro id
    refine (listed_iff present maxDepth true relationEdgeKinds).trans ?_
    refine and_congr_right fun _ => exists_congr fun count =>
      and_congr_right fun _ => and_congr_right fun _ => ?_
    exact ⟨fun hops => hops.reverse, fun hops => hops.reverse⟩
  intro ref mem
  obtain ⟨stored, listed, kind, source, count, near, far⟩ := sound.joined ref (same ▸ mem)
  exact ⟨stored, listed, by simpa [kindAdmitted, relationEdgeKinds] using kind, source, count, near, far⟩

/-- The callers of a stored node are listed exactly, callees are the converse of callers, and a
path is found exactly when there is one, and then a shortest one. -/
theorem callers_callees_paths {x y : NodeId} (storedX : store.Stored x) (storedY : store.Stored y)
    (maxDepth : Nat) (fromId toId : NodeId) (edgeKinds : List EdgeKind) :
    store.ListsCallers x maxDepth (store.getCallers x maxDepth) ∧
      (y ≠ x → (y ∈ (store.getCallers x maxDepth).map (·.node.id) ↔
        x ∈ (store.getCallees y maxDepth).map (·.node.id))) ∧
      ((store.findPath fromId toId edgeKinds).isSome ↔ store.ReachableAlong edgeKinds fromId toId) ∧
      ∀ path, store.findPath fromId toId edgeKinds = some path →
        store.Joined (chosenKinds edgeKinds) fromId toId path ∧ ∀ count,
          Hops (store.Linked (chosenKinds edgeKinds)) fromId count toId → path.length ≤ count + 1 := by
  refine ⟨getCallers_lists storedX maxDepth, ?_, findPath_spec store fromId toId edgeKinds⟩
  intro apart
  have callees := @listed_iff store y x storedY maxDepth false relationEdgeKinds
  rw [(getCallers_lists storedX maxDepth).exact]
  refine Iff.trans ?_ callees.symm
  exact and_congr ⟨Ne.symm, Ne.symm⟩ Iff.rfl

/-- One function calls another. -/
def callerAndCallee : Store where
  nodes := [⟨"caller", .function⟩, ⟨"callee", .function⟩]
  edges := [⟨"caller", "callee", .calls, none, some 1, none⟩]
  arrange _ rows := rows
  keyed := by decide
  arranged _ rows := .refl rows

theorem callers_callees_paths_ready : callerAndCallee.Stored "callee" ∧ callerAndCallee.Stored "caller" ∧
      callerAndCallee.ListsCallers "callee" 1 (callerAndCallee.getCallers "callee" 1) :=
  ⟨by decide, by decide, (callers_callees_paths (by decide : callerAndCallee.Stored "callee")
    (by decide : callerAndCallee.Stored "caller") 1 "caller" "callee" []).1⟩

end Store

end Codegraph.Traverser
