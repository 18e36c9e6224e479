import Codegraph.Traverser.BreadthFirst

namespace Codegraph.Traverser

open Library Sync List Option Store

structure DepthFirst where
  nodes : Dict NodeId Node
  edges : List Edge
  visited : ListSet NodeId

namespace DepthFirst

def mark (nodeId : NodeId) (state : DepthFirst) : DepthFirst :=
  { state with visited := state.visited.insert nodeId }

def record (edge : Edge) (next : Node) (state : DepthFirst) : DepthFirst :=
  { state with nodes := state.nodes.set next.id next, edges := state.edges ++ [edge] }

/-- Each neighbour that was not visited is recorded and then searched. -/
def followEdges (options : ResolvedOptions) (search : Node → DepthFirst → Option DepthFirst)
    (neighbors : Dict NodeId Node) (nodeId : NodeId) :
    List Edge → DepthFirst → Option DepthFirst
  | [], state => some state
  | edge :: rest, state =>
    if otherEndpoint edge nodeId ∈ state.visited.members then
      followEdges options search neighbors nodeId rest state
    else
      match neighbors.get (otherEndpoint edge nodeId) with
      | none => followEdges options search neighbors nodeId rest state
      | some next =>
        if options.nodeAdmitted next then
          (search next (state.record edge next)).bind
            (followEdges options search neighbors nodeId rest)
        else followEdges options search neighbors nodeId rest state

/-- The fuel bounds the depth of the recursion. -/
def dfsRecursive (store : Store) (options : ResolvedOptions) :
    Nat → Nat → Node → DepthFirst → Option DepthFirst
  | 0, _, _, _ => none
  | fuel + 1, depth, node, state =>
    if node.id ∈ state.visited.members ∨ options.limit ≤ state.nodes.keys.length ∨
        options.depthReached depth = true then some state
    else
      followEdges options (dfsRecursive store options fuel (depth + 1))
        (store.neighborNodes (state.mark node.id).visited node.id
          (store.adjacent options node.id))
        node.id (store.adjacent options node.id) (state.mark node.id)

def start (options : ResolvedOptions) (startNode : Node) : DepthFirst where
  nodes := if options.includeStart then Dict.set ∅ startNode.id startNode else ∅
  edges := []
  visited := .empty

end DepthFirst

namespace Store

/-- Every recursive call that goes on visits another stored node. -/
def traverseDfs (store : Store) (startId : NodeId) (options : TraversalOptions) : Option Subgraph :=
  match store.getNodeById startId with
  | none => some .empty
  | some startNode =>
    (DepthFirst.dfsRecursive store (.resolve options) (store.nodes.length + 1) 0 startNode
      (.start (.resolve options) startNode)).map fun final => ⟨final.nodes, final.edges, [startId]⟩

/-- A walk of admitted steps that visits no node twice. -/
inductive SimplePath (store : Store) (options : ResolvedOptions) (startId : NodeId) :
    List NodeId → NodeId → Prop
  | start : SimplePath store options startId [startId] startId
  | step {path : List NodeId} {middle target : NodeId}
      (before : SimplePath store options startId path middle)
      (last : store.Neighbors options middle target) (fresh : target ∉ path) :
      SimplePath store options startId (path ++ [target]) target

/-- A simple path with as many steps as the depth bound allows ends at the node. -/
def Capped (store : Store) (options : ResolvedOptions) (startId id : NodeId) (bound : Nat) : Prop :=
  options.maxDepth = some bound ∧ ∃ path, store.SimplePath options startId path id ∧ path.length = bound + 1

/-- The node can be reached in fewer steps than the depth bound. -/
def Inside (store : Store) (options : ResolvedOptions) (startId id : NodeId) (bound : Nat) : Prop :=
  ∃ count < bound, Hops (store.Neighbors options) startId count id

/-- A node where a simple path meets the depth bound is no nearer than the bound, and one edge only
enters it from nearer nodes. -/
structure CapsHarmless (store : Store) (options : ResolvedOptions) (startId : NodeId) : Prop where
  far : ∀ id bound, store.Capped options startId id bound → ¬ store.Inside options startId id bound
  single : ∀ id bound, store.Capped options startId id bound → ∀ first second,
    store.Inside options startId first bound → store.Inside options startId second bound →
      store.Neighbors options first id → store.Neighbors options second id → first = second
  once : ∀ id bound, store.Capped options startId id bound → ∀ parent,
    store.Inside options startId parent bound →
      ((store.adjacent options parent).filter (otherEndpoint · parent = id)).length ≤ 1

variable {store : Store} {options : ResolvedOptions} {startId : NodeId}

theorem SimplePath.hops {path : List NodeId} {id : NodeId}
    (simple : store.SimplePath options startId path id) :
    ∃ count, path.length = count + 1 ∧ Hops (store.Neighbors options) startId count id := by
  induction simple with
  | start => exact ⟨0, rfl, .start⟩
  | step _ last _ ih =>
    obtain ⟨count, length, hops⟩ := ih
    refine ⟨count + 1, ?_, .step hops last⟩
    rw [length_append, length]
    rfl

theorem SimplePath.start_mem {path : List NodeId} {id : NodeId}
    (simple : store.SimplePath options startId path id) : startId ∈ path := by
  induction simple with
  | start => exact mem_cons_self
  | step _ _ _ ih => exact mem_append_left _ ih

theorem SimplePath.last_mem {path : List NodeId} {id : NodeId}
    (simple : store.SimplePath options startId path id) : id ∈ path := by
  cases simple with
  | start => exact mem_cons_self
  | step _ _ _ => exact mem_append_right _ mem_cons_self

end Store

namespace DepthFirst

variable {store : Store} {options : ResolvedOptions} {startId : NodeId} {state : DepthFirst}

theorem mem_record (edge : Edge) (next : Node) (id : NodeId) :
    id ∈ (state.record edge next).nodes.keys ↔ id = next.id ∨ id ∈ state.nodes.keys := by
  simp only [record, Dict.mem_keys_iff, Dict.get_set]
  by_cases same : id = next.id <;> simp [same]

theorem mem_mark (nodeId id : NodeId) :
    id ∈ (state.mark nodeId).visited.members ↔ id = nodeId ∨ id ∈ state.visited.members :=
  ListSet.mem_insert ..

/-- The recorded nodes are in reach, one edge discovers each, and those which were not visited lie
at the depth bound; the exempt node may still be searched. -/
structure Ready (store : Store) (options : ResolvedOptions) (startId : NodeId)
    (exempt : Option NodeId) (state : DepthFirst) : Prop where
  labelled : ∀ id ∈ state.visited.members, store.Stored id ∧ ∃ count,
    Store.WithinDepth options (count + 1) ∧ Hops (store.Neighbors options) startId count id
  reach : ∀ id ∈ state.nodes.keys, store.InReach options startId id
  recorded : ∀ id ∈ state.visited.members, id ≠ startId → id ∈ state.nodes.keys
  included : options.includeStart = true → startId ∈ state.nodes.keys
  edges : ∃ ends : List NodeId, ends.Nodup ∧ (∀ id, id ∈ ends ↔ id ∈ state.nodes.keys ∧ id ≠ startId) ∧
      List.Forall₂ (fun edge id => ∃ parent ∈ state.visited.members,
        store.Leads options edge parent id) state.edges ends
  capped : ∀ id ∈ state.nodes.keys, id ∉ state.visited.members → id ≠ startId → exempt ≠ some id →
    (∃ bound, store.Capped options startId id bound) ∧
      ∃ parent ∈ state.visited.members, store.Neighbors options parent id

/-- What a search adds: the new visited nodes are closed, and a new node that was not visited was
met from a new visited one. -/
structure Searched (store : Store) (options : ResolvedOptions) (startId : NodeId)
    (origin : NodeId → Prop) (before after : DepthFirst) : Prop where
  ready : after.Ready store options startId none
  visited : ∀ id ∈ before.visited.members, id ∈ after.visited.members
  nodes : ∀ id ∈ before.nodes.keys, id ∈ after.nodes.keys
  closed : ∀ id ∈ after.visited.members, id ∉ before.visited.members → ∀ next,
    store.Neighbors options id next → next ∈ after.visited.members ∨ next ∈ after.nodes.keys
  met : ∀ id ∈ after.nodes.keys, id ∉ before.nodes.keys → id ∉ after.visited.members →
    ∃ parent ∈ after.visited.members, (parent ∉ before.visited.members ∨ origin parent) ∧
      store.Neighbors options parent id

theorem Ready.inside {exempt : Option NodeId} (ready : state.Ready store options startId exempt)
    {id : NodeId} (mem : id ∈ state.visited.members) {bound : Nat}
    (bounded : options.maxDepth = some bound) : store.Inside options startId id bound := by
  obtain ⟨_, count, within, hops⟩ := ready.labelled id mem
  exact ⟨count, within bound bounded, hops⟩

theorem Ready.record (ready : state.Ready store options startId none) {nodeId : NodeId}
    {edge : Edge} {next : Node} {count : Nat} (visited : nodeId ∈ state.visited.members)
    (started : startId ∈ state.visited.members) (present : store.Stored startId)
    (leads : store.Leads options edge nodeId next.id) (fresh : next.id ∉ state.visited.members)
    (new : next.id ∉ state.nodes.keys) (within : Store.WithinDepth options (count + 1))
    (hops : Hops (store.Neighbors options) startId count nodeId) :
    (state.record edge next).Ready store options startId (some next.id) := by
  have apart : next.id ≠ startId := by
    intro same
    rw [same] at fresh
    exact fresh started
  refine ⟨ready.labelled, ?_, ?_, ?_, ?_, ?_⟩
  · intro id mem
    rcases (mem_record edge next id).mp mem with same | old
    · rw [same]
      exact ⟨present, fun root => absurd root apart, count + 1, within, .step hops ⟨edge, leads⟩⟩
    · exact ready.reach id old
  · intro id mem other
    exact (mem_record edge next id).mpr (.inr (ready.recorded id mem other))
  · exact fun included => (mem_record edge next startId).mpr (.inr (ready.included included))
  · obtain ⟨ends, nodup, listed, joined⟩ := ready.edges
    refine ⟨ends ++ [next.id], ?_, ?_, ?_⟩
    · rw [← concat_eq_append]
      exact nodup.concat fun mem => new ((listed _).mp mem).1
    · intro id
      rw [mem_append, mem_singleton, listed, mem_record]
      constructor
      · rintro (⟨old, other⟩ | here)
        · exact ⟨.inr old, other⟩
        · rw [here]
          exact ⟨.inl rfl, apart⟩
      rintro ⟨here | old, other⟩
      · exact .inr here
      · exact .inl ⟨old, other⟩
    · exact rel_append joined (.cons ⟨nodeId, visited, leads⟩ .nil)
  · intro id mem unseen other exempt
    rcases (mem_record edge next id).mp mem with same | old
    · exact absurd (congrArg some same.symm) exempt
    · exact ready.capped id old unseen other (by simp)

theorem Searched.refl {origin : NodeId → Prop} (ready : state.Ready store options startId none) :
    Searched store options startId origin state state :=
  ⟨ready, fun _ mem => mem, fun _ mem => mem,
    fun _ mem fresh => absurd mem fresh, fun _ mem new => absurd mem new⟩

theorem Searched.trans {origin : NodeId → Prop} {before middle after : DepthFirst}
    (first : Searched store options startId origin before middle)
    (second : Searched store options startId origin middle after) :
    Searched store options startId origin before after := by
  refine ⟨second.ready, fun id mem => second.visited id (first.visited id mem),
    fun id mem => second.nodes id (first.nodes id mem), ?_, ?_⟩
  · intro id mem fresh next neighbors
    by_cases early : id ∈ middle.visited.members
    · exact (first.closed id early fresh next neighbors).imp (second.visited next)
        (second.nodes next)
    · exact second.closed id mem early next neighbors
  intro id mem new unseen
  by_cases early : id ∈ middle.nodes.keys
  · obtain ⟨parent, seen, from', neighbors⟩ :=
      first.met id early new fun seen => unseen (second.visited id seen)
    exact ⟨parent, second.visited parent seen, from', neighbors⟩
  · obtain ⟨parent, seen, from', neighbors⟩ := second.met id mem early unseen
    exact ⟨parent, seen, from'.imp_left fun fresh old => fresh (first.visited parent old), neighbors⟩

theorem Searched.ofRecord {nodeId : NodeId} {edge : Edge} {next : Node} {after : DepthFirst}
    (searched : Searched store options startId (fun _ => False) (state.record edge next) after)
    (visited : nodeId ∈ state.visited.members) (leads : store.Leads options edge nodeId next.id) :
    Searched store options startId (· = nodeId) state after := by
  refine ⟨searched.ready, searched.visited, ?_, searched.closed, ?_⟩
  · exact fun id mem => searched.nodes id ((mem_record edge next id).mpr (.inr mem))
  intro id mem new unseen
  by_cases same : id = next.id
  · rw [same]
    exact ⟨nodeId, searched.visited nodeId visited, .inr rfl, edge, leads⟩
  have absent : id ∉ (state.record edge next).nodes.keys := fun old =>
    ((mem_record edge next id).mp old).elim same new
  obtain ⟨parent, seen, from', neighbors⟩ := searched.met id mem absent unseen
  exact ⟨parent, seen, from'.imp_right False.elim, neighbors⟩

theorem followEdges_searched (harmless : store.CapsHarmless options startId)
    (present : store.Stored startId) (search : Node → DepthFirst → Option DepthFirst)
    {neighbors : Dict NodeId Node} {nodeId : NodeId} {path : List NodeId} {depth : Nat}
    (simple : store.SimplePath options startId path nodeId) (length : path.length = depth + 1)
    (within : Store.WithinDepth options (depth + 1)) (size : Nat)
    (searches : ∀ next state, store.getNodeById next.id = some next →
      store.Neighbors options nodeId next.id →
      DepthFirst.Ready store options startId (some next.id) state →
      store.SimplePath options startId (path ++ [next.id]) next.id →
      (∀ id ∈ path, id ∈ state.visited.members) → next.id ∉ state.visited.members →
      next.id ∈ state.nodes.keys → size ≤ state.visited.size →
      ∃ after, search next state = some after ∧ Searched store options startId (fun _ => False) state after)
    (done : List Edge) {rest : List Edge} (whole : done ++ rest = store.adjacent options nodeId)
    (known : ∀ edge ∈ rest, otherEndpoint edge nodeId ∉ state.visited.members →
      neighbors.get (otherEndpoint edge nodeId) = store.getNodeById (otherEndpoint edge nodeId))
    (passed : ∀ id ∈ path, id ∈ state.visited.members) (large : size ≤ state.visited.size)
    (ready : state.Ready store options startId none)
    (processed : ∀ id ∈ state.nodes.keys, id ∉ state.visited.members → id ≠ startId →
      store.Neighbors options nodeId id → ∃ edge ∈ done, otherEndpoint edge nodeId = id) :
    ∃ after, followEdges options search neighbors nodeId rest state = some after ∧
      Searched store options startId (· = nodeId) state after ∧
        ∀ edge ∈ rest, ∀ id, store.Leads options edge nodeId id →
          id ∈ after.visited.members ∨ id ∈ after.nodes.keys := by
  induction rest generalizing done state with
  | nil => exact ⟨state, rfl, .refl ready, by simp⟩
  | cons edge rest ih =>
    have listed : edge ∈ store.adjacent options nodeId := by
      rw [← whole]
      exact mem_append_right _ mem_cons_self
    have whole' : (done ++ [edge]) ++ rest = store.adjacent options nodeId := by
      rw [← whole, append_assoc]
      rfl
    have known' := fun other mem => known other (mem_cons_of_mem edge mem)
    -- An edge without an admitted new end changes nothing.
    have skip (useless : ∀ id, store.Leads options edge nodeId id → id ∈ state.visited.members) :
        ∃ after, followEdges options search neighbors nodeId rest state = some after ∧
          Searched store options startId (· = nodeId) state after ∧
            ∀ other ∈ edge :: rest, ∀ id, store.Leads options other nodeId id →
              id ∈ after.visited.members ∨ id ∈ after.nodes.keys := by
      obtain ⟨after, ran, searched, reached⟩ := ih (done ++ [edge]) whole' known'
        passed large ready fun id mem unseen apart step => by
          obtain ⟨other, mem', same⟩ := processed id mem unseen apart step
          exact ⟨other, mem_append_left _ mem', same⟩
      refine ⟨after, ran, searched, fun other mem id leads => ?_⟩
      rcases mem_cons.mp mem with here | later
      · rw [here] at leads
        exact .inl (searched.visited id (useless id leads))
      · exact reached other later id leads
    unfold followEdges
    by_cases seen : otherEndpoint edge nodeId ∈ state.visited.members
    · rw [if_pos seen]
      exact skip fun id leads => (leads_iff.mp leads).2.1 ▸ seen
    rw [if_neg seen, known edge mem_cons_self seen]
    cases found : store.getNodeById (otherEndpoint edge nodeId) with
    | none =>
      refine skip fun id leads => ?_
      obtain ⟨_, same, node, found', _⟩ := leads_iff.mp leads
      rw [← same, found] at found'
      contradiction
    | some next =>
      have same := getNodeById_id found
      simp only
      by_cases admitted : options.nodeAdmitted next = true
      swap
      · rw [if_neg admitted]
        refine skip fun id leads => ?_
        obtain ⟨_, same', node, found', admitted'⟩ := leads_iff.mp leads
        rw [← same', found] at found'
        cases found'
        exact absurd admitted' admitted
      rw [if_pos admitted]
      have leads := leads_iff.mpr ⟨listed, same.symm, next, same ▸ found, admitted⟩
      have fresh := same ▸ seen
      have here := passed nodeId simple.last_mem
      have started := passed startId simple.start_mem
      obtain ⟨count, length', hops⟩ := simple.hops
      obtain rfl : count = depth := by omega
      -- A neighbour that was recorded before lies at the bound and has an earlier edge.
      have new : next.id ∉ state.nodes.keys := by
        intro old
        have apart : next.id ≠ startId := by
          intro root
          rw [root] at fresh
          exact fresh started
        obtain ⟨⟨bound, capped⟩, _⟩ := ready.capped next.id old fresh apart (by simp)
        obtain ⟨other, mem, twice⟩ := processed next.id old fresh apart ⟨edge, leads⟩
        have once := harmless.once next.id bound capped nodeId (ready.inside here capped.1)
        rw [← whole, filter_append, length_append] at once
        have first : 0 < (done.filter (otherEndpoint · nodeId = next.id)).length :=
          length_pos_of_mem (mem_filter.mpr ⟨mem, by simpa using twice⟩)
        have second : 0 < ((edge :: rest).filter
            (otherEndpoint · nodeId = next.id)).length :=
          length_pos_of_mem (mem_filter.mpr
            ⟨mem_cons_self, by simpa using same.symm⟩)
        omega
      have unvisited : next.id ∉ path := fun mem => fresh (passed next.id mem)
      obtain ⟨middle, searchRan, searched⟩ := searches next (state.record edge next)
        (same ▸ found) ⟨edge, leads⟩ (ready.record here started present leads fresh new within hops)
        (.step simple ⟨edge, leads⟩ unvisited) passed fresh
        ((mem_record edge next next.id).mpr (.inl rfl)) large
      have partly := searched.ofRecord here leads
      have processed' : ∀ id ∈ middle.nodes.keys, id ∉ middle.visited.members →
          id ≠ startId → store.Neighbors options nodeId id →
            ∃ other ∈ done ++ [edge], otherEndpoint other nodeId = id := by
        intro id mem unseen apart step
        by_cases equal : id = next.id
        · rw [equal]
          exact ⟨edge, by simp, same.symm⟩
        by_cases old : id ∈ state.nodes.keys
        · obtain ⟨other, mem', same'⟩ := processed id old
            (fun seen => unseen (partly.visited id seen)) apart step
          exact ⟨other, mem_append_left _ mem', same'⟩
        exfalso
        have absent : id ∉ (state.record edge next).nodes.keys := fun listed =>
          ((mem_record edge next id).mp listed).elim equal old
        obtain ⟨parent, visited, from', step'⟩ := searched.met id mem absent unseen
        obtain ⟨⟨bound, capped⟩, _⟩ := searched.ready.capped id mem unseen apart (by simp)
        have one := harmless.single id bound capped parent nodeId
          (searched.ready.inside visited capped.1) (ready.inside here capped.1) step' step
        exact from'.elim (fun fresh' => fresh' (one ▸ here)) False.elim
      have grown := ListSet.size_le partly.visited
      obtain ⟨after, ran, searched', reached⟩ := ih (done ++ [edge]) whole'
        (fun other mem unseen => known' other mem fun old => unseen (partly.visited _ old))
        (fun id mem => partly.visited id (passed id mem))
        (le_trans large grown) searched.ready processed'
      refine ⟨after, ?_, partly.trans searched', fun other mem id leads' => ?_⟩
      · rwa [searchRan]
      rcases mem_cons.mp mem with first | later
      · rw [first] at leads'
        have end' : id = next.id := (leads_iff.mp leads').2.1.symm.trans same.symm
        rw [end']
        exact .inr (searched'.nodes _ (searched.nodes _
          ((mem_record edge next next.id).mpr (.inl rfl))))
      · exact reached other later id leads'

/-- A node that is stored leaves room for its visit. -/
theorem Ready.size_lt {exempt : Option NodeId} (ready : state.Ready store options startId exempt)
    {node : Node} (stored : store.getNodeById node.id = some node)
    (fresh : node.id ∉ state.visited.members) : state.visited.size < store.nodes.length := by
  have inside : node.id :: state.visited.members ⊆ store.nodes.map Node.id := by
    intro id mem
    rcases mem_cons.mp mem with here | old
    · rw [here]
      exact mem_map_of_mem (getNodeById_eq.mp stored).1
    obtain ⟨other, found⟩ := isSome_iff_exists.mp (ready.labelled id old).1
    obtain ⟨listed, rfl⟩ := getNodeById_eq.mp found
    exact mem_map_of_mem listed
  have nodup := nodup_cons.mpr ⟨fresh, state.visited.nodup⟩
  have shorter := (subperm_of_subset nodup inside).length_le
  rwa [length_cons, length_map] at shorter

/-- The exempt node becomes visited. -/
theorem Ready.mark {node : Node} (ready : state.Ready store options startId (some node.id))
    (stored : store.getNodeById node.id = some node) {depth : Nat}
    (within : Store.WithinDepth options (depth + 1))
    (hops : Hops (store.Neighbors options) startId depth node.id)
    (recorded : node.id ≠ startId → node.id ∈ state.nodes.keys) :
    (state.mark node.id).Ready store options startId none := by
  have grown (id : NodeId) (mem : id ∈ state.visited.members) :
      id ∈ (state.mark node.id).visited.members := (mem_mark node.id id).mpr (.inr mem)
  refine ⟨?_, ready.reach, ?_, ready.included, ?_, ?_⟩
  · intro id mem
    rcases (mem_mark node.id id).mp mem with here | old
    · rw [here, Store.Stored, stored]
      exact ⟨rfl, depth, within, hops⟩
    · exact ready.labelled id old
  · intro id mem apart
    rcases (mem_mark node.id id).mp mem with here | old
    · rw [here] at apart ⊢
      exact recorded apart
    · exact ready.recorded id old apart
  · obtain ⟨ends, nodup, listed, joined⟩ := ready.edges
    exact ⟨ends, nodup, listed, joined.imp fun edge id led => led.imp fun parent both =>
      ⟨grown parent both.1, both.2⟩⟩
  · intro id mem unseen apart _
    obtain ⟨capped, parent, seen, step⟩ := ready.capped id mem
      (fun old => unseen (grown id old)) apart (by
        intro same
        exact unseen ((mem_mark node.id id).mpr (.inl (some.inj same).symm)))
    exact ⟨capped, parent, grown parent seen, step⟩

/-- With fewer nodes in reach than the limit, a search visits its node unless the depth bound stops
it, and closes what it visits. -/
theorem dfsRecursive_searched (harmless : store.CapsHarmless options startId)
    (few : store.FewInReach options startId) (present : store.Stored startId) {fuel depth : Nat}
    {node : Node} {path : List NodeId} (enough : store.nodes.length < state.visited.size + fuel)
    (stored : store.getNodeById node.id = some node)
    (ready : state.Ready store options startId (some node.id))
    (simple : store.SimplePath options startId path node.id) (length : path.length = depth + 1)
    (passed : ∀ id ∈ path, id ≠ node.id → id ∈ state.visited.members)
    (fresh : node.id ∉ state.visited.members)
    (recorded : node.id ≠ startId → node.id ∈ state.nodes.keys)
    (led : node.id ≠ startId → ∃ parent ∈ state.visited.members, store.Neighbors options parent node.id)
    (within : Store.WithinDepth options depth) :
    ∃ after, dfsRecursive store options fuel depth node state = some after ∧
      Searched store options startId (fun _ => False) state after ∧
        (Store.WithinDepth options (depth + 1) → node.id ∈ after.visited.members) := by
  induction fuel generalizing depth node path state with
  | zero =>
    have room := ready.size_lt stored fresh
    omega
  | succ fuel ih =>
    obtain ⟨ids, covers, fewer⟩ := few
    have small : state.nodes.keys.length ≤ ids.length :=
      (subperm_of_subset state.nodes.nodupKeys fun id mem => covers id (ready.reach id mem)).length_le
    obtain ⟨count, length', hops⟩ := simple.hops
    obtain rfl : count = depth := by omega
    unfold dfsRecursive
    by_cases capped : options.depthReached count = true
    · rw [if_pos (.inr (.inr capped))]
      refine ⟨state, rfl, .refl ⟨ready.labelled, ready.reach, ready.recorded, ready.included,
        ready.edges, ?_⟩, fun deeper => absurd capped (not_depthReached deeper)⟩
      intro id mem unseen apart _
      by_cases same : id = node.id
      · rw [same] at apart ⊢
        refine ⟨?_, led apart⟩
        cases bounded : options.maxDepth with
        | none => simp [ResolvedOptions.depthReached, bounded] at capped
        | some bound =>
          have upper := within bound bounded
          simp only [ResolvedOptions.depthReached, bounded, any_some, decide_eq_true_eq] at capped
          exact ⟨bound, bounded, path, simple, by omega⟩
      · exact ready.capped id mem unseen apart fun equal => same (some.inj equal).symm
    rw [if_neg (by
      rintro (seen | full | deep)
      · exact fresh seen
      · omega
      · exact capped deep)]
    have deeper := withinDepth_succ capped
    have marked := ready.mark stored deeper hops recorded
    have size : (state.mark node.id).visited.size = state.visited.size + 1 := by
      unfold mark ListSet.insert ListSet.size
      rw [dif_neg fresh, length_append, length_singleton]
    have all (id : NodeId) (mem : id ∈ path) : id ∈ (state.mark node.id).visited.members := by
      rw [mem_mark]
      by_cases same : id = node.id
      · exact .inl same
      · exact .inr (passed id mem same)
    have here : node.id ∈ (state.mark node.id).visited.members :=
      (mem_mark node.id node.id).mpr (.inl rfl)
    obtain ⟨after, ran, searched, reached⟩ := followEdges_searched
      harmless present (dfsRecursive store options fuel (count + 1)) simple length deeper
      (state.visited.size + 1) (by
        intro next other found step ready' simple' passed' fresh' mem large
        obtain ⟨after, ran, searched, _⟩ := ih (by omega) found ready' simple'
          (by rw [length_append, length]; rfl)
          (by
            intro id inside apart
            rcases mem_append.mp inside with old | last
            · exact passed' id old
            · exact absurd (mem_singleton.mp last) apart)
          fresh' (fun _ => mem)
          (fun _ => ⟨node.id, passed' node.id simple.last_mem, step⟩) deeper
        exact ⟨after, ran, searched⟩)
      [] (nil_append _) (fun edge mem unseen => get_neighborNodes mem unseen)
      all (le_of_eq size.symm) marked (by
        intro id mem unseen apart step
        exfalso
        obtain ⟨⟨bound, capped'⟩, parent, seen, step'⟩ :=
          ready.capped id mem (fun old => unseen ((mem_mark node.id id).mpr (.inr old)))
            apart (by
              intro same
              exact unseen ((mem_mark node.id id).mpr (.inl (some.inj same).symm)))
        have one := harmless.single id bound capped' parent node.id
          (ready.inside seen capped'.1) (marked.inside here capped'.1) step' step
        exact fresh (one ▸ seen))
    refine ⟨after, ran, ⟨searched.ready, ?_, searched.nodes, ?_, ?_⟩,
      fun _ => searched.visited node.id here⟩
    · exact fun id mem => searched.visited id ((mem_mark node.id id).mpr (.inr mem))
    · intro id mem unseen next step
      by_cases same : id = node.id
      · rw [same] at step
        obtain ⟨edge, leads⟩ := step
        exact reached edge (leads_iff.mp leads).1 next leads
      · exact searched.closed id mem
          (fun old => ((mem_mark node.id id).mp old).elim same unseen) next step
    intro id mem new unseen
    obtain ⟨parent, seen, from', step⟩ := searched.met id mem new unseen
    refine ⟨parent, seen, .inl fun old => ?_, step⟩
    rcases from' with fresh' | same
    · exact fresh' ((mem_mark node.id parent).mpr (.inr old))
    · rw [same] at old
      exact fresh old

theorem start_ready {startNode : Node} (stored : store.getNodeById startId = some startNode) :
    (start options startNode).Ready store options startId (some startId) := by
  have same := getNodeById_id stored
  have present : store.Stored startId := by rw [Store.Stored, stored]; rfl
  have keys (id : NodeId) : id ∈ (start options startNode).nodes.keys ↔
      id = startId ∧ options.includeStart = true := by
    rw [Dict.mem_keys_iff]
    unfold start
    cases options.includeStart <;> simp [Dict.get_set, same]
  refine ⟨by simp [start], ?_, by simp [start], ?_, ⟨[], nodup_nil, ?_, .nil⟩, ?_⟩
  · intro id mem
    obtain ⟨root, included⟩ := (keys id).mp mem
    rw [root]
    exact ⟨present, fun _ => included, 0, withinDepth_zero _, .start⟩
  · exact fun included => (keys startId).mpr ⟨rfl, included⟩
  · intro id
    rw [keys]
    simp only [not_mem_nil, false_iff]
    exact fun both => both.2 both.1.1
  · intro id mem _ apart
    exact absurd ((keys id).mp mem).1 apart

theorem Searched.exhaustive {before after : DepthFirst} {origin : NodeId → Prop}
    (searched : Searched store options startId origin before after)
    (harmless : store.CapsHarmless options startId) (unvisited : before.visited = .empty)
    (visited : Store.WithinDepth options 1 → startId ∈ after.visited.members) {id : NodeId}
    (reached : store.InReach options startId id) : id ∈ after.nodes.keys := by
  have closed (id : NodeId) (mem : id ∈ after.visited.members) :=
    searched.closed id mem (by rw [unvisited]; exact not_mem_nil)
  -- Below the bound every node is visited, since a node met at the bound is no nearer.
  have below (count : Nat) (id : NodeId)
      (distance : Distance (store.Neighbors options) startId id count)
      (within : Store.WithinDepth options (count + 1)) : id ∈ after.visited.members := by
    induction count generalizing id with
    | zero =>
      rw [Distance.zero_iff.mp distance]
      exact visited within
    | succ count ih =>
      obtain ⟨middle, nearer, last⟩ := distance.before
      have seen := ih middle nearer (within.mono (Nat.le_succ _))
      rcases closed middle seen id last with done | listed
      · exact done
      by_contra unseen
      have apart : id ≠ startId := by
        rintro rfl
        exact unseen (visited (within.mono (by omega)))
      obtain ⟨⟨bound, capped⟩, _⟩ := searched.ready.capped id listed unseen apart (by simp)
      have far := harmless.far id bound capped
      exact far ⟨count + 1, within bound capped.1, distance.reached⟩
  obtain ⟨_, included, count, within, hops⟩ := reached
  obtain ⟨least, shorter, distance⟩ := Distance.exists hops
  by_cases root : id = startId
  · rw [root]
    exact searched.ready.included (included root)
  cases least with
  | zero => exact absurd (Distance.zero_iff.mp distance) root
  | succ least =>
    obtain ⟨middle, nearer, last⟩ := distance.before
    have seen := below least middle nearer (within.mono shorter)
    rcases closed middle seen id last with done | listed
    · exact searched.ready.recorded id done root
    · exact listed

/-- Every recursion that has enough fuel ends. -/
theorem dfsRecursive_isSome {fuel depth : Nat} {node : Node}
    (stored : ∀ id ∈ state.visited.members, store.Stored id) (present : store.Stored node.id)
    (enough : store.nodes.length < state.visited.size + fuel) :
    ∃ after, dfsRecursive store options fuel depth node state = some after ∧
      (∀ id ∈ state.visited.members, id ∈ after.visited.members) ∧
        ∀ id ∈ after.visited.members, store.Stored id := by
  have bounded (visited : ListSet NodeId) (stored : ∀ id ∈ visited.members, store.Stored id) :
      visited.size ≤ store.nodes.length := by
    have inside : visited.members ⊆ store.nodes.map Node.id := by
      intro id mem
      obtain ⟨other, found⟩ := isSome_iff_exists.mp (stored id mem)
      obtain ⟨listed, rfl⟩ := getNodeById_eq.mp found
      exact mem_map_of_mem listed
    have shorter := (subperm_of_subset visited.nodup inside).length_le
    rwa [length_map] at shorter
  induction fuel generalizing depth node state with
  | zero =>
    have room := bounded state.visited stored
    omega
  | succ fuel ih =>
    unfold dfsRecursive
    split
    · exact ⟨state, rfl, fun _ mem => mem, stored⟩
    rename_i going
    have fresh : node.id ∉ state.visited.members := fun seen => going (.inl seen)
    have size : (state.mark node.id).visited.size = state.visited.size + 1 := by
      unfold mark ListSet.insert ListSet.size
      rw [dif_neg fresh, length_append, length_singleton]
    have marked (id : NodeId) (mem : id ∈ (state.mark node.id).visited.members) : store.Stored id := by
      rcases (mem_mark node.id id).mp mem with here | old
      · rwa [here]
      · exact stored id old
    have known : ∀ edge next, (store.neighborNodes (state.mark node.id).visited node.id
        (store.adjacent options node.id)).get edge = some next → store.Stored next.id := by
      intro edge next found
      unfold Store.neighborNodes at found
      rw [get_getNodesByIds] at found
      split at found
      · rw [Store.Stored, getNodeById_id found, found]
        rfl
      · contradiction
    have follows (edges : List Edge) (middle : DepthFirst)
        (stored : ∀ id ∈ middle.visited.members, store.Stored id)
        (large : state.visited.size + 1 ≤ middle.visited.size) :
        ∃ after, followEdges options (dfsRecursive store options fuel (depth + 1))
            (store.neighborNodes (state.mark node.id).visited node.id
              (store.adjacent options node.id)) node.id edges middle = some after ∧
          (∀ id ∈ middle.visited.members, id ∈ after.visited.members) ∧
            ∀ id ∈ after.visited.members, store.Stored id := by
      induction edges generalizing middle with
      | nil => exact ⟨middle, rfl, fun _ mem => mem, stored⟩
      | cons edge rest next =>
        unfold followEdges
        split
        · exact next middle stored large
        split
        · exact next middle stored large
        rename_i found
        split
        · obtain ⟨searched, ran, grown, stored'⟩ := @ih
            (DepthFirst.record edge _ middle) (depth + 1) _ stored (known _ _ found)
            (by
              change store.nodes.length < middle.visited.size + fuel
              omega)
          obtain ⟨after, ran', grown', stored''⟩ := next searched stored'
            (le_trans large (ListSet.size_le grown))
          refine ⟨after, ?_, fun id mem => grown' id (grown id mem), stored''⟩
          rw [ran]
          exact ran'
        · exact next middle stored large
    obtain ⟨after, ran, grown, stored'⟩ := follows (store.adjacent options node.id)
      (state.mark node.id) marked (le_of_eq size.symm)
    exact ⟨after, ran, fun id mem => grown id ((mem_mark node.id id).mpr (.inr mem)), stored'⟩

end DepthFirst

namespace Store

variable {store : Store} {startId : NodeId}

/-- The fuel suffices for every traversal. -/
theorem traverseDfs_isSome (store : Store) (startId : NodeId) (options : TraversalOptions) :
    (store.traverseDfs startId options).isSome := by
  unfold traverseDfs
  cases stored : store.getNodeById startId with
  | none => rfl
  | some startNode =>
    have same := getNodeById_id stored
    have present : store.Stored startNode.id := by
      rw [Stored, same, stored]
      rfl
    obtain ⟨after, ran, _⟩ := @DepthFirst.dfsRecursive_isSome store (.resolve options)
      (.start (.resolve options) startNode) (store.nodes.length + 1) 0 startNode
      (by simp [DepthFirst.start]) present (by omega)
    simp only
    rw [ran]
    rfl

/-- A depth-first traversal conforms if the limit cannot stop it on the way and the depth bound
meets no node early or twice. -/
theorem traverseDfs_conforms {options : TraversalOptions}
    (fits : store.Stored startId → StopsAtStart (.resolve options) ∨
      (store.FewInReach (.resolve options) startId ∧ store.CapsHarmless (.resolve options) startId)) :
    ∃ graph, store.traverseDfs startId options = some graph ∧
      store.Conforms (.resolve options) startId graph := by
  unfold traverseDfs
  cases stored : store.getNodeById startId with
  | none =>
    refine ⟨.empty, rfl, empty_conforms ?_⟩
    rw [Stored, stored]
    exact Bool.false_ne_true
  | some startNode =>
    have same := getNodeById_id stored
    have present : store.Stored startId := by rw [Stored, stored]; rfl
    rcases fits present with stops | ⟨few, harmless⟩
    · have full : (ResolvedOptions.resolve options).limit ≤
          (DepthFirst.start (.resolve options) startNode).nodes.keys.length := by
        rw [stops]
        unfold DepthFirst.start
        cases (ResolvedOptions.resolve options).includeStart <;> simp [Dict.set]
      refine ⟨_, ?_, stopped_conforms stored stops [startId]⟩
      simp only
      rw [DepthFirst.dfsRecursive, if_pos (.inr (.inl full))]
      rfl
    subst same
    have started : ∃ after, DepthFirst.dfsRecursive store (.resolve options)
        (store.nodes.length + 1) 0 startNode (.start (.resolve options) startNode) = some after ∧
        DepthFirst.Searched store (.resolve options) startNode.id (fun _ => False)
          (.start (.resolve options) startNode) after ∧
        (WithinDepth (.resolve options) 1 → startNode.id ∈ after.visited.members) :=
      DepthFirst.dfsRecursive_searched harmless few present
        (by change store.nodes.length < 0 + (store.nodes.length + 1); omega) stored
        (DepthFirst.start_ready stored) .start rfl (by simp) (by simp [DepthFirst.start])
        (fun apart => absurd rfl apart) (fun apart => absurd rfl apart) (withinDepth_zero _)
    obtain ⟨after, ran, searched, visited⟩ := started
    simp only
    rw [ran]
    refine ⟨_, rfl, ?_, ?_, fun _ id => ⟨searched.ready.reach id, ?_⟩⟩
    · obtain ⟨ids, covers, fewer⟩ := few
      have short := (subperm_of_subset after.nodes.nodupKeys fun id mem =>
          covers id (searched.ready.reach id mem)).length_le
      exact le_of_lt (lt_of_le_of_lt short fewer)
    · obtain ⟨ends, nodup, listed, joined⟩ := searched.ready.edges
      refine ⟨ends, nodup, listed, joined.imp fun edge id led => led.imp fun parent both =>
        ⟨?_, both.2⟩⟩
      by_cases root : parent = startNode.id
      · exact .inl root
      · exact .inr (searched.ready.recorded parent both.1 root)
    · exact searched.exhaustive harmless rfl visited

theorem few_of_nodes {options : ResolvedOptions} (fewer : store.nodes.length < options.limit) :
    store.FewInReach options startId := by
  refine ⟨store.nodes.map Node.id, fun id reached => ?_, by rw [length_map]; exact fewer⟩
  obtain ⟨present, _, count, _, hops⟩ := reached
  obtain ⟨node, found⟩ := isSome_iff_exists.mp (hops_stored present hops)
  obtain ⟨listed, rfl⟩ := getNodeById_eq.mp found
  exact mem_map_of_mem listed

/-- Without a depth bound no path meets it. -/
theorem harmless_of_unbounded {options : ResolvedOptions} (unbounded : options.maxDepth = none) :
    store.CapsHarmless options startId := by
  have never (id : NodeId) (bound : Nat) : ¬ store.Capped options startId id bound := by
    rintro ⟨bounded, _⟩
    rw [unbounded] at bounded
    contradiction
  exact ⟨fun id bound capped => absurd capped (never id bound),
    fun id bound capped => absurd capped (never id bound),
    fun id bound capped => absurd capped (never id bound)⟩

/-- A function that calls two others. -/
def star : Store where
  nodes := [⟨"a", .function⟩, ⟨"b", .function⟩, ⟨"c", .function⟩]
  edges := [⟨"a", "b", .calls, none, none, none⟩, ⟨"a", "c", .calls, none, none, none⟩]
  arrange _ rows := rows
  keyed := by decide
  arranged _ rows := .refl rows

/-- A long way to a node is listed before a short one. -/
def detour : Store where
  nodes := [⟨"a", .function⟩, ⟨"b", .function⟩, ⟨"c", .function⟩, ⟨"d", .function⟩, ⟨"e", .function⟩]
  edges := [⟨"a", "b", .calls, none, none, none⟩, ⟨"b", "c", .calls, none, none, none⟩,
    ⟨"a", "c", .calls, none, none, none⟩, ⟨"c", "d", .calls, none, none, none⟩,
    ⟨"d", "e", .calls, none, none, none⟩]
  arrange _ rows := rows
  keyed := by decide
  arranged _ rows := .refl rows

end Store

end Codegraph.Traverser
