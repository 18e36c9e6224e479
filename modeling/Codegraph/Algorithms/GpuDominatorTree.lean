import Codegraph.Algorithms.EssentialEdges
import Codegraph.Algorithms.GpuDominators
import Codegraph.Library.Positions
import Codegraph.Library.PostOrder
import Codegraph.Library.Rows

namespace Codegraph

open Library List

structure DominatorTree where
  root : NodeId
  idom : Dict NodeId NodeId

namespace CodeGraph

variable (code : CodeGraph)

/-- The position of a slot in the node order. -/
def pos (slot : Nat) : Nat := code.graph.slots.idxOf slot

/-- The neighbours of the slot at a position, by their positions. -/
def neighborsAt (neighbors : Nat → List Nat) (u : Nat) : List Nat :=
  (code.graph.slots[u]?).elim [] fun slot => (neighbors slot).map code.pos

def successorsAt : Nat → List Nat := code.neighborsAt code.graph.successors

def predecessorsAt : Nat → List Nat := code.neighborsAt code.graph.predecessors

def nodeIdAt (u : Nat) : Option NodeId := (code.graph.slots[u]?).bind code.nodeIdFor

/-- The search from the root may take one step for each node, each mark and each edge. -/
def gpuPost (root : Nat) : Option (List Nat) :=
  PostSearch.run code.successorsAt
    (PostSearch.pendingCost code.successorsAt (List.range code.graph.slots.length) .empty
      [(root, false)] + 1)
    (PostSearch.start root)

/-- The positions in the reversed postorder are the numbers of the nodes. -/
def gpuRpo (post : List Nat) : List (Option Nat) :=
  post.zipIdx.foldl (fun rpo (node, i) => rpo.set node (some i))
    (List.replicate code.graph.slots.length none)

def gpuPredecessors : Rows Nat :=
  Rows.pack ((List.range code.graph.slots.length).map code.predecessorsAt)

def gpuInput (root : Nat) (post : List Nat) : DomInput where
  n := code.graph.slots.length
  root := root
  predOff := code.gpuPredecessors.ptrs
  pred := code.gpuPredecessors.items
  rpo := code.gpuRpo post

/-- The dominator of a node at a position is stored under the ids of both. -/
def idomEntry (row : Option Nat × Nat) : Option (NodeId × NodeId) :=
  row.1.bind fun dom => (code.nodeIdAt row.2).bind fun node =>
    (code.nodeIdAt dom).map fun domNode => (node, domNode)

/-- The graph must hold the root, and every loop must halt. -/
def gpuDominatorTree (root : NodeId) (rootIdx : Nat) : Option DominatorTree := do
  guard (rootIdx ∈ code.graph.slots)
  let post ← code.gpuPost (code.pos rootIdx)
  let idom ← (code.gpuInput (code.pos rootIdx) post).dominatorsGpu
  return ⟨root, Dict.ofList (idom.zipIdx.filterMap code.idomEntry)⟩

/-- Some edge leads from the first node to the second. -/
def EdgeTo (first second : NodeId) : Prop := ∃ data, (first, second, data) ∈ code.edges

section Positions

variable {code}

theorem pos_lt {slot : Nat} (stored : slot ∈ code.graph.slots) :
    code.pos slot < code.graph.slots.length := idxOf_lt_length_iff.mpr stored

theorem getElem?_slots {u slot : Nat} :
    code.graph.slots[u]? = some slot ↔ slot ∈ code.graph.slots ∧ code.pos slot = u := by
  constructor
  · intro found
    obtain ⟨inside, rfl⟩ := List.getElem?_eq_some_iff.mp found
    exact ⟨getElem_mem inside, code.graph.slots_nodup.idxOf_getElem u inside⟩
  · rintro ⟨stored, rfl⟩
    exact getElem?_idxOf stored

theorem mem_neighborsAt {neighbors : Nat → List Nat} {u w : Nat} :
    w ∈ code.neighborsAt neighbors u ↔ ∃ slot ∈ code.graph.slots, code.pos slot = u ∧
      ∃ other ∈ neighbors slot, code.pos other = w := by
  unfold neighborsAt
  constructor
  · intro mem
    cases found : code.graph.slots[u]? with
    | none =>
      rw [found] at mem
      cases mem
    | some slot =>
      rw [found] at mem
      obtain ⟨stored, here⟩ := getElem?_slots.mp found
      exact ⟨slot, stored, here, mem_map.mp mem⟩
  rintro ⟨slot, stored, here, other⟩
  rw [getElem?_slots.mpr ⟨stored, here⟩]
  exact mem_map.mpr other

theorem mem_successorsAt {u w : Nat} : w ∈ code.successorsAt u ↔
    ∃ link ∈ code.graph.links, code.pos link.source = u ∧ code.pos link.target = w := by
  unfold successorsAt StableGraph.successors
  rw [mem_neighborsAt]
  constructor
  · rintro ⟨slot, -, here, other, mem, there⟩
    obtain ⟨link, listed, rfl⟩ := mem_map.mp mem
    obtain ⟨stored, rfl⟩ := (code.graph.mem_edgesFrom _ _).mp listed
    exact ⟨link, stored, here, there⟩
  rintro ⟨link, listed, here, there⟩
  exact ⟨link.source, (link_slots listed).1, here, link.target,
    mem_map_of_mem ((code.graph.mem_edgesFrom _ _).mpr ⟨listed, rfl⟩), there⟩

theorem mem_predecessorsAt {u w : Nat} : w ∈ code.predecessorsAt u ↔ u ∈ code.successorsAt w := by
  unfold predecessorsAt StableGraph.predecessors
  rw [mem_neighborsAt, mem_successorsAt]
  constructor
  · rintro ⟨slot, -, here, other, mem, there⟩
    obtain ⟨link, listed, rfl⟩ := mem_map.mp mem
    obtain ⟨stored, rfl⟩ := (code.graph.mem_edgesTo _ _).mp listed
    exact ⟨link, stored, there, here⟩
  rintro ⟨link, listed, there, here⟩
  exact ⟨link.target, (link_slots listed).2, here, link.source,
    mem_map_of_mem ((code.graph.mem_edgesTo _ _).mpr ⟨listed, rfl⟩), there⟩

theorem successorsAt_inside {u w : Nat} (mem : w ∈ code.successorsAt u) :
    u < code.graph.slots.length ∧ w < code.graph.slots.length := by
  obtain ⟨link, listed, rfl, rfl⟩ := mem_successorsAt.mp mem
  exact ⟨pos_lt (link_slots listed).1, pos_lt (link_slots listed).2⟩

theorem row_gpuInput (root : Nat) (post : List Nat) {b : Nat} (inside : b < code.graph.slots.length) :
    (code.gpuInput root post).row b = code.predecessorsAt b := by
  have inside' : b < ((List.range code.graph.slots.length).map code.predecessorsAt).length := by
    rwa [length_map, length_range]
  have packed := Rows.slice_pack _ inside'
  rwa [getElem_map, getElem_range] at packed

/-- The number of a node is its position in the postorder. -/
theorem getElem?_gpuRpo {post : List Nat} (distinct : post.Nodup)
    (inside : ∀ node ∈ post, node < code.graph.slots.length) (v : Nat) :
    (code.gpuRpo post)[v]?.join = if v ∈ post then some (post.idxOf v) else none := by
  unfold gpuRpo
  induction post using List.reverseRecOn with
  | nil =>
    rw [if_neg not_mem_nil, zipIdx_nil, foldl_nil, getElem?_replicate]
    split <;> rfl
  | append_singleton post last ih =>
    have apart := nodup_append.mp distinct
    have before := ih apart.1 fun node mem => inside node (mem_append_left _ mem)
    have length (rest : List (Nat × Nat)) (rpo : List (Option Nat)) :
        (rest.foldl (fun rpo (node, i) => rpo.set node (some i)) rpo).length = rpo.length := by
      induction rest generalizing rpo with
      | nil => rfl
      | cons entry rest ih => simp [ih]
    rw [zipIdx_concat, foldl_append, foldl_cons, foldl_nil, getElem?_set]
    by_cases same : last = v
    · subst same
      have fresh : last ∉ post := fun mem => apart.2.2 last mem last (mem_singleton_self last) rfl
      have known := inside last (mem_append_right _ (mem_singleton_self last))
      rw [if_pos rfl, length, length_replicate, if_pos known,
        if_pos (mem_append_right _ (mem_singleton_self last)),
        idxOf_append_of_notMem fresh]
      simp
    rw [if_neg same, before]
    by_cases mem : v ∈ post
    · rw [if_pos mem, if_pos (mem_append_left _ mem), idxOf_append_of_mem mem]
    · rw [if_neg mem, if_neg]
      simp [mem, Ne.symm same]

/-- The input of the sweeps describes the graph by the positions of its nodes. -/
theorem gpuInput_ranked {root : Nat} {post : List Nat} (inside : root < code.graph.slots.length)
    (listed : PostSearch.Listed code.successorsAt root post) :
    Ranked (code.gpuInput root post) fun first second => second ∈ code.successorsAt first := by
  have bounded : ∀ node ∈ post, node < code.graph.slots.length := by
    intro node mem
    obtain ⟨visited, walk⟩ := (listed.mem node).mp mem
    exact @WalkTo.mem_of_closed _ _ _ _ _ (· < code.graph.slots.length) inside
      (fun _ _ _ next => (successorsAt_inside next).2) walk
  have value := getElem?_gpuRpo listed.nodup bounded
  have rank {v : Nat} (reached : ReachedBy (fun first second => second ∈ code.successorsAt first)
      root v) : (code.gpuInput root post).rank v = post.idxOf v := by
    change ((code.gpuRpo post)[v]?.join).getD _ = _
    rw [value, if_pos ((listed.mem v).mpr reached)]
    rfl
  have start : ReachedBy (fun first second => second ∈ code.successorsAt first) root root :=
    ⟨[root], .start⟩
  refine ⟨inside, fun _ _ next => successorsAt_inside next, fun b here p => ?_, fun v => ?_, ?_, ?_, ?_⟩
  · rw [row_gpuInput root post here]
    exact mem_predecessorsAt
  · change (code.gpuRpo post)[v]?.join ≠ none ↔ ReachedBy _ root v
    rw [value, ← listed.mem v]
    by_cases mem : v ∈ post <;> simp [mem]
  · intro first second reached reached' same
    rw [rank reached, rank reached'] at same
    exact (idxOf_inj ((listed.mem first).mpr reached)).mp same
  · exact (rank start).trans listed.idxOf_root
  · intro dominator node reached dominates
    obtain ⟨visited, walk⟩ := reached
    obtain ⟨shorter, -, walk'⟩ := walk.suffix (dominates visited walk)
    rw [rank ⟨visited, walk⟩, rank ⟨shorter, walk'⟩]
    exact listed.idxOf_le ⟨visited, walk⟩ dominates

/-- The search on the host halts. -/
theorem gpuPost_listed {root : Nat} (inside : root < code.graph.slots.length) :
    ∃ post, code.gpuPost root = some post ∧ PostSearch.Listed code.successorsAt root post :=
  PostSearch.run_listed nodup_range
    (fun _ _ _ next => List.mem_range.mpr (successorsAt_inside next).2) _ _
    (PostSearch.start_leaving code.successorsAt root)
    (forall_mem_singleton.mpr (List.mem_range.mpr inside)) (Nat.lt_succ_self _)

/-- The id of the node at a position. -/
def nameAt (code : CodeGraph) (u : Nat) : NodeId := code.nameOf (code.graph.slots.getD u 0)

theorem nodeIdAt_eq {u : Nat} (inside : u < code.graph.slots.length) :
    code.nodeIdAt u = some (code.nameAt u) := by
  rw [nodeIdAt, nameAt, getD_eq_getElem?_getD, getElem?_eq_getElem inside]
  exact nodeIdFor_eq (getElem_mem inside)

theorem nameAt_pos {slot : Nat} (stored : slot ∈ code.graph.slots) :
    code.nameAt (code.pos slot) = code.nameOf slot := by
  rw [nameAt, getD_eq_getElem?_getD, getElem?_slots.mpr ⟨stored, rfl⟩]
  rfl

theorem nameAt_injOn (consistent : Consistent code) :
    Set.InjOn code.nameAt {u | u < code.graph.slots.length} := by
  intro first inside second inside' same
  unfold nameAt at same
  rw [getD_eq_getElem?_getD, getElem?_eq_getElem inside,
    getD_eq_getElem?_getD, getElem?_eq_getElem inside'] at same
  exact (code.graph.slots_nodup.getElem_inj_iff).mp
    (nameOf_injOn consistent (getElem_mem inside) (getElem_mem inside') same)

theorem renames (consistent : Consistent code) {root : Nat} (inside : root < code.graph.slots.length) :
    Renames code.nameAt (· < code.graph.slots.length)
      (fun first second => second ∈ code.successorsAt first) root code.EdgeTo := by
  refine ⟨inside, fun _ _ => successorsAt_inside, nameAt_injOn consistent, fun first second => ?_⟩
  rw [EdgeTo, edges_eq_map]
  simp only [mem_map, Prod.mk.injEq]
  constructor
  · rintro ⟨data, link, mem, rfl, rfl, -⟩
    obtain ⟨stored, stored'⟩ := link_slots mem
    exact ⟨code.pos link.source, code.pos link.target,
      mem_successorsAt.mpr ⟨link, mem, rfl, rfl⟩, nameAt_pos stored, nameAt_pos stored'⟩
  rintro ⟨source, target, next, rfl, rfl⟩
  obtain ⟨link, mem, rfl, rfl⟩ := mem_successorsAt.mp next
  obtain ⟨stored, stored'⟩ := link_slots mem
  exact ⟨link.weight, link, mem, (nameAt_pos stored).symm, (nameAt_pos stored').symm, rfl⟩

end Positions

/-- The sweeps always end, and the tree holds the immediate dominators of the graph. -/
theorem gpuDominatorTree_spec {code : CodeGraph} (consistent : Consistent code) {root : NodeId}
    {rootIdx : Nat} (resolved : code.resolve root = some rootIdx) :
    ∃ tree, code.gpuDominatorTree root rootIdx = some tree ∧ tree.root = root ∧
      ∀ node dominator, tree.idom.get node = some dominator ↔
        ImmediatelyDominates code.EdgeTo root dominator node := by
  obtain ⟨data, found, named⟩ := (consistent.mapped root rootIdx).mp resolved
  have stored := (code.graph.mem_slots rootIdx).mpr (Option.isSome_iff_exists.mpr ⟨data, found⟩)
  have inside := pos_lt stored
  have renamed := renames consistent inside
  have atRoot : code.nameAt (code.pos rootIdx) = root := by
    rw [nameAt_pos stored]
    rwa [nameOf, nodeIdFor, found]
  obtain ⟨post, searched, listed⟩ := gpuPost_listed inside
  obtain ⟨idom, ended, length, exact_⟩ := dominatorsGpu_spec (gpuInput_ranked inside listed)
  refine ⟨_, by
    rw [gpuDominatorTree, guard, if_pos stored, searched]
    dsimp only [Option.pure_def, Option.bind_eq_bind, Option.bind_some]
    rw [ended]
    rfl, rfl, fun node dominator => ?_⟩
  have bounded {i d : Nat} (dominates : ImmediatelyDominates
      (fun first second => second ∈ code.successorsAt first) (code.pos rootIdx) d i) :
      d < code.graph.slots.length ∧ i < code.graph.slots.length := by
    obtain ⟨⟨visited, walk⟩, strict, -⟩ := dominates
    exact ⟨renamed.walk_inside walk d (strict.2 visited walk), renamed.walk_inside walk i walk.mem⟩
  have entry {i : Nat} {dom : Option Nat} (mem : (dom, i) ∈ idom.zipIdx) : i < code.graph.slots.length ∧
        code.idomEntry (dom, i) = dom.map fun d => (code.nameAt i, code.nameAt d) := by
    have here := mem_zipIdx_iff_getElem?.mp mem
    have early := lt_of_lt_of_eq (List.getElem?_eq_some_iff.mp here).1 length
    refine ⟨early, ?_⟩
    cases dom with
    | none => rfl
    | some d =>
      have dominates := (exact_ i d).mp (by unfold DomInput.idomOf; rw [here]; rfl)
      rw [idomEntry, Option.bind_some, nodeIdAt_eq early, nodeIdAt_eq (bounded dominates).1]
      rfl
  have indices : idom.zipIdx.Pairwise fun first second => first.2 ≠ second.2 := by
    rw [← pairwise_map (f := Prod.snd), zipIdx_map_snd]
    exact nodup_range'
  have distinct : ((idom.zipIdx.filterMap code.idomEntry).map Prod.fst).Nodup := by
    rw [List.Nodup, pairwise_map, pairwise_filterMap]
    refine indices.imp_of_mem fun {first second} mem mem' apart pair here pair' here' same => ?_
    obtain ⟨early, value⟩ := entry mem
    obtain ⟨early', value'⟩ := entry mem'
    rw [value, Option.map_eq_some_iff] at here
    rw [value', Option.map_eq_some_iff] at here'
    obtain ⟨d, -, rfl⟩ := here
    obtain ⟨d', -, rfl⟩ := here'
    exact apart (nameAt_injOn consistent early early' same)
  rw [Dict.get_ofList distinct, mem_filterMap]
  constructor
  · rintro ⟨⟨dom, i⟩, mem, here⟩
    obtain ⟨early, value⟩ := entry mem
    obtain ⟨d, rfl, same⟩ := Option.map_eq_some_iff.mp (value.symm.trans here)
    obtain ⟨rfl, rfl⟩ := Prod.mk.inj same
    have dominates := (exact_ i d).mp (by
      unfold DomInput.idomOf
      rw [mem_zipIdx_iff_getElem?.mp mem]
      rfl)
    rw [← atRoot]
    exact (renamed.immediatelyDominates (bounded dominates).1 early).mpr dominates
  intro dominates
  rw [← atRoot] at dominates
  obtain ⟨d, i, early, early', rfl, rfl⟩ := renamed.named dominates
  have found := (exact_ i d).mpr ((renamed.immediatelyDominates early early').mp dominates)
  have mem : (some d, i) ∈ idom.zipIdx := by
    rw [mem_zipIdx_iff_getElem?]
    unfold DomInput.idomOf at found
    cases here : idom[i]? with
    | none =>
      rw [here] at found
      cases found
    | some dom =>
      rw [here] at found
      exact congrArg some found
  exact ⟨(some d, i), mem, (entry mem).2⟩

theorem gpuDominatorTree_spec_doubled : ∃ tree,
    (edited .fresh doubled).gpuDominatorTree caller.id 1 = some tree ∧ tree.root = caller.id ∧
      ∀ node dominator, tree.idom.get node = some dominator ↔
        ImmediatelyDominates (edited .fresh doubled).EdgeTo caller.id dominator node :=
  gpuDominatorTree_spec (edited_consistent .fresh doubled) (by decide +kernel)

end CodeGraph

end Codegraph
