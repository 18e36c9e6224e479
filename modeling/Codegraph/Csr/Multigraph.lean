import Codegraph.Csr.Snapshot

namespace Codegraph

open Library List StableGraph Rows CodeGraph

theorem mapM_some {Item Image : Type} {change : Item → Option Image} {list : List Item}
    (answered : ∀ item ∈ list, (change item).isSome) :
    ∃ images, list.mapM change = some images ∧ list.map change = images.map some := by
  induction list with
  | nil => exact ⟨[], rfl, rfl⟩
  | cons item list ih =>
    obtain ⟨images, mapped, same⟩ := ih fun other mem => answered other (mem_cons_of_mem item mem)
    obtain ⟨image, found⟩ := Option.isSome_iff_exists.mp (answered item mem_cons_self)
    refine ⟨image :: images, ?_, ?_⟩
    · rw [mapM_cons, found, mapped]
      rfl
    · rw [map_cons, map_cons, found, same]

namespace CsrSnapshot

/-- The entries of an outgoing row. -/
def outRow (snapshot : CsrSnapshot) (v : Nat) : List (Nat × EdgeKindTag) :=
  (snapshot.outNeighbours v).zip (snapshot.outKinds v)

/-- The entries of an incoming row. -/
def inRow (snapshot : CsrSnapshot) (v : Nat) : List (Nat × EdgeKindTag) :=
  (snapshot.inNeighbours v).zip (snapshot.inKinds v)

/-- The vertices number the nodes and every row lists the edges at its node. -/
structure Represents (snapshot : CsrSnapshot) (code : CodeGraph) : Prop where
  count : snapshot.n = (bfsRelabel code.graph).length
  named : ∀ v, snapshot.idOf v = (bfsRelabel code.graph)[v]?.bind code.nodeIdFor
  vertices : snapshot.idToVertex = .ofList snapshot.vertexToId.zipIdx
  size : snapshot.m = code.graph.links.length
  outgoing : ∀ v slot, (bfsRelabel code.graph)[v]? = some slot →
    ((snapshot.outRow v).map fun other => ((bfsRelabel code.graph)[other.1]?, other.2)).Perm
      ((outEnds code.graph slot).map fun other => (some other.1, other.2))
  incoming : ∀ v slot, (bfsRelabel code.graph)[v]? = some slot →
    ((snapshot.inRow v).map fun other => ((bfsRelabel code.graph)[other.1]?, other.2)).Perm
      ((inEnds code.graph slot).map fun other => (some other.1, other.2))
  outLengths : ∀ v < snapshot.n, (snapshot.outNeighbours v).length = (snapshot.outKinds v).length
  inLengths : ∀ v < snapshot.n, (snapshot.inNeighbours v).length = (snapshot.inKinds v).length
  outPtrs : snapshot.outRowPtrs.length = snapshot.n + 1 ∧ snapshot.outRowPtrs.Pairwise (· ≤ ·)
  inPtrs : snapshot.inRowPtrs.length = snapshot.n + 1 ∧ snapshot.inRowPtrs.Pairwise (· ≤ ·)

variable (code : CodeGraph)

theorem order_nodup : (bfsRelabel code.graph).Nodup :=
  (bfsRelabel_perm code.graph).nodup_iff.mpr code.graph.slots_nodup

theorem vertex_of_slot (slot v : Nat) : Dict.get (.ofList (bfsRelabel code.graph).zipIdx) slot = some v ↔
      (bfsRelabel code.graph)[v]? = some slot := by
  have distinct : ((bfsRelabel code.graph).zipIdx.map Prod.fst).Nodup := by
    rw [zipIdx_map_fst]
    exact order_nodup code
  rw [Dict.get_ofList distinct, mem_zipIdx_iff_getElem?]

theorem rowOf_perm {ends : List (Nat × EdgeKindTag)} (stored : ∀ other ∈ ends, other.1 ∈ code.graph.slots) :
    ((rowOf (.ofList (bfsRelabel code.graph).zipIdx) ends).map fun other =>
        ((bfsRelabel code.graph)[other.1]?, other.2)).Perm
      (ends.map fun other => (some other.1, other.2)) := by
  have back : (ends.filterMap fun other =>
      (Dict.get (.ofList (bfsRelabel code.graph).zipIdx) other.1).map fun v => (v, other.2)).map
        (fun other => ((bfsRelabel code.graph)[other.1]?, other.2)) =
      ends.map fun other => (some other.1, other.2) := by
    rw [map_filterMap, ← filterMap_eq_map]
    apply filterMap_congr
    intro other mem
    have listed := (bfsRelabel_perm code.graph).mem_iff.mpr (stored other mem)
    obtain ⟨v, here⟩ := getElem?_of_mem listed
    rw [(vertex_of_slot code other.1 v).mpr here]
    simp [here]
  rw [← back]
  exact (mergeSort_perm _ _).map _

variable (graph : StableGraph NodeData EdgeData)

theorem outEnds_stored (slot : Nat) : ∀ other ∈ outEnds graph slot, other.1 ∈ graph.slots := by
  intro other mem
  obtain ⟨link, listed, rfl⟩ := mem_map.mp mem
  exact (graph.mem_slots _).mpr (graph.wired link ((graph.mem_edgesFrom slot link).mp listed).1).2

theorem inEnds_stored (slot : Nat) : ∀ other ∈ inEnds graph slot, other.1 ∈ graph.slots := by
  intro other mem
  obtain ⟨link, listed, rfl⟩ := mem_map.mp mem
  exact (graph.mem_slots _).mpr (graph.wired link ((graph.mem_edgesTo slot link).mp listed).1).1

theorem sum_rows :
    (((bfsRelabel code.graph).map fun slot =>
      rowOf (.ofList (bfsRelabel code.graph).zipIdx) (outEnds code.graph slot)).map
        List.length).sum = code.graph.links.length := by
  have covered : ∀ link ∈ code.graph.links, link.source ∈ bfsRelabel code.graph := by
    intro link mem
    rw [(bfsRelabel_perm code.graph).mem_iff, mem_slots]
    exact (code.graph.wired link mem).1
  have grouped := flatMap_group_perm Link.source (order_nodup code) covered
  rw [← grouped.length_eq, length_flatMap, map_map]
  congr 1
  apply map_congr_left
  intro slot _
  have same := (rowOf_perm code (outEnds_stored code.graph slot)).length_eq
  rw [length_map, length_map] at same
  change (rowOf _ (outEnds code.graph slot)).length = _
  rw [same]
  simp [outEnds, StableGraph.edgesFrom, group]

theorem zip_slices (rows : List (List (Nat × EdgeKindTag))) {v : Nat} (inside : v < rows.length) :
    (slice ((Rows.pack rows).items.map Prod.fst) ((Rows.pack rows).ptrs.getD v 0)
        ((Rows.pack rows).ptrs.getD (v + 1) 0)).zip
      (slice ((Rows.pack rows).items.map Prod.snd) ((Rows.pack rows).ptrs.getD v 0)
        ((Rows.pack rows).ptrs.getD (v + 1) 0)) = rows[v] := by
  rw [slice_map, slice_map, slice_pack rows inside]
  exact (zip_of_prod rfl rfl).symm

theorem build_represents : (build code).Represents code := by
  have length : (bfsRelabel code.graph).length = code.graph.nodeCount := by
    rw [(bfsRelabel_perm code.graph).length_eq, length_slots]
  have answered : ∀ slot ∈ bfsRelabel code.graph, (code.nodeIdFor slot).isSome := by
    intro slot mem
    rw [(bfsRelabel_perm code.graph).mem_iff, mem_slots] at mem
    rwa [CodeGraph.nodeIdFor, Option.isSome_map]
  obtain ⟨ids, mapped, same⟩ := mapM_some answered
  have named (v : Nat) : ids[v]? = (bfsRelabel code.graph)[v]?.bind code.nodeIdFor := by
    have entries := congrArg (fun list => list[v]?) same
    simp only [getElem?_map] at entries
    cases found : (bfsRelabel code.graph)[v]? <;> cases found' : ids[v]? <;> simp_all
  unfold build
  by_cases none : code.graph.nodeCount = 0
  · have order := length_eq_zero_iff.mp (length.trans none)
    have edges : code.graph.links = [] := by
      apply eq_nil_iff_forall_not_mem.mpr
      intro link mem
      have stored := (mem_slots code.graph _).mpr (code.graph.wired link mem).1
      rw [← (bfsRelabel_perm code.graph).mem_iff, order] at stored
      contradiction
    rw [if_pos none]
    constructor <;> simp [empty, order, edges, idOf, Dict.ofList]
  rw [if_neg none]
  dsimp only
  rw [mapped]
  dsimp only
  constructor
  · exact length.symm
  · exact named
  · rfl
  · exact sum_rows code
  · intro v slot here
    obtain ⟨inside, at'⟩ := List.getElem?_eq_some_iff.mp here
    have row := zip_slices ((bfsRelabel code.graph).map fun slot =>
      rowOf (.ofList (bfsRelabel code.graph).zipIdx) (outEnds code.graph slot))
      (by rw [length_map]; exact inside)
    rw [getElem_map, at'] at row
    exact (List.Perm.of_eq (congrArg (List.map _) row)).trans
      (rowOf_perm code (outEnds_stored code.graph slot))
  · intro v slot here
    obtain ⟨inside, at'⟩ := List.getElem?_eq_some_iff.mp here
    have row := zip_slices ((bfsRelabel code.graph).map fun slot =>
      rowOf (.ofList (bfsRelabel code.graph).zipIdx) (inEnds code.graph slot))
      (by rw [length_map]; exact inside)
    rw [getElem_map, at'] at row
    exact (List.Perm.of_eq (congrArg (List.map _) row)).trans
      (rowOf_perm code (inEnds_stored code.graph slot))
  · intro v _
    simp [outNeighbours, outKinds, slice_map]
  · intro v _
    simp [inNeighbours, inKinds, slice_map]
  · refine ⟨?_, ptrs_sorted _⟩
    rw [length_ptrs, length_map, length]
  · refine ⟨?_, ptrs_sorted _⟩
    rw [length_ptrs, length_map, length]

/-- Entries of a row count the edges to the node of a vertex. -/
theorem count_ends {row ends : List (Nat × EdgeKindTag)}
    (listed : (row.map fun other => ((bfsRelabel code.graph)[other.1]?, other.2)).Perm
      (ends.map fun other => (some other.1, other.2)))
    {v slot : Nat} (here : (bfsRelabel code.graph)[v]? = some slot) (tag : EdgeKindTag) :
    row.count (v, tag) = ends.count (slot, tag) := by
  have vertex (w : Nat) : (bfsRelabel code.graph)[w]? = some slot ↔ w = v := by
    rw [← vertex_of_slot, (vertex_of_slot code slot v).mpr here, Option.some.injEq, eq_comm]
  have counted := listed.count_eq (some slot, tag)
  rw [count_eq_countP, countP_map, count_eq_countP, countP_map] at counted
  calc row.count (v, tag)
      = row.countP ((· == (some slot, tag)) ∘
          fun other => ((bfsRelabel code.graph)[other.1]?, other.2)) := by
        apply countP_congr
        intro other _
        simp [Prod.ext_iff, vertex]
    _ = ends.countP ((· == (some slot, tag)) ∘ fun other => (some other.1, other.2)) := counted
    _ = ends.count (slot, tag) := by
        apply countP_congr
        intro other _
        simp [Prod.ext_iff]

/-- The edge joins two slots with a kind. -/
def joins (source target : Nat) (tag : EdgeKindTag) (link : Link EdgeData) : Bool :=
  link.source = source && link.target = target && .fromKind link.weight.kind = tag

theorem count_outEnds (source target : Nat) (tag : EdgeKindTag) :
    (outEnds graph source).count (target, tag) = graph.links.countP (joins source target tag) := by
  rw [outEnds, StableGraph.edgesFrom, count_eq_countP, countP_map, countP_reverse, countP_filter]
  apply countP_congr
  intro link _
  simp only [Function.comp_apply, joins, Bool.and_eq_true, beq_iff_eq, Prod.mk.injEq, decide_eq_true_eq]
  tauto

theorem count_inEnds (source target : Nat) (tag : EdgeKindTag) :
    (inEnds graph target).count (source, tag) = graph.links.countP (joins source target tag) := by
  rw [inEnds, StableGraph.edgesTo, count_eq_countP, countP_map, countP_reverse, countP_filter]
  apply countP_congr
  intro link _
  simp only [Function.comp_apply, joins, Bool.and_eq_true, beq_iff_eq, Prod.mk.injEq, decide_eq_true_eq]
  tauto

/-- The edges between two ids are the edges between their slots. -/
theorem count_edges {code : CodeGraph} (consistent : CodeGraph.Consistent code)
    {source target : Nat} {sourceNode targetNode : NodeData}
    (foundSource : code.graph.node source = some sourceNode)
    (foundTarget : code.graph.node target = some targetNode) (tag : EdgeKindTag) :
    (code.edges.countP fun edge =>
        edge.1 = sourceNode.id && edge.2.1 = targetNode.id && .fromKind edge.2.2.kind = tag) =
      code.graph.links.countP (joins source target tag) := by
  have slot {place place' : Nat} {node node' : NodeData} (found : code.graph.node place = some node)
      (found' : code.graph.node place' = some node') : node.id = node'.id ↔ place = place' := by
    constructor
    · exact fun same => (consistent.unique found found' same).1
    intro same
    rw [same, found'] at found
    cases found
    rfl
  rw [CodeGraph.edges, countP_filterMap]
  apply countP_congr
  intro link mem
  obtain ⟨⟨first, foundFirst⟩, second, foundSecond⟩ := code.linked mem
  simp [CodeGraph.edgeBetween, CodeGraph.nodeIdFor, foundFirst, foundSecond, joins,
    slot foundFirst foundSource, slot foundSecond foundTarget]

namespace Represents

variable {snapshot : CsrSnapshot} {code : CodeGraph}

section

variable (represents : snapshot.Represents code)
include represents

theorem idOf_eq_some (v : Nat) (id : NodeId) :
    snapshot.idOf v = some id ↔ ∃ slot node, (bfsRelabel code.graph)[v]? = some slot ∧
      code.graph.node slot = some node ∧ node.id = id := by
  rw [represents.named, Option.bind_eq_some_iff]
  unfold CodeGraph.nodeIdFor
  simp only [Option.map_eq_some_iff]
  constructor
  · intro ⟨slot, here, node, found, named⟩
    exact ⟨slot, node, here, found, named⟩
  · intro ⟨slot, node, here, found, named⟩
    exact ⟨slot, here, node, found, named⟩

/-- Exactly the vertices below the count have a node. -/
theorem idOf_isSome (v : Nat) : (snapshot.idOf v).isSome ↔ v < snapshot.n := by
  rw [represents.count, Option.isSome_iff_exists]
  constructor
  · intro ⟨id, named⟩
    obtain ⟨slot, _, here, _⟩ := (represents.idOf_eq_some v id).mp named
    exact (List.getElem?_eq_some_iff.mp here).1
  intro inside
  have mem := (bfsRelabel_perm code.graph).mem_iff.mp (getElem_mem inside)
  rw [mem_slots] at mem
  obtain ⟨node, found⟩ := Option.isSome_iff_exists.mp mem
  exact ⟨node.id, (represents.idOf_eq_some v node.id).mpr
    ⟨_, node, getElem?_eq_getElem inside, found, rfl⟩⟩

/-- The two numberings of a snapshot are inverse to each other. -/
theorem vertexOf_eq_some (consistent : CodeGraph.Consistent code) (id : NodeId) (v : Nat) :
    snapshot.vertexOf id = some v ↔ snapshot.idOf v = some id := by
  have distinct : snapshot.vertexToId.Nodup := by
    rw [nodup_iff_injective_get]
    intro first second same
    have left : snapshot.idOf first = some (snapshot.vertexToId.get first) :=
      getElem?_eq_getElem first.isLt
    have right := getElem?_eq_getElem second.isLt
    rw [same] at left
    obtain ⟨slot, node, here, found, named⟩ := (represents.idOf_eq_some _ _).mp left
    obtain ⟨slot', node', here', found', named'⟩ := (represents.idOf_eq_some _ _).mp right
    have slots := (consistent.unique found found' (named.trans named'.symm)).1
    rw [← vertex_of_slot, slots] at here
    rw [← vertex_of_slot, here] at here'
    exact Fin.ext (Option.some.inj here')
  rw [vertexOf, represents.vertices, Dict.get_ofList (by rw [zipIdx_map_fst]; exact distinct),
    mem_zipIdx_iff_getElem?]
  rfl

theorem vertexOf_isSome (consistent : CodeGraph.Consistent code) (id : NodeId) :
    (snapshot.vertexOf id).isSome ↔ (code.getNode id).isSome := by
  rw [Option.isSome_iff_exists, Option.isSome_iff_exists]
  constructor
  · intro ⟨v, numbered⟩
    obtain ⟨slot, node, _, found, named⟩ :=
      (represents.idOf_eq_some v id).mp ((represents.vertexOf_eq_some consistent id v).mp numbered)
    exact ⟨node, (getNode_eq_some consistent id node).mpr ⟨slot, found, named⟩⟩
  intro ⟨node, found⟩
  obtain ⟨slot, here, named⟩ := (getNode_eq_some consistent id node).mp found
  have stored : slot ∈ bfsRelabel code.graph := by
    rw [(bfsRelabel_perm code.graph).mem_iff, mem_slots, here]
    rfl
  obtain ⟨v, at'⟩ := getElem?_of_mem stored
  exact ⟨v, (represents.vertexOf_eq_some consistent id v).mpr
    ((represents.idOf_eq_some v id).mpr ⟨slot, node, at', here, named⟩)⟩

end

end Represents

/-- The vertices are in one-to-one correspondence with the nodes, and the number of entries for a
vertex in the outgoing row of another is the number of entries for that one in its incoming row and
the number of edges of the graph. -/
theorem build_multigraph {code : CodeGraph} (consistent : CodeGraph.Consistent code) :
    let snapshot := build code
    ((bfsRelabel code.graph).Perm code.graph.slots ∧ snapshot.n = code.graph.nodeCount ∧
      (∀ v, (snapshot.idOf v).isSome ↔ v < snapshot.n) ∧
      (∀ id, (snapshot.vertexOf id).isSome ↔ (code.getNode id).isSome) ∧
      ∀ id v, snapshot.vertexOf id = some v ↔ snapshot.idOf v = some id) ∧
    (snapshot.outRowPtrs.length = snapshot.n + 1 ∧ snapshot.outRowPtrs.Pairwise (· ≤ ·) ∧
      snapshot.inRowPtrs.length = snapshot.n + 1 ∧ snapshot.inRowPtrs.Pairwise (· ≤ ·)) ∧
    (∀ v < snapshot.n, (snapshot.outNeighbours v).length = (snapshot.outKinds v).length ∧
      (snapshot.inNeighbours v).length = (snapshot.inKinds v).length) ∧
    (∀ u v source target, snapshot.idOf u = some source → snapshot.idOf v = some target →
      ∀ tag, (snapshot.outRow u).count (v, tag) = (snapshot.inRow v).count (u, tag) ∧
        (snapshot.outRow u).count (v, tag) = code.edges.countP fun edge =>
          edge.1 = source && edge.2.1 = target && .fromKind edge.2.2.kind = tag) ∧
    snapshot.m = code.edges.length := by
  intro snapshot
  have represents := build_represents code
  have length : (bfsRelabel code.graph).length = code.graph.nodeCount := by
    rw [(bfsRelabel_perm code.graph).length_eq, length_slots]
  have edges : code.edges.length = code.graph.links.length := by
    rw [CodeGraph.edges, length_filterMap_eq_countP, countP_eq_length]
    intro link mem
    obtain ⟨⟨source, foundSource⟩, target, foundTarget⟩ := code.linked mem
    simp [CodeGraph.edgeBetween, CodeGraph.nodeIdFor, foundSource, foundTarget]
  refine ⟨⟨bfsRelabel_perm code.graph, represents.count.trans length, represents.idOf_isSome,
    represents.vertexOf_isSome consistent, represents.vertexOf_eq_some consistent⟩,
    ⟨represents.outPtrs.1, represents.outPtrs.2, represents.inPtrs.1, represents.inPtrs.2⟩,
    fun v inside => ⟨represents.outLengths v inside, represents.inLengths v inside⟩, ?_,
    represents.size.trans edges.symm⟩
  intro u v source target namedSource namedTarget tag
  obtain ⟨slot, node, here, found, rfl⟩ := (represents.idOf_eq_some u source).mp namedSource
  obtain ⟨slot', node', here', found', rfl⟩ := (represents.idOf_eq_some v target).mp namedTarget
  rw [count_ends code (represents.outgoing u slot here) here', count_outEnds,
    count_ends code (represents.incoming v slot' here') here, count_inEnds,
    count_edges consistent found found']
  exact ⟨rfl, rfl⟩

/-- A function calls itself at two places. -/
def recursion : List (CodeGraph.Operation Unit) :=
  [.addNode { id := ⟨1⟩, kind := .function, name := "walk" },
    .addEdge ⟨1⟩ ⟨1⟩ { kind := .calls, weight := 0 }, .addEdge ⟨1⟩ ⟨1⟩ { kind := .calls, weight := 0 }]

/-- Two entries list the two edges of the loop. -/
theorem build_multigraph_recursion : (build (CodeGraph.run .fresh recursion)).m = 2 := by
  rw [(build_multigraph (run_consistent .fresh recursion)).2.2.2.2]
  decide +kernel

end CsrSnapshot

end Codegraph
