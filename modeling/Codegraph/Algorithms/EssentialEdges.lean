import Codegraph.Graph.Validity
import Codegraph.Library.EdgeSets
import Codegraph.Library.Search

namespace Codegraph

open Library Relation List Set

section Model

variable {Node Weight : Type} (graph : StableGraph Node Weight)

/-- The targets of the other edges at the source of an edge, with the edge added last first. -/
def otherTargets (edge : Link Weight × Nat) : List Nat :=
  ((graph.links.zipIdx.filter fun other => other.1.source = edge.1.source).reverse.filter
    fun other => other.1.target ≠ edge.1.target ∨ other.2 ≠ edge.2).map (·.1.target)

/-- The goal is found when the walk takes it from the stack. -/
def seek (goal : Nat) : Nat → Search Nat → Bool
  | 0, _ => false
  | fuel + 1, search =>
    match search.frontier with
    | [] => false
    | current :: frontier =>
      if current = goal then true
      else seek goal fuel ((graph.successors current).foldl Search.visit { search with frontier })

/-- The walk starts at the other edges of the source, which it does not enter again. -/
def hasAltPath (edge : Link Weight × Nat) : Bool :=
  seek graph edge.1.target graph.nodeCount ((otherTargets graph edge).foldl Search.visit
    ⟨ListSet.empty.insert edge.1.source, []⟩)

end Model

namespace CodeGraph

variable (code : CodeGraph)

/-- The edges that another path replaces. -/
def transitiveReduction : List (NodeId × NodeId) :=
  (code.graph.links.zipIdx.filter (hasAltPath code.graph)).filterMap fun edge =>
    (code.nodeIdFor edge.1.source).bind fun source =>
      (code.nodeIdFor edge.1.target).map fun target => (source, target)

/-- The edges between nodes that no other path joins. -/
def essentialEdges : List (NodeId × NodeId) :=
  code.graph.links.filterMap fun link =>
    (code.nodeIdFor link.source).bind fun source =>
      (code.nodeIdFor link.target).bind fun target =>
        if (source, target) ∈ code.transitiveReduction then none else some (source, target)

end CodeGraph

section Detours

variable {Node Weight : Type} {graph : StableGraph Node Weight}

def linkEnds (edge : Link Weight × Nat) : Nat × Nat := (edge.1.source, edge.1.target)

/-- The edges of a graph with their indices. -/
def linkSet (graph : StableGraph Node Weight) : Set (Link Weight × Nat) :=
  {edge | edge ∈ graph.links.zipIdx}

variable {edge : Link Weight × Nat}

theorem mem_otherTargets (mem : edge ∈ graph.links.zipIdx) (target : Nat) : target ∈ otherTargets graph edge ↔
      ∃ other ∈ linkSet graph \ {edge}, linkEnds other = (edge.1.source, target) := by
  simp only [otherTargets, linkEnds, mem_map, mem_filter, mem_reverse, decide_eq_true_eq, Prod.mk.injEq]
  constructor
  · rintro ⟨other, ⟨⟨listed, source⟩, apart⟩, rfl⟩
    refine ⟨other, ⟨listed, fun same => ?_⟩, source, rfl⟩
    rw [mem_singleton_iff.mp same] at apart
    simp at apart
  rintro ⟨other, ⟨listed, apart⟩, source, rfl⟩
  refine ⟨other, ⟨⟨listed, source⟩, .inr fun index => apart ?_⟩, rfl⟩
  have here := mem_zipIdx_iff_getElem?.mp mem
  have there := mem_zipIdx_iff_getElem?.mp listed
  rw [index, here] at there
  exact mem_singleton_iff.mpr (Prod.ext (Option.some.inj there).symm index)

theorem mem_successors_iff {current : Nat} (apart : current ≠ edge.1.source) (target : Nat) :
    target ∈ graph.successors current ↔
      ∃ other ∈ linkSet graph \ {edge}, linkEnds other = (current, target) := by
  simp only [StableGraph.successors, linkEnds, mem_map, StableGraph.mem_edgesFrom, Prod.mk.injEq]
  constructor
  · rintro ⟨link, ⟨listed, source⟩, rfl⟩
    obtain ⟨index, here⟩ := mem_iff_getElem?.mp listed
    refine ⟨(link, index), ⟨mem_zipIdx_iff_getElem?.mpr here, fun same => ?_⟩, source, rfl⟩
    rw [← mem_singleton_iff.mp same] at apart
    exact apart source.symm
  · rintro ⟨other, ⟨listed, -⟩, source, rfl⟩
    exact ⟨other.1, ⟨mem_of_getElem? (mem_zipIdx_iff_getElem?.mp listed), source⟩, rfl⟩

/-- The nodes that one step leads to without the edge. -/
def nextWithout (graph : StableGraph Node Weight) (edge : Link Weight × Nat) (current : Nat) : List Nat :=
  if current = edge.1.source then otherTargets graph edge else graph.successors current

theorem mem_nextWithout (mem : edge ∈ graph.links.zipIdx)
    (current target : Nat) : target ∈ nextWithout graph edge current ↔
      ∃ other ∈ linkSet graph \ {edge}, linkEnds other = (current, target) := by
  unfold nextWithout
  split
  · rename_i same
    rw [mem_otherTargets mem, same]
  · rename_i apart
    exact mem_successors_iff apart target

/-- What the walk without an edge keeps true while it looks for the goal. -/
structure Seeking (graph : StableGraph Node Weight) (edge : Link Weight × Nat) (goal : Nat)
    (search : Search Nat) : Prop where
  sound : search.Sound (nextWithout graph edge) edge.1.source
  rootDone : edge.1.source ∉ search.frontier
  goalWaits : goal ∈ search.visited.members → goal = edge.1.source ∨ goal ∈ search.frontier
  inside : ∀ node ∈ search.visited.members, node ∈ graph.slots

theorem nextWithout_inside {current target : Nat}
    (step : target ∈ nextWithout graph edge current) : target ∈ graph.slots := by
  have wired (link : Link Weight) (listed : link ∈ graph.links) : link.target ∈ graph.slots :=
    (graph.mem_slots _).mpr (graph.wired link listed).2
  unfold nextWithout at step
  split at step
  · obtain ⟨other, kept, rfl⟩ := mem_map.mp step
    have listed := mem_reverse.mp (mem_of_mem_filter kept)
    exact wired _ (mem_of_getElem?
      (mem_zipIdx_iff_getElem?.mp (mem_of_mem_filter listed)))
  · obtain ⟨link, listed, rfl⟩ := mem_map.mp step
    exact wired _ ((graph.mem_edgesFrom _ _).mp listed).1

/-- Expanding the next node of the stack keeps the walk going. -/
theorem Seeking.expand {goal current : Nat} {frontier : List Nat}
    {search : Search Nat} (seeking : Seeking graph edge goal search)
    (first : search.frontier = current :: frontier) (other : current ≠ goal) :
    Seeking graph edge goal
      ((nextWithout graph edge current).foldl Search.visit { search with frontier }) := by
  have waits := Search.mem_frontier_foldl_visit { search with frontier }
    (nextWithout graph edge current)
  have members := Search.mem_foldl_visit { search with frontier }
    (nextWithout graph edge current)
  have root : edge.1.source ∈ search.visited.members := seeking.sound.start
  refine ⟨seeking.sound.expand first, ?_, ?_, ?_⟩
  · intro waiting
    rcases (waits _).mp waiting with old | ⟨-, fresh⟩
    · exact seeking.rootDone (by rw [first]; exact mem_cons_of_mem current old)
    · exact fresh root
  · intro visited
    rw [waits]
    by_cases old : goal ∈ search.visited.members
    · refine (seeking.goalWaits old).imp_right fun waiting => .inl ?_
      rw [first] at waiting
      exact (mem_cons.mp waiting).resolve_left fun same => other same.symm
    · exact .inr (.inr ⟨((members goal).mp visited).resolve_right old, old⟩)
  intro node visited
  rcases (members node).mp visited with new | old
  · exact nextWithout_inside new
  · exact seeking.inside node old

/-- The walk finds the goal exactly when it is another node that some path leads to. -/
theorem Seeking.seek_iff {goal fuel : Nat} {search : Search Nat} (seeking : Seeking graph edge goal search)
    (enough : search.frontier.length + graph.nodeCount ≤ fuel + search.visited.size) :
    seek graph goal fuel search = true ↔ goal ≠ edge.1.source ∧
      ReflTransGen (fun first second => second ∈ nextWithout graph edge first)
        edge.1.source goal := by
  have finished {search : Search Nat} (seeking : Seeking graph edge goal search)
      (empty : search.frontier = []) : False ↔ goal ≠ edge.1.source ∧
        ReflTransGen (fun first second => second ∈ nextWithout graph edge first)
          edge.1.source goal := by
    refine ⟨False.elim, fun ⟨apart, reached⟩ => ?_⟩
    have visited := (seeking.sound.complete empty goal).mpr reached
    rcases seeking.goalWaits visited with same | waiting
    · exact apart same
    · rw [empty] at waiting
      cases waiting
  induction fuel generalizing search with
  | zero =>
    have few : search.visited.size ≤ graph.nodeCount := by
      rw [← graph.length_slots]
      exact (subperm_of_subset search.visited.nodup seeking.inside).length_le
    have empty : search.frontier = [] := length_eq_zero_iff.mp (by omega)
    simpa [seek] using finished seeking empty
  | succ fuel ih =>
    unfold seek
    split
    · rename_i empty
      simpa using finished seeking empty
    rename_i current frontier first
    have visited : current ∈ search.visited.members :=
      seeking.sound.waiting current (by rw [first]; exact mem_cons_self)
    have apart : current ≠ edge.1.source := fun same =>
      seeking.rootDone (by rw [first, same]; exact mem_cons_self)
    split
    · rename_i found
      subst found
      simpa [apart] using seeking.sound.reached current visited
    rename_i other
    have next : graph.successors current = nextWithout graph edge current := (if_neg apart).symm
    rw [next]
    refine ih (seeking.expand first other) ?_
    have balance := Search.foldl_visit_balance { search with frontier }
      (nextWithout graph edge current)
    rw [first, length_cons] at enough
    change _ + search.visited.size = frontier.length + _ at balance
    omega

theorem hasAltPath_iff (mem : edge ∈ graph.links.zipIdx) :
    hasAltPath graph edge = true ↔ edge.1.target ≠ edge.1.source ∧
      Via linkEnds (linkSet graph \ {edge}) edge.1.source edge.1.target := by
  have listed := mem_of_getElem? (mem_zipIdx_iff_getElem?.mp mem)
  have root := (graph.mem_slots _).mpr (graph.wired edge.1 listed).1
  have started : Seeking graph edge edge.1.target
      ((otherTargets graph edge).foldl Search.visit
        ⟨ListSet.empty.insert edge.1.source, []⟩) := by
    have next : otherTargets graph edge = nextWithout graph edge edge.1.source := (if_pos rfl).symm
    have only (node : Nat) : node ∈ (ListSet.empty.insert edge.1.source).members ↔
        node = edge.1.source := by simp
    have waits := Search.mem_frontier_foldl_visit ⟨ListSet.empty.insert edge.1.source, []⟩
      (nextWithout graph edge edge.1.source)
    have members := Search.mem_foldl_visit ⟨ListSet.empty.insert edge.1.source, []⟩
      (nextWithout graph edge edge.1.source)
    rw [next]
    refine ⟨(Search.start_sound _ _).expand rfl, ?_, ?_, ?_⟩
    · intro waiting
      rcases (waits _).mp waiting with none | ⟨-, fresh⟩
      · cases none
      · exact fresh ((only _).mpr rfl)
    · intro visited
      by_cases same : edge.1.target = edge.1.source
      · exact .inl same
      · refine .inr ((waits _).mpr (.inr ⟨?_, fun old => same ((only _).mp old)⟩))
        exact ((members _).mp visited).resolve_right fun old => same ((only _).mp old)
    intro node visited
    rcases (members node).mp visited with new | old
    · exact nextWithout_inside new
    · rwa [(only node).mp old]
  rw [hasAltPath, started.seek_iff]
  · refine and_congr_right fun _ => ?_
    unfold Via
    have same : (fun first second => second ∈ nextWithout graph edge first) =
        fun first second => ∃ other ∈ linkSet graph \ {edge}, linkEnds other = (first, second) := by
      funext first second
      exact propext (mem_nextWithout mem first second)
    rw [same]
  · have balance := Search.foldl_visit_balance ⟨ListSet.empty.insert edge.1.source, []⟩
      (otherTargets graph edge)
    have one : (ListSet.empty.insert edge.1.source).size = 1 := rfl
    simp only [length_nil] at balance
    omega

end Detours

namespace CodeGraph

variable {code : CodeGraph}

def edgeEnds (edge : (NodeId × NodeId × EdgeData) × Nat) : NodeId × NodeId := (edge.1.1, edge.1.2.1)

/-- The edges between the ids of nodes, told apart by their indices. -/
def edgeSet (code : CodeGraph) : Set ((NodeId × NodeId × EdgeData) × Nat) :=
  {edge | edge ∈ code.edges.zipIdx}

/-- The id at a slot that holds a node. -/
def nameOf (code : CodeGraph) (slot : Nat) : NodeId := (code.nodeIdFor slot).getD ⟨0⟩

def nameEnds (code : CodeGraph) (link : Link EdgeData × Nat) : (NodeId × NodeId × EdgeData) × Nat :=
  ((code.nameOf link.1.source, code.nameOf link.1.target, link.1.weight), link.2)

theorem nodeIdFor_eq {slot : Nat} (stored : slot ∈ code.graph.slots) :
    code.nodeIdFor slot = some (code.nameOf slot) := by
  obtain ⟨data, found⟩ := Option.isSome_iff_exists.mp ((code.graph.mem_slots slot).mp stored)
  rw [nameOf, nodeIdFor, found]
  rfl

theorem link_slots {link : Link EdgeData} (mem : link ∈ code.graph.links) :
    link.source ∈ code.graph.slots ∧ link.target ∈ code.graph.slots :=
  ⟨(code.graph.mem_slots _).mpr (code.graph.wired link mem).1,
    (code.graph.mem_slots _).mpr (code.graph.wired link mem).2⟩

theorem edges_eq_map (code : CodeGraph) : code.edges = code.graph.links.map fun link =>
    (code.nameOf link.source, code.nameOf link.target, link.weight) := by
  rw [← filterMap_eq_map]
  refine filterMap_congr fun link mem => ?_
  obtain ⟨source, target⟩ := link_slots mem
  rw [edgeBetween, nodeIdFor_eq source, nodeIdFor_eq target]
  rfl

theorem edgeSet_eq_image (code : CodeGraph) : code.edgeSet = code.nameEnds '' linkSet code.graph := by
  rw [edgeSet, linkSet, edges_eq_map, zipIdx_map]
  ext edge
  simp only [mem_setOf_eq, mem_map, mem_image]
  rfl

/-- The index tells the edges apart. -/
theorem nameEnds_injOn (code : CodeGraph) : Set.InjOn code.nameEnds (linkSet code.graph) := by
  intro first mem second mem' same
  have index := congrArg Prod.snd same
  change first.2 = second.2 at index
  have here := mem_zipIdx_iff_getElem?.mp mem
  have there := mem_zipIdx_iff_getElem?.mp mem'
  rw [index, there] at here
  exact Prod.ext (Option.some.inj here).symm index

section

variable (consistent : Consistent code)
include consistent

theorem nameOf_injOn : Set.InjOn code.nameOf {slot | slot ∈ code.graph.slots} := by
  intro first mem second mem' same
  obtain ⟨data, found⟩ := Option.isSome_iff_exists.mp ((code.graph.mem_slots first).mp mem)
  obtain ⟨data', found'⟩ := Option.isSome_iff_exists.mp ((code.graph.mem_slots second).mp mem')
  refine (consistent.unique found found' ?_).1
  unfold nameOf nodeIdFor at same
  rw [found, found'] at same
  exact same

theorem resolve_eq_some_iff (id : NodeId) (slot : Nat) :
    code.resolve id = some slot ↔ slot ∈ code.graph.slots ∧ code.nameOf slot = id := by
  refine (consistent.mapped id slot).trans ⟨?_, ?_⟩
  · rintro ⟨data, found, rfl⟩
    refine ⟨(code.graph.mem_slots slot).mpr (by rw [found]; rfl), ?_⟩
    rw [nameOf, nodeIdFor, found]
    rfl
  rintro ⟨stored, rfl⟩
  obtain ⟨data, found⟩ := Option.isSome_iff_exists.mp ((code.graph.mem_slots slot).mp stored)
  refine ⟨data, found, ?_⟩
  rw [nameOf, nodeIdFor, found]
  rfl

theorem hasAltPath_iff_essential {link : Link EdgeData × Nat} (mem : link ∈ linkSet code.graph) :
    hasAltPath code.graph link = true ↔ code.nameOf link.1.target ≠ code.nameOf link.1.source ∧
      code.nameEnds link ∉ Essential edgeEnds code.edgeSet := by
  have stored (other : Link EdgeData × Nat) (listed : other ∈ linkSet code.graph) :=
    link_slots (mem_of_getElem? (mem_zipIdx_iff_getElem?.mp listed))
  have slots := stored link mem
  have others : code.edgeSet \ {code.nameEnds link} = code.nameEnds '' (linkSet code.graph \ {link}) := by
    rw [edgeSet_eq_image, ← image_singleton,
      (code.nameEnds_injOn).image_sdiff_subset (singleton_subset_iff.mpr mem)]
  have transport : Via edgeEnds (code.edgeSet \ {code.nameEnds link})
      (code.nameOf link.1.source) (code.nameOf link.1.target) ↔
      Via linkEnds (linkSet code.graph \ {link}) link.1.source link.1.target := by
    rw [others]
    exact via_image (fun _ _ => rfl) (nameOf_injOn consistent)
      (fun other kept => stored other kept.1) slots.1 slots.2
  have inside : code.nameEnds link ∈ code.edgeSet := by
    rw [edgeSet_eq_image]
    exact ⟨link, mem, rfl⟩
  have essential : code.nameEnds link ∉ Essential edgeEnds code.edgeSet ↔
      Via edgeEnds (code.edgeSet \ {code.nameEnds link})
        (code.nameOf link.1.source) (code.nameOf link.1.target) :=
    ⟨fun missing => by_contra fun alone => missing ⟨inside, alone⟩, fun detour kept => kept.2 detour⟩
  rw [hasAltPath_iff mem, essential, transport]
  refine and_congr_left fun _ => not_congr ?_
  exact ⟨congrArg code.nameOf, fun same => nameOf_injOn consistent slots.2 slots.1 same⟩

theorem mem_transitiveReduction (first second : NodeId) :
    (first, second) ∈ code.transitiveReduction ↔ second ≠ first ∧
      ∃ edge ∈ code.edgeSet, edgeEnds edge = (first, second) ∧ edge ∉ Essential edgeEnds code.edgeSet := by
  rw [transitiveReduction, mem_filterMap]
  constructor
  · rintro ⟨link, kept, named⟩
    obtain ⟨mem, found⟩ := mem_filter.mp kept
    obtain ⟨source, target⟩ := link_slots (mem_of_getElem? (mem_zipIdx_iff_getElem?.mp mem))
    rw [nodeIdFor_eq source, nodeIdFor_eq target] at named
    obtain ⟨rfl, rfl⟩ := Prod.mk.inj (Option.some.inj named)
    obtain ⟨apart, detour⟩ := (hasAltPath_iff_essential consistent mem).mp found
    refine ⟨apart, code.nameEnds link, ?_, rfl, detour⟩
    rw [edgeSet_eq_image]
    exact ⟨link, mem, rfl⟩
  rintro ⟨apart, edge, mem, ends, detour⟩
  rw [edgeSet_eq_image] at mem
  obtain ⟨link, listed, rfl⟩ := mem
  obtain ⟨rfl, rfl⟩ := Prod.mk.inj ends
  refine ⟨link, mem_filter.mpr ⟨listed, ?_⟩, ?_⟩
  · exact (hasAltPath_iff_essential consistent listed).mpr ⟨apart, detour⟩
  obtain ⟨source, target⟩ := link_slots (mem_of_getElem? (mem_zipIdx_iff_getElem?.mp listed))
  rw [nodeIdFor_eq source, nodeIdFor_eq target]
  rfl

theorem mem_essentialEdges (first second : NodeId) :
    (first, second) ∈ code.essentialEdges ↔ ∃ edge ∈ code.edgeSet, edgeEnds edge = (first, second) ∧
        (second = first ∨ edge ∈ Essential edgeEnds code.edgeSet) := by
  have returned : (first, second) ∈ code.essentialEdges ↔
      (∃ edge ∈ code.edgeSet, edgeEnds edge = (first, second)) ∧
        (first, second) ∉ code.transitiveReduction := by
    rw [essentialEdges, mem_filterMap, edgeSet_eq_image]
    constructor
    · rintro ⟨link, mem, named⟩
      obtain ⟨source, target⟩ := link_slots mem
      rw [nodeIdFor_eq source, nodeIdFor_eq target] at named
      obtain ⟨index, here⟩ := mem_iff_getElem?.mp mem
      dsimp only [Option.bind_some] at named
      split at named
      · cases named
      rename_i kept
      obtain ⟨rfl, rfl⟩ := Prod.mk.inj (Option.some.inj named)
      exact ⟨⟨_, ⟨(link, index), mem_zipIdx_iff_getElem?.mpr here, rfl⟩, rfl⟩, kept⟩
    rintro ⟨⟨_, ⟨link, mem, rfl⟩, ends⟩, kept⟩
    obtain ⟨rfl, rfl⟩ := Prod.mk.inj ends
    have listed := mem_of_getElem? (mem_zipIdx_iff_getElem?.mp mem)
    obtain ⟨source, target⟩ := link_slots listed
    refine ⟨link.1, listed, ?_⟩
    rw [nodeIdFor_eq source, nodeIdFor_eq target]
    exact if_neg kept
  rw [returned, mem_transitiveReduction consistent]
  constructor
  · rintro ⟨⟨edge, mem, ends⟩, kept⟩
    refine ⟨edge, mem, ends, ?_⟩
    by_contra neither
    obtain ⟨apart, detour⟩ := not_or.mp neither
    exact kept ⟨apart, edge, mem, ends, detour⟩
  rintro ⟨edge, mem, ends, either⟩
  refine ⟨⟨edge, mem, ends⟩, ?_⟩
  rintro ⟨apart, other, mem', ends', detour⟩
  have essential := either.resolve_left apart
  refine essential.2 ?_
  by_cases same : other = edge
  · exact absurd (same ▸ essential) detour
  · rw [ends, ← ends']
    exact Via.single ⟨mem', same⟩

end

/-- The returned edges reach what all edges reach. -/
def EssentialKeepReach (code : CodeGraph) : Prop :=
  ∀ first second, ReflTransGen (fun source target => (source, target) ∈ code.essentialEdges)
      first second ↔
    ReflTransGen (fun source target => ∃ data, (source, target, data) ∈ code.edges) first second

/-- One set of edges that keeps reachability is contained in all others. -/
def HasLeastEdges (code : CodeGraph) : Prop :=
  ∃ least ⊆ code.edgeSet, KeepsReach edgeEnds code.edgeSet least ∧
    ∀ other ⊆ code.edgeSet, KeepsReach edgeEnds code.edgeSet other → least ⊆ other

/-- The returned edges keep reachability exactly when a single smallest set of edges does. -/
theorem essentialEdges_keepReach_iff (consistent : Consistent code) :
    code.EssentialKeepReach ↔ code.HasLeastEdges := by
  have all (first second : NodeId) : (∃ data, (first, second, data) ∈ code.edges) ↔
        ∃ edge ∈ code.edgeSet, edgeEnds edge = (first, second) := by
    constructor
    · rintro ⟨data, mem⟩
      obtain ⟨index, here⟩ := mem_iff_getElem?.mp mem
      exact ⟨((first, second, data), index), mem_zipIdx_iff_getElem?.mpr here, rfl⟩
    rintro ⟨⟨⟨source, target, data⟩, index⟩, mem, ends⟩
    obtain ⟨rfl, rfl⟩ := Prod.mk.inj ends
    exact ⟨data, mem_of_getElem? (mem_zipIdx_iff_getElem?.mp mem)⟩
  have returned (first second : NodeId) :
      ReflTransGen (fun source target => (source, target) ∈ code.essentialEdges) first second ↔
        Via edgeEnds (Essential edgeEnds code.edgeSet) first second := by
    have same : (fun source target => (source, target) ∈ code.essentialEdges) =
        fun source target => ∃ edge ∈ {edge ∈ code.edgeSet |
          (edgeEnds edge).2 = (edgeEnds edge).1 ∨ edge ∈ Essential edgeEnds code.edgeSet},
          edgeEnds edge = (source, target) := by
      funext source target
      refine propext ((mem_essentialEdges consistent source target).trans ?_)
      constructor
      · rintro ⟨edge, mem, ends, either⟩
        refine ⟨edge, ⟨mem, ?_⟩, ends⟩
        rwa [ends]
      rintro ⟨edge, ⟨mem, either⟩, ends⟩
      rw [ends] at either
      exact ⟨edge, mem, ends, either⟩
    rw [same]
    refine via_congr (fun edge kept => ?_) fun edge essential => ?_
    · rcases kept.2 with loop | essential
      · rw [loop]
        exact ReflTransGen.refl
      · exact Via.single essential
    · exact Via.single ⟨essential.1, .inr essential⟩
  have joined : (fun source target => ∃ data, (source, target, data) ∈ code.edges) =
      fun source target => ∃ edge ∈ code.edgeSet, edgeEnds edge = (source, target) := by
    funext source target
    exact propext (all source target)
  rw [EssentialKeepReach, HasLeastEdges, ← keepsReach_essential_iff, joined]
  exact forall_congr' fun first => forall_congr' fun second => iff_congr (returned first second) Iff.rfl

/-- A call that is also a reference. -/
def doubled : List Edit :=
  [.addNode caller, .addNode callee, .addEdge caller.id callee.id ⟨.calls, {}, 0⟩,
    .addEdge caller.id callee.id ⟨.references, {}, 0⟩]

theorem essentialEdges_keepReach_iff_doubled :
    (edited .fresh doubled).EssentialKeepReach ↔ (edited .fresh doubled).HasLeastEdges :=
  essentialEdges_keepReach_iff (edited_consistent .fresh doubled)

/-- Each of the two edges replaces the other, and both are dropped. -/
theorem doubled_not_essentialKeepReach : ¬(edited .fresh doubled).EssentialKeepReach := by
  intro keeps
  have dropped : (edited .fresh doubled).essentialEdges = [] := by decide +kernel
  have calls : (caller.id, callee.id, ⟨.calls, {}, 0⟩) ∈ (edited .fresh doubled).edges := by
    decide +kernel
  have reached := (keeps caller.id callee.id).mpr (ReflTransGen.single ⟨_, calls⟩)
  rw [dropped] at reached
  cases reached with
  | tail _ step => cases step

end CodeGraph

end Codegraph
