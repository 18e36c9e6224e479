import Codegraph.Library.Layers
import Codegraph.Traversal.Traverse

namespace Codegraph

open Library List

namespace TraversalState

/-- The second vertex is a neighbour of the first. -/
def Adjacent (neighbors : Nat → List Nat) (v w : Nat) : Prop := w ∈ neighbors v

/-- An edge with the ids of its ends. -/
def nameEdge (idOf : Nat → Option NodeId) (edge : Nat × Nat) : Option (NodeId × NodeId) :=
  (idOf edge.1).bind fun first => (idOf edge.2).map fun second => (first, second)

theorem nameEdge_eq_some (idOf : Nat → Option NodeId) (edge : Nat × Nat) (first second : NodeId) :
    nameEdge idOf edge = some (first, second) ↔ idOf edge.1 = some first ∧ idOf edge.2 = some second := by
  unfold nameEdge
  cases idOf edge.1 <;> cases idOf edge.2 <;> simp

theorem mem_expandSerial (neighbors : Nat → List Nat) (current : List Nat) (edge : Nat × Nat) :
    edge ∈ expandSerial neighbors current ↔ edge.1 ∈ current ∧ Adjacent neighbors edge.1 edge.2 := by
  rw [expandSerial, Adjacent, mem_flatMap]
  constructor
  · intro ⟨v, mem, mapped⟩
    obtain ⟨w, listed, rfl⟩ := mem_map.mp mapped
    exact ⟨mem, listed⟩
  · intro ⟨mem, listed⟩
    exact ⟨edge.1, mem, mem_map.mpr ⟨edge.2, listed, rfl⟩⟩

variable {neighbors : Nat → List Nat} {idOf : Nat → Option NodeId} {maxNodes : Nat}

/-- What the edges of a layer did to the state so far. -/
structure Following (idOf : Nat → Option NodeId) (maxNodes : Nat) (base : TraversalState)
    (edges : List (Nat × Nat)) (state : TraversalState) : Prop where
  visited : ∃ fresh, state.visited.members = base.visited.members ++ fresh ∧
    state.next = base.next ++ fresh ∧ ∀ v ∈ fresh, ∃ u, (u, v) ∈ edges
  nodes : state.resultNodes.map some = state.visited.members.map idOf
  bounded : state.visited.members.length ≤ max base.visited.members.length maxNodes
  running : state.wasTruncated = false →
    state.resultEdges = base.resultEdges ++ edges.filterMap (nameEdge idOf) ∧
      ∀ edge ∈ edges, edge.2 ∈ state.visited.members
  stopped : state.wasTruncated = true → maxNodes ≤ state.visited.members.length ∧
    ∃ edge ∈ edges, edge.2 ∉ state.visited.members ∧
      ∃ named ∈ state.resultEdges, nameEdge idOf edge = some named
  kept : state.maxDepthReached = base.maxDepthReached

theorem follow_following {base state : TraversalState} {edges : List (Nat × Nat)}
    (following : Following idOf maxNodes base edges state) {edge : Nat × Nat} {first second : NodeId}
    (named : idOf edge.1 = some first) (named' : idOf edge.2 = some second) :
    Following idOf maxNodes base (edges ++ [edge]) (state.follow idOf maxNodes edge) := by
  have name := (nameEdge_eq_some idOf edge first second).mpr ⟨named, named'⟩
  obtain ⟨fresh, members, next, source⟩ := following.visited
  have source' : ∀ v ∈ fresh, ∃ u, (u, v) ∈ edges ++ [edge] := by
    intro v mem
    obtain ⟨u, listed⟩ := source v mem
    exact ⟨u, mem_append_left _ listed⟩
  have recorded : (edges ++ [edge]).filterMap (nameEdge idOf) =
      edges.filterMap (nameEdge idOf) ++ [(first, second)] := by
    simp [name]
  have counted : state.resultNodes.length = state.visited.members.length := by
    have lengths := congrArg List.length following.nodes
    simpa using lengths
  unfold follow
  cases truncated : state.wasTruncated with
  | true =>
    rw [if_pos rfl]
    obtain ⟨full, cut, listed, missing, named⟩ := following.stopped truncated
    refine ⟨⟨fresh, members, next, source'⟩, following.nodes, following.bounded, ?_,
      fun _ => ⟨full, cut, mem_append_left _ listed, missing, named⟩, following.kept⟩
    intro running
    rw [truncated] at running
    contradiction
  | false =>
    obtain ⟨edgesSoFar, met⟩ := following.running truncated
    rw [if_neg (by simp), named, named']
    dsimp only
    by_cases present : edge.2 ∈ state.visited.members
    · rw [if_pos present]
      refine ⟨⟨fresh, members, next, source'⟩, following.nodes, following.bounded, ?_, ?_, following.kept⟩
      · intro _
        constructor
        · rw [recorded, ← append_assoc, ← edgesSoFar]
        intro other mem
        rcases mem_append.mp mem with old | new
        · exact met other old
        · rwa [mem_singleton.mp new]
      · intro stopped
        contradiction
    rw [if_neg present]
    unfold collect
    by_cases full : maxNodes ≤ state.resultNodes.length
    · rw [if_pos full]
      refine ⟨⟨fresh, members, next, source'⟩, following.nodes, following.bounded, ?_, ?_, following.kept⟩
      · intro running
        contradiction
      intro _
      refine ⟨counted ▸ full, edge, mem_append_right _ (mem_singleton.mpr rfl),
        present, (first, second), ?_, name⟩
      exact mem_append_right _ (mem_singleton.mpr rfl)
    rw [if_neg full]
    have inserted : (state.visited.insert edge.2).members = state.visited.members ++ [edge.2] := by
      rw [ListSet.insert, dif_neg present]
    refine ⟨⟨fresh ++ [edge.2], ?_, ?_, ?_⟩, ?_, ?_, ?_, ?_, following.kept⟩
    · change (state.visited.insert edge.2).members = _
      rw [inserted, members, append_assoc]
    · change state.next ++ [edge.2] = _
      rw [next, append_assoc]
    · intro v mem
      rcases mem_append.mp mem with old | new
      · exact source' v old
      · rw [mem_singleton.mp new]
        exact ⟨edge.1, mem_append_right _ (mem_singleton.mpr rfl)⟩
    · change (state.resultNodes ++ (idOf edge.2).toList).map some =
        (state.visited.insert edge.2).members.map idOf
      rw [inserted, map_append, map_append, following.nodes, named']
      simp [named']
    · change (state.visited.insert edge.2).members.length ≤ _
      rw [inserted, length_append, length_singleton]
      omega
    · intro _
      constructor
      · change state.resultEdges ++ [(first, second)] = _
        rw [recorded, ← append_assoc, ← edgesSoFar]
      intro other mem
      change other.2 ∈ (state.visited.insert edge.2).members
      rw [ListSet.mem_insert]
      rcases mem_append.mp mem with old | new
      · exact .inr (met other old)
      · rw [mem_singleton.mp new]
        exact .inl rfl
    · intro stopped
      contradiction

theorem foldl_following {base : TraversalState} (untruncated : base.wasTruncated = false)
    (nodes : base.resultNodes.map some = base.visited.members.map idOf) (edges : List (Nat × Nat))
    (named : ∀ edge ∈ edges, (idOf edge.1).isSome ∧ (idOf edge.2).isSome) :
    Following idOf maxNodes base edges (edges.foldl (follow idOf maxNodes) base) := by
  induction edges using List.reverseRecOn with
  | nil =>
    refine ⟨⟨[], by simp⟩, nodes, le_max_left _ _, by simp, ?_, rfl⟩
    intro stopped
    change base.wasTruncated = true at stopped
    rw [untruncated] at stopped
    contradiction
  | append_singleton edges edge ih =>
    have before := ih fun other mem => named other (mem_append_left _ mem)
    obtain ⟨left, right⟩ := named edge (mem_append_right _ (mem_singleton.mpr rfl))
    obtain ⟨first, namedFirst⟩ := Option.isSome_iff_exists.mp left
    obtain ⟨second, namedSecond⟩ := Option.isSome_iff_exists.mp right
    rw [foldl_append]
    exact follow_following before namedFirst namedSecond

/-- Before the layer at a depth is expanded, everything nearer is collected. -/
structure Layered (neighbors : Nat → List Nat) (idOf : Nat → Option NodeId) (maxNodes start : Nat)
    (depth : Nat) (state : TraversalState) : Prop where
  untruncated : state.wasTruncated = false
  visited : ∃ expanded, state.visited.members = expanded ++ state.current ∧
    (∀ v, v ∈ expanded ↔ ∃ d < depth, Distance (Adjacent neighbors) start v d) ∧
    state.resultEdges = (expandSerial neighbors expanded).filterMap (nameEdge idOf)
  current : ∀ v, v ∈ state.current ↔ Distance (Adjacent neighbors) start v depth
  next : state.next = []
  sorted : state.visited.members.Pairwise fun v w => ∀ d d',
    Distance (Adjacent neighbors) start v d → Distance (Adjacent neighbors) start w d' → d ≤ d'
  nodes : state.resultNodes.map some = state.visited.members.map idOf
  named : ∀ v ∈ state.visited.members, (idOf v).isSome
  bounded : state.visited.members.length ≤ max 1 maxNodes
  reached : ∃ v, Distance (Adjacent neighbors) start v state.maxDepthReached
  deepest : ∀ v d, Distance (Adjacent neighbors) start v d → d ≤ depth → d ≤ state.maxDepthReached
  within : state.maxDepthReached ≤ depth

/-- What a walk has collected when it ends. -/
structure Traversed (neighbors : Nat → List Nat) (idOf : Nat → Option NodeId)
    (maxNodes start maxDepth : Nat) (state : TraversalState) : Prop where
  sorted : state.visited.members.Pairwise fun v w => ∀ d d',
    Distance (Adjacent neighbors) start v d → Distance (Adjacent neighbors) start w d' → d ≤ d'
  nodes : state.resultNodes.map some = state.visited.members.map idOf
  named : ∀ v ∈ state.visited.members, (idOf v).isSome
  near : ∀ v ∈ state.visited.members, ∃ d ≤ maxDepth, Distance (Adjacent neighbors) start v d
  nonempty : state.visited.members ≠ []
  complete : state.wasTruncated = false → state.visited.members.length ≤ max 1 maxNodes ∧
    (∀ v d, Distance (Adjacent neighbors) start v d → d ≤ maxDepth → v ∈ state.visited.members) ∧
    (∃ expanded : List Nat, expanded.Nodup ∧
      (∀ v, v ∈ expanded ↔ ∃ d < maxDepth, Distance (Adjacent neighbors) start v d) ∧
      state.resultEdges = (expandSerial neighbors expanded).filterMap (nameEdge idOf)) ∧
    (∃ v, Distance (Adjacent neighbors) start v state.maxDepthReached) ∧
    state.maxDepthReached ≤ maxDepth ∧
    ∀ v d, Distance (Adjacent neighbors) start v d → d ≤ maxDepth → d ≤ state.maxDepthReached
  stopped : state.wasTruncated = true → maxNodes ≤ state.visited.members.length ∧
    ∃ v w, w ∉ state.visited.members ∧ (∃ d ≤ maxDepth, Distance (Adjacent neighbors) start w d) ∧
      ∃ named ∈ state.resultEdges, nameEdge idOf (v, w) = some named

variable {start depth : Nat} {state : TraversalState}

/-- The expansion of a layer follows edges between named vertices. -/
theorem Layered.expanded (closed : ∀ v, (idOf v).isSome → ∀ w ∈ neighbors v, (idOf w).isSome)
    (layered : Layered neighbors idOf maxNodes start depth state) :
    Following idOf maxNodes { state with maxDepthReached := depth }
      (expandSerial neighbors state.current)
      ((expandSerial neighbors state.current).foldl (follow idOf maxNodes)
        { state with maxDepthReached := depth }) := by
  refine foldl_following (by exact layered.untruncated) (by exact layered.nodes) _ ?_
  intro edge mem
  obtain ⟨here, adjacent⟩ := (mem_expandSerial neighbors state.current edge).mp mem
  obtain ⟨expanded, members, _⟩ := layered.visited
  have known := layered.named edge.1 (by rw [members]; exact mem_append_right _ here)
  exact ⟨known, closed edge.1 known edge.2 adjacent⟩

section

variable (layered : Layered neighbors idOf maxNodes start depth state)
include layered

/-- Every visited vertex is at most as far as the current layer. -/
theorem Layered.near (v : Nat) :
    v ∈ state.visited.members ↔ ∃ d ≤ depth, Distance (Adjacent neighbors) start v d := by
  obtain ⟨expanded, members, nearer, _⟩ := layered.visited
  rw [members, mem_append, nearer, layered.current]
  constructor
  · intro either
    rcases either with ⟨d, less, distance⟩ | distance
    · exact ⟨d, le_of_lt less, distance⟩
    · exact ⟨depth, le_refl depth, distance⟩
  intro ⟨d, close, distance⟩
  rcases Nat.lt_or_eq_of_le close with less | same
  · exact .inl ⟨d, less, distance⟩
  · exact .inr (same ▸ distance)

/-- The ends of the edges that were not visited before are one step farther. -/
theorem Layered.fresh_distance {edge : Nat × Nat} (mem : edge ∈ expandSerial neighbors state.current)
    (unvisited : edge.2 ∉ state.visited.members) :
    Distance (Adjacent neighbors) start edge.2 (depth + 1) := by
  obtain ⟨here, adjacent⟩ := (mem_expandSerial neighbors state.current edge).mp mem
  obtain ⟨least, close, distance⟩ := ((layered.current edge.1).mp here).after adjacent
  have far : depth < least := by
    by_contra near
    exact unvisited ((layered.near edge.2).mpr ⟨least, Nat.le_of_not_lt near, distance⟩)
  rwa [show depth + 1 = least by omega]

/-- The walk stays ordered by distance when farther vertices join at the end. -/
theorem Layered.sorted_append
    {fresh : List Nat} (farther : ∀ v ∈ fresh, Distance (Adjacent neighbors) start v (depth + 1)) :
    (state.visited.members ++ fresh).Pairwise fun v w => ∀ d d',
      Distance (Adjacent neighbors) start v d → Distance (Adjacent neighbors) start w d' → d ≤ d' := by
  rw [pairwise_append]
  refine ⟨layered.sorted, ?_, ?_⟩
  · apply pairwise_of_forall_mem_list
    intro v left w right d d' distance distance'
    rw [distance.unique (farther v left), distance'.unique (farther w right)]
  intro v left w right d d' distance distance'
  obtain ⟨near, close, nearer⟩ := (layered.near v).mp left
  rw [distance.unique nearer, distance'.unique (farther w right)]
  exact Nat.le_succ_of_le close

end

theorem Layered.next_layer (closed : ∀ v, (idOf v).isSome → ∀ w ∈ neighbors v, (idOf w).isSome)
    (layered : Layered neighbors idOf maxNodes start depth state) {after : TraversalState}
    (following : Following idOf maxNodes { state with maxDepthReached := depth }
      (expandSerial neighbors state.current) after)
    (nonempty : state.current ≠ []) (untruncated : after.wasTruncated = false) :
    Layered neighbors idOf maxNodes start (depth + 1) (after.advance depth) := by
  obtain ⟨fresh, members, next, source⟩ := following.visited
  obtain ⟨expanded, before, nearer, edges⟩ := layered.visited
  obtain ⟨edges', met⟩ := following.running untruncated
  have members : after.visited.members = state.visited.members ++ fresh := members
  have next : after.next = fresh := by
    rw [next]
    rw [layered.next, nil_append]
  have apart : ∀ v ∈ fresh, v ∉ state.visited.members := by
    have distinct := after.visited.nodup
    rw [members] at distinct
    intro v new old
    exact (nodup_append.mp distinct).2.2 v old v new rfl
  have farther : ∀ v ∈ fresh, Distance (Adjacent neighbors) start v (depth + 1) := by
    intro v mem
    obtain ⟨u, listed⟩ := source v mem
    exact layered.fresh_distance listed (apart v mem)
  have current (v : Nat) : v ∈ fresh ↔ Distance (Adjacent neighbors) start v (depth + 1) := by
    constructor
    · exact farther v
    intro distance
    obtain ⟨u, nearest, adjacent⟩ := distance.before
    have listed := (mem_expandSerial neighbors state.current (u, v)).mpr
      ⟨(layered.current u).mpr nearest, adjacent⟩
    have visited := met (u, v) listed
    rw [members, mem_append] at visited
    apply visited.resolve_left
    intro old
    obtain ⟨d, close, distance'⟩ := (layered.near v).mp old
    have := distance.unique distance'
    omega
  have advanced : after.advance depth = { after with
      current := after.next
      next := []
      maxDepthReached := if after.next = [] then after.maxDepthReached else depth + 1 } := by
    rw [advance, if_neg (by rw [untruncated]; simp)]
  have entered : after.maxDepthReached = depth := following.kept
  have deepest : (after.advance depth).maxDepthReached = if fresh = [] then depth else depth + 1 := by
    rw [advanced]
    rw [next, entered]
  constructor
  · rwa [advanced]
  · refine ⟨expanded ++ state.current, ?_, ?_, ?_⟩
    · rw [advanced]
      rw [members, before, next]
    · intro v
      rw [← before, layered.near]
      simp only [Nat.lt_succ_iff]
    rw [advanced]
    change after.resultEdges = _
    rw [edges']
    change state.resultEdges ++ _ = _
    rw [edges]
    unfold expandSerial
    rw [flatMap_append, filterMap_append]
  · intro v
    rw [advanced]
    change v ∈ after.next ↔ _
    rw [next]
    exact current v
  · rw [advanced]
  · rw [advanced]
    change after.visited.members.Pairwise _
    rw [members]
    exact layered.sorted_append farther
  · rw [advanced]
    exact following.nodes
  · rw [advanced]
    intro v mem
    change v ∈ after.visited.members at mem
    rw [members, mem_append] at mem
    rcases mem with old | new
    · exact layered.named v old
    obtain ⟨u, listed⟩ := source v new
    obtain ⟨here, adjacent⟩ := (mem_expandSerial neighbors state.current (u, v)).mp listed
    exact closed u (layered.named u (by rw [before]; exact mem_append_right _ here)) v adjacent
  · rw [advanced]
    have grown : after.visited.members.length ≤ max state.visited.members.length maxNodes :=
      following.bounded
    have small := layered.bounded
    change after.visited.members.length ≤ _
    omega
  · rw [deepest]
    split
    · obtain ⟨v, mem⟩ := exists_mem_of_ne_nil _ nonempty
      exact ⟨v, (layered.current v).mp mem⟩
    rename_i found
    obtain ⟨v, mem⟩ := exists_mem_of_ne_nil _ found
    exact ⟨v, farther v mem⟩
  · intro v d distance close
    rw [deepest]
    split
    · rename_i none
      rcases Nat.lt_or_eq_of_le close with less | same
      · omega
      have mem := (current v).mpr (same ▸ distance)
      rw [none] at mem
      contradiction
    · exact close
  · rw [deepest]
    split <;> omega

/-- A truncated walk stays as it is. -/
theorem layers_truncated (expand : List Nat → List (Nat × Nat)) (remaining : Nat)
    (truncated : state.wasTruncated = true) :
    layers expand idOf maxNodes remaining depth state = state := by
  cases remaining with
  | zero => rfl
  | succ remaining => rw [layers, if_pos (by rw [truncated]; simp)]

/-- The nodes that a walk collects before it is truncated are near and ordered. -/
theorem Layered.truncated_traversed (closed : ∀ v, (idOf v).isSome → ∀ w ∈ neighbors v, (idOf w).isSome)
    (layered : Layered neighbors idOf maxNodes start depth state) {after : TraversalState}
    (following : Following idOf maxNodes { state with maxDepthReached := depth }
      (expandSerial neighbors state.current) after)
    (truncated : after.wasTruncated = true) {maxDepth : Nat} (within : depth + 1 ≤ maxDepth)
    (nonempty : state.current ≠ []) :
    Traversed neighbors idOf maxNodes start maxDepth after := by
  obtain ⟨fresh, members, _, source⟩ := following.visited
  obtain ⟨expanded, before, _⟩ := layered.visited
  have members : after.visited.members = state.visited.members ++ fresh := members
  have farther : ∀ v ∈ fresh, Distance (Adjacent neighbors) start v (depth + 1) := by
    intro v mem
    obtain ⟨u, listed⟩ := source v mem
    apply layered.fresh_distance listed
    intro old
    have distinct := after.visited.nodup
    rw [members] at distinct
    exact (nodup_append.mp distinct).2.2 v old v mem rfl
  obtain ⟨full, cut, listed, missing, named⟩ := following.stopped truncated
  have unvisited : cut.2 ∉ state.visited.members := by
    intro old
    rw [members] at missing
    exact missing (mem_append_left _ old)
  refine ⟨?_, following.nodes, ?_, ?_, ?_, ?_, fun _ => ⟨full, cut.1, cut.2, missing,
    ⟨depth + 1, within, layered.fresh_distance listed unvisited⟩, named⟩⟩
  · rw [members]
    exact layered.sorted_append farther
  · intro v mem
    rw [members, mem_append] at mem
    rcases mem with old | new
    · exact layered.named v old
    obtain ⟨u, listed⟩ := source v new
    obtain ⟨here, adjacent⟩ := (mem_expandSerial neighbors state.current (u, v)).mp listed
    exact closed u (layered.named u (by rw [before]; exact mem_append_right _ here)) v adjacent
  · intro v mem
    rw [members, mem_append] at mem
    rcases mem with old | new
    · obtain ⟨d, close, distance⟩ := (layered.near v).mp old
      exact ⟨d, by omega, distance⟩
    · exact ⟨depth + 1, within, farther v new⟩
  · rw [members, before]
    simp [nonempty]
  · intro untruncated
    rw [truncated] at untruncated
    contradiction

/-- A walk that ends with an empty layer or at the maximal depth has collected everything near. -/
theorem Layered.traversed (layered : Layered neighbors idOf maxNodes start depth state)
    {maxDepth : Nat} (within : depth ≤ maxDepth)
    (ended : state.current = [] ∨ depth = maxDepth) :
    Traversed neighbors idOf maxNodes start maxDepth state := by
  have close {v d : Nat} (distance : Distance (Adjacent neighbors) start v d) (near : d ≤ maxDepth) :
      d < depth ∨ (d = depth ∧ depth = maxDepth) := by
    rcases ended with empty | last
    · refine .inl ?_
      by_contra far
      obtain ⟨extra, rfl⟩ := Nat.exists_eq_add_of_le (Nat.le_of_not_lt far)
      clear near far
      induction extra generalizing v with
      | zero =>
        have mem := (layered.current v).mpr distance
        rw [empty] at mem
        contradiction
      | succ extra ih =>
        obtain ⟨_, before, _⟩ := distance.before
        exact ih before
    · omega
  obtain ⟨expanded, members, nearer, edges⟩ := layered.visited
  have distinct : expanded.Nodup := by
    have nodup := state.visited.nodup
    rw [members] at nodup
    exact (nodup_append.mp nodup).1
  obtain ⟨first, farthest⟩ := layered.reached
  have within' := layered.within
  refine ⟨layered.sorted, layered.nodes, layered.named, ?_, ?_, ?_, ?_⟩
  · intro v mem
    obtain ⟨d, near, distance⟩ := (layered.near v).mp mem
    exact ⟨d, by omega, distance⟩
  · intro empty
    have mem := (layered.near first).mpr ⟨_, within', farthest⟩
    rw [empty] at mem
    contradiction
  · intro _
    refine ⟨layered.bounded, ?_, ⟨expanded, distinct, ?_, edges⟩, ⟨first, farthest⟩, by omega, ?_⟩
    · intro v d distance near
      rw [layered.near]
      exact ⟨d, by have := close distance near; omega, distance⟩
    · intro v
      rw [nearer]
      constructor
      · intro ⟨d, less, distance⟩
        exact ⟨d, by omega, distance⟩
      intro ⟨d, less, distance⟩
      have := close distance (le_of_lt less)
      exact ⟨d, by omega, distance⟩
    · intro v d distance near
      exact layered.deepest v d distance (by have := close distance near; omega)
  · intro truncated
    rw [layered.untruncated] at truncated
    contradiction

theorem layers_traversed (closed : ∀ v, (idOf v).isSome → ∀ w ∈ neighbors v, (idOf w).isSome)
    (remaining : Nat) (layered : Layered neighbors idOf maxNodes start depth state) :
    Traversed neighbors idOf maxNodes start (depth + remaining)
      (layers (expandSerial neighbors) idOf maxNodes remaining depth state) := by
  induction remaining generalizing depth state with
  | zero => exact layered.traversed (le_refl _) (.inr rfl)
  | succ remaining ih =>
    rw [layers]
    by_cases empty : state.current = []
    · rw [if_pos (by rw [empty]; simp)]
      exact layered.traversed (Nat.le_add_right _ _) (.inl empty)
    rw [if_neg (by simp [empty, layered.untruncated])]
    dsimp only
    have following := layered.expanded closed
    generalize (expandSerial neighbors state.current).foldl (follow idOf maxNodes)
      { state with maxDepthReached := depth } = after at following
    cases truncated : after.wasTruncated with
    | true =>
      have same : after.advance depth = after := if_pos truncated
      rw [same, layers_truncated _ _ truncated]
      exact layered.truncated_traversed closed following truncated (by omega) empty
    | false =>
      have next := ih (layered.next_layer closed following empty truncated)
      rwa [show depth + (remaining + 1) = depth + 1 + remaining by omega]

theorem start_layered (neighbors : Nat → List Nat) (maxNodes : Nat) {v : Nat} {id : NodeId}
    (named : idOf v = some id) : Layered neighbors idOf maxNodes v 0 (.start id v) := by
  have only : (TraversalState.start id v).visited.members = [v] := rfl
  have here (w : Nat) : w ∈ [v] ↔ Distance (Adjacent neighbors) v w 0 := by
    rw [Distance.zero_iff, mem_singleton]
  refine ⟨rfl, ⟨[], rfl, by simp, rfl⟩, here, rfl, ?_, ?_, ?_, ?_, ⟨v, Distance.zero _ _⟩, ?_,
    le_refl 0⟩
  · rw [only]
    exact pairwise_singleton _ _
  · rw [only, map_singleton, named]
    rfl
  · rw [only]
    intro w mem
    rw [mem_singleton.mp mem, named]
    rfl
  · rw [only]
    exact le_max_left 1 maxNodes
  · exact fun _ _ _ close => close

end TraversalState

end Codegraph
