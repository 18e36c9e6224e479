import Codegraph.Csr.Expansion
import Codegraph.Library.Layers

namespace Codegraph

open Library List Option CsrSnapshot CodeGraph BfsMarks

/-- The graph has an edge that the search may follow from the first node to the second. -/
def CodeGraph.Allows (code : CodeGraph) (cfg : BfsConfig) (source target : NodeId) : Prop :=
  ∃ edge ∈ code.edges, edgeMatches cfg.edgeFilter (.fromKind edge.2.2.kind) ∧
    (if cfg.reverse then edge.1 = target ∧ edge.2.1 = source
      else edge.1 = source ∧ edge.2.1 = target)

theorem depthOf_inside {B : Type} {marks : BfsMarks B} {v d : Nat}
    (marked : marks.depthOf v = some d) : v < marks.depth.length := by
  by_contra outside
  rw [BfsMarks.depthOf, getD_eq_getElem?_getD, getElem?_eq_none (by omega)] at marked
  contradiction

variable {B : Type} [Bitmap B] {snapshot : CsrSnapshot} {code : CodeGraph} {cfg : BfsConfig}
  {source : Nat}

/-- The marks are right up to the current depth, where the frontier is. -/
structure Searching (snapshot : CsrSnapshot) (cfg : BfsConfig) (source : Nat)
    (state : BfsState B) : Prop where
  sizes : state.marks.depth.length = snapshot.n ∧ state.marks.parent.length = snapshot.n
  explored : Explored (snapshot.Allows cfg) source state.marks.depthOf state.currentDepth
  within : state.currentDepth ≤ cfg.maxDepth
  frontier : (∀ v, v ∈ state.current.vertices ↔ state.marks.depthOf v = some state.currentDepth) ∨
    (state.current.vertices = [] ∧ ∀ target count,
      Distance (snapshot.Allows cfg) source target count → count ≤ state.currentDepth)
  cleared : state.marks.next.vertices = []
  parent : ∀ v p, state.marks.parentOf v = some p → snapshot.Allows cfg p v ∧
    ∃ d, state.marks.depthOf p = some d ∧ state.marks.depthOf v = some (d + 1)
  parented : ∀ v d, state.marks.depthOf v = some (d + 1) → (state.marks.parentOf v).isSome
  deepest : state.maxDepthReached = state.currentDepth

theorem bfsStart_searching (inside : source < snapshot.n) :
    Searching snapshot cfg source (bfsStart snapshot.n source : BfsState B) := by
  have depth (v : Nat) : (bfsStart snapshot.n source : BfsState B).marks.depthOf v =
      if v = source then some 0 else none := by
    change ((List.replicate snapshot.n none).set source (some 0)).getD v none = _
    rw [getD_eq_getElem?_getD, getElem?_set, length_replicate]
    by_cases same : source = v
    · subst same
      simp [inside]
    have apart : v ≠ source := fun equal => same equal.symm
    rw [if_neg same, if_neg apart, getElem?_replicate]
    split <;> rfl
  have parent (v : Nat) : (bfsStart snapshot.n source : BfsState B).marks.parentOf v = none := by
    change (List.replicate snapshot.n none).getD v none = none
    rw [getD_eq_getElem?_getD, getElem?_replicate]
    split <;> rfl
  refine ⟨⟨by simp [bfsStart], by simp [bfsStart]⟩, ?_, Nat.zero_le _, .inl ?_, rfl, ?_, ?_, rfl⟩
  · intro target count
    rw [depth]
    split
    · rename_i same
      subst same
      constructor
      · intro marked
        cases marked
        exact ⟨Distance.zero _ _, le_refl 0⟩
      · intro ⟨_, least⟩
        rw [Nat.le_zero.mp least]
    rename_i apart
    apply iff_of_false (by simp)
    intro ⟨distance, least⟩
    rw [Nat.le_zero.mp least] at distance
    exact apart (Distance.zero_iff.mp distance)
  · intro v
    change v ∈ [source] ↔ _ = some 0
    rw [depth, mem_singleton]
    split <;> simp_all
  · intro v p found
    rw [parent] at found
    contradiction
  · intro v d found
    rw [depth] at found
    split at found <;> simp at found

theorem layer_expanded (represents : snapshot.Represents code) {state : BfsState B}
    (searching : Searching snapshot cfg source state) (direction : BfsDirection)
    (frontier : ∀ v, v ∈ state.current.vertices ↔ state.marks.depthOf v = some state.currentDepth) :
    ∃ pairs, BfsMarks.Expanded pairs (state.currentDepth + 1) state.marks
        (expandLayer snapshot cfg state direction) ∧
      (∀ p v, (p, v) ∈ pairs → state.marks.depthOf p = some state.currentDepth ∧ snapshot.Allows cfg p v) ∧
      ∀ p v, state.marks.depthOf p = some state.currentDepth → snapshot.Allows cfg p v →
        ∃ p', (p', v) ∈ pairs := by
  have inside : ∀ p ∈ state.current.vertices, p < snapshot.n := by
    intro p mem
    rw [← searching.sizes.1]
    exact depthOf_inside ((frontier p).mp mem)
  have sizes := searching.sizes.2.trans searching.sizes.1.symm
  cases direction with
  | push =>
    have pushed := CsrSnapshot.Represents.mem_pushPairs state.current cfg inside
    refine ⟨BfsMarks.pushPairs snapshot state.current cfg, ?_, ?_, ?_⟩
    · rw [expandLayer, pushStep_eq]
      apply expanded_foldl _ _ _ sizes
      intro pair mem
      rw [searching.sizes.1]
      exact represents.allows_inside ((pushed pair.1 pair.2).mp mem).2
    · intro p v mem
      rw [← frontier]
      exact (pushed p v).mp mem
    · intro p v marked allows
      exact ⟨p, (pushed p v).mpr ⟨(frontier p).mpr marked, allows⟩⟩
  | pull =>
    refine ⟨BfsMarks.pullPairs snapshot state.current cfg, ?_, ?_, ?_⟩
    · rw [expandLayer, pullStep_eq]
      apply expanded_foldl _ _ _ sizes
      intro pair mem
      rw [searching.sizes.1]
      exact represents.allows_inside (represents.mem_pullPairs state.current cfg inside mem).2
    · intro p v mem
      rw [← frontier]
      exact represents.mem_pullPairs state.current cfg inside mem
    · intro p v marked allows
      exact represents.exists_pullPairs state.current cfg ((frontier p).mpr marked) allows

theorem bfsStep_eq_some {before after : BfsState B} (moved : bfsStep snapshot cfg before = some after) :
    before.current.vertices ≠ [] ∧ before.currentDepth < cfg.maxDepth ∧ ∃ direction,
      after = before.advance direction (expandLayer snapshot cfg before direction) := by
  unfold bfsStep at moved
  split at moved
  · contradiction
  rename_i going
  rw [Bool.or_eq_true, decide_eq_true_iff, Frontier.isEmpty_iff, not_or] at going
  cases moved
  exact ⟨going.1, Nat.lt_of_not_le going.2, _, rfl⟩

theorem expandLayer_spec (represents : snapshot.Represents code) {state : BfsState B}
    (searching : Searching snapshot cfg source state) (direction : BfsDirection)
    (frontier : ∀ v, v ∈ state.current.vertices ↔ state.marks.depthOf v = some state.currentDepth) :
    let marks := expandLayer snapshot cfg state direction
    (marks.depth.length = snapshot.n ∧ marks.parent.length = snapshot.n) ∧
      Explored (snapshot.Allows cfg) source marks.depthOf (state.currentDepth + 1) ∧
      (∀ v, v ∈ marks.next.vertices ↔ marks.depthOf v = some (state.currentDepth + 1)) ∧
      (∀ v p, marks.parentOf v = some p → snapshot.Allows cfg p v ∧
        ∃ d, marks.depthOf p = some d ∧ marks.depthOf v = some (d + 1)) ∧
      ∀ v d, marks.depthOf v = some (d + 1) → (marks.parentOf v).isSome := by
  intro marks
  obtain ⟨pairs, expanded, sound, complete⟩ := layer_expanded represents searching direction frontier
  have layer (v : Nat) : (∃ p, (p, v) ∈ pairs) ↔ ∃ p,
      state.marks.depthOf p = some state.currentDepth ∧ snapshot.Allows cfg p v := by
    constructor
    · intro ⟨p, mem⟩
      exact ⟨p, sound p v mem⟩
    · intro ⟨p, marked, allows⟩
      exact complete p v marked allows
  have depth := expanded.depth
  refine ⟨⟨expanded.size.1.trans searching.sizes.1, expanded.size.2.trans searching.sizes.2⟩,
    ?_, ?_, ?_, ?_⟩
  · apply searching.explored.next
    intro target count
    rw [depth, layer]
  · intro v
    rw [expanded.next, searching.cleared, depth]
    constructor
    · intro found
      have found := found.resolve_left (by simp)
      exact .inr ⟨found.1, rfl, found.2⟩
    intro either
    rcases either with old | ⟨unmarked, _, pair⟩
    · have within := ((searching.explored v _).mp old).2
      omega
    · exact .inr ⟨unmarked, pair⟩
  · intro v p found
    by_cases discovered : state.marks.depthOf v = none ∧ ∃ p, (p, v) ∈ pairs
    · obtain ⟨p', mem, found'⟩ := expanded.parent v discovered.1 discovered.2
      rw [found] at found'
      cases found'
      obtain ⟨marked, allows⟩ := sound p v mem
      exact ⟨allows, state.currentDepth, (depth p _).mpr (.inl marked),
        (depth v _).mpr (.inr ⟨discovered.1, rfl, p, mem⟩)⟩
    have same : marks.parentOf v = state.marks.parentOf v := by
      by_cases marked : state.marks.depthOf v = none
      · apply expanded.other
        intro p' mem
        exact discovered ⟨marked, p', mem⟩
      · exact expanded.kept v marked
    rw [same] at found
    obtain ⟨allows, d, nearer, farther⟩ := searching.parent v p found
    exact ⟨allows, d, (depth p d).mpr (.inl nearer), (depth v _).mpr (.inl farther)⟩
  · intro v d found
    rcases (depth v _).mp found with old | ⟨unmarked, _, listed⟩
    · rw [expanded.kept v (by rw [old]; simp)]
      exact searching.parented v d old
    obtain ⟨p, _, found⟩ := expanded.parent v unmarked listed
    rw [found]
    rfl

theorem bfsStep_searching (represents : snapshot.Represents code) (before after : BfsState B)
    (searching : Searching snapshot cfg source before)
    (moved : bfsStep snapshot cfg before = some after) :
    Searching snapshot cfg source after := by
  obtain ⟨nonempty, going, direction, rfl⟩ := bfsStep_eq_some moved
  have frontier := searching.frontier.resolve_right fun stopped => nonempty stopped.1
  obtain ⟨sizes, explored, newest, parent, parented⟩ :=
    expandLayer_spec represents searching direction frontier
  cases empty : (expandLayer snapshot cfg before direction).next.isEmpty with
  | false =>
    have deeper : (before.advance direction
        (expandLayer snapshot cfg before direction)).currentDepth = before.currentDepth + 1 := by
      simp [BfsState.advance, empty]
    refine ⟨sizes, ?_, ?_, .inl ?_, Frontier.vertices_clear _, parent, parented, ?_⟩
    · rwa [deeper]
    · rwa [deeper]
    · rwa [deeper]
    · simp [BfsState.advance, empty]
  | true =>
    have same : (before.advance direction
        (expandLayer snapshot cfg before direction)).currentDepth = before.currentDepth := by
      simp [BfsState.advance, empty]
    have none := (Frontier.isEmpty_iff _).mp empty
    have last : ∀ v, (expandLayer snapshot cfg before direction).depthOf v ≠
        some (before.currentDepth + 1) := by
      intro v marked
      have mem := (newest v).mpr marked
      rw [none] at mem
      contradiction
    have complete : ∀ target count, Distance (snapshot.Allows cfg) source target count →
        count ≤ before.currentDepth := fun target count distance =>
      Nat.le_of_lt_succ (explored.exhausted last distance)
    refine ⟨sizes, ?_, ?_, .inr ⟨none, ?_⟩, Frontier.vertices_clear _, parent, parented, ?_⟩
    · rw [same]
      intro target count
      rw [show (before.advance direction (expandLayer snapshot cfg before direction)).marks.depthOf
        target = (expandLayer snapshot cfg before direction).depthOf target from rfl,
        explored target count]
      apply and_congr_right
      intro distance
      have := complete target count distance
      omega
    · rw [same]
      exact searching.within
    · rwa [same]
    · rw [same, ← searching.deepest]
      simp [BfsState.advance, empty]

/-- The layers that may still follow. -/
def layersLeft (cfg : BfsConfig) (state : BfsState B) : Nat :=
  if state.current.isEmpty then 0 else cfg.maxDepth - state.currentDepth + 1

theorem bfsStep_falls (before after : BfsState B) (moved : bfsStep snapshot cfg before = some after) :
    layersLeft cfg after < layersLeft cfg before := by
  obtain ⟨nonempty, going, direction, rfl⟩ := bfsStep_eq_some moved
  have running : before.current.isEmpty = false := by rwa [← Bool.not_eq_true, Frontier.isEmpty_iff]
  unfold layersLeft
  rw [running]
  change (if (expandLayer snapshot cfg before direction).next.isEmpty then 0
    else cfg.maxDepth - (if (expandLayer snapshot cfg before direction).next.isEmpty
      then before.currentDepth else before.currentDepth + 1) + 1) < cfg.maxDepth -
        before.currentDepth + 1
  split <;> omega

section

variable (represents : snapshot.Represents code)
include represents

theorem bfsRun_halts (inside : source < snapshot.n) :
    Halts (bfsStep snapshot cfg) (bfsStart snapshot.n source) (bfsRun snapshot source cfg : BfsState B) := by
  apply halts_loop (bfsStep_searching represents) (fun before after _ => bfsStep_falls before after)
  · exact bfsStart_searching inside
  unfold layersLeft
  split
  · omega
  · omega

theorem bfsRun_spec (inside : source < snapshot.n) :
    Searching snapshot cfg source (bfsRun snapshot source cfg : BfsState B) ∧
      Explored (snapshot.Allows cfg) source
        (bfsRun snapshot source cfg : BfsState B).marks.depthOf cfg.maxDepth := by
  have halts : Halts (bfsStep snapshot cfg) _ (bfsRun snapshot source cfg : BfsState B) :=
    bfsRun_halts represents inside
  have searching := halts.preserves (bfsStep_searching represents) (bfsStart_searching inside)
  refine ⟨searching, ?_⟩
  have ended := halts.ended
  unfold bfsStep at ended
  split at ended
  · rename_i stopped
    rw [Bool.or_eq_true, decide_eq_true_iff, Frontier.isEmpty_iff] at stopped
    have within := searching.within
    intro target count
    rw [searching.explored target count]
    apply and_congr_right
    intro distance
    rcases stopped with empty | deep
    · have close : count ≤ (bfsRun snapshot source cfg : BfsState B).currentDepth := by
        rcases searching.frontier with frontier | ⟨_, complete⟩
        · apply le_of_lt
          apply searching.explored.exhausted _ distance
          intro v marked
          have mem := (frontier v).mpr marked
          rw [empty] at mem
          contradiction
        · exact complete target count distance
      omega
    · omega
  · contradiction

/-- The vertices of a snapshot stand for the nodes of the graph. -/
theorem allows_iff (consistent : CodeGraph.Consistent code)
    {u v : Nat} {first second : NodeId} (namedU : snapshot.idOf u = some first)
    (namedV : snapshot.idOf v = some second) :
    snapshot.Allows cfg u v ↔ code.Allows cfg first second := by
  have insideU : u < snapshot.n := (represents.idOf_isSome u).mp (by rw [namedU]; rfl)
  obtain ⟨slot, node, here, found, rfl⟩ := (represents.idOf_eq_some u first).mp namedU
  obtain ⟨slot', node', here', found', rfl⟩ := (represents.idOf_eq_some v second).mp namedV
  have out (tag : EdgeKindTag) : (v, tag) ∈ snapshot.outRow u ↔ ∃ edge ∈ code.edges,
      .fromKind edge.2.2.kind = tag ∧ edge.1 = node.id ∧ edge.2.1 = node'.id := by
    rw [← count_pos_iff, count_ends code (represents.outgoing u _ here) here',
      count_outEnds, ← count_edges consistent found found',
      countP_pos_iff]
    simp only [Bool.and_eq_true, decide_eq_true_eq]
    tauto
  have inc (tag : EdgeKindTag) : (v, tag) ∈ snapshot.inRow u ↔ ∃ edge ∈ code.edges,
      .fromKind edge.2.2.kind = tag ∧ edge.1 = node'.id ∧ edge.2.1 = node.id := by
    rw [← count_pos_iff, count_ends code (represents.incoming u _ here) here',
      count_inEnds, ← count_edges consistent found' found,
      countP_pos_iff]
    simp only [Bool.and_eq_true, decide_eq_true_eq]
    tauto
  unfold CsrSnapshot.Allows CodeGraph.Allows CsrSnapshot.forwardRow
  cases cfg.reverse with
  | false =>
    simp only [Bool.false_eq_true, if_false, out]
    constructor
    · intro ⟨_, kind, ⟨edge, mem, same, ends⟩, matched⟩
      exact ⟨edge, mem, same ▸ matched, ends⟩
    · intro ⟨edge, mem, matched, ends⟩
      exact ⟨insideU, _, ⟨edge, mem, rfl, ends⟩, matched⟩
  | true =>
    simp only [if_true, inc]
    constructor
    · intro ⟨_, kind, ⟨edge, mem, same, ends⟩, matched⟩
      exact ⟨edge, mem, same ▸ matched, ends⟩
    · intro ⟨edge, mem, matched, ends⟩
      exact ⟨insideU, _, ⟨edge, mem, rfl, ends⟩, matched⟩

/-- Distances between vertices are distances between their nodes. -/
theorem distance_iff (consistent : CodeGraph.Consistent code) {v : Nat} {first second : NodeId}
    (namedSource : snapshot.idOf source = some first) (namedTarget : snapshot.idOf v = some second)
    (count : Nat) :
    Distance (snapshot.Allows cfg) source v count ↔ Distance (code.Allows cfg) first second count := by
  apply Distance.follow (fun w id => snapshot.idOf w = some id) ?_ ?_ ?_ ?_ namedSource namedTarget
  · intro u w id named allows
    have inside := represents.allows_inside allows
    obtain ⟨id', named'⟩ := isSome_iff_exists.mp ((represents.idOf_isSome w).mpr inside)
    exact ⟨id', named', (allows_iff represents consistent named named').mp allows⟩
  · intro u id id' named allows
    have stored : (code.getNode id').isSome := by
      obtain ⟨edge, mem, _, ends⟩ := allows
      obtain ⟨link, _, node, node', found, found', rfl⟩ := (mem_edges edge).mp mem
      rw [isSome_iff_exists]
      split at ends
      · exact ⟨node, (getNode_eq_some consistent id' node).mpr ⟨_, found, ends.1⟩⟩
      · exact ⟨node', (getNode_eq_some consistent id' node').mpr ⟨_, found', ends.2⟩⟩
    obtain ⟨w, numbered⟩ :=
      isSome_iff_exists.mp ((represents.vertexOf_isSome consistent id').mpr stored)
    have named' := (represents.vertexOf_eq_some consistent id' w).mp numbered
    exact ⟨w, named', (allows_iff represents consistent named named').mpr allows⟩
  · intro u id id' named named'
    exact some.inj (named.symm.trans named')
  · intro u u' id named named'
    have left := (represents.vertexOf_eq_some consistent id u).mpr named
    rw [(represents.vertexOf_eq_some consistent id u').mpr named'] at left
    exact (some.inj left).symm

end

end Codegraph
