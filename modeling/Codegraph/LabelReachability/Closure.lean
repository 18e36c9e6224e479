import Codegraph.LabelReachability.Reachability

namespace Codegraph

open Library Relation List ListSet

/-- The nodes that wait and the nodes that some edge leads to. -/
structure ClosureState where
  search : Search NodeId
  reached : ListSet NodeId

/-- A seed waits each time it is listed. -/
def ClosureState.seed (code : CodeGraph) (state : ClosureState) (seed : NodeId) : ClosureState :=
  if code.containsNode seed then
    { state with search := ⟨state.search.visited.insert seed, seed :: state.search.frontier⟩ }
  else state

/-- A node that an edge leads to is reached, and it is visited when it is new. -/
def ClosureState.follow (admits : EdgeKind → Bool) (state : ClosureState)
    (other : NodeId × EdgeData) : ClosureState :=
  if admits other.2.kind then ⟨state.search.visit other.1, state.reached.insert other.1⟩ else state

def closureStep (code : CodeGraph) (admits : EdgeKind → Bool) (direction : ClosureDirection)
    (state : ClosureState) : Option ClosureState :=
  match state.search.frontier with
  | [] => none
  | node :: frontier =>
    some ((edgesAlong code direction node).foldl (ClosureState.follow admits)
      { state with search := { state.search with frontier := frontier } })

/-- The fuel pays for every seed and every node. -/
def closure (order : HashOrder NodeId) (code : CodeGraph) (seeds : List NodeId)
    (admits : EdgeKind → Bool) (direction : ClosureDirection) : List NodeId :=
  order.iterate (loop (closureStep code admits direction)
    (seeds.length + code.allNodeIds.length)
    (seeds.foldl (ClosureState.seed code) ⟨⟨.empty, []⟩, .empty⟩)).reached.members.toFinset

/-- An edge of an admitted kind leads from the first node to the second in the direction. -/
def CodeGraph.Admitted (code : CodeGraph) (admits : EdgeKind → Bool) (direction : ClosureDirection)
    (first second : NodeId) : Prop :=
  ∃ kind, admits kind = true ∧ code.Labelled direction first kind second

section Rounds

variable {code : CodeGraph} {admits : EdgeKind → Bool} {direction : ClosureDirection}

/-- The nodes that the admitted edges at a node lead to. -/
def admittedEnds (code : CodeGraph) (admits : EdgeKind → Bool) (direction : ClosureDirection)
    (node : NodeId) : List NodeId :=
  ((edgesAlong code direction node).filter fun other => admits other.2.kind).map Prod.fst

theorem mem_admittedEnds (consistent : CodeGraph.Consistent code) (node other : NodeId) :
    other ∈ admittedEnds code admits direction node ↔ code.Admitted admits direction node other := by
  simp only [admittedEnds, CodeGraph.Admitted, mem_map, mem_filter]
  constructor
  · rintro ⟨edge, ⟨listed, admitted⟩, rfl⟩
    exact ⟨_, admitted, (mem_edgesAlong consistent _ _ _).mp ⟨edge, listed, rfl, rfl⟩⟩
  rintro ⟨kind, admitted, labelled⟩
  obtain ⟨edge, listed, here, kinded⟩ := (mem_edgesAlong consistent _ _ _).mpr labelled
  exact ⟨edge, ⟨listed, kinded ▸ admitted⟩, here⟩

/-- The visits and the insertions of a round do not depend on each other. -/
theorem foldl_follow (edges : List (NodeId × EdgeData)) (state : ClosureState) :
    edges.foldl (ClosureState.follow admits) state =
      ⟨((edges.filter fun other => admits other.2.kind).map Prod.fst).foldl Search.visit state.search,
        ((edges.filter fun other => admits other.2.kind).map Prod.fst).foldl ListSet.insert
          state.reached⟩ := by
  induction edges generalizing state with
  | nil => rfl
  | cons other edges ih =>
    rw [foldl_cons, ih, filter_cons]
    unfold ClosureState.follow
    split
    · rfl
    · rfl

theorem mem_foldl_insert (set : ListSet NodeId) (nodes : List NodeId) (node : NodeId) :
    node ∈ (nodes.foldl ListSet.insert set).members ↔ node ∈ nodes ∨ node ∈ set.members := by
  induction nodes generalizing set with
  | nil => simp
  | cons head nodes ih => rw [foldl_cons, ih, mem_insert, mem_cons, or_left_comm, or_assoc]

/-- What the rounds keep. A visited node is a seed or was reached, and its edges are followed unless it
waits. -/
structure Closing (code : CodeGraph) (admits : EdgeKind → Bool) (direction : ClosureDirection)
    (seeds : List NodeId) (state : ClosureState) : Prop where
  stored : ∀ node ∈ state.search.visited.members, node ∈ code.allNodeIds
  waiting : ∀ node ∈ state.search.frontier, node ∈ state.search.visited.members
  visited : ∀ node ∈ state.reached.members, node ∈ state.search.visited.members
  origin : ∀ node ∈ state.search.visited.members, node ∈ seeds ∨ node ∈ state.reached.members
  seeded : ∀ seed ∈ seeds, code.containsNode seed → seed ∈ state.search.visited.members
  sound : ∀ node ∈ state.reached.members,
    ∃ seed ∈ seeds, TransGen (code.Admitted admits direction) seed node
  closed : ∀ node ∈ state.search.visited.members, node ∈ state.search.frontier ∨
    ∀ other, code.Admitted admits direction node other → other ∈ state.reached.members

theorem mem_allNodeIds (node : NodeId) : node ∈ code.allNodeIds ↔ code.containsNode node := by
  exact (Dict.mem_keys_iff code.indexMap node).trans Option.isSome_iff_exists.symm

/-- Once the seeds wait, nothing is reached yet. -/
theorem closing_seeds (seeds : List NodeId) : Closing code admits direction seeds
        (seeds.foldl (ClosureState.seed code) ⟨⟨.empty, []⟩, .empty⟩) ∧
      (seeds.foldl (ClosureState.seed code) ⟨⟨.empty, []⟩, .empty⟩).search.frontier.length ≤
        seeds.length := by
  induction seeds using List.reverseRecOn with
  | nil => refine ⟨⟨?_, ?_, ?_, ?_, ?_, ?_, ?_⟩, le_refl 0⟩ <;> simp [members_empty]
  | append_singleton seeds seed ih =>
    rw [foldl_append, foldl_cons, foldl_nil]
    generalize seeds.foldl (ClosureState.seed code) _ = state at ih
    obtain ⟨closing, bound⟩ := ih
    rw [ClosureState.seed, length_append, length_singleton]
    split
    · rename_i known
      refine ⟨⟨?_, ?_, ?_, ?_, ?_, ?_, ?_⟩, Nat.succ_le_succ bound⟩
      · intro node mem
        rcases (mem_insert _ _ _).mp mem with same | old
        · exact same ▸ (mem_allNodeIds seed).mpr known
        · exact closing.stored node old
      · intro node mem
        rw [mem_insert]
        exact (mem_cons.mp mem).imp id (closing.waiting node)
      · intro node mem
        exact (mem_insert _ _ _).mpr (.inr (closing.visited node mem))
      · intro node mem
        rw [mem_append, mem_singleton]
        rcases (mem_insert _ _ _).mp mem with same | old
        · exact .inl (.inr same)
        · exact (closing.origin node old).imp .inl id
      · intro other mem stored
        rw [mem_insert]
        rcases mem_append.mp mem with old | new
        · exact .inr (closing.seeded other old stored)
        · exact .inl (mem_singleton.mp new)
      · intro node mem
        obtain ⟨origin, listed, walk⟩ := closing.sound node mem
        exact ⟨origin, mem_append_left _ listed, walk⟩
      · intro node mem
        rcases (mem_insert _ _ _).mp mem with same | old
        · exact .inl (mem_cons.mpr (.inl same))
        · exact (closing.closed node old).imp (mem_cons_of_mem seed) id
    · rename_i absent
      refine ⟨{ closing with origin := ?_, seeded := ?_, sound := ?_ }, Nat.le_succ_of_le bound⟩
      · intro node mem
        exact (closing.origin node mem).imp (mem_append_left _) id
      · intro other mem stored
        rcases mem_append.mp mem with old | new
        · exact closing.seeded other old stored
        · exact absurd (mem_singleton.mp new ▸ stored) absent
      intro node mem
      obtain ⟨origin, listed, walk⟩ := closing.sound node mem
      exact ⟨origin, mem_append_left _ listed, walk⟩

section

variable (consistent : CodeGraph.Consistent code)
include consistent

/-- Against an edge, its ends change places. -/
theorem CodeGraph.Labelled.source_stored
    {source target : NodeId} {kind : EdgeKind} (labelled : code.Labelled direction source kind target) :
    code.containsNode source := by
  cases direction with
  | outgoing =>
    have turned : code.Labelled .incoming target kind source := labelled
    exact turned.stored consistent
  | incoming =>
    have turned : code.Labelled .outgoing target kind source := labelled
    exact turned.stored consistent

/-- A round reaches the ends of the edges at a node, which then need not wait any more. -/
theorem closureStep_closing {seeds : List NodeId}
    (before after : ClosureState) (closing : Closing code admits direction seeds before)
    (moved : closureStep code admits direction before = some after) :
    Closing code admits direction seeds after ∧
      after.search.frontier.length + before.search.visited.size + 1 =
        before.search.frontier.length + after.search.visited.size := by
  unfold closureStep at moved
  cases waiting : before.search.frontier with
  | nil =>
    rw [waiting] at moved
    contradiction
  | cons node frontier =>
    simp only [waiting, Option.some.injEq] at moved
    rw [foldl_follow] at moved
    change (⟨(admittedEnds code admits direction node).foldl Search.visit
        { before.search with frontier := frontier },
      (admittedEnds code admits direction node).foldl ListSet.insert before.reached⟩ : ClosureState) =
        after at moved
    have ends (other : NodeId) : other ∈ admittedEnds code admits direction node ↔
        code.Admitted admits direction node other := mem_admittedEnds consistent node other
    have visits := Search.mem_foldl_visit { before.search with frontier := frontier }
      (admittedEnds code admits direction node)
    have waits := Search.mem_frontier_foldl_visit { before.search with frontier := frontier }
      (admittedEnds code admits direction node)
    have balance := Search.foldl_visit_balance { before.search with frontier := frontier }
      (admittedEnds code admits direction node)
    have reaches := mem_foldl_insert before.reached (admittedEnds code admits direction node)
    have here := closing.waiting node (waiting ▸ mem_cons_self)
    subst moved
    refine ⟨⟨?_, ?_, ?_, ?_, ?_, ?_, ?_⟩, ?_⟩
    · intro other mem
      rcases (visits other).mp mem with new | old
      · obtain ⟨kind, -, labelled⟩ := (ends other).mp new
        exact (mem_allNodeIds other).mpr (labelled.stored consistent)
      · exact closing.stored other old
    · intro other mem
      rw [visits]
      rcases (waits other).mp mem with old | ⟨new, -⟩
      · exact .inr (closing.waiting other (waiting ▸ mem_cons_of_mem node old))
      · exact .inl new
    · intro other mem
      rw [visits]
      exact ((reaches other).mp mem).imp id (closing.visited other)
    · intro other mem
      rw [reaches]
      rcases (visits other).mp mem with new | old
      · exact .inr (.inl new)
      · exact (closing.origin other old).imp id .inr
    · intro seed listed stored
      exact (visits seed).mpr (.inr (closing.seeded seed listed stored))
    · intro other mem
      rcases (reaches other).mp mem with new | old
      · have step := (ends other).mp new
        rcases closing.origin node here with seed | reached
        · exact ⟨node, seed, TransGen.single step⟩
        · obtain ⟨seed, listed, walk⟩ := closing.sound node reached
          exact ⟨seed, listed, walk.tail step⟩
      · exact closing.sound other old
    · intro other mem
      rw [waits]
      by_cases old : other ∈ before.search.visited.members
      · rcases closing.closed other old with waits' | closed
        · rw [waiting] at waits'
          rcases mem_cons.mp waits' with same | later
          · rw [same]
            exact .inr fun next step => (reaches next).mpr (.inl ((ends next).mpr step))
          · exact .inl (.inl later)
        · exact .inr fun next step => (reaches next).mpr (.inr (closed next step))
      · exact .inl (.inr ⟨((visits other).mp mem).resolve_right old, old⟩)
    · rw [length_cons]
      change _ + before.search.visited.size = frontier.length + _ at balance
      change (List.foldl Search.visit _ _).frontier.length + before.search.visited.size + 1 =
        frontier.length + 1 + (List.foldl Search.visit _ _).visited.size
      omega

/-- When no node waits, the reached nodes are the ends of the walks with an edge. -/
theorem Closing.complete {seeds : List NodeId} {state : ClosureState}
    (closing : Closing code admits direction seeds state)
    (empty : state.search.frontier = []) (node : NodeId) :
    node ∈ state.reached.members ↔ ∃ seed ∈ seeds, TransGen (code.Admitted admits direction) seed node := by
  have closed (visited : NodeId) (mem : visited ∈ state.search.visited.members) (other : NodeId)
      (step : code.Admitted admits direction visited other) : other ∈ state.reached.members := by
    rcases closing.closed visited mem with waits | closed
    · rw [empty] at waits
      contradiction
    · exact closed other step
  constructor
  · exact closing.sound node
  intro ⟨seed, listed, walk⟩
  induction walk with
  | single step =>
    obtain ⟨kind, -, labelled⟩ := id step
    exact closed seed (closing.seeded seed listed (labelled.source_stored consistent)) _ step
  | tail _ step reached => exact closed _ (closing.visited _ reached) _ step

theorem mem_closure (order : HashOrder NodeId) (seeds : List NodeId) (node : NodeId) :
    node ∈ closure order code seeds admits direction ↔
      ∃ seed ∈ seeds, TransGen (code.Admitted admits direction) seed node := by
  have size (state : ClosureState) (closing : Closing code admits direction seeds state) :
      state.search.visited.size ≤ code.allNodeIds.length :=
    (state.search.visited.nodup.subperm closing.stored).length_le
  have begun : Closing code admits direction seeds
        (seeds.foldl (ClosureState.seed code) ⟨⟨.empty, []⟩, .empty⟩) ∧ _ := closing_seeds seeds
  have keeps (before after : ClosureState) (closing : Closing code admits direction seeds before)
      (moved : closureStep code admits direction before = some after) :
      Closing code admits direction seeds after :=
    (closureStep_closing consistent before after closing moved).1
  let cost (state : ClosureState) : Nat :=
    state.search.frontier.length + (code.allNodeIds.length - state.search.visited.size)
  have falls (before after : ClosureState) (closing : Closing code admits direction seeds before)
      (moved : closureStep code admits direction before = some after) : cost after < cost before := by
    have balance := (closureStep_closing consistent before after closing moved).2
    have small := size before closing
    have small' := size after (keeps before after closing moved)
    simp only [cost]
    omega
  have enough : cost (seeds.foldl (ClosureState.seed code) ⟨⟨.empty, []⟩, .empty⟩) ≤
      seeds.length + code.allNodeIds.length := by
    have few := begun.2
    simp only [cost]
    omega
  have halts := halts_loop keeps falls _ _ begun.1 enough
  have closing := halts.preserves keeps begun.1
  have empty : (loop (closureStep code admits direction) (seeds.length + code.allNodeIds.length)
      (seeds.foldl (ClosureState.seed code) ⟨⟨.empty, []⟩, .empty⟩)).search.frontier = [] := by
    have ended := halts.ended
    unfold closureStep at ended
    split at ended
    · assumption
    · contradiction
  rw [closure, order.listed, mem_toFinset]
  exact closing.complete consistent empty node

end

end Rounds

section Repeated

theorem mem_plus (matcher : EdgeMatcher) (word : List EdgeKind) :
    word ∈ patternLanguage [⟨matcher, .plus⟩] ↔ word ≠ [] ∧ ∀ kind ∈ word, matcher.matches kind = true := by
  have single (kind : EdgeKind) : [kind] ∈ matcher.language ↔ matcher.matches kind = true := by
    constructor
    · intro ⟨other, matched, same⟩
      rw [List.cons.injEq] at same
      exact same.1 ▸ matched
    · exact fun matched => ⟨kind, matched, rfl⟩
  have star (word : List EdgeKind) : word ∈ KStar.kstar matcher.language ↔
      ∀ kind ∈ word, matcher.matches kind = true := by
    rw [Language.mem_kstar]
    constructor
    · rintro ⟨words, rfl, each⟩ kind mem
      obtain ⟨part, listed, inside⟩ := mem_flatten.mp mem
      obtain ⟨other, matched, rfl⟩ := each part listed
      rwa [mem_singleton.mp inside]
    intro matched
    refine ⟨word.map fun kind => [kind], ?_, ?_⟩
    · rw [← flatMap_def, flatMap_singleton']
    intro part listed
    obtain ⟨kind, mem, rfl⟩ := mem_map.mp listed
    exact (single kind).mpr (matched kind mem)
  change word ∈ matcher.language * KStar.kstar matcher.language * 1 ↔ _
  rw [mul_one, Language.mem_mul]
  constructor
  · rintro ⟨first, ⟨kind, matched, rfl⟩, rest, starred, rfl⟩
    refine ⟨cons_ne_nil _ _, fun other mem => ?_⟩
    rcases mem_cons.mp mem with same | later
    · exact same ▸ matched
    · exact (star rest).mp starred other later
  intro ⟨nonempty, matched⟩
  cases word with
  | nil => contradiction
  | cons kind rest =>
    exact ⟨[kind], (single kind).mpr (matched kind mem_cons_self), rest,
      (star rest).mpr fun other mem => matched other (mem_cons_of_mem kind mem), rfl⟩

theorem transGen_iff_walk (code : CodeGraph) (matcher : EdgeMatcher) (direction : ClosureDirection)
    (source target : NodeId) :
    TransGen (code.Admitted matcher.matches direction) source target ↔
      ∃ word ∈ patternLanguage [⟨matcher, .plus⟩], Walk (code.Labelled direction) source word target := by
  constructor
  · intro reaches
    induction reaches with
    | single step =>
      obtain ⟨kind, matched, labelled⟩ := step
      refine ⟨[kind], (mem_plus matcher [kind]).mpr ⟨cons_ne_nil _ _, ?_⟩, .single labelled⟩
      intro other mem
      rwa [mem_singleton.mp mem]
    | tail _ step ih =>
      obtain ⟨word, spelled, walk⟩ := ih
      obtain ⟨kind, matched, labelled⟩ := step
      refine ⟨word ++ [kind], (mem_plus matcher _).mpr ⟨by simp, ?_⟩, .snoc walk labelled⟩
      intro other mem
      rcases mem_append.mp mem with old | new
      · exact ((mem_plus matcher word).mp spelled).2 other old
      · rwa [mem_singleton.mp new]
  rintro ⟨word, spelled, walk⟩
  obtain ⟨nonempty, matched⟩ := (mem_plus matcher word).mp spelled
  clear spelled
  induction walk with
  | nil => contradiction
  | @snoc labels middle target kind before last ih =>
    have step : code.Admitted matcher.matches direction middle target :=
      ⟨kind, matched kind (mem_append_right _ mem_cons_self), last⟩
    by_cases empty : labels = []
    · subst empty
      rw [Walk.nil_iff.mp before] at step
      exact TransGen.single step
    · exact (ih empty fun other mem => matched other (mem_append_left _ mem)).tail step

end Repeated

/-- The closure lists, each once, the nodes that a walk of one or more matching edges leads to from a
seed, and these are the targets of the label search with the repeated matcher. -/
theorem closure_reaches {code : CodeGraph} (consistent : CodeGraph.Consistent code)
    (order : HashOrder NodeId) (seeds : List NodeId) (admits : EdgeKind → Bool)
    (direction : ClosureDirection) :
    (closure order code seeds admits direction).Nodup ∧
      (∀ node, node ∈ closure order code seeds admits direction ↔
        ∃ seed ∈ seeds, TransGen (code.Admitted admits direction) seed node) ∧
      ∀ matcher : EdgeMatcher, ∀ node, node ∈ closure order code seeds matcher.matches direction ↔
        ∃ seed ∈ seeds, node ∈ reachableTargets code seed [⟨matcher, .plus⟩] direction := by
  refine ⟨order.distinct _, mem_closure consistent order seeds, fun matcher node => ?_⟩
  rw [mem_closure consistent order seeds]
  refine exists_congr fun seed => and_congr_right fun _ => ?_
  rw [mem_reachableTargets consistent, transGen_iff_walk]
  constructor
  · intro spelled
    refine ⟨?_, spelled⟩
    have walk := (transGen_iff_walk code matcher direction seed node).mpr spelled
    obtain ⟨next, ⟨kind, -, labelled⟩, -⟩ := TransGen.head'_iff.mp walk
    exact labelled.source_stored consistent
  · exact And.right

/-- The hashes order the ids. -/
def NodeId.hashOrder : HashOrder NodeId :=
  .byCode (fun id => id.hash.toNat) (fun hash => ⟨.ofNat 64 hash⟩) fun id => by
    rw [BitVec.ofNat_toNat, BitVec.setWidth_eq]

/-- A function that calls itself is in its own closure. -/
theorem closure_reaches_recursion :
    ⟨1⟩ ∈ closure NodeId.hashOrder (CodeGraph.run .fresh CsrSnapshot.recursion) [⟨1⟩]
      (EdgeMatcher.exactly .calls).matches .outgoing :=
  ((closure_reaches (CodeGraph.run_consistent .fresh CsrSnapshot.recursion) NodeId.hashOrder [⟨1⟩]
    (fun _ => true) .outgoing).2.2 (.exactly .calls) ⟨1⟩).mpr
      ⟨⟨1⟩, mem_singleton.mpr rfl, by decide +kernel⟩

end Codegraph
