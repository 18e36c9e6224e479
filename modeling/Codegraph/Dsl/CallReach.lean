import Codegraph.Dsl.Executor
import Codegraph.LabelReachability.Closure

namespace Codegraph.Dsl

open Library Relation List

/-- The nodes that some seed leads to along call edges. -/
def callReach (code : CodeGraph) (incoming : Bool) (seeds : Set NodeId) : Set NodeId :=
  {id | ∃ seed ∈ seeds,
    ReflTransGen (fun first second => second ∈ callNeighbors code incoming first) seed id}

/-- Distinct nodes of a set that are as many as it may hold are all of it. -/
theorem full_eq {nodes : Finset NodeId} {whole : Set NodeId} {count : Nat}
    (inside : (nodes : Set NodeId) ⊆ whole) (small : whole.encard ≤ count)
    (full : count ≤ nodes.card) : (nodes : Set NodeId) = whole := by
  apply nodes.finite_toSet.eq_of_subset_of_encard_le inside
  rw [Set.encard_coe_eq_coe_finsetCard]
  exact small.trans (Nat.cast_le.mpr full)

variable {engine : QueryEngine} {incoming : Bool} {maxNodes : Nat} {set : Finset NodeId}

theorem callNeighbors_stored {code : CodeGraph} (consistent : CodeGraph.Consistent code)
    {source target : NodeId} (adjacent : target ∈ callNeighbors code incoming source) :
    target ∈ code.allNodeIds := by
  obtain ⟨_, _, labelled⟩ := (mem_callNeighbors consistent incoming source target).mp adjacent
  exact (Dict.mem_keys_iff _ _).mpr (Option.isSome_iff_exists.mp (labelled.stored consistent))

theorem length_callNeighbors (code : CodeGraph) (incoming : Bool) (id : NodeId) :
    (callNeighbors code incoming id).length ≤ code.graph.links.length := by
  rw [callNeighbors, length_map]
  apply (length_filter_le _ _).trans
  cases incoming with
  | true =>
    change (code.getEdgesTo id).length ≤ _
    unfold CodeGraph.getEdgesTo
    split
    · exact Nat.zero_le _
    apply (length_filterMap_le _ _).trans
    rw [StableGraph.edgesTo, length_reverse]
    exact length_filter_le _ _
  | false =>
    change (code.getEdgesFrom id).length ≤ _
    unfold CodeGraph.getEdgesFrom
    split
    · exact Nat.zero_le _
    apply (length_filterMap_le _ _).trans
    rw [StableGraph.edgesFrom, length_reverse]
    exact length_filter_le _ _

/-- The nodes that are visited or wait are reached, and no other node is until the search is full. -/
structure Reaching (code : CodeGraph) (incoming : Bool) (maxNodes : Nat) (set : Finset NodeId)
    (state : ReachState) : Prop where
  sound : ∀ id, id ∈ state.visited ∨ id ∈ state.queue → id ∈ callReach code incoming set
  stored : state.visited ∪ state.queue.toFinset ⊆ code.allNodeIds.toFinset ∪ set
  covers : max 1 maxNodes ≤ state.visited.card ∨ (∀ id ∈ set, id ∈ state.visited ∨ id ∈ state.queue) ∧
      ∀ id ∈ state.visited, ∀ other ∈ callNeighbors code incoming id,
        other ∈ state.visited ∨ other ∈ state.queue

theorem reachStep_cases {neighbors : NodeId → List NodeId} {before after : ReachState}
    (moved : reachStep neighbors maxNodes before = some after) :
    ∃ current queue, before.queue = current :: queue ∧
      (current ∈ before.visited ∧ after = ⟨before.visited, queue⟩ ∨
      current ∉ before.visited ∧ maxNodes ≤ (insert current before.visited).card ∧
        after = ⟨insert current before.visited, []⟩ ∨
      current ∉ before.visited ∧ (insert current before.visited).card < maxNodes ∧
        after = ⟨insert current before.visited, queue ++ (neighbors current).filter fun other =>
          other ∉ insert current before.visited⟩) := by
  obtain ⟨visited, queue⟩ := before
  cases queue with
  | nil => contradiction
  | cons current queue =>
    refine ⟨current, queue, rfl, ?_⟩
    change (if current ∈ visited then some (⟨visited, queue⟩ : ReachState)
      else if maxNodes ≤ (insert current visited).card then some ⟨insert current visited, []⟩
      else some ⟨insert current visited, _⟩) = some after at moved
    split at moved
    · rename_i again
      exact .inl ⟨again, (Option.some.inj moved).symm⟩
    rename_i fresh
    split at moved
    · rename_i full
      exact .inr (.inl ⟨fresh, full, (Option.some.inj moved).symm⟩)
    · rename_i room
      exact .inr (.inr ⟨fresh, Nat.lt_of_not_le room, (Option.some.inj moved).symm⟩)

theorem reachStep_ended {neighbors : NodeId → List NodeId} {state : ReachState}
    (ended : reachStep neighbors maxNodes state = none) : state.queue = [] := by
  obtain ⟨visited, queue⟩ := state
  cases queue with
  | nil => rfl
  | cons current queue =>
    change (if current ∈ visited then some (⟨visited, queue⟩ : ReachState)
      else if maxNodes ≤ (insert current visited).card then some ⟨insert current visited, []⟩
      else some ⟨insert current visited, _⟩) = none at ended
    split at ended
    · contradiction
    · split at ended <;> contradiction

theorem Reaching.visit {state : ReachState} {current : NodeId} {queue : List NodeId}
    (reaching : Reaching engine.code incoming maxNodes set state)
    (waits : state.queue = current :: queue) (id : NodeId) (mem : id ∈ insert current state.visited) :
    id ∈ callReach engine.code incoming set ∧ id ∈ engine.code.allNodeIds.toFinset ∪ set := by
  have known : id ∈ state.visited ∨ id ∈ state.queue := by
    rcases Finset.mem_insert.mp mem with same | old
    · rw [waits]
      exact .inr (same ▸ mem_cons_self)
    · exact .inl old
  exact ⟨reaching.sound id known, reaching.stored (Finset.mem_union.mpr (known.imp_right mem_toFinset.mpr))⟩

theorem waits_after {visited : Finset NodeId} {current id : NodeId} {queue : List NodeId}
    (mem : id ∈ visited ∨ id ∈ current :: queue) : id ∈ insert current visited ∨ id ∈ queue := by
  rcases mem with old | waiting
  · exact .inl (Finset.mem_insert_of_mem old)
  rcases mem_cons.mp waiting with same | later
  · exact .inl (same ▸ Finset.mem_insert_self current visited)
  · exact .inr later

/-- The neighbours of a visited node that are not visited wait. -/
theorem reachStep_reaching (consistent : CodeGraph.Consistent engine.code) (before after : ReachState)
    (reaching : Reaching engine.code incoming maxNodes set before)
    (moved : reachStep (callNeighbors engine.code incoming) maxNodes before = some after) :
    Reaching engine.code incoming maxNodes set after := by
  obtain ⟨current, queue, waits, either⟩ := reachStep_cases moved
  have visit := reaching.visit waits
  have later {id : NodeId} (waiting : id ∈ queue) : id ∈ before.queue := by
    rw [waits]
    exact mem_cons_of_mem current waiting
  have covered := reaching.covers
  rw [waits] at covered
  rcases either with ⟨again, rfl⟩ | ⟨_, full, rfl⟩ | ⟨fresh, room, rfl⟩
  · rw [Finset.insert_eq_of_mem again] at visit
    have kept {id : NodeId} (mem : id ∈ before.visited ∨ id ∈ current :: queue) :
        id ∈ before.visited ∨ id ∈ queue := by
      rw [← Finset.insert_eq_of_mem again]
      exact waits_after mem
    refine ⟨fun id mem => reaching.sound id (mem.imp_right later), fun id mem => ?_,
      covered.imp_right fun covers => ⟨fun id mem => kept (covers.1 id mem),
        fun id mem other adjacent => kept (covers.2 id mem other adjacent)⟩⟩
    apply reaching.stored
    rw [Finset.mem_union, mem_toFinset] at mem ⊢
    exact mem.imp_right later
  · refine ⟨fun id mem => (visit id (mem.resolve_right not_mem_nil)).1, fun id mem => ?_,
      .inl (max_le (Finset.card_pos.mpr ⟨current, Finset.mem_insert_self _ _⟩) full)⟩
    rw [toFinset_nil, Finset.union_empty] at mem
    exact (visit id mem).2
  refine ⟨?_, ?_, .inr ?_⟩
  · intro id mem
    rcases mem with inside | waiting
    · exact (visit id inside).1
    rcases mem_append.mp waiting with old | new
    · exact reaching.sound id (.inr (later old))
    · obtain ⟨seed, seeded, path⟩ := (visit current (Finset.mem_insert_self _ _)).1
      exact ⟨seed, seeded, path.tail (mem_filter.mp new).1⟩
  · intro id mem
    rcases Finset.mem_union.mp mem with inside | waiting
    · exact (visit id inside).2
    rcases mem_append.mp (mem_toFinset.mp waiting) with old | new
    · exact reaching.stored (Finset.mem_union_right _ (mem_toFinset.mpr (later old)))
    · exact Finset.mem_union_left _ (mem_toFinset.mpr
        (callNeighbors_stored consistent (mem_filter.mp new).1))
  have covers := covered.resolve_left fun full => by
    have larger := Finset.card_le_card (Finset.subset_insert current before.visited)
    omega
  constructor
  · exact fun id mem => (waits_after (covers.1 id mem)).imp_right (mem_append_left _)
  intro id mem other adjacent
  rcases Finset.mem_insert.mp mem with same | old
  · by_cases inside : other ∈ insert current before.visited
    · exact .inl inside
    right
    apply mem_append_right
    exact mem_filter.mpr ⟨same ▸ adjacent, decide_eq_true inside⟩
  · exact (waits_after (covers.2 id old other adjacent)).imp_right (mem_append_left _)

theorem reachStep_falls (before after : ReachState)
    (reaching : Reaching engine.code incoming maxNodes set before)
    (moved : reachStep (callNeighbors engine.code incoming) maxNodes before = some after) :
    worklistMeasure engine.code.graph.links.length
        (engine.code.allNodeIds.length + set.card - after.visited.card) after.queue.length <
      worklistMeasure engine.code.graph.links.length
        (engine.code.allNodeIds.length + set.card - before.visited.card) before.queue.length := by
  obtain ⟨current, queue, waits, either⟩ := reachStep_cases moved
  rw [waits]
  have spent (fresh : current ∉ before.visited) :
      engine.code.allNodeIds.length + set.card - (insert current before.visited).card <
        engine.code.allNodeIds.length + set.card - before.visited.card := by
    have bound := (Finset.card_le_card fun id mem => (reaching.visit waits id mem).2).trans
      (Finset.card_union_le _ _)
    have ids := toFinset_card_le engine.code.allNodeIds
    rw [Finset.card_insert_of_notMem fresh] at bound ⊢
    omega
  rcases either with ⟨_, rfl⟩ | ⟨fresh, _, rfl⟩ | ⟨fresh, _, rfl⟩
  · exact worklistMeasure_idle (le_refl _) (Nat.lt_succ_self _)
  · exact worklistMeasure_productive (spent fresh) (Nat.zero_le _)
  apply worklistMeasure_productive (spent fresh)
  have few := (length_filter_le (fun other => decide (other ∉ insert current before.visited))
    (callNeighbors engine.code incoming current)).trans
      (length_callNeighbors engine.code incoming current)
  rw [length_append, length_cons]
  omega

/-- The search reaches what the seeds lead to, or as many nodes of it as are allowed. -/
theorem applyCallReachability_spec (consistent : CodeGraph.Consistent engine.code)
    (config : QueryConfig) (incoming : Bool) (set : Finset NodeId) :
    (engine.applyCallReachability config incoming set : Set NodeId) ⊆
        callReach engine.code incoming set ∧
      (max 1 config.maxNodes ≤ (engine.applyCallReachability config incoming set).card ∨
        (engine.applyCallReachability config incoming set : Set NodeId) =
          callReach engine.code incoming set) := by
  have listed := engine.runtime.listed set
  have start : Reaching engine.code incoming config.maxNodes set ⟨∅, engine.runtime.iterate set⟩ := by
    refine ⟨?_, ?_, .inr ⟨fun id mem => .inr ((listed id).mpr mem), ?_⟩⟩
    · intro id mem
      have seeded := (listed id).mp (mem.resolve_left (Finset.notMem_empty id))
      exact ⟨id, seeded, .refl⟩
    · intro id mem
      have seeded := (Finset.mem_union.mp mem).resolve_left (Finset.notMem_empty id)
      exact Finset.mem_union_right _ ((listed id).mp (mem_toFinset.mp seeded))
    · exact fun id mem => absurd mem (Finset.notMem_empty id)
  have count : (engine.runtime.iterate set).length = set.card := by
    rw [← toFinset_card_of_nodup (engine.runtime.distinct set)]
    congr 1
    ext id
    rw [mem_toFinset, listed]
  have halts := halts_loop (reachStep_reaching consistent) reachStep_falls
    (worklistMeasure engine.code.graph.links.length (engine.code.allNodeIds.length + set.card)
      set.card) _ start (by simp [count])
  have final := halts.preserves (reachStep_reaching consistent) start
  have ended := halts.ended
  unfold QueryEngine.applyCallReachability
  generalize loop _ _ _ = state at final ended ⊢
  have drained := reachStep_ended ended
  refine ⟨fun id mem => final.sound id (.inl mem), final.covers.imp_right fun covers => ?_⟩
  apply Set.Subset.antisymm fun id mem => final.sound id (.inl mem)
  intro id ⟨seed, seeded, path⟩
  have inside {id : NodeId} (mem : id ∈ state.visited ∨ id ∈ state.queue) : id ∈ state.visited :=
    mem.resolve_right (by rw [drained]; exact not_mem_nil)
  induction path with
  | refl => exact inside (covers.1 seed seeded)
  | tail _ adjacent ih => exact inside (covers.2 _ ih _ adjacent)

/-- The operator collects its nodes and their closure over the calls, unless it is full before. -/
theorem applyCallReachability_closure {ParsedFile : Type} (policy : SlotPolicy)
    (operations : List (CodeGraph.Operation ParsedFile)) (runtime : Runtime) (order : HashOrder NodeId)
    (config : QueryConfig) (incoming : Bool) (set : Finset NodeId) :
    let engine : QueryEngine := ⟨CodeGraph.run policy operations, runtime⟩
    let reached := engine.applyCallReachability config incoming set
    let closed := set ∪ (closure order engine.code (order.iterate set) isCall
      (if incoming then .incoming else .outgoing)).toFinset
    reached ⊆ closed ∧ (max 1 config.maxNodes ≤ reached.card ∨ reached = closed) := by
  intro engine reached closed
  have consistent : engine.code.Consistent := CodeGraph.run_consistent policy operations
  have calls : (fun first second => second ∈ callNeighbors engine.code incoming first) =
      engine.code.Admitted isCall (if incoming then .incoming else .outgoing) := by
    funext first second
    exact propext (mem_callNeighbors consistent incoming first second)
  have same : callReach engine.code incoming set = closed := by
    ext id
    rw [callReach, calls, Finset.mem_coe, Finset.mem_union, mem_toFinset, mem_closure consistent]
    simp only [reflTransGen_iff_eq_or_transGen, order.listed, Set.mem_ofPred_eq, Finset.mem_coe]
    constructor
    · rintro ⟨seed, mem, rfl | walk⟩
      · exact .inl mem
      · exact .inr ⟨seed, mem, walk⟩
    · rintro (mem | ⟨seed, mem, walk⟩)
      · exact ⟨id, mem, .inl rfl⟩
      · exact ⟨seed, mem, .inr walk⟩
  obtain ⟨inside, full⟩ := applyCallReachability_spec consistent config incoming set
  rw [same] at inside full
  exact ⟨Finset.coe_subset.mp inside, full.imp id Finset.coe_injective.eq_iff.mp⟩

end Codegraph.Dsl
