import Codegraph.ReachingDefs.Tables

namespace Codegraph

open Library Relation List BitSet WorkQueue Blocks

namespace ReachingDefs

/-- The tables agree with the definitions and the block graph. -/
structure WellFormed (rd : ReachingDefs) : Prop where
  linked : rd.blocks.Linked
  sorted : rd.blocks.starts.Pairwise (· < ·)
  reached : ∀ block, rd.blocks.reachable block = true ↔
    0 < rd.blocks.blockCount ∧ ReflTransGen rd.blocks.edge 0 block
  entryInside : ∀ id ∈ rd.entryDefs, id < rd.defs.length
  opInside : ∀ op, ∀ id ∈ rd.defsAt op, id < rd.defs.length
  kills : ∃ index, KillsIndexed rd.defs (groupByBase rd.defs) rd.defs
    ⟨index, rd.killSets, rd.killOf⟩

/-- The definitions a block makes. -/
def blockDefs (rd : ReachingDefs) (block : Nat) : List Nat := (rd.blocks.range block).flatMap rd.defsAt

/-- A set of the analysis has a bit for every definition. -/
def Wide (rd : ReachingDefs) (set : BitSet) : Prop := set.words.length = rd.empty.words.length

/-- The set holds the definition after the definitions of the list were made. -/
def Holds (rd : ReachingDefs) (set : BitSet) (ids : List Nat) (id : Nat) : Prop :=
  HoldsAfter (Kills rd.defs) (set.contains id = true) id ids

theorem wide_empty (rd : ReachingDefs) : rd.Wide rd.empty := rfl

theorem foldl_union_spec {rd : ReachingDefs} {outs : List BitSet}
    (wideOuts : ∀ block, rd.Wide (outs.getD block rd.empty)) (preds : List Nat) {state : BitSet}
    (wide : rd.Wide state) :
    let joined := preds.foldl (fun state pred =>
      if rd.blocks.reachable pred then state.unionWith (outs.getD pred rd.empty) else state) state
    rd.Wide joined ∧ ∀ other, joined.contains other = true ↔ state.contains other = true ∨
      ∃ pred ∈ preds, rd.blocks.reachable pred = true ∧
        (outs.getD pred rd.empty).contains other = true := by
  induction preds generalizing state with
  | nil => exact ⟨wide, by simp⟩
  | cons pred preds ih =>
    rw [foldl_cons]
    by_cases reached : rd.blocks.reachable pred = true
    · have width := wide.trans (wideOuts pred).symm
      obtain ⟨wide', members⟩ := @ih (state.unionWith (outs.getD pred rd.empty))
        (by rw [Wide, words_unionWith]; exact wide)
      rw [if_pos reached]
      refine ⟨wide', fun other => ?_⟩
      rw [members, contains_unionWith _ _ width]
      simp [reached, or_assoc]
    obtain ⟨wide', members⟩ := ih wide
    rw [if_neg reached]
    refine ⟨wide', fun other => ?_⟩
    rw [members]
    simp [reached]

section Transfer

variable {rd : ReachingDefs} (wf : rd.WellFormed)

include wf

theorem genDef_spec {state : BitSet} (wide : rd.Wide state) {id : Nat} (inside : id < rd.defs.length) :
    rd.Wide (rd.genDef state id) ∧
      ∀ other, (rd.genDef state id).contains other = true ↔ rd.Holds state [id] other := by
  obtain ⟨index, indexed⟩ := wf.kills
  have wide' : state.words.length = (rd.defs.length + 63) / 64 := by rw [wide, empty, words_new]
  have word : id / 64 < state.words.length := by omega
  have found := getElem?_eq_getElem inside
  simp only [Holds, holdsAfter_singleton]
  cases strength : rd.defs[id].strong with
  | false =>
    have entry : rd.killOf.getD id none = none := by
      rw [getD_eq_getElem?_getD, indexed.weak id _ found strength]
      rfl
    have generated : rd.genDef state id = state.insert id := by rw [genDef, entry]
    rw [generated]
    refine ⟨by rw [Wide, words_insert]; exact wide, fun other => ?_⟩
    have spared : ¬ Kills rd.defs id other := by
      rintro ⟨first, second, here, -, strong, -⟩
      rw [found] at here
      cases here
      rw [strength] at strong
      contradiction
    rw [contains_insert _ _ _ word]
    simp [spared]
  | true =>
    obtain ⟨position, entry, stored⟩ := indexed.strong id _ found strength
    have generated : rd.genDef state id =
        (state.differenceWith (killSet rd.defs (groupByBase rd.defs) rd.defs[id].place)).insert
          id := by
      simp [genDef, getD_eq_getElem?_getD, entry, stored]
    have width : state.words.length =
        (killSet rd.defs (groupByBase rd.defs) rd.defs[id].place).words.length := by
      rw [words_killSet, words_new, wide']
    rw [generated]
    refine ⟨by rw [Wide, words_insert, words_differenceWith]; exact wide, fun other => ?_⟩
    have killed : (killSet rd.defs (groupByBase rd.defs) rd.defs[id].place).contains other = true ↔
        Kills rd.defs id other := by
      rw [contains_killSet]
      constructor
      · rintro ⟨second, there, covered⟩
        exact ⟨_, second, found, there, strength, covered⟩
      rintro ⟨first, second, here, there, -, covered⟩
      rw [found] at here
      cases here
      exact ⟨second, there, covered⟩
    rw [contains_insert _ _ _ (by rw [words_differenceWith]; exact word),
      contains_differenceWith _ _ width]
    simp [← killed]

/-- Generating the definitions in turn leaves what survives them. -/
theorem foldl_genDef_spec {ids : List Nat} (inside : ∀ id ∈ ids, id < rd.defs.length)
    {state : BitSet} (wide : rd.Wide state) :
    rd.Wide (ids.foldl rd.genDef state) ∧
      ∀ other, (ids.foldl rd.genDef state).contains other = true ↔ rd.Holds state ids other := by
  induction ids generalizing state with
  | nil => exact ⟨wide, fun other => (holdsAfter_nil _ _).symm⟩
  | cons id ids ih =>
    obtain ⟨wide', generated⟩ := genDef_spec wf wide (inside id (by simp))
    obtain ⟨wide'', rest⟩ := ih (fun other member => inside other (by simp [member])) wide'
    refine ⟨wide'', fun other => ?_⟩
    rw [foldl_cons, rest, Holds, Holds, ← singleton_append, holdsAfter_append]
    exact holdsAfter_congr (generated other) other ids

theorem blockDefs_inside (block : Nat) : ∀ id ∈ rd.blockDefs block, id < rd.defs.length := by
  intro id member
  obtain ⟨op, -, made⟩ := mem_flatMap.mp member
  exact wf.opInside op id made

theorem transfer_spec {state : BitSet} (wide : rd.Wide state) (block : Nat) :
    rd.Wide (rd.transfer block state) ∧ ∀ other,
      (rd.transfer block state).contains other = true ↔ rd.Holds state (rd.blockDefs block) other := by
  have flattened : rd.transfer block state = (rd.blockDefs block).foldl rd.genDef state := by
    rw [blockDefs, foldl_flatMap]
    rfl
  rw [flattened]
  exact foldl_genDef_spec wf (blockDefs_inside wf block) wide

theorem applyEntry_spec : rd.Wide (rd.applyEntry rd.empty) ∧ ∀ other,
    (rd.applyEntry rd.empty).contains other = true ↔ Survives (Kills rd.defs) other rd.entryDefs := by
  obtain ⟨wide, holds⟩ := foldl_genDef_spec wf wf.entryInside (wide_empty rd)
  refine ⟨wide, fun other => ?_⟩
  rw [applyEntry, holds]
  simp [Holds, HoldsAfter, empty]

theorem join_spec {outs : List BitSet} (wideOuts : ∀ block, rd.Wide (outs.getD block rd.empty))
    (block : Nat) : rd.Wide (rd.join outs block) ∧ ∀ other, (rd.join outs block).contains other = true ↔
        (block = 0 ∧ Survives (Kills rd.defs) other rd.entryDefs) ∨
          ∃ pred, rd.blocks.edge pred block ∧ rd.blocks.reachable pred = true ∧
            (outs.getD pred rd.empty).contains other = true := by
  obtain ⟨wideEntry, entry⟩ := applyEntry_spec wf
  have wide : rd.Wide (if block = 0 then rd.applyEntry rd.empty else rd.empty) := by
    split
    · exact wideEntry
    · rfl
  obtain ⟨wide', members⟩ := foldl_union_spec wideOuts (rd.blocks.predsOf block) wide
  refine ⟨wide', fun other => ?_⟩
  rw [join, members]
  apply or_congr
  · by_cases first : block = 0
    · simp [first, entry]
    · simp [first, empty]
  · simp only [Blocks.edge, wf.linked.mirrored]

end Transfer

end ReachingDefs

namespace ReachingDefs

section Solve

variable {rd : ReachingDefs}

/-- The definitions that arrive at the start of a block along some path. -/
def ArrivesAt (rd : ReachingDefs) (block id : Nat) : Prop :=
  Arrives rd.blocks.edge 0 (Kills rd.defs) rd.entryDefs rd.blockDefs block id

/-- The loop has found only definitions that leave their block, and a block whose
predecessors have grown is pending. -/
structure Solving (rd : ReachingDefs) (state : SolveState) : Prop where
  insLength : state.ins.length = rd.blocks.blockCount
  outsLength : state.outs.length = rd.blocks.blockCount
  pendingLength : state.work.pending.length = rd.blocks.blockCount
  wide : ∀ block, rd.Wide (state.outs.getD block rd.empty)
  queued : ∀ block ∈ state.work.queue, rd.blocks.reachable block = true
  sound : ∀ block id, (state.outs.getD block rd.empty).contains id = true →
    rd.blocks.reachable block = true ∧
      HoldsAfter (Kills rd.defs) (rd.ArrivesAt block id) id (rd.blockDefs block)
  grows : ∀ block id, (state.outs.getD block rd.empty).contains id = true →
    (rd.transfer block (rd.join state.outs block)).contains id = true
  settled : ∀ block, rd.blocks.reachable block = true → block ∈ state.work.queue ∨
    (state.ins.getD block rd.empty = rd.join state.outs block ∧
      state.outs.getD block rd.empty = rd.transfer block (rd.join state.outs block))

/-- The bits that the ends of the blocks do not hold yet. -/
def capacity (rd : ReachingDefs) (outs : List BitSet) : Nat :=
  (outs.map fun set => 64 * rd.empty.words.length - set.iter.length).sum

def solveMeasure (rd : ReachingDefs) (state : SolveState) : Nat :=
  worklistMeasure rd.blocks.blockCount (rd.capacity state.outs) state.work.queue.length

theorem getD_set (sets : List BitSet) (position other : Nat) (set fallback : BitSet)
    (inside : position < sets.length) :
    (sets.set position set).getD other fallback =
      if other = position then set else sets.getD other fallback := by
  rw [getD_eq_getElem?_getD, getD_eq_getElem?_getD, getElem?_set]
  by_cases same : position = other
  · simp [same, same ▸ inside]
  · simp [same, Ne.symm same]

variable (wf : rd.WellFormed)

include wf

theorem reachable_lt {block : Nat} (reached : rd.blocks.reachable block = true) :
    block < rd.blocks.blockCount := by
  obtain ⟨some, path⟩ := (wf.reached block).mp reached
  cases path with
  | refl => exact some
  | tail _ linked => exact wf.linked.bounded _ _ linked

theorem reachable_edge {first second : Nat} (reached : rd.blocks.reachable first = true)
    (linked : rd.blocks.edge first second) : rd.blocks.reachable second = true := by
  obtain ⟨some, path⟩ := (wf.reached first).mp reached
  exact (wf.reached second).mpr ⟨some, path.tail linked⟩

theorem join_mono {outs outs' : List BitSet} (wide : ∀ block, rd.Wide (outs.getD block rd.empty))
    (wide' : ∀ block, rd.Wide (outs'.getD block rd.empty))
    (grown : ∀ block id, (outs.getD block rd.empty).contains id = true →
      (outs'.getD block rd.empty).contains id = true) (block id : Nat)
    (left : (rd.transfer block (rd.join outs block)).contains id = true) :
    (rd.transfer block (rd.join outs' block)).contains id = true := by
  obtain ⟨wideJoin, joined⟩ := join_spec wf wide block
  obtain ⟨wideJoin', joined'⟩ := join_spec wf wide' block
  rw [(transfer_spec wf wideJoin' block).2]
  refine holdsAfter_mono ?_ (((transfer_spec wf wideJoin block).2 id).mp left)
  rw [joined, joined']
  exact Or.imp_right fun ⟨pred, linked, reached, held⟩ => ⟨pred, linked, reached, grown _ _ held⟩

theorem join_sound {state : SolveState} (solving : rd.Solving state) {block id : Nat}
    (held : (rd.join state.outs block).contains id = true) : rd.ArrivesAt block id := by
  rcases ((join_spec wf solving.wide block).2 id).mp held with ⟨rfl, made⟩ | ⟨pred, linked, -, left⟩
  · exact arrives_root made
  obtain ⟨reached, after⟩ := solving.sound pred id left
  have path := entryPath_iff.mpr ((wf.reached pred).mp reached).2
  exact arrives_step linked ((arrivesAfter_iff path).mpr after)

omit wf in
/-- An iteration recomputes the oldest pending block and queues what depends on a change. -/
theorem solveStep_cases {state next : SolveState} (moved : rd.solveStep state = some next) :
    ∃ block rest, state.work.queue = block :: rest.queue ∧ rest.pending.length = state.work.pending.length ∧
      next.ins = state.ins.set block (rd.join state.outs block) ∧
      ((rd.transfer block (rd.join state.outs block) ≠ state.outs.getD block rd.empty ∧
          next.outs = state.outs.set block (rd.transfer block (rd.join state.outs block)) ∧
          next.work = rest.pushAll ((rd.blocks.succsOf block).filter rd.blocks.reachable)) ∨
        (rd.transfer block (rd.join state.outs block) = state.outs.getD block rd.empty ∧
          next.outs = state.outs ∧ next.work = rest)) := by
  obtain ⟨⟨block, rest⟩, popped, rfl⟩ := Option.map_eq_some_iff.mp moved
  obtain ⟨queued, length⟩ := pop_some popped
  refine ⟨block, rest, queued, length, ?_, ?_⟩
  · dsimp only
    split <;> rfl
  by_cases changed : rd.transfer block (rd.join state.outs block) ≠ state.outs.getD block rd.empty
  · rw [if_pos changed]
    exact .inl ⟨changed, rfl, rfl⟩
  · rw [if_neg changed]
    exact .inr ⟨not_ne_iff.mp changed, rfl, rfl⟩

/-- A step writes both ends of the popped block and keeps every other one. -/
theorem solving_update {state next : SolveState} (solving : rd.Solving state) {block : Nat}
    {rest : List Nat} (queued : state.work.queue = block :: rest)
    (ins : next.ins = state.ins.set block (rd.join state.outs block))
    (outsLength : next.outs.length = state.outs.length)
    (outs : ∀ other, next.outs.getD other rd.empty = if other = block then
      rd.transfer block (rd.join state.outs block) else state.outs.getD other rd.empty)
    (pendingLength : next.work.pending.length = state.work.pending.length)
    (kept : ∀ other ∈ rest, other ∈ next.work.queue)
    (reachable : ∀ other ∈ next.work.queue, rd.blocks.reachable other = true)
    (pushed : rd.transfer block (rd.join state.outs block) ≠ state.outs.getD block rd.empty →
      ∀ other, rd.blocks.edge block other → other ∈ next.work.queue) : rd.Solving next := by
  have reached := solving.queued block (by rw [queued]; simp)
  have inside := solving.insLength ▸ reachable_lt wf reached
  obtain ⟨wideJoin, -⟩ := join_spec wf solving.wide block
  obtain ⟨wideLeft, left⟩ := transfer_spec wf wideJoin block
  have wide (other : Nat) : rd.Wide (next.outs.getD other rd.empty) := by
    rw [outs]
    split
    · exact wideLeft
    · exact solving.wide other
  have grown (other id : Nat) (held : (state.outs.getD other rd.empty).contains id = true) :
      (next.outs.getD other rd.empty).contains id = true := by
    rw [outs]
    split
    · rename_i same
      subst same
      exact solving.grows _ id held
    · exact held
  refine ⟨by rw [ins, length_set, solving.insLength], by rw [outsLength, solving.outsLength],
    by rw [pendingLength, solving.pendingLength], wide, reachable, ?_, ?_, ?_⟩
  · intro other id held
    rw [outs] at held
    split at held
    · rename_i same
      subst same
      exact ⟨reached, holdsAfter_mono (join_sound wf solving) ((left id).mp held)⟩
    · exact solving.sound other id held
  · intro other id held
    rw [outs] at held
    refine join_mono wf solving.wide wide grown other id ?_
    split at held
    · rename_i same
      subst same
      exact held
    · exact solving.grows other id held
  intro other reachedOther
  -- An edge from a changed block queues its target, and any other join is what it was.
  have joinSame (unchanged : ∀ pred, rd.blocks.edge pred other →
      next.outs.getD pred rd.empty = state.outs.getD pred rd.empty) :
      rd.join next.outs other = rd.join state.outs other := by
    apply foldl_ext
    intro set pred member
    rw [unchanged pred ((wf.linked.mirrored pred other).mpr member)]
  by_cases changed : rd.transfer block (rd.join state.outs block) = state.outs.getD block rd.empty
  · have unchanged (pred : Nat) : next.outs.getD pred rd.empty = state.outs.getD pred rd.empty := by
      rw [outs]
      split
      · rename_i same
        rw [changed, same]
      · rfl
    rw [joinSame fun pred _ => unchanged pred, unchanged, ins, getD_set _ _ _ _ _ inside]
    by_cases same : other = block
    · subst same
      exact .inr ⟨if_pos rfl, changed.symm⟩
    rw [if_neg same]
    rcases solving.settled other reachedOther with pending | settled
    · rw [queued] at pending
      exact .inl (kept other (mem_of_ne_of_mem same pending))
    · exact .inr settled
  by_cases successor : rd.blocks.edge block other
  · exact .inl (pushed changed other successor)
  have unchanged (pred : Nat) (linked : rd.blocks.edge pred other) :
      next.outs.getD pred rd.empty = state.outs.getD pred rd.empty := by
    rw [outs, if_neg]
    rintro rfl
    exact successor linked
  rw [joinSame unchanged, outs, ins, getD_set _ _ _ _ _ inside]
  by_cases same : other = block
  · subst same
    exact .inr ⟨if_pos rfl, if_pos rfl⟩
  rw [if_neg same, if_neg same]
  rcases solving.settled other reachedOther with pending | settled
  · rw [queued] at pending
    exact .inl (kept other (mem_of_ne_of_mem same pending))
  · exact .inr settled

theorem solving_step (state next : SolveState) (solving : rd.Solving state)
    (moved : rd.solveStep state = some next) : rd.Solving next := by
  obtain ⟨block, rest, queued, length, ins, ⟨changed, outs, work⟩ | ⟨same, outs, work⟩⟩ :=
    solveStep_cases moved
  · have reached := solving.queued block (by rw [queued]; simp)
    have inside := solving.outsLength ▸ reachable_lt wf reached
    have successors : ∀ task ∈ (rd.blocks.succsOf block).filter rd.blocks.reachable,
        task < rest.pending.length := by
      intro task member
      rw [length, solving.pendingLength]
      exact wf.linked.bounded block task (mem_filter.mp member).1
    have mem (other : Nat) := mem_pushAll rest _ other successors
    refine solving_update wf solving queued ins (by rw [outs, length_set]) ?_ ?_ ?_ ?_ ?_
    · intro other
      rw [outs, getD_set _ _ _ _ _ inside]
    · rw [work, pushAll_pending_length, length]
    · intro other member
      rw [work, mem]
      exact .inr member
    · intro other member
      rw [work, mem] at member
      rcases member with new | old
      · exact (mem_filter.mp new).2
      · exact solving.queued other (by rw [queued]; simp [old])
    · intro _ other linked
      rw [work, mem]
      exact .inl (mem_filter.mpr ⟨linked, reachable_edge wf reached linked⟩)
  refine solving_update wf solving queued ins (by rw [outs]) ?_ ?_ ?_ ?_ ?_
  · intro other
    rw [outs]
    split
    · rename_i here
      rw [same, here]
    · rfl
  · rw [work, length]
  · intro other member
    rwa [work]
  · intro other member
    rw [work] at member
    exact solving.queued other (by rw [queued]; simp [member])
  · intro changed
    exact absurd same changed

/-- A changed end gains a definition, so the bits left pay for the blocks it queues. -/
theorem solveStep_falls (state next : SolveState) (solving : rd.Solving state)
    (moved : rd.solveStep state = some next) : rd.solveMeasure next < rd.solveMeasure state := by
  obtain ⟨block, rest, queued, length, -, ⟨changed, outs, work⟩ | ⟨-, outs, work⟩⟩ :=
    solveStep_cases moved
  · have reached := solving.queued block (by rw [queued]; simp)
    have inside := solving.outsLength ▸ reachable_lt wf reached
    have here : state.outs[block] = state.outs.getD block rd.empty := by
      rw [getD_eq_getElem?_getD, getElem?_eq_getElem inside, Option.getD_some]
    have wideOut := here ▸ solving.wide block
    have wideLeft := (transfer_spec wf (join_spec wf solving.wide block).1 block).1
    have more : state.outs[block].iter.length <
        (rd.transfer block (rd.join state.outs block)).iter.length := by
      refine iter_length_lt (wideOut.trans wideLeft.symm) (here ▸ changed) fun id held => ?_
      rw [here] at held
      exact solving.grows block id held
    have bound := wideLeft ▸ iter_length_le _
    apply worklistMeasure_productive
    · rw [outs]
      refine sum_set_lt _ _ _ inside _ ?_
      omega
    have short := next.work.length_le
    rw [work, pushAll_pending_length, length, solving.pendingLength] at short
    rw [work]
    omega
  apply worklistMeasure_idle
  · rw [outs]
  · rw [work, queued]
    simp

omit wf in
theorem getD_replicate_empty (rd : ReachingDefs) (count block : Nat) :
    (List.replicate count rd.empty).getD block rd.empty = rd.empty := by
  rw [getD_eq_getElem?_getD, getElem?_replicate]
  split <;> rfl

theorem solveStart_solving (unsolved : rd.ins = List.replicate rd.blocks.blockCount rd.empty) :
    rd.Solving rd.solveStart := by
  have inside : ∀ task ∈ (List.range rd.blocks.blockCount).filter rd.blocks.reachable,
      task < (WorkQueue.idle rd.blocks.blockCount).pending.length := by
    intro task member
    simpa using List.mem_range.mp (mem_filter.mp member).1
  have queued (block : Nat) : block ∈ rd.solveStart.work.queue ↔ rd.blocks.reachable block = true := by
    rw [solveStart, mem_pushAll _ _ _ inside]
    simp only [mem_filter, List.mem_range, idle_queue, not_mem_nil, or_false]
    exact and_iff_right_of_imp (reachable_lt wf)
  have none (block : Nat) : rd.solveStart.outs.getD block rd.empty = rd.empty :=
    getD_replicate_empty rd _ block
  have unheld (block id : Nat) : ¬ (rd.solveStart.outs.getD block rd.empty).contains id = true := by
    rw [none]
    simp [empty]
  refine ⟨by simp [solveStart, unsolved], by simp [solveStart], by simp [solveStart], ?_, ?_, ?_, ?_, ?_⟩
  · intro block
    rw [none]
    rfl
  · intro block member
    exact (queued block).mp member
  · intro block id held
    exact absurd held (unheld block id)
  · intro block id held
    exact absurd held (unheld block id)
  · intro block reached
    exact .inl ((queued block).mpr reached)

omit wf in
/-- The fuel pays for every bit and every block. -/
theorem solveStart_measure : rd.solveMeasure rd.solveStart ≤ rd.solveFuel := by
  have short := rd.solveStart.work.length_le
  have count : rd.solveStart.work.pending.length = rd.blocks.blockCount := by simp [solveStart]
  have bits : rd.capacity rd.solveStart.outs ≤ rd.blocks.blockCount * (64 * rd.empty.words.length) := by
    simp only [capacity, solveStart, map_replicate, sum_replicate, smul_eq_mul]
    exact Nat.mul_le_mul_left _ (Nat.sub_le _ _)
  have := Nat.mul_le_mul_right (rd.blocks.blockCount + 1) bits
  simp only [solveMeasure, solveFuel, worklistMeasure]
  omega

/-- The loop ends, and the state it leaves has settled. -/
theorem solve_halts (unsolved : rd.ins = List.replicate rd.blocks.blockCount rd.empty) :
    ∃ final, Halts rd.solveStep rd.solveStart final ∧ rd.solve.ins = final.ins ∧
      rd.Solving final ∧ final.work.queue = [] := by
  have start := solveStart_solving wf unsolved
  have halts := halts_loop (solving_step wf) (solveStep_falls wf) rd.solveFuel rd.solveStart start
    solveStart_measure
  refine ⟨_, halts, rfl, halts.preserves (solving_step wf) start, ?_⟩
  have ended := halts.ended
  rw [solveStep, Option.map_eq_none_iff] at ended
  exact pop_none.mp ended

theorem settled_iff_arrives {final : SolveState} (solving : rd.Solving final)
    (drained : final.work.queue = []) {block : Nat} (reached : rd.blocks.reachable block = true)
    (id : Nat) : (final.ins.getD block rd.empty).contains id = true ↔ rd.ArrivesAt block id := by
  obtain ⟨some, path⟩ := (wf.reached block).mp reached
  have reachable (node : Nat) (path : ∃ passed, EntryPath rd.blocks.edge 0 node passed) :
      rd.blocks.reachable node = true := (wf.reached node).mpr ⟨some, entryPath_iff.mp path⟩
  have settled (node : Nat) (path : ∃ passed, EntryPath rd.blocks.edge 0 node passed) :
      final.ins.getD node rd.empty = rd.join final.outs node ∧
        final.outs.getD node rd.empty = rd.transfer node (rd.join final.outs node) := by
    rcases solving.settled node (reachable node path) with pending | settled
    · rw [drained] at pending
      contradiction
    · exact settled
  apply solution_iff_arrives
    (fun node id => (final.ins.getD node rd.empty).contains id = true)
    (fun node id => (final.outs.getD node rd.empty).contains id = true)
  · intro node id left
    obtain ⟨reachedNode, after⟩ := solving.sound node id left
    exact (arrivesAfter_iff (entryPath_iff.mpr ((wf.reached node).mp reachedNode).2)).mpr after
  · intro node id path
    rw [(settled node path).1, (join_spec wf solving.wide node).2]
    apply or_congr Iff.rfl
    constructor
    · rintro ⟨pred, linked, -, held⟩
      exact ⟨pred, linked, held⟩
    · rintro ⟨pred, linked, held⟩
      exact ⟨pred, linked, (solving.sound pred id held).1, held⟩
  · intro node id path
    obtain ⟨incoming, outgoing⟩ := settled node path
    rw [outgoing, incoming]
    exact (transfer_spec wf (join_spec wf solving.wide node).1 node).2 id
  · exact entryPath_iff.mpr path

end Solve

theorem prepare_opDefs (func : IrFunction) (extras : List ExtraDef) (options : Options) (op : Nat) :
    (prepare func extras options).defsAt op =
      generatedAt func.body.length (placements func extras) (some op) := by
  have numbered := numberDefs_numbered func extras
  change (numberDefs func extras).opDefs.getD op [] = _
  by_cases inside : op < func.body.length
  · exact numbered.atOp op inside
  have outside : (numberDefs func extras).opDefs.length ≤ op := by
    rw [numbered.opsLength]
    omega
  rw [getD_eq_getElem?_getD, getElem?_eq_none outside, Option.getD_none]
  refine (eq_nil_iff_forall_not_mem.mpr fun id member => ?_).symm
  obtain ⟨placement, -, here⟩ := mem_positions.mp member
  have small := (Option.filter_eq_some_iff.mp (of_decide_eq_true here)).2
  exact inside (by simpa using small)

theorem prepare_wellFormed (func : IrFunction) (extras : List ExtraDef) (options : Options) :
    (prepare func extras options).WellFormed := by
  have numbered := numberDefs_numbered func extras
  have inside (site : Option Nat) : ∀ id ∈ generatedAt func.body.length (placements func extras) site,
      id < (numberDefs func extras).defs.length := by
    intro id member
    obtain ⟨placement, found, -⟩ := mem_positions.mp member
    rw [numbered.defs, length_map]
    exact (List.getElem?_eq_some_iff.mp found).1
  refine ⟨build_linked func _, build_sorted func _, build_reachable func _, ?_, ?_, ?_⟩
  · change ∀ id ∈ (numberDefs func extras).entryDefs, _
    rw [numbered.atEntry]
    exact inside none
  · intro op
    rw [prepare_opDefs]
    exact inside (some op)
  · exact ⟨_, killIndex_indexed _ _⟩

/-- The definitions made on a path, from the entry to a point inside its last block. -/
def pathDefs (func : IrFunction) (extras : List ExtraDef) (blocks : Blocks) (passed : List Nat)
    (block position : Nat) : List Nat :=
  let made := generatedAt func.body.length (placements func extras)
  let ops := passed.flatMap blocks.range ++
    List.range' (blocks.startOf block) (position - blocks.startOf block)
  made none ++ ops.flatMap fun op => made (some op)

/-- A path from the entry generates the definition and kills it no more before the point. -/
def LiveOnPath (func : IrFunction) (extras : List ExtraDef) (blocks : Blocks) (position id : Nat) : Prop :=
  ∃ block passed, blocks.blockOf position = some block ∧ EntryPath blocks.edge 0 block passed ∧
    Survives (Kills ((placements func extras).map Prod.snd)) id
      (pathDefs func extras blocks passed block position)

theorem prepare_trace (func : IrFunction) (extras : List ExtraDef) (options : Options)
    (passed : List Nat) (block position : Nat) :
    let rd := prepare func extras options
    rd.entryDefs ++ passed.flatMap rd.blockDefs ++
        (List.range' (rd.blocks.startOf block) (position - rd.blocks.startOf block)).flatMap rd.defsAt =
      pathDefs func extras rd.blocks passed block position := by
  have entry : (prepare func extras options).entryDefs =
    generatedAt func.body.length (placements func extras) none :=
      (numberDefs_numbered func extras).atEntry
  have made := funext (prepare_opDefs func extras options)
  have blockDefs' : (prepare func extras options).blockDefs = fun block =>
      ((prepare func extras options).blocks.range block).flatMap
        (prepare func extras options).defsAt := rfl
  dsimp only
  rw [blockDefs', entry, made, pathDefs, flatMap_append, flatMap_assoc, append_assoc]

theorem liveBefore_solve {rd : ReachingDefs} (wf : rd.WellFormed)
    (unsolved : rd.ins = List.replicate rd.blocks.blockCount rd.empty) {position block : Nat}
    (here : rd.blocks.blockOf position = some block) (reached : rd.blocks.reachable block = true)
    (id : Nat) : (rd.solve.liveBefore position).contains id = true ↔
      ArrivesAfter rd.blocks.edge 0 (Kills rd.defs) rd.entryDefs rd.blockDefs block id
        ((List.range' (rd.blocks.startOf block) (position - rd.blocks.startOf block)).flatMap
          rd.defsAt) := by
  obtain ⟨final, -, ins, solving, drained⟩ := solve_halts wf unsolved
  have path := entryPath_iff.mpr ((wf.reached block).mp reached).2
  have live : rd.solve.liveBefore position =
      ((List.range' (rd.blocks.startOf block) (position - rd.blocks.startOf block)).flatMap
        rd.defsAt).foldl rd.genDef (final.ins.getD block rd.empty) := by
    have here' : rd.solve.blocks.blockOf position = some block := here
    have reached' : rd.solve.blocks.reachable block = true := reached
    rw [foldl_flatMap, ← ins]
    rw [liveBefore, here']
    simp only [reached', if_true]
    rfl
  have wide : rd.Wide (final.ins.getD block rd.empty) := by
    rcases solving.settled block reached with pending | settled
    · rw [drained] at pending
      contradiction
    · rw [settled.1]
      exact (join_spec wf solving.wide block).1
  have inside : ∀ id ∈ (List.range' (rd.blocks.startOf block)
      (position - rd.blocks.startOf block)).flatMap rd.defsAt, id < rd.defs.length := by
    intro id member
    obtain ⟨op, -, made⟩ := mem_flatMap.mp member
    exact wf.opInside op id made
  rw [live, (foldl_genDef_spec wf inside wide).2, arrivesAfter_iff path]
  exact holdsAfter_congr (settled_iff_arrives wf solving drained reached id) id _

theorem liveBefore_unreachable (rd : ReachingDefs) {position : Nat}
    (dead : rd.isReachable position = false) : rd.liveBefore position = rd.empty := by
  unfold isReachable at dead
  unfold liveBefore
  cases here : rd.blocks.blockOf position with
  | none => rfl
  | some block =>
    rw [here] at dead
    simp only [Option.any_some] at dead
    simp [dead]

/-- The loop ends, and it leaves live before an operation exactly the definitions that some path
from the entry brings there. -/
theorem liveBefore_iff_liveOnPath (func : IrFunction) (extras : List ExtraDef) (options : Options) :
    let rd := compute func extras options
    rd.blocks = Blocks.build func (constants func options) ∧
      rd.defs = (placements func extras).map Prod.snd ∧
      (∃ final, Halts (prepare func extras options).solveStep
        (prepare func extras options).solveStart final ∧ rd.ins = final.ins) ∧
      ∀ position, (rd.isReachable position = true ↔ ∃ block passed,
          rd.blocks.blockOf position = some block ∧ EntryPath rd.blocks.edge 0 block passed) ∧
        (rd.isReachable position = false → ∀ id, (rd.liveBefore position).contains id = false) ∧
        ∀ id, (rd.liveBefore position).contains id = true ↔
          LiveOnPath func extras rd.blocks position id := by
  have wf := prepare_wellFormed func extras options
  have numbered := numberDefs_numbered func extras
  have unsolved : (prepare func extras options).ins =
    List.replicate (prepare func extras options).blocks.blockCount
      (prepare func extras options).empty := rfl
  have defs : (prepare func extras options).defs = (placements func extras).map Prod.snd :=
    numbered.defs
  have entry : (prepare func extras options).entryDefs =
    generatedAt func.body.length (placements func extras) none := numbered.atEntry
  obtain ⟨final, halts, ins, -, -⟩ := solve_halts wf unsolved
  have reachable (position : Nat) : (compute func extras options).isReachable position = true ↔
      ∃ block passed, (prepare func extras options).blocks.blockOf position = some block ∧
        EntryPath (prepare func extras options).blocks.edge 0 block passed := by
    constructor
    · intro reached
      obtain ⟨block, here, marked⟩ := (Option.any_eq_true _ _).mp reached
      obtain ⟨passed, path⟩ := entryPath_iff.mpr ((wf.reached block).mp marked).2
      exact ⟨block, passed, here, path⟩
    rintro ⟨block, passed, here, path⟩
    have inside := ((blockOf_eq_some wf.sorted).mp here).2.1
    refine (Option.any_eq_true _ _).mpr ⟨block, here, (wf.reached block).mpr ⟨by omega, ?_⟩⟩
    exact entryPath_iff.mp ⟨passed, path⟩
  refine ⟨rfl, defs, ⟨final, halts, ins⟩, fun position => ⟨reachable position, ?_, ?_⟩⟩
  · intro dead id
    rw [liveBefore_unreachable _ dead]
    exact contains_new _ _
  intro id
  by_cases live : (compute func extras options).isReachable position = true
  · obtain ⟨block, passed, here, path⟩ := (reachable position).mp live
    have inside := ((blockOf_eq_some wf.sorted).mp here).2.1
    have marked := (wf.reached block).mpr ⟨by omega, entryPath_iff.mp ⟨passed, path⟩⟩
    rw [compute, liveBefore_solve wf unsolved here marked, defs]
    constructor
    · rintro ⟨passed, path, survives⟩
      rw [prepare_trace] at survives
      exact ⟨block, passed, here, path, survives⟩
    rintro ⟨other, passed, here', path, survives⟩
    obtain rfl : block = other := Option.some.inj (here.symm.trans here')
    refine ⟨passed, path, ?_⟩
    rwa [prepare_trace]
  have dead : (compute func extras options).isReachable position = false := by simpa using live
  rw [liveBefore_unreachable _ dead]
  constructor
  · intro held
    rw [empty, contains_new] at held
    contradiction
  · rintro ⟨block, passed, here, path, -⟩
    exact absurd ((reachable position).mpr ⟨block, passed, here, path⟩) live

end ReachingDefs

end Codegraph
