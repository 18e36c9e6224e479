import Codegraph.Algorithms.TypeSeeds
import Mathlib.Algebra.BigOperators.Group.Finset.Basic
import Mathlib.Algebra.Order.BigOperators.Group.Finset

namespace Codegraph.PossibleTypes

open Library CodeGraph Relation List Option Function WorkQueue

section Edges

variable {ids : List NodeId}

theorem get_positions (distinct : ids.Nodup) (id : NodeId) (place : Nat) :
    Dict.get (.ofList ids.zipIdx) id = some place ↔ ids[place]? = some id := by
  rw [Dict.get_ofList (by rw [zipIdx_map_fst]; exact distinct), mem_zipIdx_iff_getElem?]

/-- The pairs are the calls, and each call is listed at both of its functions. -/
structure Built (ids : List NodeId) (edges : List (NodeId × NodeId)) (calls : CallEdges) : Prop where
  pairs : ∀ pair, pair ∈ calls.pairs ↔ ∃ edge ∈ edges, ids[pair.1]? = some edge.1 ∧
    ids[pair.2]? = some edge.2
  incident : ∀ function index, index ∈ calls.incident function ↔
    ∃ pair, calls.pairs[index]? = some pair ∧ (pair.1 = function ∨ pair.2 = function)

theorem mem_touch {calls : CallEdges} {caller callee : Nat}
    (listed : ∀ function index, index ∈ calls.incident function ↔
      ∃ pair, calls.pairs[index]? = some pair ∧ (pair.1 = function ∨ pair.2 = function))
    (function index : Nat) :
    index ∈ CallEdges.touch calls.incident calls.pairs.length caller callee function ↔
      ∃ pair, (calls.pairs ++ [(caller, callee)])[index]? = some pair ∧
        (pair.1 = function ∨ pair.2 = function) := by
  have new : (∃ pair, (calls.pairs ++ [(caller, callee)])[index]? = some pair ∧
        (pair.1 = function ∨ pair.2 = function)) ↔
      index ∈ calls.incident function ∨
        (index = calls.pairs.length ∧ (caller = function ∨ callee = function)) := by
    rw [listed]
    rcases Nat.lt_trichotomy index calls.pairs.length with less | same | greater
    · rw [getElem?_append_left less]
      exact (or_iff_left fun both => less.ne both.1).symm
    · rw [same, getElem?_concat_length]
      simp
    have short : (calls.pairs ++ [(caller, callee)]).length ≤ index := by
      rwa [length_append, length_singleton]
    rw [getElem?_eq_none_iff.mpr short, getElem?_eq_none_iff.mpr greater.le]
    simp [greater.ne']
  rw [new]
  unfold CallEdges.touch
  split
  · rename_i apart
    rw [update_apply]
    split
    · rename_i here
      subst here
      rw [update_of_ne apart, mem_append, mem_singleton]
      simp [Ne.symm apart]
    rename_i away
    rw [update_apply]
    split
    · rename_i here
      subst here
      rw [mem_append, mem_singleton]
      simp
    · rename_i away'
      simp [Ne.symm away, Ne.symm away']
  rename_i same
  rw [not_not] at same
  subst same
  rw [update_apply]
  split
  · rename_i here
    subst here
    rw [mem_append, mem_singleton]
    simp
  · rename_i away
    simp [Ne.symm away]

theorem build_built (distinct : ids.Nodup) (edges : List (NodeId × NodeId)) :
    Built ids edges (CallEdges.build ids edges) := by
  unfold CallEdges.build
  induction edges using List.reverseRecOn with
  | nil => exact ⟨fun pair => by simp, fun function index => by simp⟩
  | append_singleton edges edge ih =>
    rw [foldl_append, foldl_cons, foldl_nil]
    generalize edges.foldl (CallEdges.add (.ofList ids.zipIdx)) ⟨[], fun _ => []⟩ = calls at ih
    have old (pair : Nat × Nat) : (∃ other ∈ edges ++ [edge], ids[pair.1]? = some other.1 ∧
        ids[pair.2]? = some other.2) ↔ pair ∈ calls.pairs ∨
          (ids[pair.1]? = some edge.1 ∧ ids[pair.2]? = some edge.2) := by
      rw [ih.pairs]
      simp [or_and_right, exists_or]
    unfold CallEdges.add
    split
    · rename_i caller callee atCaller atCallee
      have here := (get_positions distinct _ _).mp atCaller
      have there := (get_positions distinct _ _).mp atCallee
      refine ⟨?_, mem_touch ih.incident⟩
      intro pair
      rw [old, mem_append, mem_singleton]
      apply or_congr_right
      constructor
      · rintro rfl
        exact ⟨here, there⟩
      rintro ⟨here', there'⟩
      rw [← get_positions distinct, atCaller] at here'
      rw [← get_positions distinct, atCallee] at there'
      exact Prod.ext (some.inj here').symm (some.inj there').symm
    rename_i absent
    refine ⟨?_, ih.incident⟩
    intro pair
    rw [old]
    refine (or_iff_left ?_).symm
    rintro ⟨here, there⟩
    exact absent pair.1 pair.2 ((get_positions distinct _ _).mpr here)
      ((get_positions distinct _ _).mpr there)

end Edges

/-- Sets that hold the seeds and what the calls pass on. -/
structure Closed (follow : String → List String) (pairs : List (Nat × Nat)) (seeds : Nat → TypeSets)
    (returns inputs : Nat → Set String) : Prop where
  seededReturns : ∀ function, ∀ name ∈ (seeds function).returns.members, name ∈ returns function
  seededInputs : ∀ function, ∀ name ∈ (seeds function).inputs.members, name ∈ inputs function
  called : ∀ pair ∈ pairs, returns pair.2 ⊆ returns pair.1
  passed : ∀ pair ∈ pairs, ∀ name ∈ returns pair.1, ∀ next,
    ReflTransGen (Follows follow) name next → next ∈ inputs pair.2

/-- What the rounds keep. A call that is not pending has nothing to pass on. -/
structure Flowing (follow : String → List String) (names : Finset String) (calls : CallEdges)
    (seeds : Nat → TypeSets) (state : Propagation) : Prop where
  seededReturns : ∀ function, ∀ name ∈ (seeds function).returns.members,
    name ∈ (state.sets function).returns.members
  seededInputs : ∀ function, ∀ name ∈ (seeds function).inputs.members,
    name ∈ (state.sets function).inputs.members
  least : ∀ returns inputs, Closed follow calls.pairs seeds returns inputs → ∀ function,
    (∀ name ∈ (state.sets function).returns.members, name ∈ returns function) ∧
      ∀ name ∈ (state.sets function).inputs.members, name ∈ inputs function
  within : ∀ function, ∀ name ∈ (state.sets function).returns.members, name ∈ names
  range : state.pending.pending.length = calls.pairs.length
  settled : ∀ edge pair, calls.pairs[edge]? = some pair → edge ∉ state.pending.queue →
    (∀ name ∈ (state.sets pair.2).returns.members, name ∈ (state.sets pair.1).returns.members) ∧
      ∀ name ∈ (state.sets pair.1).returns.members, name ∈ (state.sets pair.2).inputs.members ∧
        ∀ next ∈ follow name, next ∈ (state.sets pair.2).inputs.members
  fresh : ∀ function, ∀ name ∈ (state.sets function).inputs.members,
    name ∉ (seeds function).inputs.members →
      ∀ next ∈ follow name, next ∈ (state.sets function).inputs.members

section Rounds

variable {impls : Dict String (ListSet String)} {fuel : Nat} {calls : CallEdges}

theorem propagateRound_next {state : Propagation} {edge caller callee : Nat} {pending : WorkQueue}
    {inputs : ListSet String} (popped : state.pending.pop = some (edge, pending))
    (call : calls.pairs[edge]? = some (caller, callee))
    (ran : (sorted (state.sets caller).returns).foldlM (addWithImplementors impls fuel)
      (state.sets callee).inputs = some inputs) :
    propagateRound impls fuel calls state =
      some (.next (passTypes calls state pending caller callee inputs)) := by
  rw [propagateRound, popped]
  dsimp only
  rw [call]
  change ((sorted (state.sets caller).returns).foldlM (addWithImplementors impls fuel)
    (state.sets callee).inputs).bind _ = _
  rw [ran]
  rfl

variable (calls) (state : Propagation) (pending : WorkQueue) (caller callee : Nat)
variable (inputs : ListSet String)

/-- What the caller returns after the round. -/
def returned : ListSet String := (state.sets caller).returns.extend (sorted (state.sets callee).returns)

theorem update_returns (function : Nat) : (Function.update state.sets callee
    { state.sets callee with inputs := inputs } function).returns = (state.sets function).returns := by
  rw [update_apply]
  split
  · rename_i here
    rw [here]
  · rfl

theorem passTypes_inputs (function : Nat) :
    ((passTypes calls state pending caller callee inputs).sets function).inputs =
      if function = callee then inputs else (state.sets function).inputs := by
  unfold passTypes
  dsimp only
  rw [update_apply]
  split
  · rename_i here
    rw [here, update_apply]
    split <;> rfl
  · rw [update_apply]
    split <;> rfl

theorem passTypes_returns (function : Nat) :
    ((passTypes calls state pending caller callee inputs).sets function).returns =
      if function = caller then returned state caller callee else (state.sets function).returns := by
  unfold passTypes returned
  dsimp only
  rw [update_apply, update_returns, update_returns]
  split
  · rfl
  · exact update_returns state callee inputs function

theorem passTypes_pending : (passTypes calls state pending caller callee inputs).pending =
      if (state.sets caller).returns.size < (returned state caller callee).size then
        pending.pushAll (calls.touching caller)
      else pending := by
  unfold passTypes returned
  dsimp only
  rw [update_returns, update_returns]

theorem mem_returned (name : String) : name ∈ (returned state caller callee).members ↔
    name ∈ (state.sets callee).returns.members ∨ name ∈ (state.sets caller).returns.members := by
  rw [returned, ListSet.mem_extend, mem_sorted]

end Rounds

section Steps

variable {follow : String → List String} {names : Finset String} {calls : CallEdges}
variable {seeds : Nat → TypeSets} {state : Propagation} {edge caller callee : Nat}
variable {pending : WorkQueue} {inputs : ListSet String}

theorem returns_grow (function : Nat) (name : String) (mem : name ∈ (state.sets function).returns.members) :
    name ∈ ((passTypes calls state pending caller callee inputs).sets function).returns.members := by
  rw [passTypes_returns]
  split
  · rename_i here
    rw [mem_returned, ← here]
    exact .inr mem
  · exact mem

theorem inputs_grow {roots : List String}
    (expanded : ExpandedAll follow (state.sets callee).inputs roots inputs) (function : Nat)
    (name : String) (mem : name ∈ (state.sets function).inputs.members) :
    name ∈ ((passTypes calls state pending caller callee inputs).sets function).inputs.members := by
  rw [passTypes_inputs]
  split
  · rename_i here
    exact expanded.grows name (here ▸ mem)
  · exact mem

theorem settled_pass {roots : List String} (flowing : Flowing follow names calls seeds state)
    (popped : state.pending.queue = edge :: pending.queue)
    (sameRange : pending.pending.length = state.pending.pending.length)
    (listed : ∀ function index, index ∈ calls.incident function ↔
      ∃ pair, calls.pairs[index]? = some pair ∧ (pair.1 = function ∨ pair.2 = function))
    (call : calls.pairs[edge]? = some (caller, callee))
    (same : ∀ name, name ∈ roots ↔ name ∈ (state.sets caller).returns.members)
    (expanded : ExpandedAll follow (state.sets callee).inputs roots inputs) (index : Nat)
    (pair : Nat × Nat) (here : calls.pairs[index]? = some pair)
    (idle : index ∉ (passTypes calls state pending caller callee inputs).pending.queue) :
    let after := passTypes calls state pending caller callee inputs
    (∀ name ∈ (after.sets pair.2).returns.members, name ∈ (after.sets pair.1).returns.members) ∧
      ∀ name ∈ (after.sets pair.1).returns.members, name ∈ (after.sets pair.2).inputs.members ∧
        ∀ next ∈ follow name, next ∈ (after.sets pair.2).inputs.members := by
  intro after
  have inRange (function other : Nat) (mem : other ∈ calls.touching function) :
      other < pending.pending.length := by
    obtain ⟨pair', found, -⟩ := (listed function other).mp mem
    rw [sameRange, flowing.range]
    exact (List.getElem?_eq_some_iff.mp found).1
  -- Where the returns of the caller grow, every call at the caller is pending again.
  have unchanged (function : Nat) (touched : pair.1 = function ∨ pair.2 = function) (name : String) :
      name ∈ (after.sets function).returns.members ↔ name ∈ (state.sets function).returns.members := by
    refine ⟨?_, returns_grow function name⟩
    rw [passTypes_returns]
    split
    · rename_i atCaller
      intro mem
      by_contra absent
      have grew : (state.sets caller).returns.size < (returned state caller callee).size := by
        by_contra noLarger
        have old := ListSet.mem_of_size_le
          (fun other mem' => (mem_returned state caller callee other).mpr (.inr mem'))
          (Nat.le_of_not_lt noLarger) mem
        exact absent (atCaller ▸ old)
      rw [passTypes_pending, if_pos grew] at idle
      refine idle ((pending.mem_pushAll _ index (inRange caller)).mpr (.inl ?_))
      exact (listed caller index).mpr ⟨pair, here, atCaller ▸ touched⟩
    · exact id
  have stays : index ∉ pending.queue := by
    intro mem
    rw [passTypes_pending] at idle
    split at idle
    · exact idle (pending.mem_pushAll_of_mem _ mem)
    · exact idle mem
  by_cases current : index = edge
  · rw [current] at here
    obtain rfl := some.inj (call.symm.trans here)
    refine ⟨?_, ?_⟩
    · intro name mem
      rw [unchanged callee (.inr rfl)] at mem
      rw [passTypes_returns, if_pos rfl, mem_returned]
      exact .inl mem
    intro name mem
    rw [unchanged caller (.inl rfl), ← same] at mem
    rw [passTypes_inputs, if_pos rfl]
    exact expanded.here name mem
  have before : index ∉ state.pending.queue := by
    rw [popped, mem_cons, not_or]
    exact ⟨current, stays⟩
  obtain ⟨lower, passed⟩ := flowing.settled index pair here before
  refine ⟨?_, ?_⟩
  · intro name mem
    rw [unchanged pair.2 (.inr rfl)] at mem
    exact returns_grow pair.1 name (lower name mem)
  intro name mem
  rw [unchanged pair.1 (.inl rfl)] at mem
  obtain ⟨stored, rest⟩ := passed name mem
  exact ⟨inputs_grow expanded pair.2 name stored,
    fun next follows => inputs_grow expanded pair.2 next (rest next follows)⟩

theorem flowing_pass {roots : List String} (flowing : Flowing follow names calls seeds state)
    (popped : state.pending.queue = edge :: pending.queue)
    (sameRange : pending.pending.length = state.pending.pending.length)
    (listed : ∀ function index, index ∈ calls.incident function ↔
      ∃ pair, calls.pairs[index]? = some pair ∧ (pair.1 = function ∨ pair.2 = function))
    (call : calls.pairs[edge]? = some (caller, callee))
    (same : ∀ name, name ∈ roots ↔ name ∈ (state.sets caller).returns.members)
    (expanded : ExpandedAll follow (state.sets callee).inputs roots inputs) :
    Flowing follow names calls seeds (passTypes calls state pending caller callee inputs) where
  seededReturns function name mem :=
    returns_grow function name (flowing.seededReturns function name mem)
  seededInputs function name mem :=
    inputs_grow expanded function name (flowing.seededInputs function name mem)
  least returns' inputs' closed function := by
    have mem := mem_of_getElem? call
    refine ⟨?_, ?_⟩
    · intro name listed'
      rw [passTypes_returns] at listed'
      split at listed'
      · rename_i here
        rw [mem_returned] at listed'
        rw [here]
        rcases listed' with passed | old
        · exact closed.called _ mem ((flowing.least _ _ closed callee).1 name passed)
        · exact (flowing.least _ _ closed caller).1 name old
      · exact (flowing.least _ _ closed function).1 name listed'
    intro name listed'
    rw [passTypes_inputs] at listed'
    split at listed'
    · rename_i here
      rw [here]
      rcases expanded.sound name listed' with old | ⟨root, inRoots, reaches⟩
      · exact (flowing.least _ _ closed callee).2 name old
      · exact closed.passed _ mem root
          ((flowing.least _ _ closed caller).1 root ((same root).mp inRoots)) name reaches
    · exact (flowing.least _ _ closed function).2 name listed'
  within function name mem := by
    rw [passTypes_returns] at mem
    split at mem
    · rw [mem_returned] at mem
      rcases mem with passed | old
      · exact flowing.within callee name passed
      · exact flowing.within caller name old
    · exact flowing.within function name mem
  range := by
    rw [passTypes_pending]
    split
    · rw [pushAll_pending_length, sameRange, flowing.range]
    · rw [sameRange, flowing.range]
  settled index pair here idle :=
    settled_pass flowing popped sameRange listed call same expanded index pair here idle
  fresh function name mem new next follows := by
    rw [passTypes_inputs] at mem ⊢
    split at mem
    · rename_i here
      rw [if_pos here]
      rw [here] at new
      by_cases old : name ∈ (state.sets callee).inputs.members
      · exact expanded.grows next (flowing.fresh callee name old new next follows)
      · exact expanded.fresh name mem old next follows
    rename_i away
    rw [if_neg away]
    exact flowing.fresh function name mem new next follows

/-- The names that the functions may still come to return. -/
def room (names : Finset String) (count : Nat) (state : Propagation) : Nat :=
  ∑ function ∈ Finset.range count, (missing names (state.sets function).returns).card

def flowCost (names : Finset String) (count : Nat) (calls : CallEdges) (state : Propagation) : Nat :=
  worklistMeasure calls.pairs.length (room names count state) state.pending.queue.length

theorem missing_pass (function : Nat) :
    missing names ((passTypes calls state pending caller callee inputs).sets function).returns ⊆
      missing names (state.sets function).returns := by
  intro name mem
  obtain ⟨inside, absent⟩ := Finset.mem_filter.mp mem
  exact Finset.mem_filter.mpr ⟨inside, fun old => absent (returns_grow function name old)⟩

theorem flowCost_pass {count : Nat} (flowing : Flowing follow names calls seeds state)
    (popped : state.pending.queue = edge :: pending.queue)
    (sameRange : pending.pending.length = state.pending.pending.length) (inside : caller < count) :
    flowCost names count calls (passTypes calls state pending caller callee inputs) <
      flowCost names count calls state := by
  by_cases grew : (state.sets caller).returns.size < (returned state caller callee).size
  · apply worklistMeasure_productive
    · apply Finset.sum_lt_sum
      · exact fun function _ => Finset.card_le_card (missing_pass function)
      refine ⟨caller, Finset.mem_range.mpr inside, Finset.card_lt_card
        ((Finset.ssubset_iff_of_subset (missing_pass caller)).mpr ?_)⟩
      obtain ⟨name, mem, absent⟩ : ∃ name ∈ (returned state caller callee).members,
          name ∉ (state.sets caller).returns.members := by
        by_contra none'
        push Not at none'
        exact absurd (ListSet.size_le none') (Nat.not_le_of_lt grew)
      refine ⟨name, Finset.mem_filter.mpr ⟨?_, absent⟩, ?_⟩
      · rcases (mem_returned state caller callee name).mp mem with passed | old
        · exact flowing.within callee name passed
        · exact flowing.within caller name old
      intro still
      refine (Finset.mem_filter.mp still).2 ?_
      rwa [passTypes_returns, if_pos rfl]
    rw [passTypes_pending, if_pos grew]
    have short := (pending.pushAll (calls.touching caller)).length_le
    rw [pushAll_pending_length, sameRange, flowing.range] at short
    omega
  apply worklistMeasure_idle
  · exact Finset.sum_le_sum fun function _ => Finset.card_le_card (missing_pass function)
  · rw [passTypes_pending, if_neg grew, popped]
    exact Nat.lt_succ_self _

end Steps

section Run

variable {code : CodeGraph}

/-- The types that a function returns, by its id. -/
def returnsOf (code : CodeGraph) (sets : Nat → TypeSets) (fnId : NodeId) : Set String :=
  {name | ∃ place, (functionIds code)[place]? = some fnId ∧ name ∈ (sets place).returns.members}

def inputsOf (code : CodeGraph) (sets : Nat → TypeSets) (fnId : NodeId) : Set String :=
  {name | ∃ place, (functionIds code)[place]? = some fnId ∧ name ∈ (sets place).inputs.members}

/-- Sets that hold the seeded types and what the calls pass on, with the implementors of the traits. -/
structure Flow (code : CodeGraph) (returns inputs : NodeId → Set String) : Prop where
  seededReturns : ∀ fnId name, IsFunction code fnId → Seeded code fnId name → name ∈ returns fnId
  seededInputs : ∀ fnId name, IsFunction code fnId → Seeded code fnId name → name ∈ inputs fnId
  called : ∀ caller callee, CallsFunction code caller callee → returns callee ⊆ returns caller
  passed : ∀ caller callee, CallsFunction code caller callee → ∀ name ∈ returns caller, ∀ next,
    ReflTransGen (Implements code) name next → next ∈ inputs callee

/-- The names of the nodes. -/
def nodeNames (code : CodeGraph) : Finset String := (code.graph.nodeWeights.map NodeData.name).toFinset

theorem mem_nodeNames (consistent : Consistent code) {id : NodeId} {node : NodeData}
    (found : code.getNode id = some node) : node.name ∈ nodeNames code := by
  obtain ⟨slot, here, -⟩ := (getNode_eq_some consistent id node).mp found
  exact mem_toFinset.mpr
    (mem_map.mpr ⟨node, (StableGraph.mem_nodeWeights _ _).mpr ⟨slot, here⟩, rfl⟩)

theorem implements_names (consistent : Consistent code) {traitName name : String}
    (implements : Implements code traitName name) : name ∈ nodeNames code := by
  obtain ⟨source, target, implNode, traitNode, -, found, rfl, -⟩ := implements
  exact mem_nodeNames consistent found

theorem seeded_names (consistent : Consistent code) {fnId : NodeId} {name : String}
    (seeded : Seeded code fnId name) : name ∈ nodeNames code := by
  obtain ⟨target, node, -, found, ⟨-, rfl⟩ | ⟨-, implements⟩⟩ := seeded
  · exact mem_nodeNames consistent found
  · exact implements_names consistent implements

/-- The sets with which the propagation starts. -/
def seedsAt (code : CodeGraph) (place : Nat) : TypeSets :=
  match (functionIds code)[place]? with
  | none => {}
  | some fnId => seedFromUsesType code fnId (collectTraitImplementors code)

section

variable (consistent : Consistent code)
include consistent

theorem mem_seedsAt (place : Nat) (name : String) : (name ∈ (seedsAt code place).inputs.members ↔
        ∃ fnId, (functionIds code)[place]? = some fnId ∧ Seeded code fnId name) ∧
      (name ∈ (seedsAt code place).returns.members ↔
        ∃ fnId, (functionIds code)[place]? = some fnId ∧ Seeded code fnId name) := by
  unfold seedsAt
  cases (functionIds code)[place]? with
  | none => exact ⟨by simp, by simp⟩
  | some fnId =>
    obtain ⟨inputs, returns⟩ := mem_seedFromUsesType consistent fnId name
    rw [inputs, returns]
    simp

theorem follows_iff : Follows (implementorsOf (collectTraitImplementors code)) = Implements code := by
  funext name next
  exact propext (mem_implementors consistent name next)

theorem mem_pairs (pair : Nat × Nat) :
    pair ∈ (CallEdges.build (functionIds code) (collectCallEdges code)).pairs ↔
      ∃ caller callee, (functionIds code)[pair.1]? = some caller ∧
        (functionIds code)[pair.2]? = some callee ∧ CallsFunction code caller callee := by
  rw [(build_built (functionIds_nodup consistent) (collectCallEdges code)).pairs]
  constructor
  · rintro ⟨edge, listed, here, there⟩
    obtain ⟨function, call⟩ := (mem_collectCallEdges consistent edge).mp listed
    exact ⟨edge.1, edge.2, here, there, function,
      (isFunction_iff consistent _).mp (mem_of_getElem? there), call⟩
  · rintro ⟨caller, callee, here, there, function, -, call⟩
    exact ⟨(caller, callee), (mem_collectCallEdges consistent _).mpr ⟨function, call⟩, here, there⟩

theorem possibleTypes_halts : ∃ enough, ∀ extra, ∃ final : Propagation,
    possibleTypes (enough + extra) code = some final.sets ∧ final.pending.queue = [] ∧
      Flowing (implementorsOf (collectTraitImplementors code)) (nodeNames code)
        (CallEdges.build (functionIds code) (collectCallEdges code)) (seedsAt code) final := by
  have built := build_built (functionIds_nodup consistent) (collectCallEdges code)
  have caller_inside (pair : Nat × Nat)
      (mem : pair ∈ (CallEdges.build (functionIds code) (collectCallEdges code)).pairs) :
      pair.1 < (functionIds code).length := by
    obtain ⟨edge, -, here, -⟩ := (built.pairs pair).mp mem
    exact (List.getElem?_eq_some_iff.mp here).1
  have possible (fuel : Nat) : possibleTypes fuel code =
      (whileLoop (propagateRound (collectTraitImplementors code) fuel
        (CallEdges.build (functionIds code) (collectCallEdges code))) fuel
          ⟨seedsAt code, .all (CallEdges.build (functionIds code) (collectCallEdges code)).pairs.length⟩).map
        Propagation.sets := rfl
  generalize CallEdges.build (functionIds code) (collectCallEdges code) = calls at *
  have closed (name : String) (_ : name ∈ nodeNames code) (next : String)
      (follows : next ∈ implementorsOf (collectTraitImplementors code) name) : next ∈ nodeNames code :=
    implements_names consistent ((mem_implementors consistent name next).mp follows)
  have begun : Flowing (implementorsOf (collectTraitImplementors code)) (nodeNames code) calls
      (seedsAt code) ⟨seedsAt code, .all calls.pairs.length⟩ := by
    refine ⟨fun _ _ mem => mem, fun _ _ mem => mem, ?_, ?_, all_pending_length _,
      ?_, fun _ _ mem new => absurd mem new⟩
    · exact fun returns inputs closed' function =>
        ⟨closed'.seededReturns function, closed'.seededInputs function⟩
    · intro function name mem
      obtain ⟨fnId, -, seeded⟩ := (mem_seedsAt consistent function name).2.mp mem
      exact seeded_names consistent seeded
    intro edge pair here idle
    rw [all_queue, List.mem_range] at idle
    exact absurd (List.getElem?_eq_some_iff.mp here).1 idle
  refine ⟨expandFuel (nodeNames code).card + (flowCost (nodeNames code) (functionIds code).length calls
    ⟨seedsAt code, .all calls.pairs.length⟩ + 1), ?_⟩
  intro extra
  obtain ⟨fuel, total⟩ : ∃ fuel, expandFuel (nodeNames code).card +
      (flowCost (nodeNames code) (functionIds code).length calls
        ⟨seedsAt code, .all calls.pairs.length⟩ + 1) + extra = fuel := ⟨_, rfl⟩
  rw [total]
  have expands : expandFuel (nodeNames code).card ≤ fuel := by omega
  have lasts : flowCost (nodeNames code) (functionIds code).length calls
      ⟨seedsAt code, .all calls.pairs.length⟩ < fuel := by omega
  have rounds (state : Propagation) (flowing : Flowing (implementorsOf (collectTraitImplementors code))
      (nodeNames code) calls (seedsAt code) state) :
      (∃ next, propagateRound (collectTraitImplementors code) fuel calls state = some (.next next) ∧
        Flowing (implementorsOf (collectTraitImplementors code)) (nodeNames code) calls (seedsAt code)
          next ∧
        flowCost (nodeNames code) (functionIds code).length calls next <
          flowCost (nodeNames code) (functionIds code).length calls state) ∨
      ∃ last, propagateRound (collectTraitImplementors code) fuel calls state = some (.done last) ∧
        last.pending.queue = [] ∧
        Flowing (implementorsOf (collectTraitImplementors code)) (nodeNames code) calls (seedsAt code)
          last := by
    cases taken : state.pending.pop with
    | none =>
      refine .inr ⟨state, ?_, pop_none.mp taken, flowing⟩
      rw [propagateRound, taken]
    | some popped =>
      obtain ⟨edge, pending⟩ := popped
      obtain ⟨queue, sameRange⟩ := pop_some taken
      have inside : edge < calls.pairs.length := by
        rw [← flowing.range]
        exact state.pending.mem_lt (queue ▸ mem_cons_self)
      obtain ⟨⟨caller, callee⟩, call⟩ : ∃ pair, calls.pairs[edge]? = some pair :=
        ⟨_, getElem?_eq_getElem inside⟩
      obtain ⟨inputs, ran, expanded⟩ := expandAll_spec _ (implementorsOf_nodup _) closed
        (fun root mem => flowing.within caller root ((mem_sorted _ _).mp mem)) expands
      exact .inl ⟨_, propagateRound_next taken call ran,
        flowing_pass flowing queue sameRange built.incident call (mem_sorted _) expanded,
        flowCost_pass flowing queue sameRange (caller_inside _ (mem_of_getElem? call))⟩
  obtain ⟨final, ran, idle, flowing⟩ := whileLoop_spec
    (flowCost (nodeNames code) (functionIds code).length calls) _ _ rounds begun lasts
  refine ⟨final, ?_, idle, flowing⟩
  rw [possible, ran]
  rfl

end

/-- The sets are the least ones that hold the seeds and what the calls pass on. -/
theorem possibleTypes_least (consistent : Consistent code) : ∃ enough, ∀ extra, ∃ sets,
    possibleTypes (enough + extra) code = some sets ∧ Flow code (returnsOf code sets) (inputsOf code sets) ∧
      ∀ returns inputs, Flow code returns inputs → ∀ fnId,
        returnsOf code sets fnId ⊆ returns fnId ∧ inputsOf code sets fnId ⊆ inputs fnId := by
  obtain ⟨enough, halts⟩ := possibleTypes_halts consistent
  refine ⟨enough, ?_⟩
  intro extra
  obtain ⟨final, ran, idle, flowing⟩ := halts extra
  have settled (pair : Nat × Nat)
      (mem : pair ∈ (CallEdges.build (functionIds code) (collectCallEdges code)).pairs) :
      (∀ name ∈ (final.sets pair.2).returns.members, name ∈ (final.sets pair.1).returns.members) ∧
        ∀ name ∈ (final.sets pair.1).returns.members, name ∈ (final.sets pair.2).inputs.members ∧
          ∀ next ∈ implementorsOf (collectTraitImplementors code) name,
            next ∈ (final.sets pair.2).inputs.members := by
    obtain ⟨edge, here⟩ := mem_iff_getElem?.mp mem
    exact flowing.settled edge pair here (by rw [idle]; exact not_mem_nil)
  refine ⟨final.sets, ran, ⟨?_, ?_, ?_, ?_⟩, ?_⟩
  · intro fnId name function seeded
    obtain ⟨place, here⟩ := mem_iff_getElem?.mp ((isFunction_iff consistent fnId).mpr function)
    exact ⟨place, here, flowing.seededReturns place name
      ((mem_seedsAt consistent place name).2.mpr ⟨fnId, here, seeded⟩)⟩
  · intro fnId name function seeded
    obtain ⟨place, here⟩ := mem_iff_getElem?.mp ((isFunction_iff consistent fnId).mpr function)
    exact ⟨place, here, flowing.seededInputs place name
      ((mem_seedsAt consistent place name).1.mpr ⟨fnId, here, seeded⟩)⟩
  · rintro caller callee call name ⟨place, there, mem⟩
    obtain ⟨place', here⟩ := mem_iff_getElem?.mp ((isFunction_iff consistent caller).mpr call.1)
    exact ⟨place', here, (settled (place', place)
      ((mem_pairs consistent _).mpr ⟨caller, callee, here, there, call⟩)).1 name mem⟩
  · rintro caller callee call name ⟨place, here, mem⟩ next reaches
    obtain ⟨place', there⟩ := mem_iff_getElem?.mp ((isFunction_iff consistent callee).mpr call.2.1)
    obtain ⟨lower, passed⟩ := settled (place, place')
      ((mem_pairs consistent _).mpr ⟨caller, callee, here, there, call⟩)
    refine ⟨place', there, ?_⟩
    rw [← follows_iff consistent] at reaches
    induction reaches with
    | refl => exact (passed name mem).1
    | tail _ last ih =>
      rename_i middle other _
      -- A seeded name comes back to the caller, which passes it on like its own.
      by_cases seeded : middle ∈ (seedsAt code place').inputs.members
      · have returned' :=
          (mem_seedsAt consistent place' middle).2.mpr ((mem_seedsAt consistent place' middle).1.mp seeded)
        exact (passed middle (lower middle (flowing.seededReturns place' middle returned'))).2 other last
      · exact flowing.fresh place' middle ih seeded other last
  · intro returns inputs flow fnId
    have closed : Closed (implementorsOf (collectTraitImplementors code))
        (CallEdges.build (functionIds code) (collectCallEdges code)).pairs (seedsAt code)
        (fun place => {name | ∀ id, (functionIds code)[place]? = some id → name ∈ returns id})
        (fun place => {name | ∀ id, (functionIds code)[place]? = some id → name ∈ inputs id}) := by
      have function (place : Nat) (id : NodeId) (here : (functionIds code)[place]? = some id) :
          IsFunction code id := (isFunction_iff consistent id).mp (mem_of_getElem? here)
      refine ⟨?_, ?_, ?_, ?_⟩
      · intro place name mem id here
        obtain ⟨id', here', seeded⟩ := (mem_seedsAt consistent place name).2.mp mem
        obtain rfl := some.inj (here'.symm.trans here)
        exact flow.seededReturns _ name (function place _ here) seeded
      · intro place name mem id here
        obtain ⟨id', here', seeded⟩ := (mem_seedsAt consistent place name).1.mp mem
        obtain rfl := some.inj (here'.symm.trans here)
        exact flow.seededInputs _ name (function place _ here) seeded
      · intro pair mem name listed id here
        obtain ⟨caller, callee, here', there, call⟩ := (mem_pairs consistent pair).mp mem
        obtain rfl := some.inj (here'.symm.trans here)
        exact flow.called _ callee call (listed callee there)
      · intro pair mem name listed next reaches id there
        obtain ⟨caller, callee, here, there', call⟩ := (mem_pairs consistent pair).mp mem
        obtain rfl := some.inj (there'.symm.trans there)
        rw [follows_iff consistent] at reaches
        exact flow.passed caller _ call name (listed caller here) next reaches
    refine ⟨?_, ?_⟩
    · rintro name ⟨place, here, mem⟩
      exact (flowing.least _ _ closed place).1 name mem fnId here
    · rintro name ⟨place, here, mem⟩
      exact (flowing.least _ _ closed place).2 name mem fnId here

/-- A struct and a trait share a name, so that an implementor of the trait of the callee is a trait. -/
def sharedNames : CodeGraph :=
  edited .fresh [.addNode ⟨⟨0⟩, .function, "f", "", "", {}, .priv, ∅, 0, 0⟩,
    .addNode ⟨⟨1⟩, .function, "g", "", "", {}, .priv, ∅, 0, 0⟩,
    .addNode ⟨⟨2⟩, .trait, "T", "", "", {}, .priv, ∅, 0, 0⟩,
    .addNode ⟨⟨3⟩, .struct, "A", "", "", {}, .priv, ∅, 0, 0⟩,
    .addNode ⟨⟨4⟩, .trait, "A", "", "", {}, .priv, ∅, 0, 0⟩,
    .addNode ⟨⟨5⟩, .struct, "B", "", "", {}, .priv, ∅, 0, 0⟩,
    .addEdge ⟨3⟩ ⟨2⟩ ⟨.implements, {}, 0⟩, .addEdge ⟨5⟩ ⟨4⟩ ⟨.implements, {}, 0⟩,
    .addEdge ⟨1⟩ ⟨2⟩ ⟨.usesType, {}, 0⟩, .addEdge ⟨0⟩ ⟨1⟩ ⟨.calls, {}, 0⟩]

theorem possibleTypes_least_sharedNames : ∃ enough, ∀ extra, ∃ sets,
    possibleTypes (enough + extra) sharedNames = some sets ∧
      Flow sharedNames (returnsOf sharedNames sets) (inputsOf sharedNames sets) := by
  obtain ⟨enough, least⟩ := possibleTypes_least (edited_consistent .fresh _ : Consistent sharedNames)
  refine ⟨enough, fun extra => ?_⟩
  obtain ⟨sets, ran, flow, -⟩ := least extra
  exact ⟨sets, ran, flow⟩

end Run

end Codegraph.PossibleTypes
