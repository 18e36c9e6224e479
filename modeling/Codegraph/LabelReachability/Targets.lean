import Codegraph.Graph.Replay
import Codegraph.LabelReachability.Pattern

namespace Codegraph

open Library Relation List Option ListSet Search

/-- The graph has an edge with the kind from the first node to the second in the direction. -/
def CodeGraph.Labelled (code : CodeGraph) (direction : ClosureDirection) (source : NodeId)
    (kind : EdgeKind) (target : NodeId) : Prop :=
  ∃ edge ∈ code.edges, edge.2.2.kind = kind ∧
    match direction with
    | .outgoing => edge.1 = source ∧ edge.2.1 = target
    | .incoming => edge.1 = target ∧ edge.2.1 = source

/-- The pairs that the moves of a pair lead to. -/
def moveTargets (code : CodeGraph) (direction : ClosureDirection) (node : NodeId) :
    Trans → List (NodeId × Nat)
  | .eps state => [(node, state)]
  | .on matcher state =>
    ((edgesAlong code direction node).filter fun other => matcher.matches other.2.kind).map
      fun other => (other.1, state)

def productNext (code : CodeGraph) (nfa : Nfa) (direction : ClosureDirection)
    (pair : NodeId × Nat) : List (NodeId × Nat) :=
  (nfa.movesOf pair.2).flatMap (moveTargets code direction pair.1)

theorem stepTransition_eq (code : CodeGraph) (direction : ClosureDirection) (node : NodeId)
    (search : Search (NodeId × Nat)) (move : Trans) :
    stepTransition code direction node search move =
      (moveTargets code direction node move).foldl Search.visit search := by
  cases move with
  | eps state => rfl
  | on matcher state => rw [stepTransition, moveTargets, foldl_map, foldl_filter]

theorem foldl_stepTransition (code : CodeGraph) (nfa : Nfa) (direction : ClosureDirection)
    (node : NodeId) (q : Nat) (search : Search (NodeId × Nat)) :
    (nfa.movesOf q).foldl (stepTransition code direction node) search =
      (productNext code nfa direction (node, q)).foldl Search.visit search := by
  rw [productNext, foldl_flatMap]
  congr 1
  funext search move
  exact stepTransition_eq code direction node search move

variable {code : CodeGraph} {direction : ClosureDirection}

theorem mem_edgesAlong (consistent : CodeGraph.Consistent code) (source target : NodeId) (kind : EdgeKind) :
    (∃ other ∈ edgesAlong code direction source, other.1 = target ∧ other.2.kind = kind) ↔
      code.Labelled direction source kind target := by
  cases direction with
  | outgoing =>
    have listed := CodeGraph.mem_getEdgesFrom consistent source
    constructor
    · intro ⟨other, mem, same, same'⟩
      exact ⟨(source, other.1, other.2), (listed other).mp mem, same', rfl, same⟩
    intro ⟨edge, mem, same, here, there⟩
    subst here there
    exact ⟨edge.2, (listed edge.2).mpr mem, rfl, same⟩
  | incoming =>
    have listed := CodeGraph.mem_getEdgesTo consistent source
    constructor
    · intro ⟨other, mem, same, same'⟩
      exact ⟨(other.1, source, other.2), (listed other).mp mem, same', same, rfl⟩
    intro ⟨edge, mem, same, here, there⟩
    subst here there
    exact ⟨(edge.1, edge.2.2), (listed _).mpr mem, rfl, same⟩

/-- A pair leads on by a free move or along an edge. -/
theorem mem_productNext (consistent : CodeGraph.Consistent code) (nfa : Nfa) (node target : NodeId)
    (q state : Nat) :
    (target, state) ∈ productNext code nfa direction (node, q) ↔
      (.eps state ∈ nfa.movesOf q ∧ target = node) ∨
      ∃ matcher kind, .on matcher state ∈ nfa.movesOf q ∧ matcher.matches kind ∧
        code.Labelled direction node kind target := by
  rw [productNext, mem_flatMap]
  constructor
  · intro ⟨move, mem, listed⟩
    cases move with
    | eps other =>
      cases mem_singleton.mp listed
      exact Or.inl ⟨mem, rfl⟩
    | on matcher other =>
      obtain ⟨edge, found, same⟩ := mem_map.mp listed
      obtain ⟨along, matched⟩ := mem_filter.mp found
      cases same
      exact Or.inr ⟨matcher, edge.2.kind, mem, matched,
        (mem_edgesAlong consistent node edge.1 edge.2.kind).mp ⟨edge, along, rfl, rfl⟩⟩
  intro either
  rcases either with ⟨mem, same⟩ | ⟨matcher, kind, mem, matched, labelled⟩
  · exact ⟨.eps state, mem, mem_singleton.mpr (by rw [same])⟩
  obtain ⟨edge, along, same, same'⟩ := (mem_edgesAlong consistent node target kind).mpr labelled
  refine ⟨.on matcher state, mem, mem_map.mpr ⟨edge, mem_filter.mpr ⟨along, ?_⟩, ?_⟩⟩
  · rwa [same']
  · rw [same]

/-- The pairs of a stored node and a state. -/
def productPairs (code : CodeGraph) (nfa : Nfa) : List (NodeId × Nat) :=
  code.allNodeIds ×ˢ List.range nfa.trans.length

theorem mem_productPairs (nfa : Nfa) (node : NodeId) (q : Nat) :
    (node, q) ∈ productPairs code nfa ↔ code.containsNode node ∧ q < nfa.trans.length := by
  rw [productPairs, CodeGraph.allNodeIds, CodeGraph.containsNode, mem_product, List.mem_range]
  exact and_congr_left fun _ => (Dict.mem_keys_iff code.indexMap node).trans isSome_iff_exists.symm

/-- The search runs on, or it has accepted the node that it looks for. -/
structure Accepts (code : CodeGraph) (nfa : Nfa) (direction : ClosureDirection)
    (stopAt : Option NodeId) (root : NodeId × Nat) (state : ProductState) : Prop where
  reached : ∀ node ∈ state.accepting.members, ReflTransGen
    (fun first second => second ∈ productNext code nfa direction first) root (node, nfa.accept)
  stored : ∀ pair ∈ state.search.visited.members, pair ∈ productPairs code nfa
  progress : (state.search.Sound (productNext code nfa direction) root ∧
      ∀ node, (node, nfa.accept) ∈ state.search.visited.members →
        (node, nfa.accept) ∈ state.search.frontier ∨ node ∈ state.accepting.members) ∨
    (state.search.frontier = [] ∧ ∃ target ∈ state.accepting.members, stopAt = some target)

section Search

variable {nfa : Nfa} {stopAt : Option NodeId} {root : NodeId × Nat}

theorem start_accepts (known : root ∈ productPairs code nfa) :
    Accepts code nfa direction stopAt root ⟨.start root, .empty⟩ where
  reached node mem := by
    rw [members_empty] at mem
    contradiction
  stored pair mem := by
    change pair ∈ (ListSet.empty.insert root).members at mem
    rw [mem_insert, members_empty] at mem
    rcases mem with same | absent
    · rwa [same]
    · contradiction
  progress := by
    apply Or.inl
    refine ⟨start_sound _ root, ?_⟩
    intro node mem
    change (node, nfa.accept) ∈ (ListSet.empty.insert root).members at mem
    rw [mem_insert, members_empty] at mem
    rcases mem with same | absent
    · rw [same]
      exact Or.inl (mem_singleton.mpr rfl)
    · contradiction

theorem productStep_accepts
    (inside : ∀ pair ∈ productPairs code nfa, ∀ next ∈ productNext code nfa direction pair,
      next ∈ productPairs code nfa)
    (before after : ProductState) (accepts : Accepts code nfa direction stopAt root before)
    (moved : productStep code nfa direction stopAt before = some after) :
    Accepts code nfa direction stopAt root after := by
  unfold productStep at moved
  cases waiting : before.search.frontier with
  | nil =>
    rw [waiting] at moved
    contradiction
  | cons pair frontier =>
    obtain ⟨node, q⟩ := pair
    rw [waiting] at moved
    obtain ⟨sound, complete⟩ := accepts.progress.resolve_right fun stopped => by
      rw [waiting] at stopped
      exact absurd stopped.1 (cons_ne_nil _ _)
    have here : (node, q) ∈ before.search.visited.members :=
      sound.waiting _ (by rw [waiting]; exact mem_cons_self)
    have accepting (other : NodeId) :
        other ∈ (if q = nfa.accept then before.accepting.insert node else before.accepting).members ↔
          (q = nfa.accept ∧ other = node) ∨ other ∈ before.accepting.members := by
      split
      · rename_i final
        rw [mem_insert]
        simp [final]
      · rename_i other
        simp [other]
    have reached (other : NodeId)
        (mem : other ∈ (if q = nfa.accept then before.accepting.insert node
          else before.accepting).members) :
        ReflTransGen (fun first second => second ∈ productNext code nfa direction first) root
          (other, nfa.accept) := by
      rcases (accepting other).mp mem with ⟨final, same⟩ | old
      · rw [same, ← final]
        exact sound.reached _ here
      · exact accepts.reached other old
    by_cases stop : q = nfa.accept ∧ stopAt = some node
    · simp only [if_pos stop, some.injEq] at moved
      subst moved
      refine ⟨?_, accepts.stored, Or.inr ⟨rfl, node, ?_, stop.2⟩⟩
      · exact reached
      · exact (accepting node).mpr (.inl ⟨stop.1, rfl⟩)
    simp only [if_neg stop, some.injEq] at moved
    subst moved
    have expanded := sound.expand waiting
    have mem (other : NodeId × Nat) := mem_foldl_visit
      { before.search with frontier := frontier } (productNext code nfa direction (node, q)) other
    have waits (other : NodeId × Nat) := mem_frontier_foldl_visit
      { before.search with frontier := frontier } (productNext code nfa direction (node, q)) other
    rw [← foldl_stepTransition] at expanded
    simp only [← foldl_stepTransition] at mem waits
    refine ⟨reached, ?_, Or.inl ⟨expanded, ?_⟩⟩
    · intro other visited
      rcases (mem other).mp visited with new | old
      · exact inside _ (accepts.stored _ here) other new
      · exact accepts.stored other old
    intro other visited
    rw [waits, accepting]
    by_cases old : (other, nfa.accept) ∈ before.search.visited.members
    · rcases complete other old with first | done
      · rw [waiting] at first
        rcases mem_cons.mp first with same | later
        · cases same
          exact Or.inr (.inl ⟨rfl, rfl⟩)
        · exact Or.inl (.inl later)
      · exact Or.inr (.inr done)
    · exact Or.inl (.inr ⟨((mem _).mp visited).resolve_right old, old⟩)

/-- The pairs that are not visited and the ones that wait. -/
def productMeasure (code : CodeGraph) (nfa : Nfa) (state : ProductState) : Nat :=
  (productPairs code nfa).length + state.search.frontier.length - state.search.visited.size

section

variable (inside : ∀ pair ∈ productPairs code nfa, ∀ next ∈ productNext code nfa direction pair, next ∈ productPairs code nfa)
include inside

theorem productStep_falls
    (before after : ProductState) (accepts : Accepts code nfa direction stopAt root before)
    (moved : productStep code nfa direction stopAt before = some after) :
    productMeasure code nfa after < productMeasure code nfa before := by
  have kept := productStep_accepts inside before after accepts moved
  have bound (state : ProductState) (accepts : Accepts code nfa direction stopAt root state) :
      state.search.visited.size ≤ (productPairs code nfa).length :=
    (subperm_of_subset state.search.visited.nodup accepts.stored).length_le
  have small := bound before accepts
  have small' := bound after kept
  unfold productMeasure
  unfold productStep at moved
  cases waiting : before.search.frontier with
  | nil =>
    rw [waiting] at moved
    contradiction
  | cons pair frontier =>
    obtain ⟨node, q⟩ := pair
    rw [waiting] at moved
    by_cases stop : q = nfa.accept ∧ stopAt = some node
    · simp only [if_pos stop, some.injEq] at moved
      subst moved
      change (productPairs code nfa).length + 0 - before.search.visited.size < _
      rw [length_cons]
      omega
    simp only [if_neg stop, some.injEq] at moved
    subst moved
    have balance := foldl_visit_balance { before.search with frontier := frontier }
      (productNext code nfa direction (node, q))
    simp only [foldl_stepTransition] at small' ⊢
    rw [length_cons]
    simp only at balance
    omega

/-- The search accepts the nodes that it reaches in the last state. -/
theorem mem_productBfs
    {source : NodeId} (known : (source, nfa.start) ∈ productPairs code nfa) (target : NodeId)
    (wanted : stopAt = none ∨ stopAt = some target) :
    target ∈ (productBfs code source nfa direction stopAt).members ↔
      ReflTransGen (fun first second => second ∈ productNext code nfa direction first)
        (source, nfa.start) (target, nfa.accept) := by
  have pairs : (productPairs code nfa).length = code.allNodeIds.length * nfa.trans.length := by
    rw [productPairs, length_product, length_range]
  have nonempty := length_pos_of_mem known
  have enough : productMeasure code nfa ⟨.start (source, nfa.start), .empty⟩ ≤
      code.allNodeIds.length * nfa.trans.length := by
    change (productPairs code nfa).length + 1 - 1 ≤ _
    omega
  have started : Accepts code nfa direction stopAt (source, nfa.start)
      ⟨.start (source, nfa.start), .empty⟩ := start_accepts known
  have halts := halts_loop (productStep_accepts inside) (productStep_falls inside) _ _ started enough
  have accepts := halts.preserves (productStep_accepts inside) started
  have ended := halts.ended
  unfold productBfs
  generalize loop (productStep code nfa direction stopAt) _ _ = final at *
  have drained : final.search.frontier = [] := by
    unfold productStep at ended
    cases waiting : final.search.frontier with
    | nil => rfl
    | cons pair frontier =>
      rw [waiting] at ended
      simp only at ended
      split at ended <;> contradiction
  constructor
  · exact accepts.reached target
  intro reached
  rcases accepts.progress with ⟨sound, complete⟩ | ⟨_, found, mem, stopped⟩
  · rcases complete target ((sound.complete drained _).mpr reached) with waits | mem
    · rw [drained] at waits
      contradiction
    · exact mem
  rcases wanted with nothing | same
  · rw [nothing] at stopped
    contradiction
  rw [same] at stopped
  cases stopped
  exact mem

end

end Search

end Codegraph
