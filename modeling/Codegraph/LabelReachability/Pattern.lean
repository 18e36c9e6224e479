import Codegraph.Csr.Snapshot
import Codegraph.Library.Positions
import Codegraph.Library.Search
import Codegraph.Library.Walks

namespace Codegraph

open Library List

/-- A kind is matched without its texts. -/
inductive EdgeMatcher where
  | exactly (kind : EdgeKind)
  | any
deriving DecidableEq

def EdgeMatcher.matches : EdgeMatcher → EdgeKind → Bool
  | .any, _ => true
  | .exactly wanted, kind => EdgeKindTag.fromKind wanted = .fromKind kind

inductive Rep where
  | one
  | star
  | plus
deriving DecidableEq

structure PatternAtom where
  matcher : EdgeMatcher
  rep : Rep
deriving DecidableEq

inductive ClosureDirection where
  | outgoing
  | incoming
deriving DecidableEq

/-- A move reads no edge or one edge. -/
inductive Trans where
  | eps (state : Nat)
  | on (matcher : EdgeMatcher) (state : Nat)
deriving DecidableEq

structure Nfa where
  trans : List (List Trans)
  start : Nat
  accept : Nat
deriving DecidableEq

namespace Nfa

def push (trans : List (List Trans)) (state : Nat) (move : Trans) : List (List Trans) :=
  trans.modify state fun moves => moves ++ [move]

/-- An atom leads from the last state to a new one. -/
def compileAtom (built : List (List Trans) × Nat) (atom : PatternAtom) : List (List Trans) × Nat :=
  let exit := built.1.length
  let trans := built.1 ++ [[]]
  let extended :=
    match atom.rep with
    | .one => push trans built.2 (.on atom.matcher exit)
    | .plus => push (push trans built.2 (.on atom.matcher exit)) exit (.on atom.matcher exit)
    | .star => push (push trans built.2 (.eps exit)) exit (.on atom.matcher exit)
  (extended, exit)

def compile (pattern : List PatternAtom) : Nfa :=
  let built := pattern.foldl compileAtom ([[]], 0)
  ⟨built.1, 0, built.2⟩

def movesOf (nfa : Nfa) (state : Nat) : List Trans := nfa.trans.getD state []

end Nfa

/-- The pairs that wait and the nodes that were accepted. -/
structure ProductState where
  search : Search (NodeId × Nat)
  accepting : ListSet NodeId

def edgesAlong (code : CodeGraph) (direction : ClosureDirection) (node : NodeId) : List (NodeId × EdgeData) :=
  match direction with
  | .outgoing => code.getEdgesFrom node
  | .incoming => code.getEdgesTo node

/-- A move visits each pair that it leads to. -/
def stepTransition (code : CodeGraph) (direction : ClosureDirection) (node : NodeId)
    (search : Search (NodeId × Nat)) (move : Trans) : Search (NodeId × Nat) :=
  match move with
  | .eps state => search.visit (node, state)
  | .on matcher state =>
    (edgesAlong code direction node).foldl (fun search other =>
      if matcher.matches other.2.kind then search.visit (other.1, state) else search) search

/-- The search returns as soon as it accepts the node that it looks for. -/
def productStep (code : CodeGraph) (nfa : Nfa) (direction : ClosureDirection)
    (stopAt : Option NodeId) (state : ProductState) : Option ProductState :=
  match state.search.frontier with
  | [] => none
  | (node, q) :: frontier =>
    let accepting := if q = nfa.accept then state.accepting.insert node else state.accepting
    if q = nfa.accept ∧ stopAt = some node then
      some ⟨{ state.search with frontier := [] }, accepting⟩
    else
      some ⟨(nfa.movesOf q).foldl (stepTransition code direction node)
        { state.search with frontier := frontier }, accepting⟩

/-- The fuel pays for every pair of a node and a state. -/
def productBfs (code : CodeGraph) (source : NodeId) (nfa : Nfa) (direction : ClosureDirection)
    (stopAt : Option NodeId) : ListSet NodeId :=
  (loop (productStep code nfa direction stopAt) (code.allNodeIds.length * nfa.trans.length)
    ⟨.start (source, nfa.start), .empty⟩).accepting

def reachableTargets (code : CodeGraph) (source : NodeId) (pattern : List PatternAtom)
    (direction : ClosureDirection) : List NodeId :=
  if code.containsNode source then
    (productBfs code source (.compile pattern) direction none).members.mergeSort NodeId.le
  else []

def reachable (code : CodeGraph) (source target : NodeId) (pattern : List PatternAtom)
    (direction : ClosureDirection) : Bool :=
  code.containsNode source && code.containsNode target &&
    target ∈ (productBfs code source (.compile pattern) direction (some target)).members

/-- The words of one edge that the matcher accepts. -/
def EdgeMatcher.language (matcher : EdgeMatcher) : Language EdgeKind :=
  {word | ∃ kind, matcher.matches kind ∧ word = [kind]}

def PatternAtom.language (atom : PatternAtom) : Language EdgeKind :=
  match atom.rep with
  | .one => atom.matcher.language
  | .star => KStar.kstar atom.matcher.language
  | .plus => atom.matcher.language * KStar.kstar atom.matcher.language

/-- The atoms are read one after the other. -/
def patternLanguage (pattern : List PatternAtom) : Language EdgeKind :=
  (pattern.map PatternAtom.language).prod

namespace Nfa

variable (pattern : List PatternAtom)

theorem compile_concat (atom : PatternAtom) :
    (compile (pattern ++ [atom])).trans =
        (compileAtom ((compile pattern).trans, (compile pattern).accept) atom).1 ∧
      (compile (pattern ++ [atom])).accept = (compile pattern).trans.length := by
  rw [compile, foldl_append]
  exact ⟨rfl, rfl⟩

theorem compile_size : (compile pattern).trans.length = pattern.length + 1 ∧
      (compile pattern).accept = pattern.length := by
  induction pattern using List.reverseRecOn with
  | nil => exact ⟨rfl, rfl⟩
  | append_singleton pattern atom ih =>
    obtain ⟨trans, accept⟩ := compile_concat pattern atom
    rw [trans, accept, ih.1, length_append, length_singleton]
    refine ⟨?_, rfl⟩
    unfold compileAtom push
    cases atom.rep <;> simp [ih.1]

theorem mem_push (trans : List (List Trans)) {state : Nat} (inside : state < trans.length)
    (move : Trans) (other : Nat) (move' : Trans) :
    move' ∈ (push trans state move).getD other [] ↔
      move' ∈ trans.getD other [] ∨ (other = state ∧ move' = move) := by
  rw [push, getD_modify_append trans state other move inside, mem_append]
  by_cases same : state = other
  · subst same
    simp
  · have apart : other ≠ state := fun equal => same equal.symm
    simp [same, apart]

theorem mem_movesOf (state : Nat) (move : Trans) :
    move ∈ (compile pattern).movesOf state ↔ (∃ atom, pattern[state]? = some atom ∧ move =
        if atom.rep = .star then .eps (state + 1) else .on atom.matcher (state + 1)) ∨
      ∃ before atom, state = before + 1 ∧ pattern[before]? = some atom ∧ atom.rep ≠ .one ∧
        move = .on atom.matcher state := by
  induction pattern using List.reverseRecOn with
  | nil =>
    have none : (compile []).movesOf state = [] := by cases state <;> rfl
    rw [none]
    simp
  | append_singleton pattern atom ih =>
    obtain ⟨states, last⟩ := compile_size pattern
    have built := (compile_concat pattern atom).1
    have grown : ((compile pattern).trans ++ [[]]).length = pattern.length + 2 := by
      rw [length_append, states]
      rfl
    have old (other : Nat) : ((compile pattern).trans ++ [[]]).getD other [] =
        (compile pattern).movesOf other := by
      rw [movesOf, getD_eq_getElem?_getD, getD_eq_getElem?_getD, getElem?_append]
      split
      · rfl
      rename_i outside
      rw [getElem?_eq_none (Nat.le_of_not_lt outside), getElem?_singleton]
      split <;> rfl
    have found (position : Nat) (entry : PatternAtom) : (pattern ++ [atom])[position]? = some entry ↔
        pattern[position]? = some entry ∨ (position = pattern.length ∧ entry = atom) :=
      getElem?_concat_eq_some
    have added : move ∈ (compile (pattern ++ [atom])).movesOf state ↔
        move ∈ (compile pattern).movesOf state ∨
        (state = pattern.length ∧ move = if atom.rep = .star then .eps (pattern.length + 1)
            else .on atom.matcher (pattern.length + 1)) ∨
        (atom.rep ≠ .one ∧ state = pattern.length + 1 ∧ move = .on atom.matcher (pattern.length + 1)) := by
      unfold movesOf at old ⊢
      rw [built]
      unfold compileAtom
      have inner (first : Trans) : pattern.length <
          (push ((compile pattern).trans ++ [[]]) pattern.length first).length := by
        rw [push, length_modify, grown]
        omega
      have inner' (first : Trans) : pattern.length + 1 <
          (push ((compile pattern).trans ++ [[]]) pattern.length first).length := by
        rw [push, length_modify, grown]
        omega
      have outer : pattern.length < ((compile pattern).trans ++ [[]]).length := by omega
      simp only [states, last]
      cases rep : atom.rep with
      | one =>
        simp only [mem_push _ outer, old]
        simp
      | star =>
        simp only [mem_push _ (inner' _), mem_push _ outer, old]
        simp [or_assoc]
      | plus =>
        simp only [mem_push _ (inner' _), mem_push _ outer, old]
        simp [or_assoc]
    rw [added, ih]
    simp only [found]
    constructor
    · intro either
      rcases either with (⟨entry, here, same⟩ | ⟨before, entry, here, at', rep, same⟩) |
        ⟨here, same⟩ | ⟨rep, here, same⟩
      · exact .inl ⟨entry, .inl here, same⟩
      · exact .inr ⟨before, entry, here, .inl at', rep, same⟩
      · exact .inl ⟨atom, .inr ⟨here, rfl⟩, here ▸ same⟩
      · exact .inr ⟨pattern.length, atom, here, .inr ⟨rfl, rfl⟩, rep, here ▸ same⟩
    intro either
    rcases either with ⟨entry, here | ⟨here, rfl⟩, same⟩ |
      ⟨before, entry, here, at' | ⟨at', rfl⟩, rep, same⟩
    · exact .inl (.inl ⟨entry, here, same⟩)
    · exact .inr (.inl ⟨here, here ▸ same⟩)
    · exact .inl (.inr ⟨before, entry, here, at', rep, same⟩)
    · subst at'
      exact .inr (.inr ⟨rep, here, here ▸ same⟩)

end Nfa

end Codegraph
