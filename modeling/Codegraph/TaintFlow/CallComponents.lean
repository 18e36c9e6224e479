import Codegraph.Library.Components
import Codegraph.Library.Dict
import Codegraph.Library.Iteration
import Mathlib.Data.List.Destutter

namespace Codegraph.TaintFlow.Program

open Library Relation List

section Model

structure CallTargets where
  targets : List Nat

structure Function where
  calls : Dict Nat CallTargets

/-- The targets of a function's calls, sorted and without those out of range. -/
def succs (functions : List Function) (node : Nat) : List Nat :=
  match functions[node]? with
  | none => []
  | some function =>
    (((function.calls.entries.flatMap fun call => call.2.targets).filter
      fun t => t < functions.length).mergeSort).destutter (· ≠ ·)

/-- The work list has each function with the position of its next call. -/
structure SccState where
  index : Nat → Option Nat
  low : Nat → Nat
  onStack : Nat → Bool
  stack : List Nat
  sccs : List (List Nat)
  next : Nat
  work : List (Nat × Nat)

namespace SccState

def start : SccState where
  index _ := none
  low _ := 0
  onStack _ := false
  stack := []
  sccs := []
  next := 0
  work := []

def number (state : SccState) (node : Nat) : Nat := (state.index node).getD 0

/-- A new function gets the next number and goes on the stack. -/
def enter (state : SccState) (node : Nat) : SccState :=
  { state with
    index := Function.update state.index node (some state.next)
    low := Function.update state.low node state.next
    next := state.next + 1
    stack := node :: state.stack
    onStack := Function.update state.onStack node true
    work := (node, 0) :: state.work }

def lower (state : SccState) (node bound : Nat) : SccState :=
  { state with low := Function.update state.low node (min (state.low node) bound) }

/-- The members of a component are popped down to its root. -/
def popUntil (node : Nat) : List Nat → List Nat × List Nat
  | [] => ([], [])
  | member :: stack =>
    if member = node then ([member], stack)
    else
      let popped := popUntil node stack
      (member :: popped.1, popped.2)

def popComponent (state : SccState) (node : Nat) : SccState :=
  let popped := popUntil node state.stack
  { state with
    stack := popped.2
    onStack := fun member => if member ∈ popped.1 then false else state.onStack member
    sccs := state.sccs ++ [popped.1.mergeSort] }

/-- The function on top has calls left. -/
def scan (state : SccState) (node position succ : Nat) (rest : List (Nat × Nat)) : SccState :=
  let state := { state with work := (node, position + 1) :: rest }
  if (state.index succ).isNone then state.enter succ
  else if state.onStack succ then state.lower node (state.number succ)
  else state

/-- The function on top is done. -/
def finish (state : SccState) (node : Nat) (rest : List (Nat × Nat)) : SccState :=
  let state := { state with work := rest }
  let state := match rest with
    | [] => state
    | (parent, _) :: _ => state.lower parent (state.low node)
  if state.low node = state.number node then state.popComponent node else state

/-- One round of the work loop. -/
def round (succs : Nat → List Nat) (state : SccState) : Option (Round SccState) :=
  match state.work with
  | [] => some (.done state)
  | (node, position) :: rest =>
    match (succs node)[position]? with
    | some succ => some (.next (state.scan node position succ rest))
    | none => some (.next (state.finish node rest))

def visitRoot (succs : Nat → List Nat) (fuel : Nat) (state : SccState) (root : Nat) : Option SccState :=
  if (state.index root).isSome then some state
  else whileLoop (round succs) fuel ({ state with work := [] }.enter root)

end SccState

/-- The components of the call graph. There is no result when the fuel of a work loop ends. -/
def tarjan (fuel : Nat) (functions : List Function) : Option (List (List Nat)) := do
  let state ← (List.range functions.length).foldlM (SccState.visitRoot (succs functions) fuel) .start
  return state.sccs

end Model

/-- A call that stays in range. -/
def Calls (functions : List Function) (caller callee : Nat) : Prop :=
  callee < functions.length ∧ ∃ function, functions[caller]? = some function ∧
    ∃ call ∈ function.calls.entries, callee ∈ call.2.targets

theorem mem_succs (functions : List Function) (caller callee : Nat) :
    callee ∈ succs functions caller ↔ Calls functions caller callee := by
  unfold succs Calls
  cases functions[caller]? with
  | none => simp
  | some function =>
    dsimp only
    rw [(pairwise_mergeSort' (· ≤ ·) _).destutter_eq_dedup, mem_dedup, mem_mergeSort,
      mem_filter, mem_flatMap, decide_eq_true_iff, and_comm]
    simp

end Codegraph.TaintFlow.Program
