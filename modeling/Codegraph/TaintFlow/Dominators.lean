import Codegraph.Library.DominatorTree
import Codegraph.Library.ResumedSearch
import Codegraph.ReachingDefs.Blocks

namespace Codegraph.Guards

open Library

structure Dominators where
  idom : List (Option Nat)

namespace Dominators

section Model

/-- A block that the search has not left ranks behind all others. -/
def rankOf (order : List Nat) (block : Nat) : Nat :=
  if block ∈ order then order.idxOf block else 2 ^ 64 - 1

def entry (idom : List (Option Nat)) (block : Nat) : Option Nat := idom.getD block none

/-- The block is followed to its dominators until it ranks no higher than the bound. -/
def raise (idom : List (Option Nat)) (rank : Nat → Nat) (bound : Nat) : Nat → Nat → Option Nat
  | 0, _ => none
  | fuel + 1, block =>
    if rank bound < rank block then raise idom rank bound fuel ((entry idom block).getD 0)
    else some block

def intersect (idom : List (Option Nat)) (rank : Nat → Nat) : Nat → Nat → Nat → Option Nat
  | 0, _, _ => none
  | fuel + 1, a, b =>
    if a = b then some a
    else
      match raise idom rank b fuel a with
      | none => none
      | some a =>
        match raise idom rank a fuel b with
        | none => none
        | some b => intersect idom rank fuel a b

/-- A predecessor without a dominator is skipped. -/
def mergePred (idom : List (Option Nat)) (rank : Nat → Nat) (fuel : Nat) (new : Option Nat)
    (pred : Nat) : Option (Option Nat) :=
  if (entry idom pred).isNone then some new
  else
    match new with
    | none => some (some pred)
    | some current => (intersect idom rank fuel pred current).map some

def visit (blocks : Blocks) (rank : Nat → Nat) (fuel : Nat) (state : List (Option Nat) × Bool)
    (block : Nat) : Option (List (Option Nat) × Bool) :=
  match (blocks.predsOf block).foldlM (mergePred state.1 rank fuel) none with
  | none => none
  | some new =>
    if new.isSome ∧ entry state.1 block ≠ new then some (state.1.set block new, true)
    else some state

def passes (blocks : Blocks) (order : List Nat) : Nat → List (Option Nat) → Option (List (Option Nat))
  | 0, _ => none
  | fuel + 1, idom =>
    match (order.drop 1).foldlM (visit blocks (rankOf order) fuel) (idom, false) with
    | none => none
    | some (idom, true) => passes blocks order fuel idom
    | some (idom, false) => some idom

/-- The order is the reverse of the one in which the search leaves the blocks. -/
def compute (fuel : Nat) (blocks : Blocks) : Option Dominators :=
  if blocks.blockCount = 0 then some ⟨[]⟩
  else
    match whileLoop (ResumedSearch.round blocks.succsOf) fuel (ResumedSearch.start 0) with
    | none => none
    | some search =>
      (passes blocks search.post fuel ((List.replicate blocks.blockCount none).set 0 (some 0))).map
        Dominators.mk

def climb (idom : List (Option Nat)) (a : Nat) : Nat → Nat → Bool
  | 0, _ => false
  | steps + 1, current =>
    if current = a then true
    else
      match entry idom current with
      | some parent => if parent ≠ current then climb idom a steps parent else false
      | none => false

/-- The chain to the entry is at most the block count long. -/
def dominates (dominators : Dominators) (a b : Nat) : Bool :=
  climb dominators.idom a (dominators.idom.length + 1) b

end Model

section Meeting

variable {idom : List (Option Nat)} {rank : Nat → Nat} (tree : ParentTree 0 rank (entry idom))
  (least : rank 0 = 0)

include tree least

/-- The block comes up to the bound without losing what it has in common with it. -/
theorem raise_spec (bound : Nat) {block fuel : Nat} (known : (entry idom block).isSome)
    (enough : rank block < fuel) : ∃ raised, raise idom rank bound fuel block = some raised ∧
      (entry idom raised).isSome ∧ rank raised ≤ rank bound ∧ rank raised ≤ rank block ∧
      (rank bound < rank block → rank raised < rank block) ∧
      ∀ above, Under 0 (entry idom) raised above ∧ Under 0 (entry idom) bound above ↔
        Under 0 (entry idom) block above ∧ Under 0 (entry idom) bound above := by
  induction fuel generalizing block with
  | zero => exact absurd enough (Nat.not_lt_zero _)
  | succ fuel ih =>
    unfold raise
    by_cases higher : rank bound < rank block
    · rw [if_pos higher]
      obtain ⟨parent, up⟩ := tree.parent_of_lt known (by omega)
      have falls := tree.falls _ _ up
      obtain ⟨raised, done, known', low, less, -, common⟩ := ih (tree.known _ _ up) (by omega)
      rw [up.2]
      refine ⟨raised, done, known', low, by omega, fun _ => by omega, fun above => ?_⟩
      rw [common, tree.common_parent up higher]
    · rw [if_neg higher]
      exact ⟨block, rfl, known, by omega, le_rfl, fun less => absurd less higher, fun above => Iff.rfl⟩

theorem intersect_spec {a b fuel : Nat} (known : (entry idom a).isSome) (known' : (entry idom b).isSome)
    (enough : rank a + rank b + 1 < fuel) : ∃ meet, intersect idom rank fuel a b = some meet ∧
      (entry idom meet).isSome ∧ ∀ above, Under 0 (entry idom) meet above ↔
        Under 0 (entry idom) a above ∧ Under 0 (entry idom) b above := by
  induction fuel generalizing a b with
  | zero => exact absurd enough (Nat.not_lt_zero _)
  | succ fuel ih =>
    unfold intersect
    by_cases same : a = b
    · subst same
      rw [if_pos rfl]
      exact ⟨a, rfl, known, fun above => (and_self_iff).symm⟩
    rw [if_neg same]
    have fits : rank a < fuel := by omega
    have fits' : rank b < fuel := by omega
    obtain ⟨a', done, knownA, low, less, strict, common⟩ := raise_spec tree least b known fits
    obtain ⟨b', done', knownB, low', less', strict', common'⟩ := raise_spec tree least a' known' fits'
    rw [done]
    dsimp only
    rw [done']
    have distinct : rank a ≠ rank b := fun equal => same (tree.apart a b known known' equal)
    obtain ⟨meet, found, knownM, both⟩ := ih knownA knownB (by omega)
    refine ⟨meet, found, knownM, fun above => ?_⟩
    rw [both, and_comm, common', and_comm, common]

end Meeting

end Dominators

end Codegraph.Guards
