import Codegraph.Library.Layers
import Mathlib.Data.List.GetD
import Mathlib.Logic.Relation
import Mathlib.Order.Bounds.Basic
import Mathlib.Order.Lattice

namespace Codegraph.Library

open Relation List

variable {Value : Type}

section Model

variable (merge : Value → Value → Value × Bool) (fallback : Value)

/-- The value at the source of an edge takes in the one at its target. -/
def mergeInto (state : List Value × Bool) (edge : Nat × Nat) : List Value × Bool :=
  let merged := merge (state.1.getD edge.1 fallback) (state.1.getD edge.2 fallback)
  (state.1.set edge.1 merged.1, state.2 || merged.2)

/-- A round follows each edge once and tells whether a value changed. -/
def sweep (edges : List (Nat × Nat)) (values : List Value) : List Value × Bool :=
  edges.foldl (mergeInto merge fallback) (values, false)

/-- The rounds end when one changes nothing. -/
def sweeps (edges : List (Nat × Nat)) : Nat → List Value → List Value
  | 0, values => values
  | rounds + 1, values =>
    let after := sweep merge fallback edges values
    if after.2 then sweeps edges rounds after.1 else after.1

end Model

/-- A merge joins its arguments and tells whether the first one changes. -/
structure Joins [SemilatticeSup Value] (merge : Value → Value → Value × Bool) : Prop where
  join : ∀ first second, (merge first second).1 = first ⊔ second
  flag : ∀ first second, (merge first second).2 = false ↔ second ≤ first

section Rounds

variable [SemilatticeSup Value] {merge : Value → Value → Value × Bool} {fallback : Value}
variable {edges : List (Nat × Nat)} {count : Nat}

/-- The ends of the edges are nodes. -/
def EdgesBelow (count : Nat) (edges : List (Nat × Nat)) : Prop :=
  ∀ edge ∈ edges, edge.1 < count ∧ edge.2 < count

omit [SemilatticeSup Value] in
theorem length_mergeInto (state : List Value × Bool) (edge : Nat × Nat) :
    (mergeInto merge fallback state edge).1.length = state.1.length := length_set

omit [SemilatticeSup Value] in
theorem length_sweep (edges : List (Nat × Nat)) (state : List Value × Bool) :
    (edges.foldl (mergeInto merge fallback) state).1.length = state.1.length := by
  induction edges generalizing state with
  | nil => rfl
  | cons edge edges ih => rw [foldl_cons, ih, length_mergeInto]

variable (joins : Joins merge)

include joins

theorem getD_mergeInto {state : List Value × Bool} {edge : Nat × Nat}
    (inside : edge.1 < state.1.length) (node : Nat) :
    (mergeInto merge fallback state edge).1.getD node fallback =
      if node = edge.1 then state.1.getD edge.1 fallback ⊔ state.1.getD edge.2 fallback
      else state.1.getD node fallback := by
  unfold mergeInto
  dsimp only
  rw [joins.join]
  split
  · rename_i same
    rw [same, getD_eq_getElem _ _ (by simpa using inside), getElem_set_self]
  · rename_i apart
    rw [getD_eq_getElem?_getD, getElem?_set_ne (Ne.symm apart), ← getD_eq_getElem?_getD]

section

variable (state : List Value × Bool)
include state

/-- Following edges never lowers a value. -/
theorem le_sweep (inside : EdgesBelow state.1.length edges) (node : Nat) :
    state.1.getD node fallback ≤ (edges.foldl (mergeInto merge fallback) state).1.getD node fallback := by
  induction edges generalizing state with
  | nil => exact le_rfl
  | cons edge edges ih =>
    have here := (inside edge mem_cons_self).1
    rw [foldl_cons]
    refine le_trans ?_ (ih _ ?_)
    · rw [getD_mergeInto joins here]
      split
      · rename_i same
        rw [same]
        exact le_sup_left
      · exact le_rfl
    · rw [length_mergeInto]
      exact fun other mem => inside other (mem_cons_of_mem _ mem)

/-- The value at the source of an edge takes in the old one at its target. -/
theorem target_le_sweep (inside : EdgesBelow state.1.length edges)
    {edge : Nat × Nat} (mem : edge ∈ edges) : state.1.getD edge.2 fallback ≤
      (edges.foldl (mergeInto merge fallback) state).1.getD edge.1 fallback := by
  induction edges generalizing state with
  | nil => exact absurd mem not_mem_nil
  | cons first edges ih =>
    have here := (inside first mem_cons_self).1
    have rest : EdgesBelow (mergeInto merge fallback state first).1.length edges := by
      rw [length_mergeInto]
      exact fun other later => inside other (mem_cons_of_mem _ later)
    rw [foldl_cons]
    rcases mem_cons.mp mem with rfl | later
    · refine le_trans ?_ (le_sweep joins _ rest _)
      rw [getD_mergeInto joins here, if_pos rfl]
      exact le_sup_right
    refine le_trans ?_ (ih _ rest later)
    have one : EdgesBelow state.1.length [first] := by
      intro other listed
      rw [mem_singleton.mp listed]
      exact inside first mem_cons_self
    exact le_sweep joins state one _

theorem sweep_le {reach : Nat → Prop} {bound : Value} (inside : EdgesBelow state.1.length edges)
    (closed : ∀ edge ∈ edges, reach edge.1 → reach edge.2)
    (bounded : ∀ node, reach node → state.1.getD node fallback ≤ bound) (node : Nat)
    (reached : reach node) :
    (edges.foldl (mergeInto merge fallback) state).1.getD node fallback ≤ bound := by
  induction edges generalizing state with
  | nil => exact bounded node reached
  | cons edge edges ih =>
    have here := (inside edge mem_cons_self).1
    rw [foldl_cons]
    apply ih
    · rw [length_mergeInto]
      exact fun other mem => inside other (mem_cons_of_mem _ mem)
    · exact fun other mem => closed other (mem_cons_of_mem _ mem)
    intro other inReach
    rw [getD_mergeInto joins here]
    split
    · rename_i same
      rw [same] at inReach
      exact sup_le (bounded _ inReach) (bounded _ (closed edge mem_cons_self inReach))
    · exact bounded other inReach

/-- A round that changes nothing leaves every value at least as large as the ones it takes in. -/
theorem sweep_settled (inside : EdgesBelow state.1.length edges)
    (settled : (edges.foldl (mergeInto merge fallback) state).2 = false) :
    (∀ node, (edges.foldl (mergeInto merge fallback) state).1.getD node fallback =
      state.1.getD node fallback) ∧
      ∀ edge ∈ edges, state.1.getD edge.2 fallback ≤ state.1.getD edge.1 fallback := by
  have flagged (edges : List (Nat × Nat)) (state : List Value × Bool) (raised : state.2 = true) :
      (edges.foldl (mergeInto merge fallback) state).2 = true := by
    induction edges generalizing state with
    | nil => exact raised
    | cons edge edges ih =>
      apply ih
      change (state.2 || _) = true
      rw [raised, Bool.true_or]
  induction edges generalizing state with
  | nil => exact ⟨fun _ => rfl, by simp⟩
  | cons edge edges ih =>
    have here := (inside edge mem_cons_self).1
    rw [foldl_cons] at settled ⊢
    have quiet : (mergeInto merge fallback state edge).2 = false := by
      by_contra raised
      rw [flagged edges _ (by simpa using raised)] at settled
      contradiction
    have lower := (joins.flag _ _).mp (Bool.or_eq_false_iff.mp quiet).2
    have same (node : Nat) : (mergeInto merge fallback state edge).1.getD node fallback =
        state.1.getD node fallback := by
      rw [getD_mergeInto joins here]
      split
      · rename_i first
        rw [first, sup_eq_left.mpr lower]
      · rfl
    have rest : EdgesBelow (mergeInto merge fallback state edge).1.length edges := by
      rw [length_mergeInto]
      exact fun other mem => inside other (mem_cons_of_mem _ mem)
    obtain ⟨kept, closed⟩ := ih _ rest settled
    refine ⟨fun node => (kept node).trans (same node), ?_⟩
    intro other mem
    rcases mem_cons.mp mem with rfl | later
    · exact lower
    · have below := closed other later
      rwa [same, same] at below

end

/-- The nodes that an edge leads to. -/
def Along (edges : List (Nat × Nat)) (first second : Nat) : Prop := (first, second) ∈ edges

omit [SemilatticeSup Value] joins in
theorem edgesBelow_sweep {values : List Value} (inside : EdgesBelow values.length edges) :
    EdgesBelow (sweep merge fallback edges values).1.length edges := by
  rwa [sweep, length_sweep]

theorem le_sweeps (rounds : Nat) (values : List Value) (inside : EdgesBelow values.length edges)
    (node : Nat) : values.getD node fallback ≤
      (sweeps merge fallback edges rounds values).getD node fallback := by
  induction rounds generalizing values with
  | zero => exact le_rfl
  | succ rounds ih =>
    have once : values.getD node fallback ≤
        (sweep merge fallback edges values).1.getD node fallback := le_sweep joins (values, false) inside node
    unfold sweeps
    dsimp only
    split
    · exact once.trans (ih _ (edgesBelow_sweep inside))
    · exact once

omit joins in
theorem le_of_closed {values : List Value}
    (closed : ∀ edge ∈ edges, values.getD edge.2 fallback ≤ values.getD edge.1 fallback)
    {node other : Nat} (reached : ReflTransGen (Along edges) node other) :
    values.getD other fallback ≤ values.getD node fallback := by
  induction reached with
  | refl => exact le_rfl
  | tail _ step below => exact (closed _ step).trans below

variable (rounds : Nat)

variable (values : List Value)

theorem sweeps_near (inside : EdgesBelow values.length edges)
    {node count other : Nat} (close : count ≤ rounds) (hops : Hops (Along edges) node count other) :
    values.getD other fallback ≤ (sweeps merge fallback edges rounds values).getD node fallback := by
  induction rounds generalizing values count other with
  | zero =>
    obtain rfl := Nat.le_zero.mp close
    cases hops
    exact le_rfl
  | succ rounds ih =>
    cases hops with
    | start => exact le_sweeps joins _ values inside node
    | @step count middle _ walk last =>
      unfold sweeps
      dsimp only
      split
      · have taken : values.getD other fallback ≤
            (sweep merge fallback edges values).1.getD middle fallback :=
          target_le_sweep joins (values, false) inside last
        exact taken.trans (ih _ (edgesBelow_sweep inside) (Nat.le_of_succ_le_succ close) walk)
      rename_i settled
      obtain ⟨same, closed⟩ : (∀ node, (sweep merge fallback edges values).1.getD node fallback =
          values.getD node fallback) ∧ ∀ edge ∈ edges, _ :=
        sweep_settled joins (values, false) inside (Bool.eq_false_of_not_eq_true settled)
      rw [same]
      exact le_of_closed closed (walk.step last).reflTransGen

/-- A node takes in nothing that it does not reach. -/
theorem sweeps_le (inside : EdgesBelow values.length edges)
    {node : Nat} {bound : Value} (bounded : ∀ other, ReflTransGen (Along edges) node other →
      values.getD other fallback ≤ bound) :
    (sweeps merge fallback edges rounds values).getD node fallback ≤ bound := by
  induction rounds generalizing values with
  | zero => exact bounded node .refl
  | succ rounds ih =>
    have kept (other : Nat) (reached : ReflTransGen (Along edges) node other) :
        (sweep merge fallback edges values).1.getD other fallback ≤ bound :=
      sweep_le joins (values, false) inside (fun edge mem before => before.tail mem) bounded other reached
    unfold sweeps
    dsimp only
    split
    · exact ih _ (edgesBelow_sweep inside) kept
    · exact kept node .refl

theorem sweeps_settled (inside : EdgesBelow values.length edges)
    (settled : (sweep merge fallback edges (sweeps merge fallback edges rounds values)).2 = false)
    {node other : Nat} (reached : ReflTransGen (Along edges) node other) :
    values.getD other fallback ≤ (sweeps merge fallback edges rounds values).getD node fallback := by
  have length (rounds : Nat) (values : List Value) :
      (sweeps merge fallback edges rounds values).length = values.length := by
    induction rounds generalizing values with
    | zero => rfl
    | succ rounds ih =>
      unfold sweeps
      dsimp only
      split
      · rw [ih, sweep, length_sweep]
      · rw [sweep, length_sweep]
  have kept : EdgesBelow (sweeps merge fallback edges rounds values).length edges := by rwa [length]
  exact (le_sweeps joins rounds values inside other).trans
    (le_of_closed (sweep_settled joins (_, false) kept settled).2 reached)

/-- A round in which no edge leads to an earlier source takes in old values only. -/
theorem lagging_sweep (state : List Value × Bool) (inside : EdgesBelow state.1.length edges)
    (lagging : edges.Pairwise fun earlier later => later.2 ≠ earlier.1) {node : Nat} {bound : Value}
    (own : state.1.getD node fallback ≤ bound)
    (taken : ∀ edge ∈ edges, edge.1 = node → state.1.getD edge.2 fallback ≤ bound) :
    (edges.foldl (mergeInto merge fallback) state).1.getD node fallback ≤ bound := by
  induction edges generalizing state with
  | nil => exact own
  | cons edge edges ih =>
    have here := (inside edge mem_cons_self).1
    obtain ⟨apart, later⟩ := pairwise_cons.mp lagging
    rw [foldl_cons]
    refine ih _ ?_ later ?_ ?_
    · rw [length_mergeInto]
      exact fun other mem => inside other (mem_cons_of_mem _ mem)
    · rw [getD_mergeInto joins here]
      split
      · rename_i same
        exact sup_le (same ▸ own) (taken edge mem_cons_self same.symm)
      · exact own
    intro other mem same
    rw [getD_mergeInto joins here, if_neg (apart other mem)]
    exact taken other (mem_cons_of_mem _ mem) same

theorem lagging_sweeps (inside : EdgesBelow values.length edges)
    (lagging : edges.Pairwise fun earlier later => later.2 ≠ earlier.1) {node : Nat} {bound : Value}
    (near : ∀ count ≤ rounds, ∀ other, Hops (Along edges) node count other →
      values.getD other fallback ≤ bound) :
    (sweeps merge fallback edges rounds values).getD node fallback ≤ bound := by
  induction rounds generalizing values with
  | zero => exact near 0 le_rfl node .start
  | succ rounds ih =>
    have once (count : Nat) (close : count ≤ rounds) (middle : Nat)
        (hops : Hops (Along edges) node count middle) :
        (sweep merge fallback edges values).1.getD middle fallback ≤ bound := by
      apply lagging_sweep joins (values, false) inside lagging
      · exact near count (Nat.le_succ_of_le close) middle hops
      · rintro ⟨_, other⟩ mem rfl
        exact near (count + 1) (Nat.succ_le_succ close) other (hops.step mem)
    unfold sweeps
    dsimp only
    split
    · exact ih _ (edgesBelow_sweep inside) once
    · exact once 0 (Nat.zero_le _) node .start

end Rounds

end Codegraph.Library
