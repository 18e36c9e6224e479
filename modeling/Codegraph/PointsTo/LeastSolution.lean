import Codegraph.PointsTo.Growth

namespace Codegraph.PointsTo

open Library

variable {solver : FunctionSolver}

theorem eval_within {solution : Set Fact} (solves : ∀ (idx : Nat) op, solver.ir.body[idx]? = some op →
      OpHolds solver.owner solution idx op) (below : solver.table.facts ⊆ solution) {idx : Nat}
    {op : IrOp} (fetched : solver.ir.body[idx]? = some op) :
    asked solver.owner solver.table.facts idx op ⊆ solution :=
  (asked_mono below solver.owner idx op).trans
    ((opHolds_iff_asked solver.owner solution idx op).mp (solves idx op fetched))

/-- Every operation is pending or holds, unless the budget has run out. -/
structure Saturating (solver : FunctionSolver) : Prop extends Indexing solver where
  settled : solver.budget.exhausted = false → ∀ (idx : Nat) op, solver.ir.body[idx]? = some op →
    idx ∈ solver.dirty.queue ∨ OpHolds solver.owner solver.table.facts idx op

/-- Added facts queue the operations that read them, so every other operation still holds. -/
theorem settled_grows {solver next : FunctionSolver} {wanted : Set Fact}
    (indexing : Indexing solver) (grown : Grows solver next wanted) {idx : Nat} {op : IrOp}
    (fetched : solver.ir.body[idx]? = some op)
    (before : idx ∈ solver.dirty.queue ∨ asked solver.owner solver.table.facts idx op ⊆ next.table.facts) :
    idx ∈ next.dirty.queue ∨ OpHolds next.owner next.table.facts idx op := by
  by_cases unread : ∀ fact ∈ next.table.facts, ReadsFact op fact → fact ∈ solver.table.facts
  · apply before.imp (grown.queued idx)
    intro provided
    rw [opHolds_iff_asked, grown.owner]
    exact (asked_unread unread).trans provided
  push Not at unread
  obtain ⟨fact, held, reads, absent⟩ := unread
  have listed := UseIndex.readersOf_complete solver.ir fetched reads
  rw [← indexing.index] at listed
  exact .inl (grown.readers fact held absent idx listed)

theorem Grows.enough {solver next : FunctionSolver} {wanted : Set Fact}
    (grown : Grows solver next wanted) (left : next.budget.exhausted = false) :
    solver.budget.exhausted = false := by
  by_contra spent
  rw [grown.exhausted (by simpa using spent)] at left
  contradiction

theorem saturating_grows {solver next : FunctionSolver} {wanted : Set Fact}
    (saturating : Saturating solver) (grown : Grows solver next wanted) : Saturating next := by
  refine { toIndexing := grown.indexing saturating.toIndexing, settled := ?_ }
  intro left idx op fetched
  rw [grown.ir] at fetched
  apply settled_grows saturating.toIndexing grown fetched
  apply (saturating.settled (grown.enough left) idx op fetched).imp_right
  intro holds
  exact ((opHolds_iff_asked _ _ _ _).mp holds).trans grown.mono

/-- One iteration evaluates the oldest pending operation. -/
theorem solveStep_grows {solver next : FunctionSolver} (indexing : Indexing solver)
    (moved : solver.solveStep = some next) :
    ∃ idx rest op, solver.dirty.queue = idx :: rest.queue ∧
      rest.pending.length = solver.dirty.pending.length ∧ solver.ir.body[idx]? = some op ∧
      Grows { solver with dirty := rest } next
        (asked solver.owner solver.table.facts idx op) := by
  obtain ⟨⟨idx, rest⟩, popped, rfl⟩ := Option.map_eq_some_iff.mp moved
  obtain ⟨queued, length⟩ := WorkQueue.pop_some popped
  have inside : idx < solver.ir.body.length := by
    rw [← indexing.pending]
    exact solver.dirty.mem_lt (by rw [queued]; simp)
  have fetched := List.getElem?_eq_getElem inside
  have indexing' : Indexing { solver with dirty := rest } :=
    ⟨indexing.index, length.trans indexing.pending⟩
  exact ⟨idx, rest, _, queued, length, fetched, eval_grows indexing' fetched⟩

theorem solveStep_indexing (solver next : FunctionSolver) (indexing : Indexing solver)
    (moved : solver.solveStep = some next) : Indexing next := by
  obtain ⟨idx, rest, op, -, length, -, grown⟩ := solveStep_grows indexing moved
  exact grown.indexing ⟨indexing.index, length.trans indexing.pending⟩

def solveMeasure (solver : FunctionSolver) : Nat :=
  worklistMeasure solver.dirty.pending.length solver.budget.remaining solver.dirty.queue.length

/-- An iteration that adds a fact spends a unit, and any other shortens the queue. -/
theorem solveStep_falls (solver next : FunctionSolver) (indexing : Indexing solver)
    (moved : solver.solveStep = some next) : solveMeasure next < solveMeasure solver := by
  obtain ⟨idx, rest, op, queued, length, -, grown⟩ := solveStep_grows indexing moved
  have pending := grown.pending.trans length
  have spent : next.budget.remaining ≤ solver.budget.remaining := grown.spent
  rw [solveMeasure, pending]
  by_cases same : next.budget.remaining = solver.budget.remaining
  · apply worklistMeasure_idle spent
    have dirty := (grown.idle same).1
    rw [dirty, queued]
    simp
  apply worklistMeasure_productive (by omega)
  have short := next.dirty.length_le
  omega

/-- The loop ends: the budget pays for every fact. -/
theorem solve_halts (indexing : Indexing solver) : Halts FunctionSolver.solveStep solver solver.solve :=
  halts_loop solveStep_indexing solveStep_falls _ solver indexing (le_refl _)

theorem solve_drained (indexing : Indexing solver) : solver.solve.dirty.queue = [] := by
  have ended := (solve_halts indexing).ended
  rw [FunctionSolver.solveStep, Option.map_eq_none_iff] at ended
  exact WorkQueue.pop_none.mp ended

theorem solveStep_saturating (solver next : FunctionSolver) (saturating : Saturating solver)
    (moved : solver.solveStep = some next) : Saturating next := by
  obtain ⟨idx, rest, op, queued, length, fetched, grown⟩ := solveStep_grows saturating.toIndexing moved
  have indexing : Indexing { solver with dirty := rest } :=
    ⟨saturating.index, length.trans saturating.pending⟩
  refine { toIndexing := grown.indexing indexing, settled := ?_ }
  intro left other op' fetched'
  have fetchedBefore : solver.ir.body[other]? = some op' := by rw [← fetched', grown.ir]
  apply settled_grows indexing grown fetchedBefore
  by_cases same : other = idx
  · subst same
    rw [fetched] at fetchedBefore
    cases fetchedBefore
    exact .inr (grown.complete left)
  have enough := grown.enough left
  rcases saturating.settled enough other op' fetchedBefore with pending | holds
  · rw [queued] at pending
    exact .inl (List.mem_of_ne_of_mem same pending)
  · exact .inr (((opHolds_iff_asked _ _ _ _).mp holds).trans grown.mono)

/-- A solved function holds every constraint, unless its budget has run out. -/
theorem solve_holds (saturating : Saturating solver)
    (enough : solver.solve.budget.exhausted = false) (idx : Nat) (op : IrOp)
    (fetched : solver.solve.ir.body[idx]? = some op) :
    OpHolds solver.solve.owner solver.solve.table.facts idx op := by
  have halts := solve_halts saturating.toIndexing
  have final := halts.preserves solveStep_saturating saturating
  rcases final.settled enough idx op fetched with pending | holds
  · rw [solve_drained saturating.toIndexing] at pending
    contradiction
  · exact holds

/-- The solver's function and its facts, which a solution bounds and the budget pays for. -/
structure Paid (owner : NodeId) (ir : IrFunction) (budget : Nat) (solver : FunctionSolver) : Prop where
  owned : solver.owner = owner
  function : solver.ir = ir
  counted : solver.table.facts.encard + solver.budget.remaining = budget
  below : ∀ solution, IsSolution owner ir solution → solver.table.facts ⊆ solution
  unpaid : solver.budget.exhausted = true → solver.budget.remaining = 0 ∧
    ∀ solution, IsSolution owner ir solution → ∃ fact ∈ solution, fact ∉ solver.table.facts

theorem paid_grows {owner : NodeId} {ir : IrFunction} {budget : Nat} {solver next : FunctionSolver}
    {wanted : Set Fact} (paid : Paid owner ir budget solver) (grown : Grows solver next wanted)
    (needed : ∀ solution, IsSolution owner ir solution → wanted ⊆ solution) :
    Paid owner ir budget next := by
  refine ⟨grown.owner.trans paid.owned, grown.ir.trans paid.function, grown.counted.trans paid.counted,
    ?_, ?_⟩
  · intro solution solves fact held
    rcases grown.within held with old | new
    · exact paid.below solution solves old
    · exact needed solution solves new
  intro spent
  rcases grown.unpaid spent with before | ⟨broke, fact, missing, absent⟩
  · obtain ⟨broke, unheld⟩ := paid.unpaid before
    have fewer := grown.spent
    obtain ⟨-, facts⟩ := grown.idle (by omega)
    rw [facts]
    exact ⟨by omega, unheld⟩
  · exact ⟨broke, fun solution solves => ⟨fact, needed solution solves missing, absent⟩⟩

theorem solveStep_paid {owner : NodeId} {ir : IrFunction} {budget : Nat}
    (solver next : FunctionSolver) (state : Indexing solver ∧ Paid owner ir budget solver)
    (moved : solver.solveStep = some next) : Indexing next ∧ Paid owner ir budget next := by
  obtain ⟨indexing, paid⟩ := state
  refine ⟨solveStep_indexing solver next indexing moved, ?_⟩
  obtain ⟨idx, rest, op, -, -, fetched, grown⟩ := solveStep_grows indexing moved
  have paid' : Paid owner ir budget { solver with dirty := rest } :=
    ⟨paid.owned, paid.function, paid.counted, paid.below, paid.unpaid⟩
  apply paid_grows paid' grown
  intro solution solves
  have holds : ∀ (idx : Nat) op, solver.ir.body[idx]? = some op → OpHolds solver.owner solution idx op := by
    rw [paid.owned, paid.function]
    exact solves.holds
  exact eval_within holds (paid.below solution solves) fetched

/-- The facts at function entry. -/
def seeds (owner : NodeId) (params : List Var) : Set Fact :=
  {fact | ∃ param ∈ params, fact = .points param (.param owner param.asStr)}

theorem foldl_seed_grows (indexing : Indexing solver) (owner : NodeId) (params : List Var) :
    Grows solver (params.foldl
      (fun solver param => (solver.addToVar param [.param owner param.asStr]).1) solver)
      (seeds owner params) := by
  induction params generalizing solver with
  | nil => simpa [seeds] using grows_refl solver
  | cons param params ih =>
    have first := addToVar_grows indexing param [.param owner param.asStr]
    have rest := grows_trans first (ih (first.indexing indexing))
    have wanted : seeds owner (param :: params) =
        pointsTo param {loc | loc ∈ [AbstractLocation.param owner param.asStr]} ∪
          seeds owner params := by
      ext fact
      simp [seeds, pointsTo, eq_comm]
    rwa [wanted]

/-- The solver before the entry facts are added. -/
def blank (owner : NodeId) (ir : IrFunction) (budget : Nat) : FunctionSolver :=
  { owner := owner
    ir := ir
    index := UseIndex.build ir
    dirty := WorkQueue.all ir.body.length
    table := {}
    budget := ⟨budget, false⟩ }

variable (owner : NodeId)

section

variable (ir : IrFunction)
include ir

theorem blank_facts (budget : Nat) : (blank owner ir budget).table.facts = ∅ := by
  ext fact
  cases fact with
  | points var loc =>
    change loc ∈ (Dict.getD ∅ var ListSet.empty).members ↔ _
    simp
  | stores cell loc =>
    change loc ∈ (Dict.getD ∅ cell ListSet.empty).members ↔ _
    simp

theorem blank_indexing (budget : Nat) : Indexing (blank owner ir budget) := ⟨rfl, by simp [blank]⟩

theorem new_grows (budget : Nat) : Grows (blank owner ir budget) (FunctionSolver.new owner ir budget)
      (seeds owner (ir.receiver.toList ++ ir.params)) :=
  foldl_seed_grows (blank_indexing owner ir budget) owner (ir.receiver.toList ++ ir.params)

theorem new_saturating (budget : Nat) : Saturating (FunctionSolver.new owner ir budget) := by
  refine saturating_grows { toIndexing := blank_indexing owner ir budget, settled := ?_ }
    (new_grows owner ir budget)
  intro _ idx op fetched
  left
  have inside := (List.getElem?_eq_some_iff.mp fetched).1
  simpa [blank] using inside

theorem new_paid (budget : Nat) : Paid owner ir budget (FunctionSolver.new owner ir budget) := by
  have start : Paid owner ir budget (blank owner ir budget) := by
    refine ⟨rfl, rfl, by rw [blank_facts]; simp [blank], ?_, by simp [blank]⟩
    intro solution _
    rw [blank_facts]
    exact Set.empty_subset _
  apply paid_grows start (new_grows owner ir budget)
  intro solution solves fact ⟨param, mem, made⟩
  rw [made]
  exact solves.seeded param mem

theorem solve_paid (budget : Nat) : Paid owner ir budget (FunctionSolver.new owner ir budget).solve := by
  have indexing := (new_saturating owner ir budget).toIndexing
  exact ((solve_halts indexing).preserves solveStep_paid ⟨indexing, new_paid owner ir budget⟩).2

end

/-- Facts are only ever added. -/
theorem solve_mono (indexing : Indexing solver) : solver.table.facts ⊆ solver.solve.table.facts ∧
      (solver.budget.exhausted = true → solver.solve.budget.exhausted = true) := by
  have keeps (before after : FunctionSolver)
      (state : Indexing before ∧ solver.table.facts ⊆ before.table.facts ∧
        (solver.budget.exhausted = true → before.budget.exhausted = true))
      (moved : before.solveStep = some after) :
      Indexing after ∧ solver.table.facts ⊆ after.table.facts ∧
        (solver.budget.exhausted = true → after.budget.exhausted = true) := by
    obtain ⟨indexing, mono, spent⟩ := state
    obtain ⟨idx, rest, op, -, -, -, grown⟩ := solveStep_grows indexing moved
    exact ⟨solveStep_indexing before after indexing moved, mono.trans grown.mono,
      fun exhausted => grown.exhausted (spent exhausted)⟩
  exact ((solve_halts indexing).preserves keeps
    ⟨indexing, Set.Subset.refl _, fun exhausted => exhausted⟩).2

theorem new_seeded (ir : IrFunction) (budget : Nat)
    (enough : (FunctionSolver.new owner ir budget).solve.budget.exhausted = false) :
    seeds owner (ir.receiver.toList ++ ir.params) ⊆
      (FunctionSolver.new owner ir budget).solve.table.facts := by
  have indexing := (new_saturating owner ir budget).toIndexing
  obtain ⟨mono, spent⟩ := solve_mono indexing
  refine ((new_grows owner ir budget).complete ?_).trans mono
  by_contra exhausted
  rw [spent (by simpa using exhausted)] at enough
  contradiction

theorem analyze_least (ir : IrFunction) (budget : Nat)
    (converged : (analyzeWithBudget owner ir budget).converged = true) :
    IsLeast {solution | IsSolution owner ir solution} (analyzeWithBudget owner ir budget).facts := by
  have paid := solve_paid owner ir budget
  have enough : (FunctionSolver.new owner ir budget).solve.budget.exhausted = false := by
    simpa [analyzeWithBudget, FunctionSolver.intoTable] using converged
  constructor
  · constructor
    · intro param mem
      exact new_seeded owner ir budget enough ⟨param, mem, rfl⟩
    have holds := solve_holds (new_saturating owner ir budget) enough
    rwa [paid.owned, paid.function] at holds
  · intro solution solves
    exact paid.below solution solves

theorem analyze_converged_iff (ir : IrFunction) (budget : Nat) :
    (analyzeWithBudget owner ir budget).converged = true ↔
      ∃ solution, IsSolution owner ir solution ∧ solution.encard ≤ budget := by
  have paid := solve_paid owner ir budget
  constructor
  · intro converged
    refine ⟨_, (analyze_least owner ir budget converged).1, ?_⟩
    rw [← paid.counted]
    exact le_self_add
  intro ⟨solution, solves, small⟩
  by_contra diverged
  have spent : (FunctionSolver.new owner ir budget).solve.budget.exhausted = true := by
    simpa [analyzeWithBudget, FunctionSolver.intoTable] using diverged
  obtain ⟨broke, unheld⟩ := paid.unpaid spent
  obtain ⟨fact, mem, absent⟩ := unheld solution solves
  have counted := paid.counted
  rw [broke] at counted
  have strict : (FunctionSolver.new owner ir budget).solve.table.facts ⊂ solution :=
    ⟨paid.below solution solves, fun all => absent (all mem)⟩
  have full : (FunctionSolver.new owner ir budget).solve.table.facts.encard = (budget : ℕ∞) := by
    simpa using counted
  have finite := Set.finite_of_encard_eq_coe full
  have fewer := finite.encard_lt_encard strict
  rw [← counted] at small
  simp at small
  exact absurd small (not_le.mpr fewer)

end Codegraph.PointsTo
