import Codegraph.PointsTo.LeastSolution

namespace Codegraph.PointsTo

open Library List

/-- The variables with an entry are those defined so far, and a cell with an entry holds something. -/
structure Keyed (solver : FunctionSolver) : Prop where
  entry : ∀ param ∈ solver.ir.receiver.toList ++ solver.ir.params, (solver.table.ptsOf param).isSome = true
  defined : ∀ (idx : Nat) op var, solver.ir.body[idx]? = some op → definedVar op = some var →
    idx ∈ solver.dirty.queue ∨ (solver.table.ptsOf var).isSome = true
  vars : ∀ var, (solver.table.ptsOf var).isSome = true →
    var ∈ solver.ir.receiver.toList ++ solver.ir.params ∨
      ∃ (idx : Nat) (op : IrOp), solver.ir.body[idx]? = some op ∧ definedVar op = some var
  cells : solver.budget.exhausted = false → ∀ cell, (solver.table.fieldPts cell).isSome = true →
    ∃ loc, .stores cell loc ∈ solver.table.facts

theorem addToVar_keys (solver : FunctionSolver) (var other : Var) (locs : List AbstractLocation) :
    ((solver.addToVar var locs).1.table.ptsOf other).isSome = true ↔
      (solver.table.ptsOf other).isSome = true ∨ var = other := by
  change ((solver.table.vars.set var _).get other).isSome = true ↔ _
  rw [Dict.get_set]
  by_cases same : other = var
  · simp [same]
  · simp [same, Ne.symm same, PointsToTable.ptsOf]

theorem foldl_addToCell_keys (solver : FunctionSolver) (cells values : List AbstractLocation)
    (cell : AbstractLocation) :
    let next := cells.foldl (fun solver cell => solver.addToCell cell values) solver
    next.table.vars = solver.table.vars ∧ ((next.table.fieldPts cell).isSome = true →
      (solver.table.fieldPts cell).isSome = true ∨ cell ∈ cells) := by
  induction cells generalizing solver with
  | nil => exact ⟨rfl, .inl⟩
  | cons head cells ih =>
    obtain ⟨vars, keys⟩ := ih (solver.addToCell head values)
    refine ⟨vars, fun present => ?_⟩
    rcases keys present with before | later
    · change ((solver.table.fields.set head _).get cell).isSome = true at before
      rw [Dict.get_set] at before
      split at before
      · rename_i same
        exact .inr (by simp [same])
      · exact .inl before
    · exact .inr (mem_cons_of_mem _ later)

/-- An evaluation makes an entry for the variable its operation defines and for the cells it
writes. -/
theorem eval_keys (solver : FunctionSolver) {idx : Nat} {op : IrOp}
    (fetched : solver.ir.body[idx]? = some op) :
    (∀ var, ((solver.eval idx).table.ptsOf var).isSome = true ↔
        (solver.table.ptsOf var).isSome = true ∨ definedVar op = some var) ∧
      ∀ cell, ((solver.eval idx).table.fieldPts cell).isSome = true →
        (solver.table.fieldPts cell).isSome = true ∨
          ∃ loc, .stores cell loc ∈ asked solver.owner solver.table.facts idx op := by
  have defines (dst : Var) (locs : List AbstractLocation) :
      (∀ var, ((solver.addToVar dst locs).1.table.ptsOf var).isSome = true ↔
          (solver.table.ptsOf var).isSome = true ∨ some dst = some var) ∧
        ∀ cell, ((solver.addToVar dst locs).1.table.fieldPts cell).isSome = true →
          (solver.table.fieldPts cell).isSome = true ∨
            ∃ loc, .stores cell loc ∈ asked solver.owner solver.table.facts idx op :=
    ⟨fun var => by rw [addToVar_keys, Option.some.injEq], fun cell present => .inl present⟩
  have same : (∀ var, (solver.table.ptsOf var).isSome = true ↔
      (solver.table.ptsOf var).isSome = true ∨ (none : Option Var) = some var) ∧
      ∀ cell, (solver.table.fieldPts cell).isSome = true → (solver.table.fieldPts cell).isSome = true ∨
          ∃ loc, .stores cell loc ∈ asked solver.owner solver.table.facts idx op :=
    ⟨by simp, fun cell present => .inl present⟩
  rw [FunctionSolver.eval, fetched]
  cases op with
  | assign dst src => cases src <;> exact defines dst _
  | binOp dst lhs op rhs => exact defines dst _
  | call dst callee receiver args =>
    cases dst with
    | none => exact same
    | some dst => exact defines dst _
  | fieldRead dst base field => exact defines dst _
  | fieldWrite base field src =>
    unfold FunctionSolver.evalFieldWrite
    dsimp only
    cases values : solver.storedValues idx src with
    | nil => exact same
    | cons value rest =>
      rw [if_neg (by simp)]
      have keys (cell : AbstractLocation) := foldl_addToCell_keys solver
        ((solver.operandPts base).map fun loc => fieldCell loc field) (value :: rest) cell
      simp only [foldl_map] at keys
      constructor
      · intro var
        rw [PointsToTable.ptsOf, (keys (.heap solver.owner 0)).1]
        simp [definedVar, PointsToTable.ptsOf]
      intro cell present
      apply ((keys cell).2 present).imp_right
      intro mem
      obtain ⟨loc, known, rfl⟩ := mem_map.mp mem
      have written : value ∈ stored solver.owner solver.table.facts idx src := by
        rw [← mem_storedValues, values]
        simp
      exact ⟨value, loc, (mem_operandPts solver base loc).mp known, value, written, rfl⟩
  | _ => exact same

theorem solveStep_keyed (solver next : FunctionSolver) (state : Indexing solver ∧ Keyed solver)
    (moved : solver.solveStep = some next) : Indexing next ∧ Keyed next := by
  obtain ⟨indexing, keyed⟩ := state
  refine ⟨solveStep_indexing solver next indexing moved, ?_⟩
  obtain ⟨⟨idx, rest⟩, popped, rfl⟩ := Option.map_eq_some_iff.mp moved
  obtain ⟨queued, length⟩ := WorkQueue.pop_some popped
  have inside : idx < solver.ir.body.length := by
    rw [← indexing.pending]
    exact solver.dirty.mem_lt (by rw [queued]; simp)
  have fetched := getElem?_eq_getElem inside
  have grown := @eval_grows { solver with dirty := rest }
    ⟨indexing.index, length.trans indexing.pending⟩ idx _ fetched
  obtain ⟨vars, cells⟩ := eval_keys { solver with dirty := rest } fetched
  refine ⟨?_, ?_, ?_, ?_⟩
  · rw [grown.ir]
    exact fun param mem => (vars param).mpr (.inl (keyed.entry param mem))
  · intro other op var fetched' defines
    rw [grown.ir] at fetched'
    by_cases same : other = idx
    · subst same
      have ops := Option.some.inj (fetched'.symm.trans fetched)
      exact .inr ((vars var).mpr (.inr (ops ▸ defines)))
    rcases keyed.defined other op var fetched' defines with pending | present
    · rw [queued] at pending
      exact .inl (grown.queued other (mem_of_ne_of_mem same pending))
    · exact .inr ((vars var).mpr (.inl present))
  · intro var present
    rw [grown.ir]
    rcases (vars var).mp present with before | defines
    · exact keyed.vars var before
    · exact .inr ⟨idx, _, fetched, defines⟩
  · intro left cell present
    rcases cells cell present with before | ⟨loc, wanted⟩
    · obtain ⟨loc, held⟩ := keyed.cells (grown.enough left) cell before
      exact ⟨loc, grown.mono held⟩
    · exact ⟨loc, grown.complete left wanted⟩

theorem foldl_seed_keys (solver : FunctionSolver) (owner : NodeId) (params : List Var) :
    let next := params.foldl
      (fun solver param => (solver.addToVar param [.param owner param.asStr]).1) solver
    next.table.fields = solver.table.fields ∧ ∀ var, (next.table.ptsOf var).isSome = true ↔
      (solver.table.ptsOf var).isSome = true ∨ var ∈ params := by
  induction params generalizing solver with
  | nil => exact ⟨rfl, by simp⟩
  | cons param params ih =>
    obtain ⟨fields, vars⟩ := ih (solver.addToVar param [.param owner param.asStr]).1
    refine ⟨fields, fun var => ?_⟩
    rw [foldl_cons, vars, addToVar_keys, or_assoc, mem_cons]
    simp only [eq_comm]

theorem new_keyed (owner : NodeId) (ir : IrFunction) (budget : Nat) :
    Keyed (FunctionSolver.new owner ir budget) := by
  have grown := new_grows owner ir budget
  obtain ⟨fields, vars⟩ := foldl_seed_keys (blank owner ir budget) owner
    (ir.receiver.toList ++ ir.params)
  change (FunctionSolver.new owner ir budget).table.fields = _ at fields
  have none (var : Var) : ¬ ((blank owner ir budget).table.ptsOf var).isSome = true := by
    simp [blank, PointsToTable.ptsOf]
  refine ⟨?_, ?_, ?_, ?_⟩
  · rw [grown.ir]
    exact fun param mem => (vars param).mpr (.inr mem)
  · intro idx op var fetched _
    rw [grown.ir] at fetched
    have inside := (List.getElem?_eq_some_iff.mp fetched).1
    exact .inl (grown.queued idx (by simpa [blank] using inside))
  · intro var present
    rw [grown.ir]
    exact .inl (((vars var).mp present).resolve_left (none var))
  · intro _ cell present
    rw [PointsToTable.fieldPts, fields] at present
    simp [blank] at present

theorem analyze_keys (owner : NodeId) (ir : IrFunction) (budget : Nat) :
    (∀ var, ((analyzeWithBudget owner ir budget).ptsOf var).isSome = true ↔
        var ∈ ir.receiver.toList ++ ir.params ∨
          ∃ (idx : Nat) (op : IrOp), ir.body[idx]? = some op ∧ definedVar op = some var) ∧
      ((analyzeWithBudget owner ir budget).converged = true → ∀ cell,
        ((analyzeWithBudget owner ir budget).fieldPts cell).isSome = true ↔
          ∃ loc, .stores cell loc ∈ (analyzeWithBudget owner ir budget).facts) := by
  have indexing := (new_saturating owner ir budget).toIndexing
  obtain ⟨-, keyed⟩ := (solve_halts indexing).preserves solveStep_keyed
    ⟨indexing, new_keyed owner ir budget⟩
  have function := (solve_paid owner ir budget).function
  have drained := solve_drained indexing
  constructor
  · intro var
    change ((FunctionSolver.new owner ir budget).solve.table.ptsOf var).isSome = true ↔ _
    constructor
    · intro present
      have known := keyed.vars var present
      rwa [function] at known
    intro known
    rcases known with param | ⟨idx, op, fetched, defines⟩
    · exact keyed.entry var (by rw [function]; exact param)
    have present := keyed.defined idx op var (by rw [function]; exact fetched) defines
    rw [drained] at present
    simpa using present
  intro converged cell
  have enough : (FunctionSolver.new owner ir budget).solve.budget.exhausted = false := by
    simpa [analyzeWithBudget, FunctionSolver.intoTable] using converged
  constructor
  · exact keyed.cells enough cell
  rintro ⟨loc, held⟩
  change loc ∈ (Dict.getD _ cell ListSet.empty).members at held
  unfold PointsToTable.fieldPts
  cases present : (analyzeWithBudget owner ir budget).fields.get cell with
  | none => simp [Dict.getD, present] at held
  | some set => rfl

/-- The sites of a location under a renumbering of the operations. -/
def renumber (order : Equiv.Perm Nat) : AbstractLocation → AbstractLocation
  | .heap owner site => .heap owner (order site)
  | .param owner name => .param owner name
  | .literal owner site => .literal owner (order site)
  | .field base name => .field (renumber order base) name

def renumberFact (order : Equiv.Perm Nat) : Fact → Fact
  | .points var loc => .points var (renumber order loc)
  | .stores cell loc => .stores (renumber order cell) (renumber order loc)

/-- The second function has the operations of the first in another order. -/
structure Permuted (order : Equiv.Perm Nat) (ir ir' : IrFunction) : Prop where
  receiver : ir'.receiver = ir.receiver
  params : ir'.params = ir.params
  body : ∀ idx, ir'.body[order idx]? = ir.body[idx]?

variable (order : Equiv.Perm Nat)

variable (loc : AbstractLocation)

theorem renumber_symm : renumber order.symm (renumber order loc) = loc := by
  induction loc with
  | field base name ih => simp [renumber, ih]
  | _ => simp [renumber]

theorem renumber_depth : depth (renumber order loc) = depth loc := by
  induction loc with
  | field base name ih => simp [renumber, depth, ih]
  | _ => rfl

theorem renumber_fieldCell (field : String) :
    renumber order (fieldCell loc field) = fieldCell (renumber order loc) field := by
  unfold fieldCell
  rw [renumber_depth]
  split <;> rfl

theorem renumberFact_symm (fact : Fact) : renumberFact order.symm (renumberFact order fact) = fact := by
  cases fact <;> simp [renumberFact, renumber_symm]

theorem renumberFact_injective : Function.Injective (renumberFact order) :=
  Function.LeftInverse.injective (renumberFact_symm order)

variable (facts : Set Fact)

theorem pts_renumber (operand : Operand) :
    pts (renumberFact order '' facts) operand = renumber order '' pts facts operand := by
  ext loc
  constructor
  · intro ⟨var, named, fact, held, same⟩
    cases fact with
    | stores cell value => simp [renumberFact] at same
    | points var' loc' =>
      simp only [renumberFact, Fact.points.injEq] at same
      obtain ⟨rfl, rfl⟩ := same
      exact ⟨loc', ⟨var', named, held⟩, rfl⟩
  intro ⟨loc', ⟨var, named, held⟩, same⟩
  subst same
  exact ⟨var, named, _, held, rfl⟩

theorem stored_renumber (owner : NodeId) (facts : Set Fact) (idx : Nat)
    (src : Operand) : stored owner (renumberFact order '' facts) (order idx) src =
      renumber order '' stored owner facts idx src := by
  cases src with
  | const text => simp [stored, renumber]
  | var var => exact pts_renumber order facts _
  | temp number => exact pts_renumber order facts _

theorem pointsTo_renumber (var : Var) (locs : Set AbstractLocation) :
    renumberFact order '' pointsTo var locs = pointsTo var (renumber order '' locs) := by
  unfold pointsTo
  rw [Set.image_image, Set.image_image]
  rfl

theorem stores_renumber (cell loc : AbstractLocation) :
    .stores (renumber order cell) (renumber order loc) ∈ renumberFact order '' facts ↔
      .stores cell loc ∈ facts :=
  (renumberFact_injective order).mem_set_image (a := .stores cell loc)

theorem asked_renumber (owner : NodeId) (facts : Set Fact) (idx : Nat)
    (op : IrOp) : asked owner (renumberFact order '' facts) (order idx) op =
      renumberFact order '' asked owner facts idx op := by
  cases op with
  | assign dst src =>
    cases src with
    | const text => simp [asked, pointsTo_renumber, renumber]
    | var src => simp [asked, pointsTo_renumber, pts_renumber]
    | temp src => simp [asked, pointsTo_renumber, pts_renumber]
  | binOp dst lhs op rhs => simp [asked, pointsTo_renumber, renumber]
  | call dst callee receiver args => cases dst <;> simp [asked, pointsTo_renumber, renumber]
  | fieldRead dst base field =>
    simp only [asked, pointsTo_renumber, pts_renumber]
    congr 1
    ext value
    constructor
    · rintro ⟨_, ⟨loc, mem, rfl⟩, known⟩
      rw [← renumber_fieldCell] at known
      rcases known with rfl | ⟨fact, held, same⟩
      · exact ⟨_, ⟨loc, mem, .inl rfl⟩, rfl⟩
      cases fact with
      | points var loc => simp [renumberFact] at same
      | stores cell content =>
        simp only [renumberFact, Fact.stores.injEq] at same
        obtain ⟨cells, rfl⟩ := same
        have sameCell : cell = fieldCell loc field := by
          rw [← renumber_symm order cell, cells, renumber_symm]
        exact ⟨content, ⟨loc, mem, .inr (sameCell ▸ held)⟩, rfl⟩
    rintro ⟨content, ⟨loc, mem, known⟩, same⟩
    subst same
    refine ⟨_, ⟨loc, mem, rfl⟩, ?_⟩
    rw [← renumber_fieldCell]
    rcases known with rfl | held
    · exact .inl rfl
    · exact .inr ((stores_renumber order facts _ _).mpr held)
  | fieldWrite base field src =>
    simp only [asked, pts_renumber, stored_renumber]
    ext fact
    constructor
    · rintro ⟨_, ⟨loc, mem, rfl⟩, _, ⟨value, written, rfl⟩, made⟩
      rw [← renumber_fieldCell] at made
      exact ⟨_, ⟨loc, mem, value, written, rfl⟩, made⟩
    rintro ⟨_, ⟨loc, mem, value, written, rfl⟩, made⟩
    subst made
    refine ⟨_, ⟨loc, mem, rfl⟩, _, ⟨value, written, rfl⟩, ?_⟩
    rw [← renumber_fieldCell]
    rfl
  | _ => simp [asked]

theorem isSolution_renumber {order : Equiv.Perm Nat} {owner : NodeId} {ir ir' : IrFunction}
    (permuted : Permuted order ir ir') {facts : Set Fact} (solves : IsSolution owner ir facts) :
    IsSolution owner ir' (renumberFact order '' facts) := by
  constructor
  · intro param mem
    rw [permuted.receiver, permuted.params] at mem
    exact ⟨_, solves.seeded param mem, rfl⟩
  intro idx op fetched
  obtain ⟨idx, rfl⟩ := order.surjective idx
  rw [permuted.body] at fetched
  rw [opHolds_iff_asked, asked_renumber]
  exact Set.image_mono ((opHolds_iff_asked _ _ _ _).mp (solves.holds idx op fetched))

theorem Permuted.symm {order : Equiv.Perm Nat} {ir ir' : IrFunction}
    (permuted : Permuted order ir ir') : Permuted order.symm ir' ir :=
  ⟨permuted.receiver.symm, permuted.params.symm, fun idx => by
    rw [← permuted.body, Equiv.apply_symm_apply]⟩

theorem image_renumber_symm :
    renumberFact order '' (renumberFact order.symm '' facts) = facts := by
  rw [Set.image_image]
  have inverse (fact : Fact) : renumberFact order (renumberFact order.symm fact) = fact :=
    renumberFact_symm order.symm fact
  simp [inverse]

/-- The loop ends. A converged table holds exactly the least solution of the constraints, with an
entry for each variable the function defines and each cell that holds something, and the operations
in another order have the same table up to the numbers of their sites. -/
theorem analyze_exact (owner : NodeId) (ir : IrFunction) (budget : Nat) :
    Halts FunctionSolver.solveStep (FunctionSolver.new owner ir budget)
        (FunctionSolver.new owner ir budget).solve ∧
      (∀ var, ((analyzeWithBudget owner ir budget).ptsOf var).isSome = true ↔
        var ∈ ir.receiver.toList ++ ir.params ∨
          ∃ (idx : Nat) (op : IrOp), ir.body[idx]? = some op ∧ definedVar op = some var) ∧
      ((analyzeWithBudget owner ir budget).converged = true →
        IsLeast {solution | IsSolution owner ir solution}
            (analyzeWithBudget owner ir budget).facts ∧
          ∀ cell, ((analyzeWithBudget owner ir budget).fieldPts cell).isSome = true ↔
            ∃ loc, .stores cell loc ∈ (analyzeWithBudget owner ir budget).facts) ∧
      ∀ (order : Equiv.Perm Nat) (ir' : IrFunction), Permuted order ir ir' →
        (analyzeWithBudget owner ir budget).converged = true →
        (analyzeWithBudget owner ir' budget).converged = true ∧ (analyzeWithBudget owner ir' budget).facts =
            renumberFact order '' (analyzeWithBudget owner ir budget).facts := by
  obtain ⟨vars, cells⟩ := analyze_keys owner ir budget
  refine ⟨solve_halts (new_saturating owner ir budget).toIndexing, vars,
    fun converged => ⟨analyze_least owner ir budget converged, cells converged⟩, ?_⟩
  intro order ir' permuted converged
  have least := analyze_least owner ir budget converged
  obtain ⟨solution, solves, small⟩ := (analyze_converged_iff owner ir budget).mp converged
  have converged' : (analyzeWithBudget owner ir' budget).converged = true := by
    rw [analyze_converged_iff]
    refine ⟨_, isSolution_renumber permuted solves, ?_⟩
    rwa [(renumberFact_injective order).encard_image]
  have least' := analyze_least owner ir' budget converged'
  refine ⟨converged', Set.Subset.antisymm (least'.2 (isSolution_renumber permuted least.1)) ?_⟩
  have back := Set.image_mono (f := renumberFact order)
    (least.2 (isSolution_renumber permuted.symm least'.1))
  rwa [image_renumber_symm] at back

end Codegraph.PointsTo
