import Codegraph.Graph.Nodes
import Codegraph.Ir.Model
import Codegraph.Library.Iteration
import Codegraph.Library.ListSet
import Codegraph.Library.WorkQueue

namespace Codegraph

open Library

/-- Root locations are named within the function that owns them. -/
inductive AbstractLocation where
  | heap (owner : NodeId) (site : Nat)
  | param (owner : NodeId) (name : String)
  | literal (owner : NodeId) (site : Nat)
  | field (base : AbstractLocation) (name : String)
deriving DecidableEq

namespace PointsTo

/-- A location nests at most this many fields. -/
def maxFieldDepth : Nat := 4

/-- The most facts the solution of one function may have. -/
def factBudget : Nat := 2 ^ 20

def depth : AbstractLocation → Nat
  | .field base _ => depth base + 1
  | _ => 0

/-- A cell at the depth limit is its own field. -/
def fieldCell (base : AbstractLocation) (field : String) : AbstractLocation :=
  if maxFieldDepth ≤ depth base then base else .field base field

/-- The variable an operand names, which a constant has not. -/
def operandVar : Operand → Option Var
  | .var var => some var
  | .temp number => some ⟨"__t" ++ toString number⟩
  | .const _ => none

structure PointsToTable where
  vars : Dict Var (ListSet AbstractLocation) := ∅
  fields : Dict AbstractLocation (ListSet AbstractLocation) := ∅
  converged : Bool := true

namespace PointsToTable

def ptsOf (table : PointsToTable) (var : Var) : Option (ListSet AbstractLocation) := table.vars.get var

def fieldPts (table : PointsToTable) (cell : AbstractLocation) :
    Option (ListSet AbstractLocation) := table.fields.get cell

end PointsToTable

/-- The operations that must run again when a points-to set grows. -/
structure UseIndex where
  varReaders : Dict Var (List Nat) := ∅
  fieldReaders : Dict String (List Nat) := ∅
  allFieldReaders : List Nat := []

namespace UseIndex

def reads (index : UseIndex) (operand : Operand) (idx : Nat) : UseIndex :=
  match operandVar operand with
  | some var => { index with varReaders := index.varReaders.update var [] fun ops => ops ++ [idx] }
  | none => index

def add (index : UseIndex) (entry : IrOp × Nat) : UseIndex :=
  match entry.1 with
  | .assign _ src => index.reads src entry.2
  | .fieldRead _ base field =>
    let index := index.reads base entry.2
    { index with
      fieldReaders := index.fieldReaders.update field [] fun ops => ops ++ [entry.2]
      allFieldReaders := index.allFieldReaders ++ [entry.2] }
  | .fieldWrite base _ src => (index.reads base entry.2).reads src entry.2
  | _ => index

def build (ir : IrFunction) : UseIndex := ir.body.zipIdx.foldl add {}

def readersOfVar (index : UseIndex) (var : Var) : List Nat := index.varReaders.getD var []

/-- A summary cell at the depth limit can be the cell of any field. -/
def readersOfCell (index : UseIndex) (cell : AbstractLocation) : List Nat :=
  match cell with
  | .field base name =>
    if depth (.field base name) < maxFieldDepth then index.fieldReaders.getD name []
    else index.allFieldReaders
  | _ => index.allFieldReaders

end UseIndex

structure Budget where
  remaining : Nat
  exhausted : Bool
deriving DecidableEq

/-- A new fact costs one unit, and the budget is exhausted when it cannot be paid. -/
def Budget.spend (budget : Budget) : Bool × Budget :=
  if budget.remaining = 0 then (false, { budget with exhausted := true })
  else (true, { budget with remaining := budget.remaining - 1 })

structure Absorbed where
  set : ListSet AbstractLocation
  budget : Budget
  grew : Bool

/-- The insertion stops at the first new location that cannot be paid. -/
def absorb (set : ListSet AbstractLocation) (budget : Budget) (grew : Bool) : List AbstractLocation → Absorbed
  | [] => ⟨set, budget, grew⟩
  | loc :: locs =>
    if loc ∈ set.members then absorb set budget grew locs
    else
      match budget.spend with
      | (false, budget) => ⟨set, budget, grew⟩
      | (true, budget) => absorb (set.insert loc) budget true locs

structure FunctionSolver where
  owner : NodeId
  ir : IrFunction
  index : UseIndex
  dirty : WorkQueue
  table : PointsToTable
  budget : Budget

namespace FunctionSolver

def addToVar (solver : FunctionSolver) (var : Var) (locs : List AbstractLocation) : FunctionSolver × Bool :=
  let absorbed := absorb (solver.table.vars.getD var .empty) solver.budget false locs
  ({ solver with
      table := { solver.table with vars := solver.table.vars.set var absorbed.set }
      budget := absorbed.budget
      dirty := if absorbed.grew then solver.dirty.pushAll (solver.index.readersOfVar var)
        else solver.dirty },
    absorbed.grew)

def addToCell (solver : FunctionSolver) (cell : AbstractLocation) (locs : List AbstractLocation) :
    FunctionSolver :=
  let absorbed := absorb (solver.table.fields.getD cell .empty) solver.budget false locs
  { solver with
    table := { solver.table with fields := solver.table.fields.set cell absorbed.set }
    budget := absorbed.budget
    dirty := if absorbed.grew then solver.dirty.pushAll (solver.index.readersOfCell cell)
      else solver.dirty }

/-- The receiver and each parameter point to their own location, and every operation is pending. -/
def new (owner : NodeId) (ir : IrFunction) (budget : Nat) : FunctionSolver :=
  (ir.receiver.toList ++ ir.params).foldl
    (fun solver param => (solver.addToVar param [.param owner param.asStr]).1)
    { owner := owner
      ir := ir
      index := UseIndex.build ir
      dirty := WorkQueue.all ir.body.length
      table := {}
      budget := ⟨budget, false⟩ }

def intoTable (solver : FunctionSolver) : PointsToTable :=
  { solver.table with converged := !solver.budget.exhausted }

def seed (solver : FunctionSolver) (var : Var) (locs : ListSet AbstractLocation) :
    FunctionSolver × Bool := solver.addToVar var locs.members

/-- Constants point nowhere. -/
def operandPts (solver : FunctionSolver) (operand : Operand) : List AbstractLocation :=
  match operandVar operand with
  | some var => (solver.table.vars.getD var .empty).members
  | none => []

/-- Each cell, with what was stored into it. -/
def evalFieldRead (solver : FunctionSolver) (dst : Var) (base : Operand) (field : String) : FunctionSolver :=
  let locs := (solver.operandPts base).flatMap fun loc =>
    (solver.table.fields.getD (fieldCell loc field) .empty).members ++ [fieldCell loc field]
  (solver.addToVar dst locs).1

/-- A constant source is the literal made by the operation. -/
def storedValues (solver : FunctionSolver) (idx : Nat) (src : Operand) : List AbstractLocation :=
  match src with
  | .const _ => [.literal solver.owner idx]
  | src => solver.operandPts src

def evalFieldWrite (solver : FunctionSolver) (idx : Nat) (base : Operand) (field : String)
    (src : Operand) : FunctionSolver :=
  let values := solver.storedValues idx src
  if values = [] then solver
  else
    (solver.operandPts base).foldl (fun solver loc => solver.addToCell (fieldCell loc field) values)
      solver

def eval (solver : FunctionSolver) (idx : Nat) : FunctionSolver :=
  match solver.ir.body[idx]? with
  | some (.assign dst (.const _)) | some (.binOp dst _ _ _) =>
    (solver.addToVar dst [.literal solver.owner idx]).1
  | some (.assign dst src) => (solver.addToVar dst (solver.operandPts src)).1
  | some (.call (some dst) _ _ _) => (solver.addToVar dst [.heap solver.owner idx]).1
  | some (.fieldRead dst base field) => solver.evalFieldRead dst base field
  | some (.fieldWrite base field src) => solver.evalFieldWrite idx base field src
  | _ => solver

def solveStep (solver : FunctionSolver) : Option FunctionSolver :=
  solver.dirty.pop.map fun popped => { solver with dirty := popped.2 }.eval popped.1

/-- Every fact costs a unit of the budget, and an operation that adds none leaves the queue. -/
def solveFuel (solver : FunctionSolver) : Nat :=
  worklistMeasure solver.dirty.pending.length solver.budget.remaining solver.dirty.queue.length

def solve (solver : FunctionSolver) : FunctionSolver := loop solveStep solver.solveFuel solver

end FunctionSolver

/-- The points-to table of a lone function. -/
def analyzeWithBudget (owner : NodeId) (ir : IrFunction) (budget : Nat) : PointsToTable :=
  (FunctionSolver.new owner ir budget).solve.intoTable

end PointsTo

end Codegraph
