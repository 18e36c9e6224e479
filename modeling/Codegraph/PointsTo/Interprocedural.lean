import Codegraph.PointsTo.Solver

namespace Codegraph.PointsTo

open Library

/-- How the name of a callee is qualified. -/
inductive Qualifier where
  | bare
  | path (segment : String)
  | member (segment : String)
deriving DecidableEq

/-- A callee text split into its name and qualifier. -/
structure CalleeText where
  name : String
  qualifier : Qualifier
  onSelfField : Bool
deriving DecidableEq

/-- A function as a call target, with the module segments its file lies in. -/
structure Target where
  name : String
  owner : Option String
  typeOwned : Bool
  livesInModule : String → Bool

inductive Evidence where
  | against
  | none
  | for
deriving DecidableEq

def Evidence.rank : Evidence → Nat
  | .against => 0
  | .none => 1
  | .for => 2

/-- How strongly the text names the target. -/
def evidence (text : CalleeText) (target : Target) (callerOwner : Option String) : Evidence :=
  let sameOwner := target.owner.isSome && target.owner = callerOwner
  if text.onSelfField && sameOwner then .against
  else
    let ownOwner := if sameOwner then Evidence.for else .none
    match text.qualifier with
    | .bare => if target.typeOwned then .against else ownOwner
    | .path segment =>
      if segment ∈ ["", "crate", "super", "self"] then .none
      else if segment = "Self" then ownOwner
      else
        match target.owner with
        | some owner => if owner = segment then .for else .against
        | none => if target.livesInModule segment then .for else .against
    | .member segment =>
      if segment ∈ ["self", "this"] then ownOwner
      else if segment = "" then .none
      else
        match target.owner with
        | some owner => if owner = segment then .for else .none
        | none => if target.livesInModule segment then .for else .none

/-- The receiver operand of an instance call is the receiver of the callee. -/
def isInstanceCall (qualifier : Qualifier) (target : Target) : Bool :=
  match qualifier with
  | .member segment => target.owner ≠ some segment
  | .bare | .path _ => false

/-- The best target so far and whether another one equals it. -/
def pickStep (text : CalleeText) (targets : List Target) (callerOwner : Option String)
    (state : Option (Evidence × Nat) × Bool) (callee : Nat) : Option (Evidence × Nat) × Bool :=
  match targets[callee]? with
  | none => state
  | some target =>
    if target.name ≠ text.name then state
    else
      let ev := evidence text target callerOwner
      if ev = .against then state
      else
        match state.1 with
        | some (best, _) =>
          if ev.rank < best.rank then state
          else if ev = best then (state.1, true)
          else (some (ev, callee), false)
        | none => (some (ev, callee), false)

/-- The one target among the callees that the text calls, if exactly one fits. -/
def pick (text : CalleeText) (callees : List Nat) (targets : List Target)
    (callerOwner : Option String) : Option Nat :=
  let picked := callees.foldl (pickStep text targets callerOwner) (none, false)
  if picked.2 then none else picked.1.map Prod.snd

/-- One call operation bound to the function it calls. -/
structure Site where
  op : Nat
  callee : Nat
  instance' : Bool
deriving DecidableEq

/-- Every bound call site, indexed by caller and by callee. -/
structure CallBindings where
  out : List (List Site)
  into : List (List (Nat × Nat))
deriving DecidableEq

namespace CallBindings

def add (bindings : CallBindings) (caller : Nat) (site : Site) : CallBindings :=
  { out := bindings.out.modify caller fun sites => sites ++ [site]
    into := bindings.into.modify site.callee fun callers => callers ++ [(caller, site.op)] }

/-- The site that a call operation binds to. The text is split by the parser of callee texts. -/
def siteOf (parse : String → Option CalleeText) (targets : List Target) (callees : List Nat)
    (caller : Nat) (entry : IrOp × Nat) : Option Site :=
  match entry.1 with
  | .call _ callee _ _ =>
    (parse callee).bind fun text =>
      (pick text callees targets ((targets[caller]?).bind Target.owner)).bind fun target =>
        (targets[target]?).map fun known =>
          { op := entry.2, callee := target, instance' := isInstanceCall text.qualifier known }
  | _ => none

/-- The positions of the functions that the call edges of one function lead to. -/
def calleesOf (calls : NodeId → List NodeId) (functions : List (NodeId × IrFunction))
    (caller : NodeId) : List Nat :=
  (((calls caller).filterMap fun target =>
    functions.findIdx? fun entry => entry.1 = target).mergeSort).dedup

/-- The sites of the functions at some positions are added in order. -/
def addAll (parse : String → Option CalleeText) (targets : List Target)
    (calls : NodeId → List NodeId) (functions : List (NodeId × IrFunction))
    (bindings : CallBindings) (entry : (NodeId × IrFunction) × Nat) : CallBindings :=
  (entry.1.2.body.zipIdx.filterMap
      (siteOf parse targets (calleesOf calls functions entry.1.1) entry.2)).foldl
    (fun bindings site => bindings.add entry.2 site) bindings

/-- The callees of a function are the targets of its call edges. -/
def build (parse : String → Option CalleeText) (targets : List Target)
    (calls : NodeId → List NodeId) (functions : List (NodeId × IrFunction)) : CallBindings :=
  functions.zipIdx.foldl (addAll parse targets calls functions)
    { out := List.replicate functions.length []
      into := List.replicate functions.length [] }

end CallBindings

/-- The pairs of a callee variable and a caller operand that a bound call passes. -/
def argumentPairs (site : Site) (receiver : Option Operand) (args : List Operand)
    (callee : IrFunction) : List (Var × Operand) :=
  match callee.receiver with
  | some selfVar =>
    if site.instance' then
      (receiver.toList.map fun passed => (selfVar, passed)) ++ callee.params.zip args
    else if args.length = callee.params.length + 1 then
      ((args.take 1).map fun passed => (selfVar, passed)) ++ callee.params.zip (args.drop 1)
    else callee.params.zip args
  | none => callee.params.zip args

/-- A constant and a variable without an entry have no points-to set. -/
def operandPts (table : PointsToTable) (operand : Operand) : Option (ListSet AbstractLocation) :=
  (operandVar operand).bind table.vars.get

/-- The locations of every value the function returns. -/
def returnedPts (ir : IrFunction) (table : PointsToTable) : ListSet AbstractLocation :=
  ir.body.foldl (fun returned op =>
      match op with
      | .ret (some value) =>
        match operandPts table value with
        | some locs => returned.extend locs.members
        | none => returned
      | _ => returned)
    .empty

/-- The sets of the operands that are passed to variables. -/
def passed (table : PointsToTable) (pairs : List (Var × Operand)) : List (Var × ListSet AbstractLocation) :=
  pairs.filterMap fun pair => (operandPts table pair.2).map fun locs => (pair.1, locs)

def totalSize (seeds : List (Var × ListSet AbstractLocation)) : Nat :=
  (seeds.map fun seed => seed.2.size).sum

/-- The flag tells whether some set grew. -/
def FunctionSolver.seedAll (solver : FunctionSolver) (seeds : List (Var × ListSet AbstractLocation)) :
    FunctionSolver × Bool :=
  seeds.foldl (fun seeded seed =>
      let next := seeded.1.seed seed.1 seed.2
      (next.1, seeded.2 || next.2))
    (solver, false)

/-- The solver of each function, the sizes of the sets it last pushed, and the functions to solve. -/
structure Propagation where
  solvers : List FunctionSolver
  pushedArgs : List (List Nat)
  pushedReturns : List Nat
  dirty : WorkQueue

namespace Propagation

def start (bindings : CallBindings) (functions : List (NodeId × IrFunction)) : Propagation :=
  { solvers := functions.map fun entry => FunctionSolver.new entry.1 entry.2 factBudget
    pushedArgs := bindings.out.map fun sites => List.replicate sites.length 0
    pushedReturns := List.replicate functions.length 0
    dirty := WorkQueue.all functions.length }

/-- A function that grew is pending. -/
def deliver (state : Propagation) (target : Nat) (seeds : List (Var × ListSet AbstractLocation)) :
    Propagation :=
  match state.solvers[target]? with
  | none => state
  | some solver =>
    let seeded := solver.seedAll seeds
    { state with
      solvers := state.solvers.set target seeded.1
      dirty := if seeded.2 then state.dirty.push target else state.dirty }

/-- The size last pushed from a site. -/
def pushedAt (state : Propagation) (caller index : Nat) : Nat :=
  (state.pushedArgs.getD caller []).getD index 0

def setPushed (state : Propagation) (caller index size : Nat) : Propagation :=
  { state with pushedArgs := state.pushedArgs.modify caller fun sizes => sizes.set index size }

/-- The callee is seeded unless the passed sets are no larger than at the last push. -/
def pushArguments (state : Propagation) (caller : Nat) (entry : Site × Nat) : Propagation :=
  match state.solvers[caller]?, state.solvers[entry.1.callee]? with
  | some solver, some callee =>
    match solver.ir.body[entry.1.op]? with
    | some (.call _ _ receiver args) =>
      let seeds := passed solver.table (argumentPairs entry.1 receiver args callee.ir)
      if totalSize seeds = state.pushedAt caller entry.2 then state
      else (state.setPushed caller entry.2 (totalSize seeds)).deliver entry.1.callee seeds
    | _ => state
  | _, _ => state

/-- The destination of a call receives what the callee returns. -/
def pushReturn (returned : ListSet AbstractLocation) (state : Propagation) (caller : Nat × Nat) :
    Propagation :=
  match state.solvers[caller.1]? with
  | none => state
  | some solver =>
    match solver.ir.body[caller.2]? with
    | some (.call (some dst) _ _ _) => state.deliver caller.1 [(dst, returned)]
    | _ => state

def pushSites (bindings : CallBindings) (state : Propagation) (func : Nat) : Propagation :=
  (bindings.out.getD func []).zipIdx.foldl (fun state entry => state.pushArguments func entry) state

/-- The callers are seeded unless the returned set is no larger than at the last push. -/
def pushReturns (bindings : CallBindings) (state : Propagation) (func : Nat) : Propagation :=
  let callers := bindings.into.getD func []
  match state.solvers[func]? with
  | none => state
  | some solver =>
    let returned := returnedPts solver.ir solver.table
    if callers = [] then state
    else if returned.size = state.pushedReturns.getD func 0 then state
    else callers.foldl (pushReturn returned)
      { state with pushedReturns := state.pushedReturns.set func returned.size }

def solveAt (state : Propagation) (func : Nat) : Propagation :=
  { state with solvers := state.solvers.modify func FunctionSolver.solve }

def step (bindings : CallBindings) (state : Propagation) : Option Propagation :=
  state.dirty.pop.map fun popped =>
    pushReturns bindings
      (pushSites bindings ({ state with dirty := popped.2 }.solveAt popped.1) popped.1) popped.1

/-- What the solvers can still add. -/
def remaining (state : Propagation) : Nat :=
  (state.solvers.map fun solver => solver.budget.remaining).sum

def fuel (state : Propagation) : Nat :=
  worklistMeasure state.dirty.pending.length state.remaining state.dirty.queue.length

def run (bindings : CallBindings) (state : Propagation) : Propagation :=
  loop (step bindings) state.fuel state

end Propagation

/-- Positions follow the order of the ids. -/
def sortedFunctions (irMap : Dict NodeId IrFunction) : List (NodeId × IrFunction) :=
  (irMap.entries.map fun entry => (entry.1, entry.2)).mergeSort
    fun first second => first.1.hash.toNat ≤ second.1.hash.toNat

/-- The tables of all functions. The graph gives the call targets and the call edges. -/
def analyzeInterprocedural (parse : String → Option CalleeText)
    (targets : List (NodeId × IrFunction) → List Target) (calls : NodeId → List NodeId)
    (irMap : Dict NodeId IrFunction) : Dict NodeId PointsToTable :=
  let functions := sortedFunctions irMap
  let bindings := CallBindings.build parse (targets functions) calls functions
  let final := (Propagation.start bindings functions).run bindings
  Dict.ofList ((functions.map Prod.fst).zip (final.solvers.map FunctionSolver.intoTable))

end Codegraph.PointsTo
