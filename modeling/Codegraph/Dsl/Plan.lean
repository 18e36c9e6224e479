/-
This file defines the operators and the expressions of the query language, and rewrites queries
before they are executed.
-/

import Codegraph.LabelReachability.Pattern

namespace Codegraph.Dsl

/-- A machine word that counts. -/
abbrev Usize := Fin (2 ^ 64)

/-- A count that does not fit stops at the largest word. -/
def Usize.saturating (count : Nat) : Usize := ⟨min count (2 ^ 64 - 1), by omega⟩

inductive Projection where
  | fields
  | signature
  | body
deriving DecidableEq

/-- The operators replace the working set, filter it or leave it as it is. -/
inductive DslOp where
  | selectFn (name : String)
  | selectType (name : String)
  | callers
  | callees
  | depth (limit : Usize)
  | filter (kind : NodeKind)
  | show (projection : Projection)
  | taint (source : String)
  | preconditions
  | since (revision : Nat)
  | reachableVia (pattern : List PatternAtom) (direction : ClosureDirection)
deriving DecidableEq

inductive SetOp where
  | union
  | intersect
  | diff
deriving DecidableEq

inductive PathMode where
  | shortest
  | allSimple
deriving DecidableEq

inductive EntrypointKind where
  | main
  | publicApi
  | test
  | bench
  | ffiExport
deriving DecidableEq

/-- The restrictions of a path query. -/
structure PathOptions where
  mode : PathMode
  intermediateKind : Option NodeKind := none
  viaEdge : Option EdgeKind := none
  maxDepth : Option Nat := none
deriving DecidableEq

inductive Expr where
  | pipe (ops : List DslOp)
  | pathQuery (options : PathOptions) (source target : Expr)
  | entrypoints (kind : Option EntrypointKind)
  | setOp (op : SetOp) (left right : Expr)
  | dominatorsOf (inner : Expr)
  | dominatesOf (inner : Expr)
  | traitImplsOf (inner : Expr)
  | pipeFrom (base : Expr) (ops : List DslOp)
  | multiPath (sources : List Expr) (target : Expr) (maxDepth : Option Nat)

/-- A run of equal traversals becomes one traversal with a depth. -/
def fuseFrom : Nat → List DslOp → List DslOp
  | 0, ops => ops
  | _, [] => []
  | fuel + 1, op :: rest =>
    if op = .callers ∨ op = .callees then
      let count := 1 + (rest.takeWhile fun other => decide (other = op)).length
      match rest.dropWhile fun other => decide (other = op) with
      | .depth limit :: after => op :: .depth (.saturating (count * limit.val)) :: fuseFrom fuel after
      | after =>
        if 1 < count then op :: .depth (.saturating count) :: fuseFrom fuel after
        else op :: fuseFrom fuel after
    else op :: fuseFrom fuel rest

/-- Every round of the loop consumes an operator. -/
def fuseDepths (ops : List DslOp) : List DslOp := fuseFrom ops.length ops

def isPureFilter : DslOp → Bool
  | .filter _ | .since _ => true
  | _ => false

def canSwapFilterWith : DslOp → Bool
  | .callers | .callees | .depth _ => true
  | _ => false

/-- One pass over the operators from the left, in which the current one waits behind the filters
that are swapped with it. -/
def hoistFrom (current : DslOp) : List DslOp → List DslOp × Bool
  | [] => ([current], false)
  | next :: rest =>
    if isPureFilter next && canSwapFilterWith current then
      (next :: (hoistFrom current rest).1, true)
    else
      let later := hoistFrom next rest
      (current :: later.1, later.2)

def hoistPass : List DslOp → List DslOp × Bool
  | [] => ([], false)
  | first :: rest => hoistFrom first rest

/-- The passes end when one changes nothing. -/
def hoistPasses : Nat → List DslOp → List DslOp
  | 0, ops => ops
  | passes + 1, ops =>
    let pass := hoistPass ops
    if pass.2 then hoistPasses passes pass.1 else pass.1

def pushFiltersDown (ops : List DslOp) : List DslOp :=
  if ops.length < 2 then ops else hoistPasses ops.length ops

inductive ScheduleStrategy where
  | push
  | pull
  | auto
deriving DecidableEq

structure Schedule where
  strategy : ScheduleStrategy := .auto
  parallel : Bool := false
deriving DecidableEq

structure Plan where
  ops : List DslOp
  schedule : Schedule
deriving DecidableEq

def pickScheduleForPipe (ops : List DslOp) : Schedule :=
  let depth := (ops.findSome? fun op =>
    match op with
    | .depth limit => some limit.val
    | _ => none).getD 1
  let hasExpansion := ops.any fun op =>
    match op with
    | .callers | .callees | .taint _ | .preconditions => true
    | _ => false
  { strategy :=
      if !hasExpansion then .push
      else if 3 ≤ depth then .auto
      else .push }

def optimisePipe (ops : List DslOp) : Plan :=
  let rewritten := pushFiltersDown (fuseDepths ops)
  ⟨rewritten, pickScheduleForPipe rewritten⟩

/-- Filters and selectors lower the score of an operator and traversals raise it. -/
def opFilterScore (op : DslOp) : Int :=
  match op with
  | .filter _ | .since _ => -2
  | .selectFn _ | .selectType _ => -1
  | .callers | .callees => 1
  | _ => 0

/-- A low score stands for a small result. -/
def exprFilterScore : Expr → Int
  | .pipe ops | .pipeFrom _ ops => (ops.map opFilterScore).sum
  | .entrypoints _ => 5
  | .setOp _ left right => min (exprFilterScore left) (exprFilterScore right)
  | .dominatorsOf _ | .dominatesOf _ | .traitImplsOf _ => 2
  | .pathQuery _ _ _ | .multiPath _ _ _ => 1

mutual

/-- The side of an intersection with the lower score comes first. -/
def rewriteExpr : Expr → Expr
  | .setOp op left right =>
    let l := rewriteExpr left
    let r := rewriteExpr right
    if op = .intersect ∧ exprFilterScore r < exprFilterScore l then .setOp op r l
    else .setOp op l r
  | .pipe ops => .pipe (pushFiltersDown (fuseDepths ops))
  | .pipeFrom base ops => .pipeFrom (rewriteExpr base) (pushFiltersDown (fuseDepths ops))
  | .dominatorsOf inner => .dominatorsOf (rewriteExpr inner)
  | .dominatesOf inner => .dominatesOf (rewriteExpr inner)
  | .traitImplsOf inner => .traitImplsOf (rewriteExpr inner)
  | .pathQuery options source target => .pathQuery options (rewriteExpr source) (rewriteExpr target)
  | .multiPath sources target maxDepth =>
    .multiPath (rewriteSources sources) (rewriteExpr target) maxDepth
  | .entrypoints kind => .entrypoints kind

def rewriteSources : List Expr → List Expr
  | [] => []
  | source :: sources => rewriteExpr source :: rewriteSources sources

end

def optimiseExpr (expr : Expr) : Expr := rewriteExpr expr

end Codegraph.Dsl
