import Codegraph.PointsTo.Interprocedural
import Codegraph.PointsTo.LeastSolution

namespace Codegraph.PointsTo

open Library List ListSet

/-- A solver keeps its function and its facts, and pays for every new fact. -/
structure Extends (solver next : FunctionSolver) : Prop where
  owner : next.owner = solver.owner
  ir : next.ir = solver.ir
  mono : solver.table.facts ⊆ next.table.facts
  spent : next.budget.remaining ≤ solver.budget.remaining
  exhausted : solver.budget.exhausted = true → next.budget.exhausted = true
  saturating : Saturating solver → Saturating next

theorem extends_refl (solver : FunctionSolver) : Extends solver solver :=
  ⟨rfl, rfl, Set.Subset.refl _, le_refl _, fun spent => spent, fun saturating => saturating⟩

theorem extends_trans {first second third : FunctionSolver} (early : Extends first second)
    (late : Extends second third) : Extends first third :=
  ⟨late.owner.trans early.owner, late.ir.trans early.ir, early.mono.trans late.mono,
    late.spent.trans early.spent, fun spent => late.exhausted (early.exhausted spent),
    fun saturating => late.saturating (early.saturating saturating)⟩

theorem Extends.enough {solver next : FunctionSolver} (extended : Extends solver next)
    (left : next.budget.exhausted = false) : solver.budget.exhausted = false := by
  by_contra spent
  rw [extended.exhausted (by simpa using spent)] at left
  contradiction

theorem Grows.extends {solver next : FunctionSolver} {wanted : Set Fact}
    (grown : Grows solver next wanted) : Extends solver next :=
  ⟨grown.owner, grown.ir, grown.mono, grown.spent, grown.exhausted,
    fun saturating => saturating_grows saturating grown⟩

variable {solver : FunctionSolver}

theorem solve_extends (saturating : Saturating solver) : Extends solver solver.solve := by
  have keeps (before after : FunctionSolver) (state : Saturating before ∧ Extends solver before)
      (moved : before.solveStep = some after) : Saturating after ∧ Extends solver after := by
    have saturating' := solveStep_saturating before after state.1 moved
    obtain ⟨idx, rest, op, -, -, -, grown⟩ := solveStep_grows state.1.toIndexing moved
    have step : Extends before after :=
      ⟨grown.owner, grown.ir, grown.mono, grown.spent, grown.exhausted, fun _ => saturating'⟩
    exact ⟨saturating', extends_trans state.2 step⟩
  exact ((solve_halts saturating.toIndexing).preserves keeps ⟨saturating, extends_refl solver⟩).2

theorem solve_within (indexing : Indexing solver) {solution : Set Fact}
    (solves : ∀ (idx : Nat) op, solver.ir.body[idx]? = some op → OpHolds solver.owner solution idx op)
    (below : solver.table.facts ⊆ solution) : solver.solve.table.facts ⊆ solution := by
  have keeps (before after : FunctionSolver)
      (state : Indexing before ∧ before.owner = solver.owner ∧ before.ir = solver.ir ∧
        before.table.facts ⊆ solution)
      (moved : before.solveStep = some after) :
      Indexing after ∧ after.owner = solver.owner ∧ after.ir = solver.ir ∧
        after.table.facts ⊆ solution := by
    obtain ⟨indexing, owner, ir, below⟩ := state
    obtain ⟨idx, rest, op, -, -, fetched, grown⟩ := solveStep_grows indexing moved
    refine ⟨solveStep_indexing before after indexing moved, grown.owner.trans owner, grown.ir.trans ir, ?_⟩
    intro fact held
    rcases grown.within held with old | new
    · exact below old
    have solves' : ∀ (idx : Nat) op, before.ir.body[idx]? = some op →
        OpHolds before.owner solution idx op := by
      rwa [owner, ir]
    exact eval_within solves' below fetched new
  have final := (solve_halts indexing).preserves keeps ⟨indexing, rfl, rfl, below⟩
  exact final.2.2.2

/-- The facts that a list of seeds asks for. -/
def seedFacts (seeds : List (Var × ListSet AbstractLocation)) : Set Fact :=
  {fact | ∃ seed ∈ seeds, ∃ loc ∈ seed.2.members, fact = .points seed.1 loc}

/-- The flag of an addition tells whether it was paid for. -/
theorem addToVar_flag (solver : FunctionSolver) (var : Var) (locs : List AbstractLocation) :
    (solver.addToVar var locs).2 = true ↔
      (solver.addToVar var locs).1.budget.remaining < solver.budget.remaining := by
  have grew := (absorb_absorbs (solver.table.vars.getD var .empty) solver.budget false locs).grew
  simp only [Bool.false_eq_true, false_or] at grew
  exact grew

theorem foldl_seedAll (seeds : List (Var × ListSet AbstractLocation)) (solver : FunctionSolver)
    (indexing : Indexing solver) (flag : Bool) :
    let seeded := seeds.foldl (fun (seeded : FunctionSolver × Bool) seed =>
      ((seeded.1.seed seed.1 seed.2).1, seeded.2 || (seeded.1.seed seed.1 seed.2).2)) (solver, flag)
    Grows solver seeded.1 (seedFacts seeds) ∧
      (seeded.2 = true ↔ flag = true ∨ seeded.1.budget.remaining < solver.budget.remaining) := by
  induction seeds generalizing solver flag with
  | nil => simpa [seedFacts] using grows_refl solver
  | cons seed seeds ih =>
    have first := addToVar_grows indexing seed.1 seed.2.members
    obtain ⟨rest, flagged⟩ := ih (solver.seed seed.1 seed.2).1 (first.indexing indexing)
      (flag || (solver.seed seed.1 seed.2).2)
    have wanted : seedFacts (seed :: seeds) =
        pointsTo seed.1 {loc | loc ∈ seed.2.members} ∪ seedFacts seeds := by
      ext fact
      simp [seedFacts, pointsTo, eq_comm]
    constructor
    · rw [wanted]
      exact grows_trans first rest
    dsimp only [foldl_cons]
    rw [flagged, Bool.or_eq_true, or_assoc]
    apply or_congr_right
    have grew := addToVar_flag solver seed.1 seed.2.members
    have early := first.spent
    have late := rest.spent
    change (solver.seed seed.1 seed.2).2 = true ↔
      (solver.seed seed.1 seed.2).1.budget.remaining < solver.budget.remaining at grew
    change (solver.seed seed.1 seed.2).1.budget.remaining ≤ solver.budget.remaining at early
    rw [grew]
    omega

/-- Seeding adds the wanted facts, and the flag tells whether it added any. -/
theorem seedAll_grows (indexing : Indexing solver) (seeds : List (Var × ListSet AbstractLocation)) :
    Grows solver (solver.seedAll seeds).1 (seedFacts seeds) ∧ ((solver.seedAll seeds).2 = true ↔
        (solver.seedAll seeds).1.budget.remaining < solver.budget.remaining) := by
  have folded := foldl_seedAll seeds solver indexing false
  simpa [FunctionSolver.seedAll] using folded

/-- The solvers are indexed by the queue and keep the solver invariant. -/
structure Ready (state : Propagation) : Prop where
  range : state.dirty.pending.length = state.solvers.length
  saturating : ∀ solver ∈ state.solvers, Saturating solver

/-- Every solver is extended, and a solver that grew is pending. -/
structure Advances (state next : Propagation) : Prop where
  length : next.solvers.length = state.solvers.length
  pending : next.dirty.pending.length = state.dirty.pending.length
  grown : ∀ (pos : Nat) before, state.solvers[pos]? = some before →
    ∃ after, next.solvers[pos]? = some after ∧ Extends before after ∧ (pos ∈ next.dirty.queue ∨
        (after.table.facts = before.table.facts ∧ after.dirty = before.dirty))
  queued : ∀ pos ∈ state.dirty.queue, pos ∈ next.dirty.queue
  spent : next.remaining ≤ state.remaining
  idle : next.remaining = state.remaining → next.dirty = state.dirty

theorem advances_refl (state : Propagation) : Advances state state :=
  ⟨rfl, rfl, fun _ before found => ⟨before, found, extends_refl before, .inr ⟨rfl, rfl⟩⟩,
    fun _ mem => mem, le_refl _, fun _ => rfl⟩

theorem advances_trans {first second third : Propagation} (early : Advances first second)
    (late : Advances second third) : Advances first third := by
  refine ⟨late.length.trans early.length, late.pending.trans early.pending, ?_,
    fun pos mem => late.queued pos (early.queued pos mem), late.spent.trans early.spent, ?_⟩
  · intro pos before found
    obtain ⟨middle, foundMiddle, extended, calm⟩ := early.grown pos before found
    obtain ⟨after, foundAfter, extended', calm'⟩ := late.grown pos middle foundMiddle
    refine ⟨after, foundAfter, extends_trans extended extended', ?_⟩
    rcases calm' with pending | ⟨facts', dirty'⟩
    · exact .inl pending
    apply calm.imp (late.queued pos)
    intro ⟨facts, dirty⟩
    exact ⟨facts'.trans facts, dirty'.trans dirty⟩
  intro same
  have less := early.spent
  have less' := late.spent
  rw [late.idle (by omega), early.idle (by omega)]

theorem Advances.before {state next : Propagation} (advanced : Advances state next) {pos : Nat}
    {after : FunctionSolver} (found : next.solvers[pos]? = some after) :
    ∃ before, state.solvers[pos]? = some before ∧ Extends before after ∧ (pos ∈ next.dirty.queue ∨
        (after.table.facts = before.table.facts ∧ after.dirty = before.dirty)) := by
  have inside : pos < state.solvers.length := by
    rw [← advanced.length]
    exact (List.getElem?_eq_some_iff.mp found).1
  have foundBefore := getElem?_eq_getElem inside
  obtain ⟨after', found', extended, calm⟩ := advanced.grown pos _ foundBefore
  rw [found] at found'
  cases found'
  exact ⟨_, foundBefore, extended, calm⟩

theorem Advances.ready {state next : Propagation} (advanced : Advances state next)
    (ready : Ready state) : Ready next := by
  refine ⟨by rw [advanced.pending, advanced.length, ready.range], ?_⟩
  intro solver mem
  obtain ⟨pos, found⟩ := mem_iff_getElem?.mp mem
  obtain ⟨before, foundBefore, extended, -⟩ := advanced.before found
  exact extended.saturating (ready.saturating before (mem_of_getElem? foundBefore))

theorem deliver_spec {state : Propagation} (ready : Ready state) {target : Nat}
    (found : state.solvers[target]? = some solver)
    (seeds : List (Var × ListSet AbstractLocation)) :
    Advances state (state.deliver target seeds) ∧
      ∃ after, (state.deliver target seeds).solvers = state.solvers.set target after ∧
        Grows solver after (seedFacts seeds) := by
  have saturating := ready.saturating solver (mem_of_getElem? found)
  obtain ⟨grown, flagged⟩ := seedAll_grows saturating.toIndexing seeds
  have inside := (List.getElem?_eq_some_iff.mp found).1
  have solverAt := (List.getElem?_eq_some_iff.mp found).2
  have delivered : state.deliver target seeds = { state with
      solvers := state.solvers.set target (solver.seedAll seeds).1
      dirty := if (solver.seedAll seeds).2 then state.dirty.push target else state.dirty } := by
    rw [Propagation.deliver, found]
  rw [delivered]
  refine ⟨⟨by simp, ?_, ?_, ?_, ?_, ?_⟩, _, rfl, grown⟩
  · split <;> simp
  · intro pos before foundBefore
    by_cases same : pos = target
    · subst same
      rw [found] at foundBefore
      cases foundBefore
      refine ⟨_, getElem?_set_self inside, grown.extends, ?_⟩
      by_cases grew : (solver.seedAll seeds).2 = true
      · left
        rw [if_pos grew, WorkQueue.mem_push _ _ _ (ready.range ▸ inside)]
        exact .inl rfl
      right
      have spent := grown.spent
      rw [flagged] at grew
      obtain ⟨dirty, facts⟩ := grown.idle (by omega)
      exact ⟨facts, dirty⟩
    refine ⟨before, ?_, extends_refl before, .inr ⟨rfl, rfl⟩⟩
    rwa [getElem?_set_ne (Ne.symm same)]
  · intro pos mem
    dsimp only
    split
    · exact WorkQueue.mem_pushAll_of_mem state.dirty [target] mem
    · exact mem
  · exact sum_set_le (fun solver : FunctionSolver => solver.budget.remaining) state.solvers target
      inside (solver.seedAll seeds).1 (by rw [solverAt]; exact grown.spent)
  · intro same
    by_cases grew : (solver.seedAll seeds).2 = true
    · have less := sum_set_lt (fun solver : FunctionSolver => solver.budget.remaining) state.solvers
        target inside (solver.seedAll seeds).1 (by rw [solverAt]; exact flagged.mp grew)
      exact absurd same (ne_of_lt less)
    · simp [grew]

/-- What a call passes to the variables of its callee. -/
def argFacts (pairs : List (Var × Operand)) (facts : Set Fact) : Set Fact :=
  {fact | ∃ pair ∈ pairs, ∃ loc ∈ pts facts pair.2, fact = .points pair.1 loc}

/-- The locations of the values a function returns. -/
def returned (ir : IrFunction) (facts : Set Fact) : Set AbstractLocation :=
  {loc | ∃ value, .ret (some value) ∈ ir.body ∧ loc ∈ pts facts value}

/-- What the callee returns to the destination of a call. -/
def returnFacts (dst : Option Var) (ir : IrFunction) (facts : Set Fact) : Set Fact :=
  {fact | ∃ var, dst = some var ∧ ∃ loc ∈ returned ir facts, fact = .points var loc}

variable {facts facts' : Set Fact}

theorem pts_mono (grown : facts ⊆ facts') (operand : Operand) : pts facts operand ⊆ pts facts' operand := by
  intro loc ⟨var, named, held⟩
  exact ⟨var, named, grown held⟩

theorem argFacts_mono (pairs : List (Var × Operand))
    (grown : facts ⊆ facts') : argFacts pairs facts ⊆ argFacts pairs facts' := by
  intro fact ⟨pair, mem, loc, points, made⟩
  exact ⟨pair, mem, loc, pts_mono grown pair.2 points, made⟩

theorem returned_mono (ir : IrFunction) (grown : facts ⊆ facts') :
    returned ir facts ⊆ returned ir facts' := by
  intro loc ⟨value, mem, points⟩
  exact ⟨value, mem, pts_mono grown value points⟩

theorem returnFacts_mono (dst : Option Var) (ir : IrFunction)
    (grown : facts ⊆ facts') : returnFacts dst ir facts ⊆ returnFacts dst ir facts' := by
  intro fact ⟨var, named, loc, mem, made⟩
  exact ⟨var, named, loc, returned_mono ir grown mem, made⟩

variable (table : PointsToTable)

theorem mem_operandSet (operand : Operand) (loc : AbstractLocation) :
    loc ∈ ((operandPts table operand).getD .empty).members ↔ loc ∈ pts table.facts operand := by
  unfold operandPts pts
  cases named : operandVar operand with
  | none => simp
  | some var =>
    simp only [Option.bind_some, Option.some.injEq, Set.mem_ofPred_eq, exists_eq_left']
    rfl

theorem seedFacts_passed (pairs : List (Var × Operand)) :
    seedFacts (passed table pairs) = argFacts pairs table.facts := by
  ext fact
  constructor
  · intro ⟨seed, mem, loc, points, made⟩
    obtain ⟨pair, listed, seeded⟩ := mem_filterMap.mp mem
    obtain ⟨locs, tracked, rfl⟩ := Option.map_eq_some_iff.mp seeded
    refine ⟨pair, listed, loc, ?_, made⟩
    rwa [← mem_operandSet, tracked]
  intro ⟨pair, listed, loc, points, made⟩
  rw [← mem_operandSet] at points
  cases tracked : operandPts table pair.2 with
  | none => simp [tracked] at points
  | some locs =>
    rw [tracked] at points
    exact ⟨(pair.1, locs), mem_filterMap.mpr ⟨pair, listed, by rw [tracked]; rfl⟩, loc, points, made⟩

theorem totalSize_passed (pairs : List (Var × Operand)) :
    totalSize (passed table pairs) =
      (pairs.map fun pair => ((operandPts table pair.2).getD .empty).size).sum := by
  induction pairs with
  | nil => rfl
  | cons pair pairs ih =>
    unfold totalSize passed at ih ⊢
    cases tracked : operandPts table pair.2 with
    | none => simpa [tracked, ListSet.size] using ih
    | some locs => simpa [tracked] using ih

theorem mem_returnedPts (ir : IrFunction) (table : PointsToTable) (loc : AbstractLocation) :
    loc ∈ (returnedPts ir table).members ↔ loc ∈ returned ir table.facts := by
  unfold returnedPts returned
  induction ir.body using List.reverseRecOn with
  | nil => simp
  | append_singleton body op ih =>
    have others (silent : ∀ value, op ≠ .ret (some value)) :
        (∃ value, .ret (some value) ∈ body ++ [op] ∧ loc ∈ pts table.facts value) ↔
          ∃ value, .ret (some value) ∈ body ∧ loc ∈ pts table.facts value := by
      simp only [mem_append, mem_singleton, (fun value => Ne.symm (silent value)), or_false]
    rw [foldl_append]
    simp only [foldl_cons, foldl_nil, Set.mem_ofPred_eq] at ih ⊢
    cases op with
    | ret value =>
      cases value with
      | none => rw [others (by simp)]; exact ih
      | some value =>
        have last : (∃ other, .ret (some other) ∈ body ++ [.ret (some value)] ∧
            loc ∈ pts table.facts other) ↔ loc ∈ pts table.facts value ∨
                ∃ other, .ret (some other) ∈ body ∧ loc ∈ pts table.facts other := by
          simp [or_and_right, exists_or, or_comm]
        rw [last, ← ih, ← mem_operandSet]
        cases tracked : operandPts table value <;> simp [tracked]
    | _ => rw [others (by simp)]; exact ih

/-- The size of what a table sends tells whether the table sends more. -/
structure Measures (size : PointsToTable → Nat) (sent : Set Fact → Set Fact) : Prop where
  mono : ∀ past now : PointsToTable, past.facts ⊆ now.facts → size past ≤ size now
  same : ∀ past now : PointsToTable, past.facts ⊆ now.facts → size now ≤ size past →
    sent now.facts ⊆ sent past.facts

theorem passed_measures (pairs : List (Var × Operand)) :
    Measures (fun table => totalSize (passed table pairs)) (argFacts pairs) := by
  have grows {past now : PointsToTable} (grown : past.facts ⊆ now.facts) (operand : Operand) :
      ∀ loc ∈ ((operandPts past operand).getD .empty).members,
        loc ∈ ((operandPts now operand).getD .empty).members := by
    intro loc mem
    rw [mem_operandSet] at mem ⊢
    exact pts_mono grown operand mem
  constructor
  · intro past now grown
    rw [totalSize_passed, totalSize_passed]
    exact sum_le_sum fun pair _ => size_le (grows grown pair.2)
  intro past now grown noLarger fact ⟨pair, listed, loc, points, made⟩
  rw [totalSize_passed, totalSize_passed] at noLarger
  have pairSame : ((operandPts now pair.2).getD .empty).size ≤
      ((operandPts past pair.2).getD .empty).size := by
    by_contra larger
    have strict := sum_lt_sum
      (fun pair : Var × Operand => ((operandPts past pair.2).getD .empty).size)
      (fun pair => ((operandPts now pair.2).getD .empty).size)
      (fun other _ => size_le (grows grown other.2)) ⟨pair, listed, not_le.mp larger⟩
    omega
  refine ⟨pair, listed, loc, ?_, made⟩
  rw [← mem_operandSet] at points ⊢
  exact mem_of_size_le (grows grown pair.2) pairSame points

theorem returned_measures (dst : Option Var) (ir : IrFunction) :
    Measures (fun table => (returnedPts ir table).size) (returnFacts dst ir) := by
  have grows {past now : PointsToTable} (grown : past.facts ⊆ now.facts) :
      ∀ loc ∈ (returnedPts ir past).members, loc ∈ (returnedPts ir now).members := by
    intro loc mem
    rw [mem_returnedPts] at mem ⊢
    exact returned_mono ir grown mem
  constructor
  · intro past now grown
    exact size_le (grows grown)
  intro past now grown noLarger fact ⟨var, named, loc, mem, made⟩
  refine ⟨var, named, loc, ?_, made⟩
  rw [← mem_returnedPts] at mem ⊢
  exact mem_of_size_le (grows grown) noLarger mem

/-- The target holds what an earlier table of the source sent, and the remembered size is that
table's. -/
def Transferred (source target : FunctionSolver) (size : PointsToTable → Nat)
    (sent : Set Fact → Set Fact) (pushed : Nat) : Prop :=
  ∃ past : PointsToTable, past.facts ⊆ source.table.facts ∧ pushed = size past ∧
    (target.budget.exhausted = false → sent past.facts ⊆ target.table.facts)

section

variable {source source' target target' : FunctionSolver} {size : PointsToTable → Nat}
  {sent : Set Fact → Set Fact} {pushed : Nat}

theorem Transferred.extends (transferred : Transferred source target size sent pushed)
    (sources : Extends source source') (targets : Extends target target') :
    Transferred source' target' size sent pushed := by
  obtain ⟨past, below, remembered, received⟩ := transferred
  exact ⟨past, below.trans sources.mono, remembered,
    fun left => (received (targets.enough left)).trans targets.mono⟩

/-- A source that has not grown past the remembered size has nothing more to send. -/
theorem Transferred.holds (transferred : Transferred source target size sent pushed)
    (measures : Measures size sent) (settled : pushed = size source.table)
    (left : target.budget.exhausted = false) : sent source.table.facts ⊆ target.table.facts := by
  obtain ⟨past, below, remembered, received⟩ := transferred
  exact (measures.same past source.table below (by omega)).trans (received left)

theorem Measures.size_congr (measures : Measures size sent) {table table' : PointsToTable}
    (same : table'.facts = table.facts) : size table' = size table :=
  le_antisymm (measures.mono _ _ same.subset) (measures.mono _ _ same.symm.subset)

end

end Codegraph.PointsTo
