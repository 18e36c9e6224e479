import Codegraph.PointsTo.Exchange

namespace Codegraph.PointsTo

open Library List

namespace CallBindings

/-- Both indexes list the same sites. -/
structure Mirrored (count : Nat) (bindings : CallBindings) : Prop where
  outLength : bindings.out.length = count
  intoLength : bindings.into.length = count
  mirror : ∀ caller callee op, callee < count → ((caller, op) ∈ bindings.into.getD callee [] ↔
      ∃ site ∈ bindings.out.getD caller [], site.callee = callee ∧ site.op = op)

theorem add_mirrored {count caller : Nat} {bindings : CallBindings} (inside : caller < count)
    (mirrored : Mirrored count bindings) (site : Site) :
    Mirrored count (bindings.add caller site) := by
  refine ⟨by simp [add, mirrored.outLength], by simp [add, mirrored.intoLength], ?_⟩
  intro other callee op known
  have out : (bindings.add caller site).out.getD other [] =
      bindings.out.getD other [] ++ if caller = other then [site] else [] :=
    getD_modify_append _ _ _ _ (mirrored.outLength.symm ▸ inside)
  have into : (bindings.add caller site).into.getD callee [] =
      bindings.into.getD callee [] ++ if site.callee = callee then [(caller, site.op)] else [] := by
    by_cases same : site.callee = callee
    · exact getD_modify_append _ _ _ _ (by rw [mirrored.intoLength, same]; exact known)
    rw [if_neg same, append_nil]
    change (bindings.into.modify site.callee _).getD callee [] = _
    simp [getD_eq_getElem?_getD, same]
  rw [out, into, mem_append, mirrored.mirror other callee op known]
  constructor
  · intro listed
    rcases listed with ⟨old, mem, matches'⟩ | new
    · exact ⟨old, mem_append_left _ mem, matches'⟩
    split at new
    · rename_i same
      obtain ⟨rfl, rfl⟩ := Prod.mk.inj (mem_singleton.mp new)
      exact ⟨site, mem_append_right _ (by simp), same, rfl⟩
    · contradiction
  intro ⟨listed, mem, target, at'⟩
  rcases mem_append.mp mem with old | new
  · exact .inl ⟨listed, old, target, at'⟩
  split at new
  · rename_i same
    obtain rfl := mem_singleton.mp new
    right
    rw [if_pos target, same, at']
    simp
  · contradiction

theorem build_mirrored (parse : String → Option CalleeText) (targets : List Target)
    (calls : NodeId → List NodeId) (functions : List (NodeId × IrFunction)) :
    Mirrored functions.length (build parse targets calls functions) := by
  apply List.foldlRecOn
  · refine ⟨by simp, by simp, ?_⟩
    intro caller callee op _
    rw [replicate_nil_getD, replicate_nil_getD]
    simp
  intro bindings mirrored entry mem
  apply List.foldlRecOn _ _ mirrored
  intro bindings mirrored site _
  have inside := snd_lt_of_mem_zipIdx mem
  exact add_mirrored (by simpa using inside) mirrored site

end CallBindings

/-- The pairs a bound call passes, if its operation is a call. -/
def passedPairs (site : Site) (caller callee : IrFunction) : List (Var × Operand) :=
  match caller.body[site.op]? with
  | some (.call _ _ receiver args) => argumentPairs site receiver args callee
  | _ => []

/-- The destination of a call. -/
def destination (caller : IrFunction) (op : Nat) : Option Var :=
  match caller.body[op]? with
  | some (.call dst _ _ _) => dst
  | _ => none

/-- The passed arguments are in the callee and the returned values in the caller. -/
structure CallHolds (site : Site) (caller callee : NodeId × IrFunction)
    (facts : NodeId → Set Fact) : Prop where
  passes : ∀ dst name receiver args, caller.2.body[site.op]? = some (.call dst name receiver args) →
    ∀ pair ∈ argumentPairs site receiver args callee.2, ∀ loc ∈ pts (facts caller.1) pair.2,
      .points pair.1 loc ∈ facts callee.1
  returns : ∀ dst name receiver args, caller.2.body[site.op]? = some (.call (some dst) name receiver args) →
    ∀ value, .ret (some value) ∈ callee.2.body → ∀ loc ∈ pts (facts callee.1) value,
      .points dst loc ∈ facts caller.1

/-- The facts of each function solve its constraints, and every bound call holds. -/
structure IsSystemSolution (functions : List (NodeId × IrFunction)) (bindings : CallBindings)
    (facts : NodeId → Set Fact) : Prop where
  solves : ∀ entry ∈ functions, IsSolution entry.1 entry.2 (facts entry.1)
  calls : ∀ (pos : Nat) caller callee site, functions[pos]? = some caller →
    site ∈ bindings.out.getD pos [] → functions[site.callee]? = some callee →
    CallHolds site caller callee facts

theorem callHolds_iff (site : Site) (caller callee : NodeId × IrFunction)
    (facts : NodeId → Set Fact) : CallHolds site caller callee facts ↔
      argFacts (passedPairs site caller.2 callee.2) (facts caller.1) ⊆ facts callee.1 ∧
        returnFacts (destination caller.2 site.op) callee.2 (facts callee.1) ⊆ facts caller.1 := by
  constructor
  · intro holds
    constructor
    · intro fact ⟨pair, listed, loc, points, made⟩
      unfold passedPairs at listed
      split at listed
      · rename_i found
        rw [made]
        exact holds.passes _ _ _ _ found pair listed loc points
      · contradiction
    intro fact ⟨var, named, loc, ⟨value, mem, points⟩, made⟩
    unfold destination at named
    split at named
    · rename_i found
      rw [named] at found
      rw [made]
      exact holds.returns _ _ _ _ found value mem loc points
    · contradiction
  intro ⟨passes, returns⟩
  constructor
  · intro dst name receiver args found pair listed loc points
    apply passes
    refine ⟨pair, ?_, loc, points, rfl⟩
    simpa [passedPairs, found] using listed
  intro dst name receiver args found value mem loc points
  apply returns
  exact ⟨dst, by simp [destination, found], loc, ⟨value, mem, points⟩, rfl⟩

/-- What a source has sent, and whether it may have more to send. -/
def Flow (source target : FunctionSolver) (size : PointsToTable → Nat)
    (sent : Set Fact → Set Fact) (pushed : Nat) (waiting : Prop) : Prop :=
  Transferred source target size sent pushed ∧ (waiting ∨ pushed = size source.table)

theorem Flow.extends {source source' target target' : FunctionSolver}
    {size : PointsToTable → Nat} {sent : Set Fact → Set Fact} {pushed : Nat} {waiting waiting' : Prop}
    (flow : Flow source target size sent pushed waiting) (measures : Measures size sent)
    (sources : Extends source source') (targets : Extends target target')
    (calm : waiting' ∨ source'.table.facts = source.table.facts) (still : waiting → waiting') :
    Flow source' target' size sent pushed waiting' := by
  refine ⟨flow.1.extends sources targets, ?_⟩
  rcases flow.2 with before | settled
  · exact .inl (still before)
  apply calm.imp_right
  intro same
  rwa [measures.size_congr same]

/-- The flow from a caller through a site. -/
def ArgFlow (state : Propagation) (caller index : Nat) (site : Site) (waiting : Prop) : Prop :=
  ∀ source target, state.solvers[caller]? = some source → state.solvers[site.callee]? = some target →
    Flow source target (fun table => totalSize (passed table (passedPairs site source.ir target.ir)))
      (argFacts (passedPairs site source.ir target.ir)) (state.pushedAt caller index)
      (caller ∈ state.dirty.queue ∨ waiting)

/-- The flow from a callee to a call of it. -/
def ReturnFlow (state : Propagation) (func : Nat) (caller : Nat × Nat) (waiting : Prop) : Prop :=
  ∀ source target, state.solvers[func]? = some source → state.solvers[caller.1]? = some target →
    Flow source target (fun table => (returnedPts source.ir table).size)
      (returnFacts (destination target.ir caller.2) source.ir) (state.pushedReturns.getD func 0)
      (func ∈ state.dirty.queue ∨ waiting)

theorem ArgFlow.advances {state next : Propagation} {caller index : Nat} {site : Site}
    {waiting : Prop} (flow : ArgFlow state caller index site waiting) (advanced : Advances state next)
    (same : next.pushedAt caller index = state.pushedAt caller index) :
    ArgFlow next caller index site waiting := by
  intro source' target' foundSource foundTarget
  obtain ⟨source, known, sources, calm⟩ := advanced.before foundSource
  obtain ⟨target, known', targets, -⟩ := advanced.before foundTarget
  rw [sources.ir, targets.ir, same]
  apply (flow source target known known').extends (passed_measures _) sources targets
  · exact calm.imp .inl And.left
  · exact Or.imp_left (advanced.queued caller)

theorem ReturnFlow.advances {state next : Propagation} {func : Nat} {caller : Nat × Nat}
    {waiting : Prop} (flow : ReturnFlow state func caller waiting) (advanced : Advances state next)
    (same : next.pushedReturns.getD func 0 = state.pushedReturns.getD func 0) :
    ReturnFlow next func caller waiting := by
  intro source' target' foundSource foundTarget
  obtain ⟨source, known, sources, calm⟩ := advanced.before foundSource
  obtain ⟨target, known', targets, -⟩ := advanced.before foundTarget
  rw [sources.ir, targets.ir, same]
  apply (flow source target known known').extends (returned_measures _ _) sources targets
  · exact calm.imp .inl And.left
  · exact Or.imp_left (advanced.queued func)

/-- Every solver analyses its function, holds the entry facts, and is solved unless it is pending. -/
structure Solving (functions : List (NodeId × IrFunction)) (state : Propagation) : Prop
    extends Ready state where
  entries : state.solvers.map (fun solver => (solver.owner, solver.ir)) = functions
  seeded : ∀ solver ∈ state.solvers, solver.budget.exhausted = false →
    seeds solver.owner (solver.ir.receiver.toList ++ solver.ir.params) ⊆ solver.table.facts
  drained : ∀ (pos : Nat) solver, state.solvers[pos]? = some solver →
    pos ∈ state.dirty.queue ∨ solver.dirty.queue = []

/-- The solvers hold only what every solution holds. -/
def Below (functions : List (NodeId × IrFunction)) (bindings : CallBindings) (state : Propagation) : Prop :=
  ∀ facts, IsSystemSolution functions bindings facts → ∀ solver ∈ state.solvers,
    solver.table.facts ⊆ facts solver.owner

/-- There is one remembered size for each site and one for each function. -/
structure Shaped (bindings : CallBindings) (state : Propagation) : Prop where
  argSizes : state.pushedArgs.map List.length = bindings.out.map List.length
  returnSizes : state.pushedReturns.length = state.solvers.length

/-- Every flow is settled, or its source is pending or still to be pushed. -/
structure Exchanged (bindings : CallBindings) (todo : Nat → Nat → Prop) (due : Nat → Prop)
    (state : Propagation) : Prop where
  args : ∀ caller index site, (bindings.out.getD caller [])[index]? = some site →
    ArgFlow state caller index site (todo caller index)
  returns : ∀ func, ∀ caller ∈ bindings.into.getD func [], ReturnFlow state func caller (due func)

variable {functions : List (NodeId × IrFunction)}

theorem Solving.advances {state next : Propagation}
    (solving : Solving functions state) (advanced : Advances state next) :
    Solving functions next := by
  have origin {solver : FunctionSolver} (mem : solver ∈ next.solvers) :
      ∃ before ∈ state.solvers, Extends before solver := by
    obtain ⟨pos, found⟩ := mem_iff_getElem?.mp mem
    obtain ⟨before, known, extended, -⟩ := advanced.before found
    exact ⟨before, mem_of_getElem? known, extended⟩
  refine { toReady := advanced.ready solving.toReady, entries := ?_, seeded := ?_, drained := ?_ }
  · rw [← solving.entries]
    apply ext_getElem?
    intro pos
    rw [getElem?_map, getElem?_map]
    cases found : next.solvers[pos]? with
    | none =>
      have outside := getElem?_eq_none_iff.mp found
      rw [advanced.length] at outside
      rw [getElem?_eq_none outside]
    | some solver =>
      obtain ⟨before, known, extended, -⟩ := advanced.before found
      rw [known, Option.map_some, Option.map_some, extended.owner, extended.ir]
  · intro solver mem left
    obtain ⟨before, known, extended⟩ := origin mem
    rw [extended.owner, extended.ir]
    exact (solving.seeded before known (extended.enough left)).trans extended.mono
  intro pos solver found
  obtain ⟨before, known, -, calm⟩ := advanced.before found
  rcases calm with pending | ⟨-, dirty⟩
  · exact .inl pending
  · rw [dirty]
    exact (solving.drained pos before known).imp_left (advanced.queued pos)

theorem Solving.entry {state : Propagation}
    (solving : Solving functions state) {pos : Nat} {solver : FunctionSolver}
    (found : state.solvers[pos]? = some solver) : functions[pos]? = some (solver.owner, solver.ir) := by
  rw [← solving.entries, getElem?_map, found]
  rfl

theorem Below.deliver {bindings : CallBindings}
    {state : Propagation} (ready : Ready state) (below : Below functions bindings state)
    {target : Nat} {solver : FunctionSolver} (found : state.solvers[target]? = some solver)
    {seeds : List (Var × ListSet AbstractLocation)}
    (needed : ∀ facts, IsSystemSolution functions bindings facts → seedFacts seeds ⊆ facts solver.owner) :
    Below functions bindings (state.deliver target seeds) := by
  obtain ⟨-, after, delivered, grown⟩ := deliver_spec ready found seeds
  intro facts solves other mem
  rw [delivered] at mem
  rcases mem_or_eq_of_mem_set mem with old | new
  · exact below facts solves other old
  rw [new, grown.owner]
  intro fact held
  rcases grown.within held with before | wanted
  · exact below facts solves solver (mem_of_getElem? found) before
  · exact needed facts solves wanted

end Codegraph.PointsTo
