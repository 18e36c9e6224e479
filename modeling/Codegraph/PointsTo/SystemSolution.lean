import Codegraph.PointsTo.Pushes

namespace Codegraph.PointsTo

open Library List WorkQueue

section

variable {functions : List (NodeId × IrFunction)} {bindings : CallBindings}
  {state next : Propagation}

theorem pushReturns_pushing {func : Nat} (mirrored : bindings.Mirrored functions.length)
    (pushing : Pushing functions bindings (fun _ _ => False) (fun pos => pos = func) state) :
    Advances state (Propagation.pushReturns bindings state func) ∧
      Pushing functions bindings (fun _ _ => False) (fun _ => False)
        (Propagation.pushReturns bindings state func) := by
  have others {state' : Propagation} (advanced : Advances state state')
      (same : ∀ pos, pos ≠ func → state'.pushedReturns.getD pos 0 = state.pushedReturns.getD pos 0)
      (settled : ∀ caller ∈ bindings.into.getD func [], ReturnFlow state' func caller False) :
      ∀ pos, ∀ caller ∈ bindings.into.getD pos [], ReturnFlow state' pos caller False := by
    intro pos caller mem
    by_cases here : pos = func
    · subst here
      exact settled caller mem
    · exact ((pushing.returns pos caller mem).advances advanced (same pos here)).weaken
        fun waiting => here waiting
  have stays (settled : ∀ caller ∈ bindings.into.getD func [], ReturnFlow state func caller False) :
      Advances state state ∧ Pushing functions bindings (fun _ _ => False) (fun _ => False) state :=
    ⟨advances_refl state, { pushing with returns := others (advances_refl state) (fun _ _ => rfl) settled }⟩
  unfold Propagation.pushReturns
  cases known : state.solvers[func]? with
  | none =>
    apply stays
    intro caller mem source target found
    rw [known] at found
    contradiction
  | some solver =>
    dsimp only
    split
    · rename_i empty
      apply stays
      intro caller mem
      rw [empty] at mem
      contradiction
    split
    · rename_i unchanged
      apply stays
      intro caller mem source target found found'
      obtain ⟨transferred, -⟩ := pushing.returns func caller mem source target found found'
      rw [known] at found
      cases found
      exact ⟨transferred, .inr unchanged.symm⟩
    have inside : func < state.pushedReturns.length := by
      rw [pushing.returnSizes]
      exact (List.getElem?_eq_some_iff.mp known).1
    have known' := pushing.entry known
    have needed : ∀ facts, IsSystemSolution functions bindings facts →
        ∀ caller ∈ bindings.into.getD func [], ∀ entry, functions[caller.1]? = some entry →
          sentTo (destination entry.2 caller.2) (returnedPts solver.ir solver.table) ⊆
            facts entry.1 := by
      intro facts solves caller mem entry found
      have within := (List.getElem?_eq_some_iff.mp known').1
      obtain ⟨site, listed, target, op⟩ := (mirrored.mirror _ _ _ within).mp mem
      subst target
      have holds := (callHolds_iff _ _ _ _).mp
        (solves.calls caller.1 entry _ site found listed known')
      rw [sentTo_returnedPts, ← op]
      have below := pushing.below facts solves solver (mem_of_getElem? known)
      exact (returnFacts_mono _ _ below).trans holds.2
    let remembered : Propagation := { state with
      pushedReturns := state.pushedReturns.set func (returnedPts solver.ir solver.table).size }
    have solving : Solving functions remembered := { pushing.toSolving with }
    have returned := foldl_pushReturn (bindings.into.getD func []) solving pushing.below needed
    have advanced := returned.advanced
    have advanced' : Advances state
        ((bindings.into.getD func []).foldl
          (Propagation.pushReturn (returnedPts solver.ir solver.table)) remembered) :=
      ⟨advanced.length, advanced.pending, advanced.grown, advanced.queued, advanced.spent, advanced.idle⟩
    refine ⟨advanced',
      { toSolving := solving.advances advanced
        argSizes := ?_
        returnSizes := ?_
        args := ?_
        returns := others advanced' ?_ ?_
        below := returned.below }⟩
    · rw [returned.sizes.1]
      exact pushing.argSizes
    · rw [returned.sizes.2, advanced.length]
      simpa [remembered] using pushing.returnSizes
    · intro caller index site listed
      apply (pushing.args caller index site listed).advances advanced'
      unfold Propagation.pushedAt
      rw [returned.sizes.1]
    · intro pos distinct
      rw [returned.sizes.2]
      simp [remembered, getD_eq_getElem?_getD, getElem?_set_ne (Ne.symm distinct)]
    · intro caller mem source target found found'
      obtain ⟨before, same, sources, calm⟩ := advanced'.before found
      rw [known] at same
      cases same
      have size : remembered.pushedReturns.getD func 0 = (returnedPts solver.ir solver.table).size := by
        simp [remembered, getD_eq_getElem?_getD, inside]
      rw [returned.sizes.2, size, sources.ir]
      refine ⟨⟨solver.table, sources.mono, rfl, fun left => ?_⟩, ?_⟩
      · rw [← sentTo_returnedPts]
        exact returned.received caller mem target found' left
      apply calm.imp .inl
      intro same
      exact ((returned_measures none solver.ir).size_congr same.1).symm

theorem solveAt_before {func pos : Nat} {after : FunctionSolver} (ready : Ready state)
    (found : (state.solveAt func).solvers[pos]? = some after) :
    ∃ before, state.solvers[pos]? = some before ∧ Extends before after ∧
      ((pos = func ∧ after = before.solve) ∨ (pos ≠ func ∧ after = before)) := by
  change (state.solvers.modify func FunctionSolver.solve)[pos]? = some after at found
  rw [getElem?_modify] at found
  obtain ⟨before, known, solved⟩ := Option.map_eq_some_iff.mp found
  refine ⟨before, known, ?_⟩
  by_cases same : func = pos
  · rw [if_pos same] at solved
    subst solved
    exact ⟨solve_extends (ready.saturating before (mem_of_getElem? known)), .inl ⟨same.symm, rfl⟩⟩
  rw [if_neg same] at solved
  subst solved
  exact ⟨extends_refl _, .inr ⟨Ne.symm same, rfl⟩⟩

/-- The popped function is solved and its flows are due. -/
theorem solveAt_pushing {func : Nat} {rest : WorkQueue}
    (pushing : Pushing functions bindings (fun _ _ => False) (fun _ => False) state)
    (popped : state.dirty.pop = some (func, rest)) :
    Pushing functions bindings (fun caller _ => caller = func) (fun pos => pos = func)
      ({ state with dirty := rest }.solveAt func) := by
  obtain ⟨queued, length⟩ := pop_some popped
  have ready : Ready { state with dirty := rest } := ⟨length.trans pushing.range, pushing.saturating⟩
  have origin {solver : FunctionSolver}
      (mem : solver ∈ ({ state with dirty := rest }.solveAt func).solvers) :
      ∃ before ∈ state.solvers, Extends before solver ∧ (solver = before.solve ∨ solver = before) := by
    obtain ⟨pos, found⟩ := mem_iff_getElem?.mp mem
    obtain ⟨before, known, extended, solved⟩ := solveAt_before ready found
    exact ⟨before, mem_of_getElem? known, extended, solved.imp And.right And.right⟩
  have still {pos : Nat} (waiting : pos ∈ state.dirty.queue ∨ False) : pos ∈ rest.queue ∨ pos = func := by
    rw [queued, or_false] at waiting
    exact (mem_cons.mp waiting).symm
  refine
    { range := by simpa [Propagation.solveAt] using ready.range
      saturating := ?_
      entries := ?_
      seeded := ?_
      drained := ?_
      argSizes := pushing.argSizes
      returnSizes := by simpa [Propagation.solveAt] using pushing.returnSizes
      args := ?_
      returns := ?_
      below := ?_ }
  · intro solver mem
    obtain ⟨before, known, extended, -⟩ := origin mem
    exact extended.saturating (pushing.saturating before known)
  · rw [← pushing.entries]
    apply ext_getElem?
    intro pos
    rw [getElem?_map, getElem?_map]
    cases found : ({ state with dirty := rest }.solveAt func).solvers[pos]? with
    | none =>
      have outside := getElem?_eq_none_iff.mp found
      rw [getElem?_eq_none (by simpa [Propagation.solveAt] using outside)]
    | some solver =>
      obtain ⟨before, known, extended, -⟩ := solveAt_before ready found
      rw [known, Option.map_some, Option.map_some, extended.owner, extended.ir]
  · intro solver mem left
    obtain ⟨before, known, extended, -⟩ := origin mem
    rw [extended.owner, extended.ir]
    exact (pushing.seeded before known (extended.enough left)).trans extended.mono
  · intro pos solver found
    obtain ⟨before, known, -, solved⟩ := solveAt_before ready found
    rcases solved with ⟨-, same⟩ | ⟨distinct, same⟩
    · right
      rw [same]
      exact solve_drained (pushing.saturating before (mem_of_getElem? known)).toIndexing
    rw [same]
    apply (pushing.drained pos before known).imp_left
    intro waiting
    exact (still (.inl waiting)).resolve_right distinct
  · intro caller index site listed source target found found'
    obtain ⟨before, known, sources, solved⟩ := solveAt_before ready found
    obtain ⟨before', known', targets, -⟩ := solveAt_before ready found'
    rw [sources.ir, targets.ir]
    apply (pushing.args caller index site listed before before' known known').extends
      (passed_measures _) sources targets
    · exact solved.imp (fun here => .inr here.1) fun away => congrArg _ (congrArg _ away.2)
    · exact still
  · intro pos caller mem source target found found'
    obtain ⟨before, known, sources, solved⟩ := solveAt_before ready found
    obtain ⟨before', known', targets, -⟩ := solveAt_before ready found'
    rw [sources.ir, targets.ir]
    apply (pushing.returns pos caller mem before before' known known').extends
      (returned_measures _ _) sources targets
    · exact solved.imp (fun here => .inr here.1) fun away => congrArg _ (congrArg _ away.2)
    · exact still
  · intro facts solves solver mem
    obtain ⟨before, known, extended, solved⟩ := origin mem
    have below := pushing.below facts solves before known
    rw [extended.owner]
    rcases solved with same | same
    · rw [same]
      apply solve_within (pushing.saturating before known).toIndexing _ below
      have entry : (before.owner, before.ir) ∈ functions := by
        rw [← pushing.entries]
        exact mem_map_of_mem known
      exact (solves.solves _ entry).holds
    · rwa [same]

/-- One iteration keeps the invariant and lowers the measure. -/
theorem step_pushing (mirrored : bindings.Mirrored functions.length)
    (pushing : Pushing functions bindings (fun _ _ => False) (fun _ => False) state)
    (moved : Propagation.step bindings state = some next) :
    Pushing functions bindings (fun _ _ => False) (fun _ => False) next ∧ next.fuel < state.fuel := by
  obtain ⟨⟨func, rest⟩, popped, rfl⟩ := Option.map_eq_some_iff.mp moved
  obtain ⟨queued, length⟩ := pop_some popped
  have solved := solveAt_pushing pushing popped
  obtain ⟨advanced, pushed⟩ := pushSites_pushing solved
  obtain ⟨advanced', final⟩ := pushReturns_pushing mirrored pushed
  have advances := advances_trans advanced advanced'
  refine ⟨final, ?_⟩
  generalize Propagation.pushReturns bindings (Propagation.pushSites bindings
    ({ state with dirty := rest }.solveAt func) func) func = last at advances
  have pending := advances.pending.trans length
  have spent : ({ state with dirty := rest }.solveAt func).remaining ≤ state.remaining := by
    have inside : func < state.solvers.length := by
      rw [← pushing.range]
      exact state.dirty.mem_lt (by rw [queued]; simp)
    have known := getElem?_eq_getElem inside
    have less := (solve_extends (pushing.saturating _ (mem_of_getElem? known))).spent
    rw [Propagation.remaining, Propagation.solveAt, modify_eq_set_getElem? , known]
    exact sum_set_le (fun solver : FunctionSolver => solver.budget.remaining) _ _ inside _ less
  have less := advances.spent
  rw [Propagation.fuel, pending]
  by_cases same : last.remaining = ({ state with dirty := rest }.solveAt func).remaining
  · apply worklistMeasure_idle (by omega)
    rw [advances.idle same, queued]
    simp [Propagation.solveAt]
  apply worklistMeasure_productive (by omega)
  have short := last.dirty.length_le
  omega

theorem start_pushing : Pushing functions bindings (fun _ _ => False) (fun _ => False)
      (Propagation.start bindings functions) := by
  have origin {pos : Nat} {solver : FunctionSolver}
      (found : (Propagation.start bindings functions).solvers[pos]? = some solver) :
      ∃ entry, functions[pos]? = some entry ∧ solver = FunctionSolver.new entry.1 entry.2 factBudget := by
    change (functions.map _)[pos]? = some solver at found
    rw [getElem?_map] at found
    obtain ⟨entry, known, made⟩ := Option.map_eq_some_iff.mp found
    exact ⟨entry, known, made.symm⟩
  have listed {solver : FunctionSolver}
      (mem : solver ∈ (Propagation.start bindings functions).solvers) :
      ∃ entry ∈ functions, solver = FunctionSolver.new entry.1 entry.2 factBudget := by
    obtain ⟨entry, known, made⟩ := mem_map.mp mem
    exact ⟨entry, known, made.symm⟩
  have pending {pos : Nat} {solver : FunctionSolver}
      (found : (Propagation.start bindings functions).solvers[pos]? = some solver) :
      pos ∈ (Propagation.start bindings functions).dirty.queue := by
    obtain ⟨entry, known, -⟩ := origin found
    simpa [Propagation.start] using (List.getElem?_eq_some_iff.mp known).1
  have nothing : PointsToTable.facts {} = ∅ := blank_facts ⟨0⟩ {} 0
  refine
    { range := by simp [Propagation.start]
      saturating := ?_
      entries := ?_
      seeded := ?_
      drained := fun pos solver found => .inl (pending found)
      argSizes := by simp [Propagation.start, Function.comp_def]
      returnSizes := by simp [Propagation.start]
      args := ?_
      returns := ?_
      below := ?_ }
  · intro solver mem
    obtain ⟨entry, -, rfl⟩ := listed mem
    exact new_saturating entry.1 entry.2 factBudget
  · apply ext_getElem?
    intro pos
    simp only [Propagation.start, getElem?_map]
    cases functions[pos]? with
    | none => rfl
    | some entry =>
      have paid := new_paid entry.1 entry.2 factBudget
      simp only [Option.map_some, paid.owned, paid.function]
  · intro solver mem left
    obtain ⟨entry, -, rfl⟩ := listed mem
    have paid := new_paid entry.1 entry.2 factBudget
    rw [paid.owned, paid.function]
    exact (new_grows entry.1 entry.2 factBudget).complete left
  · intro caller index site _ source target found _
    refine ⟨⟨{}, by rw [nothing]; exact Set.empty_subset _, ?_, ?_⟩, .inl (.inl (pending found))⟩
    · have untracked (operand : Operand) : operandPts {} operand = none := by
        unfold operandPts
        cases operandVar operand <;> simp
      have zero : (Propagation.start bindings functions).pushedAt caller index = 0 := by
        rw [Propagation.pushedAt, Propagation.start, getD_eq_getElem?_getD, getD_eq_getElem?_getD,
          getElem?_map]
        cases bindings.out[caller]? with
        | none => rfl
        | some sites =>
          simp only [Option.map_some, Option.getD_some, getElem?_replicate]
          split <;> rfl
      rw [zero]
      simp [passed, untracked, totalSize]
    rintro _ fact ⟨pair, _, loc, ⟨var, _, held⟩, _⟩
    rw [nothing] at held
    contradiction
  · intro func caller _ source target found _
    refine ⟨⟨{}, by rw [nothing]; exact Set.empty_subset _, ?_, ?_⟩, .inl (.inl (pending found))⟩
    · have empty : (returnedPts source.ir {}).members = [] := by
        rw [eq_nil_iff_forall_not_mem]
        intro loc mem
        rw [mem_returnedPts, nothing] at mem
        obtain ⟨value, _, var, _, held⟩ := mem
        contradiction
      have inside := (List.getElem?_eq_some_iff.mp (origin found).choose_spec.1).1
      simp [Propagation.start, ListSet.size, empty, getD_eq_getElem?_getD, inside]
    rintro _ fact ⟨var, _, loc, ⟨value, _, var', _, held⟩, _⟩
    rw [nothing] at held
    contradiction
  · intro facts solves solver mem
    obtain ⟨entry, known, rfl⟩ := listed mem
    have paid := new_paid entry.1 entry.2 factBudget
    rw [paid.owned]
    exact paid.below _ (solves.solves entry known)

section

variable (mirrored : bindings.Mirrored functions.length)
include mirrored

/-- The loop ends: every fact is paid for by a budget. -/
theorem run_halts : Halts (Propagation.step bindings) (Propagation.start bindings functions)
      ((Propagation.start bindings functions).run bindings) := by
  have keeps (before after : Propagation)
      (pushing : Pushing functions bindings (fun _ _ => False) (fun _ => False) before)
      (moved : Propagation.step bindings before = some after) :
      Pushing functions bindings (fun _ _ => False) (fun _ => False) after :=
    (step_pushing mirrored pushing moved).1
  exact halts_loop keeps (fun _ _ pushing moved => (step_pushing mirrored pushing moved).2) _ _
    start_pushing (le_refl _)

theorem run_pushing : Pushing functions bindings (fun _ _ => False) (fun _ => False)
      ((Propagation.start bindings functions).run bindings) :=
  (run_halts mirrored).preserves
    (fun _ _ pushing moved => (step_pushing mirrored pushing moved).1) start_pushing

theorem run_drained : ((Propagation.start bindings functions).run bindings).dirty.queue = [] := by
  have ended := (run_halts mirrored).ended
  rw [Propagation.step, Option.map_eq_none_iff] at ended
  exact pop_none.mp ended

/-- When nothing is pending and no budget has run out, the solvers hold a solution. -/
theorem drained_solution (pushing : Pushing functions bindings (fun _ _ => False) (fun _ => False) state)
    (drained : state.dirty.queue = [])
    (left : ∀ solver ∈ state.solvers, solver.budget.exhausted = false)
    {facts : NodeId → Set Fact}
    (held : ∀ solver ∈ state.solvers, facts solver.owner = solver.table.facts) :
    IsSystemSolution functions bindings facts := by
  have origin {pos : Nat} {entry : NodeId × IrFunction} (known : functions[pos]? = some entry) :
      ∃ solver, state.solvers[pos]? = some solver ∧ entry = (solver.owner, solver.ir) := by
    rw [← pushing.entries, getElem?_map] at known
    obtain ⟨solver, found, made⟩ := Option.map_eq_some_iff.mp known
    exact ⟨solver, found, made.symm⟩
  constructor
  · intro entry mem
    obtain ⟨pos, known⟩ := mem_iff_getElem?.mp mem
    obtain ⟨solver, found, rfl⟩ := origin known
    have listed := mem_of_getElem? found
    have enough := left solver listed
    have solved := (pushing.drained pos solver found).resolve_left (by simp [drained])
    rw [held solver listed]
    constructor
    · intro param mem
      exact pushing.seeded solver listed enough ⟨param, mem, rfl⟩
    intro idx op fetched
    exact ((pushing.saturating solver listed).settled enough idx op fetched).resolve_left
      (by simp [solved])
  intro pos caller callee site known mem known'
  obtain ⟨source, found, rfl⟩ := origin known
  obtain ⟨target, found', rfl⟩ := origin known'
  have inside := (List.getElem?_eq_some_iff.mp known').1
  obtain ⟨index, listed⟩ := mem_iff_getElem?.mp mem
  obtain ⟨args, settled⟩ := pushing.args pos index site listed source target found found'
  have mirror := (mirrored.mirror pos site.callee site.op inside).mpr ⟨site, mem, rfl, rfl⟩
  obtain ⟨returns, settled'⟩ := pushing.returns site.callee _ mirror target source found' found
  rw [callHolds_iff, held source (mem_of_getElem? found), held target (mem_of_getElem? found')]
  constructor
  · exact args.holds (passed_measures _) (settled.resolve_left (by simp [drained]))
      (left target (mem_of_getElem? found'))
  · exact returns.holds (returned_measures _ _) (settled'.resolve_left (by simp [drained]))
      (left source (mem_of_getElem? found))

end

end

/-- The facts of each function, of which an unknown one has none. -/
def factsOf (tables : Dict NodeId PointsToTable) (id : NodeId) : Set Fact :=
  match tables.get id with
  | some table => table.facts
  | none => ∅

theorem sortedFunctions_nodup (irMap : Dict NodeId IrFunction) :
    ((sortedFunctions irMap).map Prod.fst).Nodup := by
  have keys := irMap.nodupKeys
  have permuted := (mergeSort_perm (irMap.entries.map fun entry => (entry.1, entry.2))
    fun first second => first.1.hash.toNat ≤ second.1.hash.toNat).map Prod.fst
  rwa [sortedFunctions, permuted.nodup_iff, map_map]

theorem mem_sortedFunctions (irMap : Dict NodeId IrFunction) (id : NodeId) (ir : IrFunction) :
    (id, ir) ∈ sortedFunctions irMap ↔ irMap.get id = some ir := by
  rw [sortedFunctions, (mergeSort_perm _ _).mem_iff, mem_map, ← Dict.mem_entries_iff]
  constructor
  · intro ⟨entry, mem, same⟩
    cases same
    exact mem
  · intro mem
    exact ⟨_, mem, rfl⟩

/-- The propagation and every solve in it end. There is one table for each function, and when every
table has converged the tables together are the least solution of the constraints of all functions
and of all bound calls. -/
theorem analyzeInterprocedural_least (parse : String → Option CalleeText)
    (targets : List (NodeId × IrFunction) → List Target) (calls : NodeId → List NodeId)
    (irMap : Dict NodeId IrFunction) :
    let functions := sortedFunctions irMap
    let bindings := CallBindings.build parse (targets functions) calls functions
    let tables := analyzeInterprocedural parse targets calls irMap
    Halts (Propagation.step bindings) (Propagation.start bindings functions)
        ((Propagation.start bindings functions).run bindings) ∧
      (∀ state, Relation.ReflTransGen
          (fun before after => Propagation.step bindings before = some after)
          (Propagation.start bindings functions) state →
        ∀ solver ∈ state.solvers, Halts FunctionSolver.solveStep solver solver.solve) ∧
      (∀ id, (tables.get id).isSome = (irMap.get id).isSome) ∧
      ((∀ id table, tables.get id = some table → table.converged = true) →
        IsLeast {facts | IsSystemSolution functions bindings facts} (factsOf tables)) := by
  intro functions bindings tables
  have mirrored := CallBindings.build_mirrored parse (targets functions) calls functions
  have pushing := run_pushing mirrored
  let final := (Propagation.start bindings functions).run bindings
  have distinct := sortedFunctions_nodup irMap
  have pairs : (functions.map Prod.fst).zip (final.solvers.map FunctionSolver.intoTable) =
      final.solvers.map fun solver => (solver.owner, solver.intoTable) := by
    rw [← pushing.entries, map_map, zip_map', Function.comp_def]
  have owners : (final.solvers.map fun solver => (solver.owner, solver.intoTable)).map Prod.fst =
      functions.map Prod.fst := by
    rw [← pushing.entries, map_map, map_map]
    rfl
  have answer (id : NodeId) (table : PointsToTable) : tables.get id = some table ↔
      ∃ solver ∈ final.solvers, solver.owner = id ∧ solver.intoTable = table := by
    change (Dict.ofList ((functions.map Prod.fst).zip
      (final.solvers.map FunctionSolver.intoTable))).get id = some table ↔ _
    rw [pairs, Dict.get_ofList (by rw [owners]; exact distinct)]
    simp
  have held : ∀ solver ∈ final.solvers, factsOf tables solver.owner = solver.table.facts := by
    intro solver mem
    have found := (answer solver.owner solver.intoTable).mpr ⟨solver, mem, rfl, rfl⟩
    rw [factsOf, found]
    rfl
  refine ⟨run_halts mirrored, ?_, ?_, ?_⟩
  · intro state reached
    have reachable : Pushing functions bindings (fun _ _ => False) (fun _ => False) state := by
      induction reached with
      | refl => exact start_pushing
      | tail _ moved ih => exact (step_pushing mirrored ih moved).1
    intro solver mem
    exact solve_halts (reachable.saturating solver mem).toIndexing
  · intro id
    rw [Bool.eq_iff_iff, Option.isSome_iff_exists, Option.isSome_iff_exists]
    constructor
    · intro ⟨table, found⟩
      obtain ⟨solver, mem, rfl, -⟩ := (answer id table).mp found
      have entry : (solver.owner, solver.ir) ∈ functions := by
        rw [← pushing.entries]
        exact mem_map_of_mem mem
      exact ⟨solver.ir, (mem_sortedFunctions irMap _ _).mp entry⟩
    intro ⟨ir, found⟩
    have entry := (mem_sortedFunctions irMap id ir).mpr found
    change (id, ir) ∈ functions at entry
    rw [← pushing.entries] at entry
    obtain ⟨solver, mem, same⟩ := mem_map.mp entry
    exact ⟨solver.intoTable, (answer id _).mpr ⟨solver, mem, (Prod.mk.inj same).1, rfl⟩⟩
  intro converged
  have left : ∀ solver ∈ final.solvers, solver.budget.exhausted = false := by
    intro solver mem
    have found := (answer solver.owner solver.intoTable).mpr ⟨solver, mem, rfl, rfl⟩
    simpa [FunctionSolver.intoTable] using converged _ _ found
  constructor
  · exact drained_solution mirrored pushing (run_drained mirrored) left held
  intro facts solves id
  unfold factsOf
  cases found : tables.get id with
  | none => exact Set.empty_subset _
  | some table =>
    obtain ⟨solver, mem, rfl, rfl⟩ := (answer id table).mp found
    exact pushing.below facts solves solver mem

end Codegraph.PointsTo
