import Codegraph.PointsTo.Propagation

namespace Codegraph.PointsTo

open Library List

section

variable {functions : List (NodeId × IrFunction)} {bindings : CallBindings}
  {todo : Nat → Nat → Prop} {due : Nat → Prop} {state next : Propagation}

/-- The invariant of the propagation while the flows of one function are being pushed. -/
structure Pushing (functions : List (NodeId × IrFunction)) (bindings : CallBindings)
    (todo : Nat → Nat → Prop) (due : Nat → Prop) (state : Propagation) : Prop
    extends Solving functions state, Shaped bindings state, Exchanged bindings todo due state where
  below : Below functions bindings state

variable {site : Site}

theorem ArgFlow.weaken {caller index : Nat} {waiting waiting' : Prop}
    (flow : ArgFlow state caller index site waiting) (weaker : waiting → waiting') :
    ArgFlow state caller index site waiting' := by
  intro source target known known'
  obtain ⟨transferred, settled⟩ := flow source target known known'
  exact ⟨transferred, settled.imp_left (Or.imp_right weaker)⟩

theorem ReturnFlow.weaken {func : Nat} {caller : Nat × Nat} {waiting waiting' : Prop}
    (flow : ReturnFlow state func caller waiting) (weaker : waiting → waiting') :
    ReturnFlow state func caller waiting' := by
  intro source target known known'
  obtain ⟨transferred, settled⟩ := flow source target known known'
  exact ⟨transferred, settled.imp_left (Or.imp_right weaker)⟩

theorem setPushed_pushedAt {func index : Nat} (shaped : Shaped bindings state)
    (listed : (bindings.out.getD func [])[index]? = some site) (size caller other : Nat) :
    (state.setPushed func index size).pushedAt caller other =
      if caller = func ∧ other = index then size else state.pushedAt caller other := by
  have lengths : (state.pushedArgs.getD func []).length = (bindings.out.getD func []).length := by
    have same := congrArg (fun lengths : List Nat => lengths[func]?) shaped.argSizes
    rw [getD_eq_getElem?_getD, getD_eq_getElem?_getD]
    cases row : state.pushedArgs[func]? <;> cases row' : bindings.out[func]? <;>
      simp_all
  have inside : index < (state.pushedArgs.getD func []).length := by
    rw [lengths]
    exact (List.getElem?_eq_some_iff.mp listed).1
  unfold Propagation.pushedAt Propagation.setPushed
  by_cases same : caller = func
  · subst same
    cases row : state.pushedArgs[caller]? with
    | none => simp [getD_eq_getElem?_getD, row] at inside
    | some sizes =>
      have within : index < sizes.length := by simpa [getD_eq_getElem?_getD, row] using inside
      simp only [getD_eq_getElem?_getD, getElem?_modify, row, Option.map_eq_map,
        Option.map_some, if_true, Option.getD_some, true_and]
      by_cases here : other = index
      · subst here
        simp [within]
      · rw [getElem?_set_ne (Ne.symm here), if_neg here]
  · simp [getD_eq_getElem?_getD, Ne.symm same, same]

theorem deliver_pushed (state : Propagation) (target : Nat) (seeds : List (Var × ListSet AbstractLocation)) :
    (state.deliver target seeds).pushedArgs = state.pushedArgs ∧
      (state.deliver target seeds).pushedReturns = state.pushedReturns := by
  unfold Propagation.deliver
  split <;> exact ⟨rfl, rfl⟩

theorem pushArguments_cases {func : Nat} (index : Nat) {source target : FunctionSolver}
    (known : state.solvers[func]? = some source)
    (known' : state.solvers[site.callee]? = some target) :
    let seeds := passed source.table (passedPairs site source.ir target.ir)
    (state.pushArguments func (site, index) = state ∧ (passedPairs site source.ir target.ir = [] ∨
          state.pushedAt func index = totalSize seeds)) ∨
      state.pushArguments func (site, index) =
        (state.setPushed func index (totalSize seeds)).deliver site.callee seeds := by
  rw [Propagation.pushArguments, passedPairs, known, known']
  dsimp only
  generalize source.ir.body[site.op]? = fetched
  cases fetched with
  | none => exact .inl ⟨rfl, .inl rfl⟩
  | some op =>
    cases op with
    | call dst callee receiver args =>
      dsimp only
      by_cases same : totalSize (passed source.table
          (argumentPairs site receiver args target.ir)) = state.pushedAt func index
      · rw [if_pos same]
        exact .inl ⟨rfl, .inr same.symm⟩
      · rw [if_neg same]
        exact .inr rfl
    | _ => exact .inl ⟨rfl, .inl rfl⟩

theorem Exchanged.settle {func index : Nat}
    (exchanged : Exchanged bindings todo due state) (advanced : Advances state next)
    (listed : (bindings.out.getD func [])[index]? = some site)
    (others : ∀ caller other, ¬(caller = func ∧ other = index) →
      next.pushedAt caller other = state.pushedAt caller other)
    (returns : next.pushedReturns = state.pushedReturns)
    (settled : ArgFlow next func index site False) :
    Exchanged bindings (fun caller other => todo caller other ∧ ¬(caller = func ∧ other = index))
      due next := by
  constructor
  · intro caller other site' listed'
    by_cases same : caller = func ∧ other = index
    · obtain ⟨rfl, rfl⟩ := same
      rw [listed] at listed'
      cases listed'
      exact settled.weaken False.elim
    apply ((exchanged.args caller other site' listed').advances advanced
      (others caller other same)).weaken
    intro waiting
    exact ⟨waiting, same⟩
  · intro func' caller mem
    exact (exchanged.returns func' caller mem).advances advanced (by rw [returns])

section

variable (pushing : Pushing functions bindings todo due state)
include pushing

/-- A delivery through a site settles its flow. -/
theorem pushed_pushing {func index : Nat} {source target : FunctionSolver}
    (listed : (bindings.out.getD func [])[index]? = some site)
    (known : state.solvers[func]? = some source)
    (known' : state.solvers[site.callee]? = some target) :
    let seeds := passed source.table (passedPairs site source.ir target.ir)
    let next := (state.setPushed func index (totalSize seeds)).deliver site.callee seeds
    Advances state next ∧ Pushing functions bindings
      (fun caller other => todo caller other ∧ ¬(caller = func ∧ other = index)) due next := by
  intro seeds next
  have ready : Ready (state.setPushed func index (totalSize seeds)) :=
    ⟨pushing.range, pushing.saturating⟩
  obtain ⟨moved, after, delivered, grown⟩ := deliver_spec ready known' seeds
  have advanced : Advances state next :=
    ⟨moved.length, moved.pending, moved.grown, moved.queued, moved.spent, moved.idle⟩
  obtain ⟨pushedArgs, pushedReturns⟩ :=
    deliver_pushed (state.setPushed func index (totalSize seeds)) site.callee seeds
  have remembered (caller other : Nat) : next.pushedAt caller other =
      if caller = func ∧ other = index then totalSize seeds else state.pushedAt caller other := by
    rw [← setPushed_pushedAt pushing.toShaped listed]
    unfold Propagation.pushedAt
    rw [pushedArgs]
  have below : Below functions bindings (state.setPushed func index (totalSize seeds)) := pushing.below
  have settled : ArgFlow next func index site False := by
    intro source' target' found found'
    obtain ⟨before, same, sources, calm⟩ := advanced.before found
    rw [known] at same
    cases same
    obtain ⟨before, same, targets, -⟩ := advanced.before found'
    rw [known'] at same
    cases same
    have inside := (List.getElem?_eq_some_iff.mp known').1
    have received : target' = after := by
      rw [delivered] at found'
      change (state.solvers.set site.callee after)[site.callee]? = some target' at found'
      rw [getElem?_set_self inside] at found'
      exact (Option.some.inj found').symm
    rw [sources.ir, targets.ir, remembered, if_pos ⟨rfl, rfl⟩]
    refine ⟨⟨source.table, sources.mono, rfl, ?_⟩, ?_⟩
    · intro left
      rw [← seedFacts_passed, received]
      exact grown.complete (received ▸ left)
    apply calm.imp .inl
    intro same
    exact ((passed_measures _).size_congr same.1).symm
  have exchanged := pushing.toExchanged.settle advanced listed
    (fun caller other distinct => by rw [remembered, if_neg distinct]) pushedReturns settled
  refine ⟨advanced,
    { toSolving := pushing.toSolving.advances advanced
      argSizes := ?_
      returnSizes := ?_
      args := exchanged.args
      returns := exchanged.returns
      below := ?_ }⟩
  · rw [pushedArgs, ← pushing.argSizes]
    apply ext_getElem?
    intro pos
    simp only [Propagation.setPushed, getElem?_map, getElem?_modify]
    cases state.pushedArgs[pos]? with
    | none => rfl
    | some sizes =>
      simp only [Option.map_eq_map, Option.map_some, Option.some.injEq]
      split <;> simp
  · rw [pushedReturns, advanced.length]
    exact pushing.returnSizes
  apply below.deliver ready known'
  intro facts solves
  rw [seedFacts_passed]
  have mem := mem_of_getElem? listed
  have holds := (callHolds_iff _ _ _ _).mp (solves.calls func _ _ site (pushing.entry known) mem
    (pushing.entry known'))
  exact (argFacts_mono _ (pushing.below facts solves source (mem_of_getElem? known))).trans
    holds.1

/-- A push to a callee settles the flow through its site. -/
theorem pushArguments_pushing {func index : Nat} (listed : (bindings.out.getD func [])[index]? = some site) :
    Advances state (state.pushArguments func (site, index)) ∧ Pushing functions bindings
        (fun caller other => todo caller other ∧ ¬(caller = func ∧ other = index)) due
        (state.pushArguments func (site, index)) := by
  have stays (settled : ArgFlow state func index site False)
      (same : state.pushArguments func (site, index) = state) :
      Advances state (state.pushArguments func (site, index)) ∧ Pushing functions bindings
          (fun caller other => todo caller other ∧ ¬(caller = func ∧ other = index)) due
          (state.pushArguments func (site, index)) := by
    rw [same]
    have exchanged := pushing.toExchanged.settle (advances_refl state) listed (fun _ _ _ => rfl) rfl
      settled
    exact ⟨advances_refl state, { pushing with args := exchanged.args, returns := exchanged.returns }⟩
  cases known : state.solvers[func]? with
  | none =>
    apply stays
    · intro source target found
      rw [known] at found
      contradiction
    · simp [Propagation.pushArguments, known]
  | some source =>
    cases known' : state.solvers[site.callee]? with
    | none =>
      apply stays
      · intro source' target found found'
        rw [known'] at found'
        contradiction
      · simp [Propagation.pushArguments, known, known']
    | some target =>
      obtain ⟨transferred, -⟩ := pushing.args func index site listed source target known known'
      rcases pushArguments_cases index known known' with ⟨same, settled⟩ | pushed
      · apply stays _ same
        intro source' target' found found'
        rw [known] at found
        rw [known'] at found'
        cases found
        cases found'
        refine ⟨transferred, .inr ?_⟩
        rcases settled with nothing | settled
        · -- A site that passes nothing has never pushed anything.
          obtain ⟨past, -, remembered, -⟩ := transferred
          rw [remembered, nothing]
          rfl
        · exact settled
      · rw [pushed]
        exact pushed_pushing pushing listed known known'

/-- Flows that are not listed need no push. -/
theorem Pushing.weaken {todo' : Nat → Nat → Prop}
    (weaker : ∀ caller index, index < (bindings.out.getD caller []).length →
      todo caller index → todo' caller index) :
    Pushing functions bindings todo' due state := by
  refine { pushing with args := ?_ }
  intro caller index site listed
  exact (pushing.args caller index site listed).weaken
    (weaker caller index (List.getElem?_eq_some_iff.mp listed).1)

end

theorem foldl_pushArguments {func : Nat} (sites : List Site) (first : Nat)
    (listed : ∀ (offset : Nat) site, sites[offset]? = some site →
      (bindings.out.getD func [])[first + offset]? = some site)
    (pushing : Pushing functions bindings todo due state) :
    let next := (sites.zipIdx first).foldl (fun state entry => state.pushArguments func entry) state
    Advances state next ∧ Pushing functions bindings
      (fun caller index => todo caller index ∧ ¬(caller = func ∧ first ≤ index ∧
        index < first + sites.length)) due next := by
  induction sites generalizing first state todo with
  | nil =>
    refine ⟨advances_refl state, pushing.weaken fun caller index _ waiting => ⟨waiting, ?_⟩⟩
    simp
  | cons site sites ih =>
    have listedFirst := listed 0 site rfl
    obtain ⟨advanced, pushing'⟩ := pushArguments_pushing pushing listedFirst
    have listedRest : ∀ (offset : Nat) site, sites[offset]? = some site →
        (bindings.out.getD func [])[first + 1 + offset]? = some site := by
      intro offset other found
      rw [add_assoc, add_comm 1 offset]
      exact listed (offset + 1) other found
    obtain ⟨advanced', final⟩ := ih (first + 1) listedRest pushing'
    refine ⟨advances_trans advanced advanced', final.weaken ?_⟩
    intro caller index _ ⟨⟨waiting, notThis⟩, notLater⟩
    refine ⟨waiting, fun ⟨same, above, under⟩ => ?_⟩
    rw [length_cons] at under
    have later : index ≠ first := fun here => notThis ⟨same, here⟩
    exact notLater ⟨same, by omega, by omega⟩

theorem pushSites_pushing {func : Nat}
    (pushing : Pushing functions bindings (fun caller _ => caller = func) due state) :
    Advances state (Propagation.pushSites bindings state func) ∧
      Pushing functions bindings (fun _ _ => False) due
        (Propagation.pushSites bindings state func) := by
  obtain ⟨advanced, final⟩ := foldl_pushArguments (bindings.out.getD func []) 0
    (fun offset site found => by rwa [zero_add]) pushing
  refine ⟨advanced, final.weaken ?_⟩
  intro caller index inside ⟨same, notListed⟩
  subst same
  exact notListed ⟨rfl, Nat.zero_le _, by omega⟩

/-- The facts that a returned set gives the destination of a call. -/
def sentTo (dst : Option Var) (locs : ListSet AbstractLocation) : Set Fact :=
  {fact | ∃ var, dst = some var ∧ ∃ loc ∈ locs.members, fact = .points var loc}

theorem sentTo_returnedPts (dst : Option Var) (ir : IrFunction) (table : PointsToTable) :
    sentTo dst (returnedPts ir table) = returnFacts dst ir table.facts := by
  ext fact
  simp only [sentTo, returnFacts, mem_returnedPts]

theorem pushReturn_eq {caller : Nat × Nat} {solver : FunctionSolver}
    (known : state.solvers[caller.1]? = some solver) (locs : ListSet AbstractLocation) :
    Propagation.pushReturn locs state caller =
      match destination solver.ir caller.2 with
      | some dst => state.deliver caller.1 [(dst, locs)]
      | none => state := by
  rw [Propagation.pushReturn, destination, known]
  dsimp only
  generalize solver.ir.body[caller.2]? = fetched
  cases fetched with
  | none => rfl
  | some op =>
    cases op with
    | call dst callee receiver args => cases dst <;> rfl
    | _ => rfl

/-- What the pushes of a returned set to some callers achieve. -/
structure Returned (functions : List (NodeId × IrFunction)) (bindings : CallBindings)
    (locs : ListSet AbstractLocation) (callers : List (Nat × Nat)) (state next : Propagation) : Prop where
  advanced : Advances state next
  below : Below functions bindings next
  sizes : next.pushedArgs = state.pushedArgs ∧ next.pushedReturns = state.pushedReturns
  received : ∀ caller ∈ callers, ∀ target, next.solvers[caller.1]? = some target →
    target.budget.exhausted = false →
    sentTo (destination target.ir caller.2) locs ⊆ target.table.facts

theorem pushReturn_returned {caller : Nat × Nat} {locs : ListSet AbstractLocation}
    (solving : Solving functions state) (below : Below functions bindings state)
    (needed : ∀ facts, IsSystemSolution functions bindings facts → ∀ entry,
      functions[caller.1]? = some entry → sentTo (destination entry.2 caller.2) locs ⊆ facts entry.1) :
    Returned functions bindings locs [caller] state (Propagation.pushReturn locs state caller) := by
  cases known : state.solvers[caller.1]? with
  | none =>
    have same : Propagation.pushReturn locs state caller = state := by
      simp [Propagation.pushReturn, known]
    rw [same]
    refine ⟨advances_refl state, below, ⟨rfl, rfl⟩, ?_⟩
    intro other mem target found
    rw [mem_singleton.mp mem, known] at found
    contradiction
  | some solver =>
    rw [pushReturn_eq known]
    cases named : destination solver.ir caller.2 with
    | none =>
      refine ⟨advances_refl state, below, ⟨rfl, rfl⟩, ?_⟩
      intro other mem target found _ fact ⟨var, same, _⟩
      rw [mem_singleton.mp mem] at found same
      rw [known] at found
      cases found
      rw [named] at same
      contradiction
    | some dst =>
      have seeded : seedFacts [(dst, locs)] = sentTo (some dst) locs := by
        ext fact
        simp [seedFacts, sentTo]
      obtain ⟨advanced, after, delivered, grown⟩ := deliver_spec solving.toReady known [(dst, locs)]
      refine ⟨advanced, ?_, deliver_pushed state caller.1 [(dst, locs)], ?_⟩
      · apply below.deliver solving.toReady known
        intro facts solves
        rw [seeded, ← named]
        exact needed facts solves _ (solving.entry known)
      intro other mem target found left
      rw [mem_singleton.mp mem] at found ⊢
      have inside := (List.getElem?_eq_some_iff.mp known).1
      rw [delivered, getElem?_set_self inside] at found
      obtain rfl := Option.some.inj found
      rw [grown.ir, named, ← seeded]
      exact grown.complete left

theorem foldl_pushReturn {locs : ListSet AbstractLocation} (callers : List (Nat × Nat))
    (solving : Solving functions state) (below : Below functions bindings state)
    (needed : ∀ facts, IsSystemSolution functions bindings facts → ∀ caller ∈ callers, ∀ entry,
      functions[caller.1]? = some entry → sentTo (destination entry.2 caller.2) locs ⊆ facts entry.1) :
    Returned functions bindings locs callers state
      (callers.foldl (Propagation.pushReturn locs) state) := by
  induction callers generalizing state with
  | nil => exact ⟨advances_refl state, below, ⟨rfl, rfl⟩, by simp⟩
  | cons caller callers ih =>
    have first := pushReturn_returned solving below
      fun facts solves entry found => needed facts solves caller (by simp) entry found
    have rest := ih (solving.advances first.advanced) first.below
      fun facts solves other mem => needed facts solves other (by simp [mem])
    refine ⟨advances_trans first.advanced rest.advanced, rest.below,
      ⟨rest.sizes.1.trans first.sizes.1, rest.sizes.2.trans first.sizes.2⟩, ?_⟩
    intro other mem target found left
    rcases mem_cons.mp mem with rfl | later
    · obtain ⟨before, known, extended, -⟩ := rest.advanced.before found
      rw [extended.ir]
      exact (first.received other (by simp) before known (extended.enough left)).trans extended.mono
    · exact rest.received other later target found left

end

end Codegraph.PointsTo
