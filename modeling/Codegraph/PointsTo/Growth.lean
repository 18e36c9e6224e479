import Codegraph.PointsTo.Constraints

namespace Codegraph.PointsTo

open Library List WorkQueue

/-- An absorption appends locations, pays one unit for each, and stops only when the budget ends. -/
structure Absorbs (set : ListSet AbstractLocation) (budget : Budget) (grew : Bool)
    (locs : List AbstractLocation) (absorbed : Absorbed) : Prop where
  appended : ∃ added, absorbed.set.members = set.members ++ added ∧ (∀ loc ∈ added, loc ∈ locs) ∧
    added.length + absorbed.budget.remaining = budget.remaining
  complete : absorbed.budget.exhausted = false → ∀ loc ∈ locs, loc ∈ absorbed.set.members
  grew : absorbed.grew = true ↔ grew = true ∨ absorbed.budget.remaining < budget.remaining
  exhausted : budget.exhausted = true → absorbed.budget.exhausted = true
  unpaid : absorbed.budget.exhausted = true → budget.exhausted = true ∨
    (absorbed.budget.remaining = 0 ∧ ∃ loc ∈ locs, loc ∉ absorbed.set.members)

theorem absorb_absorbs (set : ListSet AbstractLocation) (budget : Budget) (grew : Bool)
    (locs : List AbstractLocation) : Absorbs set budget grew locs (absorb set budget grew locs) := by
  induction locs generalizing set budget grew with
  | nil =>
    exact ⟨⟨[], by simp [absorb], by simp, by simp [absorb]⟩, by simp, by simp [absorb],
      fun spent => spent, .inl⟩
  | cons loc locs ih =>
    unfold absorb
    by_cases present : loc ∈ set.members
    · rw [if_pos present]
      obtain ⟨⟨added, members, listed, paid⟩, complete, grown, exhausted, unpaid⟩ := ih set budget grew
      refine ⟨⟨added, members, fun other mem => by simp [listed other mem], paid⟩, ?_, grown,
        exhausted, fun spent => ?_⟩
      · intro enough other mem
        rcases mem_cons.mp mem with rfl | later
        · rw [members]
          exact mem_append_left _ present
        · exact complete enough other later
      apply (unpaid spent).imp_right
      rintro ⟨broke, other, mem, absent⟩
      exact ⟨broke, other, mem_cons_of_mem _ mem, absent⟩
    rw [if_neg present]
    by_cases empty : budget.remaining = 0
    · have refused : budget.spend = (false, { budget with exhausted := true }) := by
        simp [Budget.spend, empty]
      rw [refused]
      exact ⟨⟨[], by simp, by simp, by simp⟩, by simp, by simp, fun _ => rfl,
        fun _ => .inr ⟨empty, loc, by simp, present⟩⟩
    have accepted : budget.spend = (true, { budget with remaining := budget.remaining - 1 }) := by
      simp [Budget.spend, empty]
    rw [accepted]
    obtain ⟨⟨added, members, listed, paid⟩, complete, grown, exhausted, unpaid⟩ :=
      ih (set.insert loc) { budget with remaining := budget.remaining - 1 } true
    have inserted : (set.insert loc).members = set.members ++ [loc] := by simp [ListSet.insert, present]
    dsimp only at paid grown ⊢
    refine ⟨⟨loc :: added, by rw [members, inserted]; simp, ?_, ?_⟩, ?_, ?_, exhausted, ?_⟩
    · intro other mem
      rcases mem_cons.mp mem with rfl | later
      · simp
      · simp [listed other later]
    · rw [length_cons]
      omega
    · intro enough other mem
      rcases mem_cons.mp mem with rfl | later
      · rw [members, inserted]
        simp
      · exact complete enough other later
    · rw [grown]
      simp only [true_or, true_iff]
      right
      omega
    · intro spent
      apply (unpaid spent).imp_right
      rintro ⟨broke, other, mem, absent⟩
      exact ⟨broke, other, mem_cons_of_mem _ mem, absent⟩

/-- A step adds only wanted facts, pays one unit for each, and queues the operations that read what
it added. -/
structure Grows (solver next : FunctionSolver) (wanted : Set Fact) : Prop where
  owner : next.owner = solver.owner
  ir : next.ir = solver.ir
  index : next.index = solver.index
  pending : next.dirty.pending.length = solver.dirty.pending.length
  mono : solver.table.facts ⊆ next.table.facts
  within : next.table.facts ⊆ solver.table.facts ∪ wanted
  complete : next.budget.exhausted = false → wanted ⊆ next.table.facts
  queued : ∀ op ∈ solver.dirty.queue, op ∈ next.dirty.queue
  readers : ∀ fact ∈ next.table.facts, fact ∉ solver.table.facts →
    ∀ op ∈ solver.index.readersOf fact, op ∈ next.dirty.queue
  idle : next.budget.remaining = solver.budget.remaining →
    next.dirty = solver.dirty ∧ next.table.facts = solver.table.facts
  spent : next.budget.remaining ≤ solver.budget.remaining
  counted : next.table.facts.encard + next.budget.remaining =
    solver.table.facts.encard + solver.budget.remaining
  exhausted : solver.budget.exhausted = true → next.budget.exhausted = true
  unpaid : next.budget.exhausted = true → solver.budget.exhausted = true ∨
    (next.budget.remaining = 0 ∧ ∃ fact ∈ wanted, fact ∉ next.table.facts)

theorem grows_refl (solver : FunctionSolver) : Grows solver solver ∅ :=
  ⟨rfl, rfl, rfl, rfl, Set.Subset.refl _, by simp, by simp, fun _ mem => mem,
    fun _ held absent => absurd held absent, fun _ => ⟨rfl, rfl⟩, le_refl _, rfl, fun spent => spent,
    .inl⟩

theorem grows_trans {first second third : FunctionSolver} {wanted wanted' : Set Fact}
    (grown : Grows first second wanted) (grown' : Grows second third wanted') :
    Grows first third (wanted ∪ wanted') := by
  refine ⟨grown'.owner.trans grown.owner, grown'.ir.trans grown.ir, grown'.index.trans grown.index,
    grown'.pending.trans grown.pending, grown.mono.trans grown'.mono, ?_, ?_, ?_, ?_, ?_,
    grown'.spent.trans grown.spent, grown'.counted.trans grown.counted, ?_, ?_⟩
  · intro fact held
    rcases grown'.within held with middle | new
    · exact (grown.within middle).imp_right .inl
    · exact .inr (.inr new)
  · intro enough fact asked
    have enough' : second.budget.exhausted = false := by
      by_contra spent
      rw [grown'.exhausted (by simpa using spent)] at enough
      contradiction
    rcases asked with early | late
    · exact grown'.mono (grown.complete enough' early)
    · exact grown'.complete enough late
  · exact fun op mem => grown'.queued op (grown.queued op mem)
  · intro fact held absent op reader
    by_cases middle : fact ∈ second.table.facts
    · exact grown'.queued op (grown.readers fact middle absent op reader)
    · exact grown'.readers fact held middle op (grown.index ▸ reader)
  · intro same
    have early := grown.spent
    have late := grown'.spent
    obtain ⟨dirty, facts⟩ := grown.idle (by omega)
    obtain ⟨dirty', facts'⟩ := grown'.idle (by omega)
    exact ⟨dirty'.trans dirty, facts'.trans facts⟩
  · exact fun spent => grown'.exhausted (grown.exhausted spent)
  · intro spent
    rcases grown'.unpaid spent with earlier | ⟨broke, fact, asked, absent⟩
    · rcases grown.unpaid earlier with before | ⟨broke, fact, asked, absent⟩
      · exact .inl before
      have late := grown'.spent
      obtain ⟨-, facts⟩ := grown'.idle (by omega)
      exact .inr ⟨by omega, fact, .inl asked, by rw [facts]; exact absent⟩
    · exact .inr ⟨broke, fact, .inr asked, absent⟩

theorem encard_list {Element : Type} [DecidableEq Element] {elements : List Element}
    (nodup : elements.Nodup) : {element | element ∈ elements}.encard = elements.length := by
  have finite : {element | element ∈ elements} = (elements.toFinset : Set Element) := by
    ext element
    simp
  rw [finite, Set.encard_coe_eq_coe_finsetCard, toFinset_card_of_nodup nodup]

variable {solver : FunctionSolver}

theorem grows_of_absorbs {set : ListSet AbstractLocation}
    {locs : List AbstractLocation} {absorbed : Absorbed} (next : FunctionSolver)
    (inject : AbstractLocation → Fact) (readers : List Nat)
    (absorbs : Absorbs set solver.budget false locs absorbed)
    (injective : Function.Injective inject) (owner : next.owner = solver.owner)
    (ir : next.ir = solver.ir) (index : next.index = solver.index)
    (budget : next.budget = absorbed.budget)
    (dirty : next.dirty = if absorbed.grew then solver.dirty.pushAll readers else solver.dirty)
    (listed : ∀ loc, solver.index.readersOf (inject loc) = readers)
    (inside : ∀ op ∈ readers, op < solver.dirty.pending.length)
    (before : ∀ loc, inject loc ∈ solver.table.facts ↔ loc ∈ set.members)
    (after : ∀ fact, fact ∈ next.table.facts ↔
      fact ∈ solver.table.facts ∨ ∃ loc ∈ absorbed.set.members, fact = inject loc) :
    Grows solver next (inject '' {loc | loc ∈ locs}) := by
  obtain ⟨⟨added, members, asked, paid⟩, complete, grew, exhausted, unpaid⟩ := absorbs
  have nodup := members ▸ absorbed.set.nodup
  obtain ⟨-, addedNodup, disjoint⟩ := nodup_append.mp nodup
  have facts : next.table.facts = solver.table.facts ∪ inject '' {loc | loc ∈ added} := by
    ext fact
    rw [after, members]
    constructor
    · intro held
      rcases held with old | ⟨loc, mem, rfl⟩
      · exact .inl old
      rcases mem_append.mp mem with old | new
      · exact .inl ((before loc).mpr old)
      · exact .inr ⟨loc, new, rfl⟩
    intro held
    rcases held with old | ⟨loc, new, rfl⟩
    · exact .inl old
    · exact .inr ⟨loc, mem_append_right _ new, rfl⟩
  have separate : Disjoint solver.table.facts (inject '' {loc | loc ∈ added}) := by
    rw [Set.disjoint_left]
    intro fact old new
    obtain ⟨loc, mem, rfl⟩ := new
    exact disjoint loc ((before loc).mp old) loc mem rfl
  have noGrowth (same : next.budget.remaining = solver.budget.remaining) :
      absorbed.grew = false ∧ added = [] := by
    rw [budget] at same
    constructor
    · by_contra grown
      rcases grew.mp (by simpa using grown) with impossible | fewer
      · contradiction
      · omega
    · exact eq_nil_of_length_eq_zero (by omega)
  refine ⟨owner, ir, index, ?_, ?_, ?_, ?_, ?_, ?_, ?_, ?_, ?_, ?_, ?_⟩
  · rw [dirty]
    split
    · exact pushAll_pending_length _ _
    · rfl
  · rw [facts]
    exact Set.subset_union_left
  · rw [facts]
    apply Set.union_subset_union_right
    exact Set.image_mono asked
  · intro enough fact wanted
    obtain ⟨loc, mem, rfl⟩ := wanted
    rw [budget] at enough
    exact (after _).mpr (.inr ⟨loc, complete enough loc mem, rfl⟩)
  · intro op mem
    rw [dirty]
    split
    · exact mem_pushAll_of_mem _ _ mem
    · exact mem
  · intro fact held absent op reader
    rw [facts] at held
    obtain ⟨loc, mem, rfl⟩ := held.resolve_left absent
    have grown : absorbed.grew = true := by
      apply grew.mpr
      right
      have := length_pos_of_mem mem
      omega
    rw [dirty, if_pos grown]
    rw [listed] at reader
    exact (mem_pushAll _ _ _ inside).mpr (.inl reader)
  · intro same
    obtain ⟨still, none⟩ := noGrowth same
    rw [dirty, facts, still, none]
    simp
  · rw [budget]
    omega
  · rw [facts, Set.encard_union_eq separate, injective.encard_image, encard_list addedNodup, budget,
      ← paid, add_assoc]
    push_cast
    rfl
  · rwa [budget]
  · rw [budget]
    intro broke
    apply (unpaid broke).imp_right
    intro ⟨empty, loc, mem, absent⟩
    refine ⟨empty, inject loc, ⟨loc, mem, rfl⟩, fun held => ?_⟩
    rcases (after _).mp held with old | ⟨other, present, same⟩
    · apply absent
      rw [members]
      exact mem_append_left _ ((before loc).mp old)
    · exact absent (injective same ▸ present)

/-- The solver keeps the index of its function and a queue for its operations. -/
structure Indexing (solver : FunctionSolver) : Prop where
  index : solver.index = UseIndex.build solver.ir
  pending : solver.dirty.pending.length = solver.ir.body.length

theorem Grows.indexing {solver next : FunctionSolver} {wanted : Set Fact}
    (grown : Grows solver next wanted) (indexing : Indexing solver) : Indexing next :=
  ⟨by rw [grown.index, grown.ir, indexing.index], by rw [grown.pending, grown.ir, indexing.pending]⟩

theorem readersOf_lt (indexing : Indexing solver) (fact : Fact) :
    ∀ op ∈ solver.index.readersOf fact, op < solver.dirty.pending.length := by
  rw [indexing.index, indexing.pending]
  exact UseIndex.readersOf_inside solver.ir fact

theorem Absorbs.subset {set : ListSet AbstractLocation} {budget : Budget} {grew : Bool}
    {locs : List AbstractLocation} {absorbed : Absorbed}
    (absorbs : Absorbs set budget grew locs absorbed) {loc : AbstractLocation}
    (mem : loc ∈ set.members) : loc ∈ absorbed.set.members := by
  obtain ⟨added, members, -⟩ := absorbs.appended
  rw [members]
  exact mem_append_left _ mem

theorem addToVar_grows (indexing : Indexing solver) (var : Var) (locs : List AbstractLocation) :
    Grows solver (solver.addToVar var locs).1 (pointsTo var {loc | loc ∈ locs}) := by
  have absorbs := absorb_absorbs (solver.table.vars.getD var .empty) solver.budget false locs
  apply grows_of_absorbs (solver.addToVar var locs).1 (Fact.points var) (solver.index.readersOfVar var) absorbs
    (fun first second same => by cases same; rfl) rfl rfl rfl rfl rfl (fun loc => rfl)
    (readersOf_lt indexing (.points var (.param solver.owner var.name))) (fun loc => Iff.rfl)
  intro fact
  cases fact with
  | stores cell loc =>
    change loc ∈ (solver.table.fields.getD cell .empty).members ↔
      loc ∈ (solver.table.fields.getD cell .empty).members ∨ _
    simp
  | points other loc =>
    change loc ∈ ((solver.table.vars.set var _).getD other .empty).members ↔
      loc ∈ (solver.table.vars.getD other .empty).members ∨ _
    rw [Dict.getD_set]
    by_cases same : other = var
    · subst same
      simpa using fun mem => absorbs.subset mem
    · simp [same]

theorem addToCell_grows (indexing : Indexing solver)
    (cell : AbstractLocation) (locs : List AbstractLocation) :
    Grows solver (solver.addToCell cell locs) (storesIn cell {loc | loc ∈ locs}) := by
  have absorbs := absorb_absorbs (solver.table.fields.getD cell .empty) solver.budget false locs
  apply grows_of_absorbs (solver.addToCell cell locs) (Fact.stores cell) (solver.index.readersOfCell cell) absorbs
    (fun first second same => by cases same; rfl) rfl rfl rfl rfl rfl (fun loc => rfl)
    (readersOf_lt indexing (.stores cell cell)) (fun loc => Iff.rfl)
  intro fact
  cases fact with
  | points var loc =>
    change loc ∈ (solver.table.vars.getD var .empty).members ↔
      loc ∈ (solver.table.vars.getD var .empty).members ∨ _
    simp
  | stores other loc =>
    change loc ∈ ((solver.table.fields.set cell _).getD other .empty).members ↔
      loc ∈ (solver.table.fields.getD other .empty).members ∨ _
    rw [Dict.getD_set]
    by_cases same : other = cell
    · subst same
      simpa using fun mem => absorbs.subset mem
    · simp [same]

theorem foldl_addToCell_grows (indexing : Indexing solver) (cells values : List AbstractLocation) :
    Grows solver (cells.foldl (fun solver cell => solver.addToCell cell values) solver)
      {fact | ∃ cell ∈ cells, fact ∈ storesIn cell {loc | loc ∈ values}} := by
  induction cells generalizing solver with
  | nil => simpa using grows_refl solver
  | cons cell cells ih =>
    have first := addToCell_grows indexing cell values
    have rest := grows_trans first (ih (first.indexing indexing))
    have wanted : {fact | ∃ other ∈ cell :: cells, fact ∈ storesIn other {loc | loc ∈ values}} =
        storesIn cell {loc | loc ∈ values} ∪
          {fact | ∃ other ∈ cells, fact ∈ storesIn other {loc | loc ∈ values}} := by
      ext fact
      simp
    rwa [wanted]

theorem mem_operandPts (solver : FunctionSolver) (operand : Operand) (loc : AbstractLocation) :
    loc ∈ solver.operandPts operand ↔ loc ∈ pts solver.table.facts operand := by
  unfold FunctionSolver.operandPts pts
  cases named : operandVar operand with
  | none => simp
  | some var =>
    simp only [Option.some.injEq, Set.mem_ofPred_eq, exists_eq_left']
    rfl

theorem mem_storedValues (solver : FunctionSolver) (idx : Nat) (src : Operand)
    (loc : AbstractLocation) : loc ∈ solver.storedValues idx src ↔
      loc ∈ stored solver.owner solver.table.facts idx src := by
  cases src with
  | const text => simp [FunctionSolver.storedValues, stored]
  | var var => exact mem_operandPts solver (.var var) loc
  | temp number => exact mem_operandPts solver (.temp number) loc

/-- An evaluation adds the facts its operation asks for. -/
theorem eval_grows (indexing : Indexing solver) {idx : Nat} {op : IrOp}
    (fetched : solver.ir.body[idx]? = some op) :
    Grows solver (solver.eval idx) (asked solver.owner solver.table.facts idx op) := by
  have wantVar (var : Var) (locs : List AbstractLocation) (wanted : Set AbstractLocation)
      (same : ∀ loc, loc ∈ locs ↔ loc ∈ wanted) :
      Grows solver (solver.addToVar var locs).1 (pointsTo var wanted) := by
    rw [← Set.ext same]
    exact addToVar_grows indexing var locs
  rw [FunctionSolver.eval, fetched]
  cases op with
  | assign dst src =>
    cases src with
    | const text => exact wantVar dst _ _ fun loc => by simp
    | var src => exact wantVar dst _ _ (mem_operandPts solver (.var src))
    | temp src => exact wantVar dst _ _ (mem_operandPts solver (.temp src))
  | binOp dst lhs op rhs => exact wantVar dst _ _ fun loc => by simp
  | call dst callee receiver args =>
    cases dst with
    | none => exact grows_refl solver
    | some dst => exact wantVar dst _ _ fun loc => by simp
  | fieldRead dst base field =>
    refine wantVar dst _ _ fun value => ?_
    simp only [mem_flatMap, mem_append, mem_singleton, mem_operandPts, Set.mem_ofPred_eq, or_comm]
    rfl
  | fieldWrite base field src =>
    have wanted : asked solver.owner solver.table.facts idx (.fieldWrite base field src) =
        {fact | ∃ cell ∈ (solver.operandPts base).map fun loc => fieldCell loc field,
          fact ∈ storesIn cell {loc | loc ∈ solver.storedValues idx src}} := by
      ext fact
      simp [asked, storesIn, mem_operandPts, mem_storedValues]
    rw [wanted]
    unfold FunctionSolver.evalFieldWrite
    dsimp only
    by_cases empty : solver.storedValues idx src = []
    · rw [if_pos empty, empty]
      simpa [storesIn] using grows_refl solver
    rw [if_neg empty]
    have grown := foldl_addToCell_grows indexing
      ((solver.operandPts base).map fun loc => fieldCell loc field) (solver.storedValues idx src)
    rwa [foldl_map] at grown
  | _ => exact grows_refl solver

end Codegraph.PointsTo
