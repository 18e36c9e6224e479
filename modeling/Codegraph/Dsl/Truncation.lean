import Codegraph.Dsl.CallReach
import Codegraph.Dsl.Rewrites

namespace Codegraph.Dsl

open Library Relation List

/-- What an operator makes of the working set when no number of nodes limits it. -/
def opMeaning (engine : QueryEngine) (seeds : Set NodeId) : DslOp → Set NodeId
  | .selectFn name => engine.applySelectFn name
  | .selectType name => engine.applySelectType name
  | .callers => {id | ∃ seed ∈ seeds, id ∈ callNeighbors engine.code true seed}
  | .callees => {id | ∃ seed ∈ seeds, id ∈ callNeighbors engine.code false seed}
  | .depth limit => {id | ∃ seed ∈ seeds, id ∈ engine.code.within .outgoing seed limit.val}
  | .filter kind => {id ∈ seeds | ∃ data, engine.code.getNode id = some data ∧ data.kind = kind}
  | .show _ => seeds
  | .taint _ => callReach engine.code false seeds
  | .preconditions => callReach engine.code true seeds
  | .since revision =>
    {id ∈ seeds | ∃ data, engine.code.getNode id = some data ∧ revision ≤ data.lastModifiedRevision}
  | .reachableVia pattern direction =>
    {id | ∃ seed ∈ seeds, id ∈ reachableTargets engine.code seed pattern direction}

/-- No more nodes than allowed lie around a seed, or behind the seeds. -/
def opFits (engine : QueryEngine) (maxNodes : Nat) (seeds : Set NodeId) : DslOp → Prop
  | .depth limit => ∀ seed ∈ seeds,
      (engine.code.within .outgoing seed limit.val).encard ≤ (max 1 maxNodes : Nat)
  | .taint _ => (callReach engine.code false seeds).encard ≤ (max 1 maxNodes : Nat)
  | .preconditions => (callReach engine.code true seeds).encard ≤ (max 1 maxNodes : Nat)
  | _ => True

def pipeMeaning (engine : QueryEngine) : List DslOp → Set NodeId → Set NodeId
  | [], seeds => seeds
  | op :: ops, seeds => pipeMeaning engine ops (opMeaning engine seeds op)

def pipeFits (engine : QueryEngine) (maxNodes : Nat) : List DslOp → Set NodeId → Prop
  | [], _ => True
  | op :: ops, seeds =>
    opFits engine maxNodes seeds op ∧ pipeFits engine maxNodes ops (opMeaning engine seeds op)

/-- A path that the query looks for between two nodes. -/
def CandidatePath (code : CodeGraph) (options : PathOptions) (source target : NodeId)
    (path : List NodeId) : Prop :=
  match options.mode with
  | .shortest => findPath code source target (options.maxDepth.getD defaultMaxDepth) = some path
  | .allSimple => SimplePath code (options.maxDepth.getD defaultMaxDepth) source target path

/-- A path between two sets that passes the restrictions of the query. -/
def MatchingPath (code : CodeGraph) (options : PathOptions) (sources targets : Set NodeId)
    (path : List NodeId) : Prop :=
  ∃ source ∈ sources, ∃ target ∈ targets,
    CandidatePath code options source target path ∧ pathMatchesFilters code options path

/-- The nodes on some paths. -/
def nodesOn (family : List NodeId → Prop) : Set NodeId := {id | ∃ path, family path ∧ id ∈ path}

/-- The simple paths between two nodes have fewer nodes than the budget. As many are enough when none
of the paths is filtered out. -/
def BudgetSuffices (code : CodeGraph) (options : PathOptions) (maxNodes : Nat)
    (source target : NodeId) : Prop :=
  let simple := SimplePath code (options.maxDepth.getD defaultMaxDepth) source target
  options.mode = .allSimple → source = target ∨ (nodesOn simple).encard < maxNodes ∨
    (nodesOn simple).encard ≤ maxNodes ∧ ∀ path, simple path → pathMatchesFilters code options path

namespace Expr

/-- What an expression denotes when no number of nodes limits it. -/
def meaning (engine : QueryEngine) : Expr → Set NodeId
  | .pipe ops => pipeMeaning engine ops ∅
  | .pathQuery options source target =>
    nodesOn (MatchingPath engine.code options (meaning engine source) (meaning engine target))
  | .setOp .union left right => meaning engine left ∪ meaning engine right
  | .setOp .intersect left right => meaning engine left ∩ meaning engine right
  | .setOp .diff left right => meaning engine left \ meaning engine right
  | .pipeFrom base ops => pipeMeaning engine ops (meaning engine base)
  | .entrypoints _ | .dominatorsOf _ | .dominatesOf _ | .traitImplsOf _ | .multiPath _ _ _ => ∅

/-- The number of nodes cuts nothing off before the result: the operators of each pipe fit, every
operand has as many nodes at most, and so have the paths of a query unless no part of them has exactly
that many. -/
def Fits (engine : QueryEngine) (maxNodes : Nat) : Expr → Prop
  | .pipe ops => pipeFits engine maxNodes ops ∅
  | .pathQuery options source target =>
    (Fits engine maxNodes source ∧ (meaning engine source).encard ≤ maxNodes) ∧
    (Fits engine maxNodes target ∧ (meaning engine target).encard ≤ maxNodes) ∧
    (∀ first ∈ meaning engine source, ∀ last ∈ meaning engine target,
      BudgetSuffices engine.code options maxNodes first last) ∧
    ∀ family : List NodeId → Prop, (∀ path, family path →
        MatchingPath engine.code options (meaning engine source) (meaning engine target) path) →
      (nodesOn family).encard = maxNodes →
      nodesOn family = meaning engine (.pathQuery options source target)
  | .setOp _ left right =>
    (Fits engine maxNodes left ∧ (meaning engine left).encard ≤ maxNodes) ∧
    (Fits engine maxNodes right ∧ (meaning engine right).encard ≤ maxNodes)
  | .pipeFrom base ops =>
    (Fits engine maxNodes base ∧ (meaning engine base).encard ≤ maxNodes) ∧
    pipeFits engine maxNodes ops (meaning engine base)
  | .entrypoints _ | .dominatorsOf _ | .dominatesOf _ | .traitImplsOf _ | .multiPath _ _ _ => False

end Expr

variable {engine : QueryEngine} {config : QueryConfig}

theorem applyPipeOp_meaning (consistent : CodeGraph.Consistent engine.code) (set : Finset NodeId)
    (op : DslOp) (fits : opFits engine config.maxNodes set op) :
    (engine.applyPipeOp config set op : Set NodeId) = opMeaning engine set op := by
  cases op with
  | selectFn name => rfl
  | selectType name => rfl
  | callers =>
    ext id
    simp [QueryEngine.applyPipeOp, QueryEngine.applyCallers, opMeaning]
  | callees =>
    ext id
    simp [QueryEngine.applyPipeOp, QueryEngine.applyCallees, opMeaning]
  | depth limit =>
    ext id
    simp only [QueryEngine.applyPipeOp, QueryEngine.applyDepth, Finset.coe_biUnion,
      Set.mem_iUnion₂, Finset.mem_coe, mem_toFinset, exists_prop]
    apply exists_congr
    intro seed
    apply and_congr_right
    intro seeded
    constructor
    · exact traverse_near consistent seed id _
    intro near
    have collected := traverse_collected consistent seed
      { maxDepth := limit.val, maxNodes := config.maxNodes, direction := .outgoing } near.1
    apply ((collected.complete (Bool.eq_false_iff.mpr fun truncated => ?_)).1 id).mpr near
    have many := collected.truncated.mp truncated
    have few := ENat.toNat_le_toNat (fits seed seeded) (ENat.natCast_ne_top _)
    rw [ENat.toNat_natCast] at few
    exact absurd many (not_lt.mpr few)
  | filter kind =>
    ext id
    simp [QueryEngine.applyPipeOp, QueryEngine.applyFilter, mem_retain, opMeaning]
  | «show» projection => rfl
  | taint source =>
    obtain ⟨inside, either⟩ := applyCallReachability_spec consistent config false set
    exact either.elim (full_eq inside fits) id
  | preconditions =>
    obtain ⟨inside, either⟩ := applyCallReachability_spec consistent config true set
    exact either.elim (full_eq inside fits) id
  | since revision =>
    ext id
    simp [QueryEngine.applyPipeOp, QueryEngine.applySince, mem_retain, opMeaning]
  | reachableVia pattern direction =>
    ext id
    simp [QueryEngine.applyPipeOp, QueryEngine.applyReachableVia, opMeaning]

theorem pipe_meaning (consistent : CodeGraph.Consistent engine.code) (ops : List DslOp)
    (set : Finset NodeId) (fits : pipeFits engine config.maxNodes ops set) :
    (engine.pipe config ops set : Set NodeId) = pipeMeaning engine ops set := by
  induction ops generalizing set with
  | nil => rfl
  | cons op ops ih =>
    have applied := applyPipeOp_meaning consistent set op fits.1
    change (engine.pipe config ops (engine.applyPipeOp config set op) : Set NodeId) = _
    rw [ih _ (applied ▸ fits.2), applied]
    rfl

/-- A loop over items that ends early is full, and a property that each item keeps holds after it. -/
theorem gatherUntil_spec {Item : Type} {maxNodes : Nat} {visit : Item → Finset NodeId → Finset NodeId}
    {Kept : Finset NodeId → Prop} {wanted : Item → NodeId → Prop} (items : List Item)
    (visited : ∀ item ∈ items, ∀ nodes, Kept nodes → Kept (visit item nodes) ∧
      (maxNodes ≤ (visit item nodes).card ∨ ∀ id, id ∈ visit item nodes ↔ id ∈ nodes ∨ wanted item id))
    (nodes : Finset NodeId) (kept : Kept nodes) :
    Kept (gatherUntil maxNodes visit items nodes) ∧
      (maxNodes ≤ (gatherUntil maxNodes visit items nodes).card ∨
        ∀ id, id ∈ gatherUntil maxNodes visit items nodes ↔
          id ∈ nodes ∨ ∃ item ∈ items, wanted item id) := by
  induction items generalizing nodes with
  | nil => exact ⟨kept, .inr fun id => by simp [gatherUntil]⟩
  | cons item items ih =>
    obtain ⟨kept', either⟩ := visited item mem_cons_self nodes kept
    rw [gatherUntil]
    split
    · rename_i full
      exact ⟨kept', .inl full⟩
    rename_i room
    obtain ⟨final, rest⟩ := ih
      (fun other mem => visited other (mem_cons_of_mem item mem)) _ kept'
    refine ⟨final, rest.imp_right fun all id => ?_⟩
    rw [all, either.resolve_left room, or_assoc]
    simp

theorem candidatePaths_spec {code : CodeGraph} {options : PathOptions} {maxNodes : Nat}
    {source target : NodeId} (suffices' : BudgetSuffices code options maxNodes source target) :
    (∀ path ∈ candidatePaths code options maxNodes source target,
      CandidatePath code options source target path) ∧
    ∀ path, CandidatePath code options source target path → pathMatchesFilters code options path →
      ∀ id ∈ path, ∃ found ∈ candidatePaths code options maxNodes source target,
        pathMatchesFilters code options found ∧ id ∈ found := by
  unfold candidatePaths CandidatePath
  cases mode : options.mode with
  | shortest =>
    refine ⟨fun path found => Option.mem_toList.mp found, fun path found accepted id on => ?_⟩
    exact ⟨path, Option.mem_toList.mpr found, accepted, on⟩
  | allSimple =>
    obtain ⟨simple, either⟩ := allSimplePathsBounded_spec code source target
      (options.maxDepth.getD defaultMaxDepth) maxNodes
    refine ⟨simple, fun path candidate accepted id on => ?_⟩
    rcases either with complete | ⟨nodes, full, members⟩
    · exact ⟨path, complete path candidate, accepted, on⟩
    have inside : (nodes : Set NodeId) ⊆ nodesOn
        (SimplePath code (options.maxDepth.getD defaultMaxDepth) source target) := by
      intro other mem
      obtain ⟨found, listed, on'⟩ := (members other).mp mem
      exact ⟨found, simple found listed, on'⟩
    rcases suffices' mode with same | fewer | ⟨few, all⟩
    · subst same
      refine ⟨[source], ?_, ?_, ?_⟩
      · change [source] ∈ allSimplePathsBounded code source source _ maxNodes
        rw [allSimplePathsBounded_stays]
        exact mem_singleton_self _
      · exact candidate.stays ▸ accepted
      · exact candidate.stays ▸ on
    · have small := Set.encard_le_encard inside
      rw [Set.encard_coe_eq_coe_finsetCard] at small
      exact absurd full (not_le.mpr (Nat.cast_lt.mp (small.trans_lt fewer)))
    have whole := full_eq inside few full
    have mem : id ∈ (nodes : Set NodeId) := whole ▸ ⟨path, candidate, on⟩
    obtain ⟨found, listed, on'⟩ := (members id).mp mem
    exact ⟨found, listed, all found (simple found listed), on'⟩

/-- The result of the expression comes from a part of what it denotes, which is all of it when it is
not larger than allowed. -/
structure Computes (engine : QueryEngine) (config : QueryConfig) (expr : Expr) (set : Finset NodeId) :
    Prop where
  result : engine.executeExpr config expr = engine.finish config set
  inside : (set : Set NodeId) ⊆ expr.meaning engine
  whole : set.card ≤ config.maxNodes → (set : Set NodeId) = expr.meaning engine

theorem length_iterate (runtime : Runtime) (set : Finset NodeId) :
    (runtime.iterate set).length = set.card := by
  rw [← toFinset_card_of_nodup (runtime.distinct set)]
  congr 1
  ext id
  rw [mem_toFinset, runtime.listed]

theorem finish_untruncated (set : Finset NodeId) :
    (engine.finish config set).wasTruncated = false ↔ set.card ≤ config.maxNodes := by
  change decide (config.maxNodes < (engine.runtime.iterate set).length) = false ↔ _
  rw [length_iterate, decide_eq_false_iff_not, not_lt]

theorem finish_nodes (set : Finset NodeId) (small : set.card ≤ config.maxNodes) :
    (engine.finish config set).nodes = engine.runtime.iterate set := by
  change (engine.runtime.iterate set).take config.maxNodes = _
  rw [take_of_length_le]
  rwa [length_iterate]

theorem Computes.operand {expr : Expr} {set : Finset NodeId} (computes : Computes engine config expr set)
    (small : (expr.meaning engine).encard ≤ config.maxNodes) :
    ((engine.executeExpr config expr).nodes.toFinset : Set NodeId) = expr.meaning engine := by
  have size := (Set.encard_le_encard computes.inside).trans small
  rw [Set.encard_coe_eq_coe_finsetCard] at size
  have few := Nat.cast_le.mp size
  rw [← computes.whole few, computes.result, finish_nodes set few]
  ext id
  rw [Finset.mem_coe, mem_toFinset, engine.runtime.listed, Finset.mem_coe]

/-- A pipe computes what its operators make of the seeds. -/
theorem Computes.of_eq {expr : Expr} {set : Finset NodeId}
    (result : engine.executeExpr config expr = engine.finish config set)
    (same : (set : Set NodeId) = expr.meaning engine) : Computes engine config expr set :=
  ⟨result, same.subset, fun _ => same⟩

/-- The nodes are the ones on some of the paths. -/
def OnPaths (accepted : List NodeId → Prop) (nodes : Finset NodeId) : Prop :=
  ∃ family : List NodeId → Prop, (∀ path, family path → accepted path) ∧
    (nodes : Set NodeId) = nodesOn family

theorem addPath_onPaths {accepted : List NodeId → Prop} {path : List NodeId} (mem : accepted path)
    (nodes : Finset NodeId) (onPaths : OnPaths accepted nodes) :
    OnPaths accepted (addPath path nodes) := by
  obtain ⟨family, members, same⟩ := onPaths
  refine ⟨fun other => family other ∨ other = path, ?_, ?_⟩
  · intro other either
    rcases either with old | new
    · exact members other old
    · exact new ▸ mem
  rw [addPath, Finset.coe_union, same]
  ext id
  simp [nodesOn, or_and_right, exists_or]

theorem mem_addPath (path : List NodeId) (nodes : Finset NodeId) (id : NodeId) :
    id ∈ addPath path nodes ↔ id ∈ nodes ∨ id ∈ path := by
  rw [addPath, Finset.mem_union, mem_toFinset]

/-- The loops over the sources, the targets and the paths collect whole paths, and all of them unless
they are full. -/
theorem gatherPaths_spec {accepted : List NodeId → Prop} {sources targets : List NodeId}
    {paths : NodeId → NodeId → List (List NodeId)} (maxNodes : Nat)
    (found : ∀ source ∈ sources, ∀ target ∈ targets, ∀ path ∈ paths source target, accepted path) :
    let nodes := gatherUntil maxNodes (fun source nodes =>
      gatherUntil maxNodes (fun target nodes =>
        gatherUntil maxNodes addPath (paths source target) nodes) targets nodes) sources ∅
    OnPaths accepted nodes ∧ (maxNodes ≤ nodes.card ∨
      ∀ id, id ∈ nodes ↔ ∃ source ∈ sources, ∃ target ∈ targets, ∃ path ∈ paths source target,
        id ∈ path) := by
  have inner (source : NodeId) (known : source ∈ sources) (target : NodeId)
      (known' : target ∈ targets) (nodes : Finset NodeId) (onPaths : OnPaths accepted nodes) :
      OnPaths accepted (gatherUntil maxNodes addPath (paths source target) nodes) ∧
        (maxNodes ≤ (gatherUntil maxNodes addPath (paths source target) nodes).card ∨
          ∀ id, id ∈ gatherUntil maxNodes addPath (paths source target) nodes ↔
            id ∈ nodes ∨ ∃ path ∈ paths source target, id ∈ path) :=
    gatherUntil_spec _ (fun path listed nodes onPaths =>
      ⟨addPath_onPaths (found source known target known' path listed) nodes onPaths,
        .inr (mem_addPath path nodes)⟩) nodes onPaths
  have none : OnPaths accepted ∅ := by
    refine ⟨fun _ => False, fun _ impossible => impossible.elim, ?_⟩
    ext id
    simp [nodesOn]
  obtain ⟨onPaths, either⟩ := gatherUntil_spec sources (fun source known nodes onPaths =>
    gatherUntil_spec targets (inner source known) nodes onPaths) ∅ none
  refine ⟨onPaths, either.imp_right fun all id => ?_⟩
  rw [all, or_iff_right (Finset.notMem_empty id)]

theorem pathQuery_computes {options : PathOptions} {source target : Expr} {maxNodes : Nat}
    (first : ((engine.executeExpr ⟨maxNodes⟩ source).nodes.toFinset : Set NodeId) = source.meaning engine)
    (last : ((engine.executeExpr ⟨maxNodes⟩ target).nodes.toFinset : Set NodeId) = target.meaning engine)
    (fits : Expr.Fits engine maxNodes (.pathQuery options source target)) :
    ∃ set, Computes engine ⟨maxNodes⟩ (.pathQuery options source target) set := by
  obtain ⟨_, _, budgets, parts⟩ := fits
  have sources (id : NodeId) : id ∈ (engine.executeExpr ⟨maxNodes⟩ source).nodes ↔
      id ∈ source.meaning engine := by
    rw [← first, Finset.mem_coe, mem_toFinset]
  have targets (id : NodeId) : id ∈ (engine.executeExpr ⟨maxNodes⟩ target).nodes ↔
      id ∈ target.meaning engine := by
    rw [← last, Finset.mem_coe, mem_toFinset]
  have found : ∀ start ∈ (engine.executeExpr ⟨maxNodes⟩ source).nodes,
      ∀ finish ∈ (engine.executeExpr ⟨maxNodes⟩ target).nodes,
      ∀ path ∈ (candidatePaths engine.code options maxNodes start finish).filter
        (pathMatchesFilters engine.code options),
      MatchingPath engine.code options (source.meaning engine) (target.meaning engine) path := by
    intro start known finish known' path listed
    have start' := (sources start).mp known
    have finish' := (targets finish).mp known'
    obtain ⟨candidate, matched⟩ := mem_filter.mp listed
    exact ⟨start, start', finish, finish',
      (candidatePaths_spec (budgets start start' finish finish')).1 path candidate, matched⟩
  have gathered := gatherPaths_spec maxNodes found
  generalize made : gatherUntil maxNodes _ _ _ = set at gathered
  obtain ⟨⟨family, members, same⟩, either⟩ := gathered
  refine ⟨set, congrArg (engine.finish ⟨maxNodes⟩) made, ?_, ?_⟩
  · rw [same]
    intro id ⟨path, mem, on⟩
    exact ⟨path, members path mem, on⟩
  intro small
  rcases either with full | all
  · have exactly : (nodesOn family).encard = maxNodes := by
      rw [← same, Set.encard_coe_eq_coe_finsetCard, le_antisymm small full]
    rw [same]
    exact parts family members exactly
  ext id
  rw [Finset.mem_coe, all]
  constructor
  · intro ⟨start, known, finish, known', path, listed, on⟩
    exact ⟨path, found start known finish known' path listed, on⟩
  intro ⟨path, ⟨start, known, finish, known', candidate, matched⟩, on⟩
  obtain ⟨found, listed, matched', on'⟩ :=
    (candidatePaths_spec (budgets start known finish known')).2 path candidate matched id on
  exact ⟨start, (sources start).mpr known, finish, (targets finish).mpr known', found,
    mem_filter.mpr ⟨listed, matched'⟩, on'⟩

theorem computes_of_fits (consistent : CodeGraph.Consistent engine.code) (maxNodes : Nat) :
    ∀ expr : Expr, expr.Fits engine maxNodes → ∃ set, Computes engine ⟨maxNodes⟩ expr set
  | .pipe ops, fits => by
    have start : ((∅ : Finset NodeId) : Set NodeId) = ∅ := Finset.coe_empty
    have fits : pipeFits engine maxNodes ops ∅ := fits
    refine ⟨engine.pipe ⟨maxNodes⟩ ops ∅, Computes.of_eq rfl ?_⟩
    rw [pipe_meaning consistent ops ∅ (start ▸ fits), start]
    rfl
  | .pipeFrom base ops, fits => by
    obtain ⟨_, computes⟩ := computes_of_fits consistent maxNodes base fits.1.1
    have seeds := computes.operand fits.1.2
    refine ⟨_, Computes.of_eq rfl ?_⟩
    have same := pipe_meaning consistent ops _ (seeds ▸ fits.2)
    rwa [seeds] at same
  | .setOp op left right, fits => by
    obtain ⟨_, computes⟩ := computes_of_fits consistent maxNodes left fits.1.1
    obtain ⟨_, computes'⟩ := computes_of_fits consistent maxNodes right fits.2.1
    have first := computes.operand fits.1.2
    have second := computes'.operand fits.2.2
    refine ⟨_, Computes.of_eq rfl ?_⟩
    cases op with
    | union => rw [Finset.coe_union, first, second]; rfl
    | intersect => rw [Finset.coe_inter, first, second]; rfl
    | diff => rw [Finset.coe_sdiff, first, second]; rfl
  | .pathQuery options source target, fits => by
    obtain ⟨_, computes⟩ := computes_of_fits consistent maxNodes source fits.1.1
    obtain ⟨_, computes'⟩ := computes_of_fits consistent maxNodes target fits.2.1.1
    exact pathQuery_computes (computes.operand fits.1.2) (computes'.operand fits.2.1.2) fits

theorem opFits_mono {maxNodes more : Nat} (less : maxNodes ≤ more) {seeds : Set NodeId} {op : DslOp}
    (fits : opFits engine maxNodes seeds op) : opFits engine more seeds op := by
  have grows : ((max 1 maxNodes : Nat) : ℕ∞) ≤ (max 1 more : Nat) :=
    Nat.cast_le.mpr (max_le_max_left 1 less)
  cases op with
  | depth limit => exact fun seed seeded => (fits seed seeded).trans grows
  | taint source => exact (show (callReach _ _ _).encard ≤ _ from fits).trans grows
  | preconditions => exact (show (callReach _ _ _).encard ≤ _ from fits).trans grows
  | _ => trivial

theorem pipeFits_mono {maxNodes more : Nat} (less : maxNodes ≤ more) (ops : List DslOp)
    (seeds : Set NodeId) (fits : pipeFits engine maxNodes ops seeds) :
    pipeFits engine more ops seeds := by
  induction ops generalizing seeds with
  | nil => trivial
  | cons op ops ih => exact ⟨opFits_mono less fits.1, ih _ fits.2⟩

theorem fits_mono {maxNodes more : Nat} (less : maxNodes ≤ more) :
    ∀ expr : Expr, expr.Fits engine maxNodes → (expr.meaning engine).encard ≤ maxNodes →
      expr.Fits engine more
  | .pipe ops, fits, _ => pipeFits_mono less ops ∅ fits
  | .pipeFrom base ops, ⟨⟨fits, small⟩, rest⟩, _ =>
    ⟨⟨fits_mono less base fits small, small.trans (Nat.cast_le.mpr less)⟩, pipeFits_mono less ops _ rest⟩
  | .setOp _ left right, ⟨⟨fits, small⟩, fits', small'⟩, _ =>
    ⟨⟨fits_mono less left fits small, small.trans (Nat.cast_le.mpr less)⟩,
      fits_mono less right fits' small', small'.trans (Nat.cast_le.mpr less)⟩
  | .pathQuery options source target, ⟨⟨fits, small⟩, ⟨fits', small'⟩, budgets, _⟩, few => by
    refine ⟨⟨fits_mono less source fits small, small.trans (Nat.cast_le.mpr less)⟩,
      ⟨fits_mono less target fits' small', small'.trans (Nat.cast_le.mpr less)⟩, ?_, ?_⟩
    · intro first known last known' mode
      rcases budgets first known last known' mode with same | fewer | ⟨few, all⟩
      · exact .inl same
      · exact .inr (.inl (fewer.trans_le (Nat.cast_le.mpr less)))
      · exact .inr (.inr ⟨few.trans (Nat.cast_le.mpr less), all⟩)
    intro family members exactly
    have finite := Set.finite_of_encard_le_coe few
    apply finite.eq_of_subset_of_encard_le'
    · intro id ⟨path, mem, on⟩
      exact ⟨path, members path mem, on⟩
    · rw [exactly]
      exact few.trans (Nat.cast_le.mpr less)

/-- A result that is not marked as truncated is what the expression denotes and what every larger
number of nodes yields, when the number of nodes cuts nothing off before it. -/
theorem executeExpr_untruncated (consistent : CodeGraph.Consistent engine.code) (expr : Expr)
    (maxNodes unbounded : Nat) (fits : expr.Fits engine maxNodes) (less : maxNodes ≤ unbounded)
    (untruncated : (engine.executeExpr ⟨maxNodes⟩ expr).wasTruncated = false) :
    (engine.executeExpr ⟨maxNodes⟩ expr).nodes = (engine.executeExpr ⟨unbounded⟩ expr).nodes ∧
      ∀ id, id ∈ (engine.executeExpr ⟨maxNodes⟩ expr).nodes ↔ id ∈ expr.meaning engine := by
  obtain ⟨set, computes⟩ := computes_of_fits consistent maxNodes expr fits
  rw [computes.result, finish_untruncated] at untruncated
  have whole := computes.whole untruncated
  have small : (expr.meaning engine).encard ≤ maxNodes := by
    rw [← whole, Set.encard_coe_eq_coe_finsetCard]
    exact Nat.cast_le.mpr untruncated
  obtain ⟨set', computes'⟩ := computes_of_fits consistent unbounded expr (fits_mono less expr fits small)
  have size := Set.encard_le_encard computes'.inside
  rw [← whole, Set.encard_coe_eq_coe_finsetCard, Set.encard_coe_eq_coe_finsetCard] at size
  have untruncated' := (Nat.cast_le.mp size).trans (le_trans untruncated less)
  have same := Finset.coe_injective ((computes'.whole untruncated').trans whole.symm)
  rw [computes.result, computes'.result, finish_nodes set untruncated, finish_nodes set' untruncated', same]
  refine ⟨rfl, fun id => ?_⟩
  rw [engine.runtime.listed, ← Finset.mem_coe, whole]

/-- The only caller of the first function is one node. -/
theorem executeExpr_untruncated_callChain :
    (callChainEngine.executeExpr ⟨1⟩ (.pipe [.selectFn "a", .callers])).nodes =
      (callChainEngine.executeExpr ⟨3⟩ (.pipe [.selectFn "a", .callers])).nodes :=
  (executeExpr_untruncated (CodeGraph.run_consistent .fresh callChain)
    (.pipe [.selectFn "a", .callers]) 1 3 ⟨trivial, trivial, trivial⟩ (by decide) (by
      rw [show callChainEngine.executeExpr ⟨1⟩ (.pipe [.selectFn "a", .callers]) =
        callChainEngine.finish ⟨1⟩ (callChainEngine.applyCallers (callChainEngine.applySelectFn "a"))
          from rfl, applySelectFn_eq]
      decide +kernel)).1

/-- The second function leads to the first one, but one node is all that the walk may collect, and its
own truncation is forgotten. -/
theorem executeExpr_silent_callChain :
    callChainEngine.executeExpr ⟨1⟩ (.pipe [.selectFn "b", .depth ⟨1, by decide⟩]) = ⟨[⟨2⟩], false, 1⟩ ∧
      (callChainEngine.executeExpr ⟨2 ^ 64 - 1⟩ (.pipe [.selectFn "b", .depth ⟨1, by decide⟩])).nodes =
        [⟨1⟩, ⟨2⟩] := by
  have run (config : QueryConfig) :
      callChainEngine.executeExpr config (.pipe [.selectFn "b", .depth ⟨1, by decide⟩]) =
        callChainEngine.finish config (callChainEngine.applyDepth config 1
          (callChainEngine.applySelectFn "b")) := rfl
  rw [run, run, applySelectFn_eq]
  decide +kernel

end Codegraph.Dsl
