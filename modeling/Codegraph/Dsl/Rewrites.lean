import Codegraph.Dsl.Executor

namespace Codegraph.Dsl

open Library List

/-- What a filter asks of a node. -/
def filterPasses : DslOp → NodeData → Bool
  | .filter kind, data => data.kind = kind
  | .since revision, data => revision ≤ data.lastModifiedRevision
  | _, _ => true

/-- The node is stored and passes the filter. -/
def passes (code : CodeGraph) (filter : DslOp) (id : NodeId) : Bool :=
  ((code.getNode id).map (filterPasses filter)).getD false

/-- The edges that a traversal follows. -/
def followsEdge : DslOp → EdgeKind → Bool
  | .callers, kind | .callees, kind => isCall kind
  | .depth limit, _ => 0 < limit.val
  | _, _ => false

/-- The ends of each edge that the traversal follows both pass the filter or both fail it. -/
def Crosses (code : CodeGraph) (filter traversal : DslOp) : Prop :=
  ∀ edge ∈ code.edges, followsEdge traversal edge.2.2.kind →
    passes code filter edge.1 = passes code filter edge.2.1

/-- Each filter crosses the traversals before it, as far back as there are only filters and
traversals. -/
def HoistsSafely (code : CodeGraph) : List DslOp → List DslOp → Prop
  | _, [] => True
  | seen, op :: rest =>
    if canSwapFilterWith op then HoistsSafely code (op :: seen) rest
    else if isPureFilter op then
      (∀ traversal ∈ seen, Crosses code op traversal) ∧ HoistsSafely code seen rest
    else HoistsSafely code [] rest

/-- The steps to the callers or to the callees are not repeated. -/
def RunFree (first second : DslOp) : Prop := ¬ (first = second ∧ (first = .callers ∨ first = .callees))

instance (first second : DslOp) : Decidable (RunFree first second) :=
  inferInstanceAs (Decidable (¬ (first = second ∧ (first = .callers ∨ first = .callees))))

/-- No run is fused, and no filter is moved across a traversal that it does not cross. -/
structure Rewritable (code : CodeGraph) (ops : List DslOp) : Prop where
  runFree : ops.IsChain RunFree
  hoists : HoistsSafely code [] ops

mutual

/-- Every pipe of the expression can be rewritten. -/
def Expr.Rewritable (code : CodeGraph) : Expr → Prop
  | .pipe ops => Dsl.Rewritable code ops
  | .pathQuery _ source target => Expr.Rewritable code source ∧ Expr.Rewritable code target
  | .entrypoints _ => True
  | .setOp _ left right => Expr.Rewritable code left ∧ Expr.Rewritable code right
  | .dominatorsOf inner | .dominatesOf inner | .traitImplsOf inner => Expr.Rewritable code inner
  | .pipeFrom base ops => Expr.Rewritable code base ∧ Dsl.Rewritable code ops
  | .multiPath sources target _ => sourcesRewritable code sources ∧ Expr.Rewritable code target

def sourcesRewritable (code : CodeGraph) : List Expr → Prop
  | [] => True
  | source :: sources => Expr.Rewritable code source ∧ sourcesRewritable code sources

end

variable {engine : QueryEngine} {config : QueryConfig}

theorem saturating_val (limit : Usize) : Usize.saturating limit.val = limit := by
  apply Fin.ext
  change min limit.val (2 ^ 64 - 1) = limit.val
  have bound := limit.isLt
  omega

theorem fuseFrom_eq (fuel : Nat) (ops : List DslOp) (runFree : ops.IsChain RunFree) :
    fuseFrom fuel ops = ops := by
  induction fuel generalizing ops with
  | zero => rfl
  | succ fuel ih =>
    cases ops with
    | nil => rfl
    | cons op rest =>
      rw [fuseFrom]
      split
      · rename_i traversal
        have run : rest.takeWhile (fun other => decide (other = op)) = [] := by
          cases rest with
          | nil => rfl
          | cons next after =>
            have apart := (isChain_cons_cons.mp runFree).1
            apply takeWhile_cons_of_neg
            simpa using fun same => apart ⟨same.symm, traversal⟩
        have whole : rest.dropWhile (fun other => decide (other = op)) = rest := by
          have parts := takeWhile_append_dropWhile (p := fun other => decide (other = op))
            (l := rest)
          rwa [run, nil_append] at parts
        simp only [run, whole, length_nil, add_zero, one_mul, lt_irrefl, if_false]
        split
        · rename_i limit after
          rw [saturating_val, ih after runFree.tail.tail]
        · rw [ih rest runFree.tail]
      · rw [ih rest runFree.tail]

theorem fuseDepths_eq {ops : List DslOp} (runFree : ops.IsChain RunFree) : fuseDepths ops = ops :=
  fuseFrom_eq ops.length ops runFree

/-- Steps along edges that a filter crosses lead to nodes that pass it as well as the start. -/
theorem passes_of_hops {code : CodeGraph} {filter : DslOp} {direction : TraversalDirection}
    (outgoing : direction = .outgoing)
    (same : ∀ edge ∈ code.edges, passes code filter edge.1 = passes code filter edge.2.1)
    {start target : NodeId} {count : Nat}
    (hops : Hops (fun first second => second ∈ code.neighborIds direction first) start count target) :
    passes code filter target = passes code filter start := by
  subst outgoing
  induction hops with
  | start => rfl
  | step before last ih =>
    obtain ⟨edge, mem, reached⟩ := mem_map.mp last
    obtain ⟨listed, here⟩ := mem_filter.mp mem
    have here := of_decide_eq_true here
    rw [← ih, ← reached, ← here]
    exact (same edge listed).symm

/-- A traversal expands each node by itself. -/
def expandNode (engine : QueryEngine) (config : QueryConfig) (traversal : DslOp) (id : NodeId) :
    Finset NodeId :=
  engine.applyPipeOp config {id} traversal

theorem applyPipeOp_traversal {traversal : DslOp} (swaps : canSwapFilterWith traversal)
    (set : Finset NodeId) :
    engine.applyPipeOp config set traversal = set.biUnion (expandNode engine config traversal) := by
  unfold expandNode
  cases traversal with
  | callers => simp [QueryEngine.applyPipeOp, QueryEngine.applyCallers]
  | callees => simp [QueryEngine.applyPipeOp, QueryEngine.applyCallees]
  | depth limit => simp [QueryEngine.applyPipeOp, QueryEngine.applyDepth]
  | _ => cases swaps

theorem applyPipeOp_filter {filter : DslOp} (pure : isPureFilter filter) (set : Finset NodeId) :
    engine.applyPipeOp config set filter = set.filter fun id => passes engine.code filter id := by
  cases filter with
  | filter kind => rfl
  | since revision => rfl
  | _ => cases pure

theorem passes_of_mem_expandNode (consistent : CodeGraph.Consistent engine.code)
    {filter traversal : DslOp} (swaps : canSwapFilterWith traversal)
    (crosses : Crosses engine.code filter traversal) {id other : NodeId}
    (mem : other ∈ expandNode engine config traversal id) :
    passes engine.code filter other = passes engine.code filter id := by
  unfold expandNode at mem
  cases traversal with
  | callers =>
    simp only [QueryEngine.applyPipeOp, QueryEngine.applyCallers, Finset.singleton_biUnion,
      mem_toFinset] at mem
    obtain ⟨kind, call, edge, listed, rfl, here, there⟩ :=
      (mem_callNeighbors consistent true id other).mp mem
    rw [← here, ← there]
    exact crosses edge listed call
  | callees =>
    simp only [QueryEngine.applyPipeOp, QueryEngine.applyCallees, Finset.singleton_biUnion,
      mem_toFinset] at mem
    obtain ⟨kind, call, edge, listed, rfl, here, there⟩ :=
      (mem_callNeighbors consistent false id other).mp mem
    rw [← here, ← there]
    exact (crosses edge listed call).symm
  | depth limit =>
    simp only [QueryEngine.applyPipeOp, QueryEngine.applyDepth, Finset.singleton_biUnion,
      mem_toFinset] at mem
    obtain ⟨_, count, close, apart⟩ := traverse_near consistent id other _ mem
    by_cases stays : limit.val = 0
    · have none := Nat.le_zero.mp (stays ▸ close)
      subst none
      rw [Distance.zero_iff.mp apart]
    apply passes_of_hops rfl _ apart.reached
    intro edge listed
    exact crosses edge listed (decide_eq_true (pos_of_ne_zero stays))
  | _ => cases swaps

theorem swap_preserves (consistent : CodeGraph.Consistent engine.code) {filter traversal : DslOp}
    (pure : isPureFilter filter) (swaps : canSwapFilterWith traversal)
    (crosses : Crosses engine.code filter traversal) (set : Finset NodeId) :
    engine.applyPipeOp config (engine.applyPipeOp config set filter) traversal =
      engine.applyPipeOp config (engine.applyPipeOp config set traversal) filter := by
  rw [applyPipeOp_filter pure, applyPipeOp_filter pure, applyPipeOp_traversal swaps,
    applyPipeOp_traversal swaps]
  ext other
  simp only [Finset.mem_biUnion, Finset.mem_filter]
  constructor
  · intro ⟨id, ⟨mem, kept⟩, expanded⟩
    exact ⟨⟨id, mem, expanded⟩, (passes_of_mem_expandNode consistent swaps crosses expanded).trans kept⟩
  intro ⟨⟨id, mem, expanded⟩, kept⟩
  exact ⟨id, ⟨mem, (passes_of_mem_expandNode consistent swaps crosses expanded).symm.trans kept⟩, expanded⟩

theorem hoistsSafely_traversal {code : CodeGraph} {op : DslOp} (swaps : canSwapFilterWith op)
    (seen rest : List DslOp) :
    HoistsSafely code seen (op :: rest) ↔ HoistsSafely code (op :: seen) rest := by
  rw [HoistsSafely, if_pos swaps]

theorem hoistsSafely_filter {code : CodeGraph} {op : DslOp} (pure : isPureFilter op)
    (seen rest : List DslOp) :
    HoistsSafely code seen (op :: rest) ↔
      (∀ traversal ∈ seen, Crosses code op traversal) ∧ HoistsSafely code seen rest := by
  have stays : ¬ canSwapFilterWith op := by
    cases op with
    | filter kind => exact Bool.false_ne_true
    | since revision => exact Bool.false_ne_true
    | _ => cases pure
  rw [HoistsSafely, if_neg stays, if_pos pure]

section

variable (consistent : CodeGraph.Consistent engine.code)
include consistent

/-- One pass keeps the result, and the filters that it moved can be moved on. -/
theorem hoistFrom_preserves (current : DslOp)
    (rest seen : List DslOp) (safe : HoistsSafely engine.code seen (current :: rest)) :
    HoistsSafely engine.code seen (hoistFrom current rest).1 ∧
      ∀ set, engine.pipe config (hoistFrom current rest).1 set =
        engine.pipe config (current :: rest) set := by
  induction rest generalizing current seen with
  | nil => exact ⟨safe, fun _ => rfl⟩
  | cons next rest ih =>
    rw [hoistFrom]
    split
    · rename_i moves
      obtain ⟨pure, swaps⟩ := Bool.and_eq_true_iff.mp moves
      rw [hoistsSafely_traversal swaps, hoistsSafely_filter pure] at safe
      obtain ⟨crosses, later⟩ := safe
      obtain ⟨safe', same⟩ := ih current seen ((hoistsSafely_traversal swaps _ _).mpr later)
      constructor
      · rw [hoistsSafely_filter pure]
        exact ⟨fun traversal mem => crosses traversal (mem_cons_of_mem current mem), safe'⟩
      intro set
      change engine.pipe config (hoistFrom current rest).1 (engine.applyPipeOp config set next) = _
      rw [same]
      change engine.pipe config rest _ = engine.pipe config rest _
      rw [swap_preserves consistent pure swaps (crosses current mem_cons_self)]
    constructor
    · unfold HoistsSafely at safe ⊢
      split
      · rename_i swaps
        rw [if_pos swaps] at safe
        exact (ih next (current :: seen) safe).1
      rename_i stays
      rw [if_neg stays] at safe
      split
      · rename_i pure
        rw [if_pos pure] at safe
        exact ⟨safe.1, (ih next seen safe.2).1⟩
      rename_i other
      rw [if_neg other] at safe
      exact (ih next [] safe).1
    intro set
    have later : ∃ seen', HoistsSafely engine.code seen' (next :: rest) := by
      rw [HoistsSafely] at safe
      split at safe
      · exact ⟨_, safe⟩
      split at safe
      · exact ⟨_, safe.2⟩
      · exact ⟨_, safe⟩
    obtain ⟨seen', safe'⟩ := later
    exact (ih next seen' safe').2 (engine.applyPipeOp config set current)

theorem hoistPasses_preserves (passes : Nat)
    (ops : List DslOp) (safe : HoistsSafely engine.code [] ops) (set : Finset NodeId) :
    engine.pipe config (hoistPasses passes ops) set = engine.pipe config ops set := by
  have pass (ops : List DslOp) (safe : HoistsSafely engine.code [] ops) :
      HoistsSafely engine.code [] (hoistPass ops).1 ∧
        engine.pipe config (hoistPass ops).1 set = engine.pipe config ops set := by
    cases ops with
    | nil => exact ⟨safe, rfl⟩
    | cons first rest =>
      obtain ⟨safe', same⟩ := hoistFrom_preserves consistent first rest [] safe
      exact ⟨safe', same set⟩
  induction passes generalizing ops with
  | zero => rfl
  | succ passes ih =>
    obtain ⟨safe', same⟩ := pass ops safe
    rw [hoistPasses]
    split
    · rw [ih _ safe', same]
    · exact same

theorem rewrite_preserves {ops : List DslOp} (rewritable : Rewritable engine.code ops) (set : Finset NodeId) :
    engine.pipe config (pushFiltersDown (fuseDepths ops)) set = engine.pipe config ops set := by
  rw [fuseDepths_eq rewritable.runFree]
  unfold pushFiltersDown
  split
  · rfl
  · exact hoistPasses_preserves consistent ops.length ops rewritable.hoists set

end

/-- The sides of an intersection may be exchanged. -/
theorem intersect_comm (left right : QueryResult) : engine.combineSetOp config .intersect left right =
      engine.combineSetOp config .intersect right left := by
  change engine.finish config (_ ∩ _) = engine.finish config (_ ∩ _)
  rw [Finset.inter_comm]

mutual

theorem rewriteExpr_preserves (consistent : CodeGraph.Consistent engine.code) :
    ∀ expr : Expr, expr.Rewritable engine.code →
      engine.executeExpr config (rewriteExpr expr) = engine.executeExpr config expr
  | .pipe ops, rewritable => by
    change engine.finish config _ = engine.finish config _
    rw [rewrite_preserves consistent rewritable]
  | .pathQuery options source target, rewritable => by
    rw [rewriteExpr, QueryEngine.executeExpr, rewriteExpr_preserves consistent source rewritable.1,
      rewriteExpr_preserves consistent target rewritable.2, QueryEngine.executeExpr]
  | .entrypoints kind, _ => rfl
  | .setOp op left right, rewritable => by
    have first := rewriteExpr_preserves consistent left rewritable.1
    have second := rewriteExpr_preserves consistent right rewritable.2
    rw [rewriteExpr, QueryEngine.executeExpr]
    split
    · rename_i swapped
      rw [QueryEngine.executeExpr, first, second, swapped.1, intersect_comm]
    · rw [QueryEngine.executeExpr, first, second]
  | .dominatorsOf inner, rewritable => by
    rw [rewriteExpr, QueryEngine.executeExpr, rewriteExpr_preserves consistent inner rewritable,
      QueryEngine.executeExpr]
  | .dominatesOf inner, rewritable => by
    rw [rewriteExpr, QueryEngine.executeExpr, rewriteExpr_preserves consistent inner rewritable,
      QueryEngine.executeExpr]
  | .traitImplsOf inner, rewritable => by
    rw [rewriteExpr, QueryEngine.executeExpr, rewriteExpr_preserves consistent inner rewritable,
      QueryEngine.executeExpr]
  | .pipeFrom base ops, rewritable => by
    rw [rewriteExpr, QueryEngine.executeExpr, rewriteExpr_preserves consistent base rewritable.1,
      QueryEngine.executeExpr]
    change engine.finish config _ = engine.finish config _
    rw [rewrite_preserves consistent rewritable.2]
  | .multiPath sources target maxDepth, rewritable => by
    rw [rewriteExpr, QueryEngine.executeExpr, rewriteSources_preserves consistent sources rewritable.1,
      rewriteExpr_preserves consistent target rewritable.2, QueryEngine.executeExpr]

theorem rewriteSources_preserves (consistent : CodeGraph.Consistent engine.code) :
    ∀ sources : List Expr, sourcesRewritable engine.code sources →
      engine.executeSources config (rewriteSources sources) = engine.executeSources config sources
  | [], _ => rfl
  | source :: sources, rewritable => by
    rw [rewriteSources, QueryEngine.executeSources, rewriteExpr_preserves consistent source rewritable.1,
      rewriteSources_preserves consistent sources rewritable.2, QueryEngine.executeSources]

end

/-- Queries whose runs are not fused and whose filters cross the traversals before them return the
same result after they are rewritten. -/
theorem optimise_preserves (consistent : CodeGraph.Consistent engine.code) :
    (∀ ops, Rewritable engine.code ops →
      engine.execute config (optimisePipe ops).ops = engine.execute config ops) ∧
    ∀ expr : Expr, expr.Rewritable engine.code →
      engine.executeExpr config (optimiseExpr expr) = engine.executeExpr config expr := by
  constructor
  · intro ops rewritable
    change engine.finish config _ = engine.finish config _
    rw [show (optimisePipe ops).ops = pushFiltersDown (fuseDepths ops) from rfl,
      rewrite_preserves consistent rewritable]
  · exact fun expr rewritable => rewriteExpr_preserves consistent expr rewritable

/-- The first function is called by the second one, and the second by the third. -/
def callChain : List (CodeGraph.Operation Unit) :=
  [.addNode { id := ⟨1⟩, kind := .function, name := "a" },
    .addNode { id := ⟨2⟩, kind := .function, name := "b" },
    .addNode { id := ⟨3⟩, kind := .function, name := "c" },
    .addEdge ⟨2⟩ ⟨1⟩ { kind := .calls, weight := 0 }, .addEdge ⟨3⟩ ⟨2⟩ { kind := .calls, weight := 0 }]

def callChainEngine : QueryEngine := ⟨CodeGraph.run .fresh callChain, .sorted⟩

/-- A filter is moved to the front of a pipe whose nodes are all functions. -/
theorem optimise_preserves_callChain : callChainEngine.execute { maxNodes := 3 }
        (optimisePipe [.selectFn "a", .callers, .filter .function]).ops =
      callChainEngine.execute { maxNodes := 3 } [.selectFn "a", .callers, .filter .function] :=
  (optimise_preserves (CodeGraph.run_consistent .fresh callChain)).1 _
    ⟨by decide +kernel, by
      refine ⟨?_, trivial⟩
      intro traversal mem
      rw [mem_singleton.mp mem]
      unfold Crosses
      decide +kernel⟩

/-- The callers of the callers of the first function become the nodes that its caller leads to. -/
theorem optimise_changes_callChain : callChainEngine.code.graph.nodeCount ≤ 3 ∧
      (callChainEngine.execute { maxNodes := 3 } [.selectFn "a", .callers, .callers]).nodes = [⟨3⟩] ∧
      (callChainEngine.execute { maxNodes := 3 }
        (optimisePipe [.selectFn "a", .callers, .callers]).ops).nodes = [⟨1⟩, ⟨2⟩] := by
  have seeds : callChainEngine.applySelectFn "a" = {⟨1⟩} := by
    rw [applySelectFn_eq]
    decide +kernel
  have run (ops : List DslOp) : callChainEngine.execute { maxNodes := 3 } (.selectFn "a" :: ops) =
      callChainEngine.finish { maxNodes := 3 } (callChainEngine.pipe { maxNodes := 3 } ops {⟨1⟩}) :=
    congrArg (fun set => callChainEngine.finish _ (callChainEngine.pipe _ ops set)) seeds
  rw [run, show (optimisePipe [.selectFn "a", .callers, .callers]).ops =
    [.selectFn "a", .callers, .depth ⟨2, by decide⟩] from by decide +kernel, run]
  decide +kernel

end Codegraph.Dsl
