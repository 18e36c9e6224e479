import Codegraph.Dsl.Rewrites

namespace Codegraph.Dsl

open Library List

/-- One run of the operators of a pipe. Each run lists its hash sets in its own order. -/
structure PipeRun (Op : Type) where
  order : HashOrder NodeId
  applyOp : Finset NodeId → Op → Finset NodeId

namespace PipeRun

variable {Op : Type} (run : PipeRun Op)

/-- The nodes that the executor returns. -/
def execute (maxNodes : Nat) (ops : List Op) : List NodeId :=
  (run.order.iterate (ops.foldl run.applyOp ∅)).take maxNodes

/-- The operator yields the node from this one alone, and not from every node. -/
def Produces (op : Op) (prev id : NodeId) : Prop :=
  id ∈ run.applyOp {prev} op ∧ ∃ other, id ∉ run.applyOp {other} op

/-- The executor applies the operators of the language. -/
def ofEngine (engine : QueryEngine) (config : QueryConfig) : PipeRun DslOp where
  order := ⟨engine.runtime.iterate, engine.runtime.distinct, engine.runtime.listed⟩
  applyOp := engine.applyPipeOp config

end PipeRun

structure ProvenanceStep where
  opName : String
  predecessors : List NodeId
  depth : Nat
deriving DecidableEq

abbrev Provenance := List ProvenanceStep

/-- The steps of each node and the nodes of the last stage. -/
structure ProvenanceTrace where
  entries : Dict NodeId Provenance := ∅
  resultNodes : List NodeId := []

/-- An edge joins the nodes in one of the directions. -/
def hasEdge (code : CodeGraph) (prev id : NodeId) : Bool :=
  (code.getEdgesFrom prev).any (·.1 = id) || (code.getEdgesTo prev).any (·.1 = id)

/-- The first stage has no predecessors. -/
def predecessorsOf (code : CodeGraph) (workingSet : List NodeId) (depth : Nat) (id : NodeId) : List NodeId :=
  if depth = 0 then [] else workingSet.filter (hasEdge code · id)

/-- The nodes that were not in the working set before get a step. -/
def recordSteps (code : CodeGraph) (workingSet : List NodeId) (opName : String) (depth : Nat) :
    List NodeId → Dict NodeId Provenance → Dict NodeId Provenance :=
  fun stage entries => stage.foldl (fun entries id =>
    if id ∈ workingSet then entries
    else entries.update id [] (· ++ [⟨opName, predecessorsOf code workingSet depth id, depth⟩])) entries

def traceStage (code : CodeGraph) (stage : List NodeId) (opName : String) (depth : Nat)
    (trace : ProvenanceTrace) : ProvenanceTrace where
  entries := recordSteps code trace.resultNodes opName depth stage trace.entries
  resultNodes := stage

section Tracing

variable {Op : Type} (code : CodeGraph) (debug : Op → String)

/-- Each stage is recorded after the one before it. -/
def traceStages (stage : Nat → List NodeId) (ops : List Op) : ProvenanceTrace :=
  ops.zipIdx.foldl (fun trace op => traceStage code (stage op.2) (debug op.1) op.2 trace) {}

/-- The nodes after a stage, for which all the operators so far are run again. -/
def stageNodes (runs : Nat → PipeRun Op) (maxNodes : Nat) (ops : List Op) (depth : Nat) : List NodeId :=
  (runs depth).execute maxNodes (ops.take (depth + 1))

def tracePipe (runs : Nat → PipeRun Op) (maxNodes : Nat) (ops : List Op) : ProvenanceTrace :=
  traceStages code debug (stageNodes runs maxNodes ops) ops

end Tracing

/-- Only pipes are traced. The nodes of another query get one step. -/
def traceExpr (code : CodeGraph) (runtimes : Nat → Runtime) (config : QueryConfig) (debug : DslOp → String) :
    Expr → ProvenanceTrace
  | .pipe ops =>
    tracePipe code debug (fun depth => .ofEngine ⟨code, runtimes depth⟩ config) config.maxNodes ops
  | expr =>
    let nodes := ((⟨code, runtimes 0⟩ : QueryEngine).executeExpr config expr).nodes
    ⟨nodes.foldl (fun entries id => entries.set id [⟨"expr", [], 0⟩]) ∅, nodes⟩

/-- The nodes before a stage. -/
def workingSet (stage : Nat → List NodeId) : Nat → List NodeId
  | 0 => []
  | depth + 1 => stage depth

section Runs

variable {Op : Type} (code : CodeGraph) (runs : Nat → PipeRun Op) (maxNodes : Nat) (ops : List Op)

/-- The nodes with entries are those of the result, and the recorded predecessors produced their node. -/
structure TraceExact (trace : ProvenanceTrace) : Prop where
  entries : ∀ id, id ∈ trace.entries.keys ↔ id ∈ trace.resultNodes
  produced : ∀ id, ∀ step ∈ trace.entries.getD id [], ∀ depth op, step.depth = depth + 1 →
    ops[depth + 1]? = some op → ∀ prev ∈ step.predecessors,
      prev ∈ stageNodes runs maxNodes ops depth ∧ (runs (depth + 1)).Produces op prev id

/-- No node of a stage is lost later, and whenever an edge joins a new node of a stage to a node of the
stage before, the operator leads from that node to the new one. -/
structure Traceable : Prop where
  lasting : ∀ depth < ops.length, ∀ id ∈ stageNodes runs maxNodes ops depth,
    id ∈ stageNodes runs maxNodes ops (ops.length - 1)
  caused : ∀ depth op, ops[depth + 1]? = some op → ∀ id ∈ stageNodes runs maxNodes ops (depth + 1),
    id ∉ stageNodes runs maxNodes ops depth → ∀ prev ∈ stageNodes runs maxNodes ops depth,
      hasEdge code prev id = true → (runs (depth + 1)).Produces op prev id

end Runs

section Stages

variable {Op : Type} {code : CodeGraph} {debug : Op → String}

theorem recordSteps_spec (working : List NodeId) (opName : String) (depth : Nat) (stage : List NodeId)
    (entries : Dict NodeId Provenance) (id : NodeId) :
    (id ∈ (recordSteps code working opName depth stage entries).keys ↔
      id ∈ entries.keys ∨ id ∈ stage ∧ id ∉ working) ∧
    ∀ step, step ∈ (recordSteps code working opName depth stage entries).getD id [] ↔
      step ∈ entries.getD id [] ∨ (id ∈ stage ∧ id ∉ working) ∧
        step = ⟨opName, predecessorsOf code working depth id, depth⟩ := by
  induction stage generalizing entries with
  | nil => simp [recordSteps]
  | cons first stage ih =>
    by_cases known : first ∈ working
    · have skip : recordSteps code working opName depth (first :: stage) entries =
          recordSteps code working opName depth stage entries := by
        rw [recordSteps, foldl_cons, if_pos known]
        rfl
      have drop : (id ∈ first :: stage ∧ id ∉ working) ↔ id ∈ stage ∧ id ∉ working := by
        refine and_congr_left fun fresh => ?_
        have different : id ≠ first := fun same => fresh (same ▸ known)
        rw [mem_cons, or_iff_right different]
      rw [skip, drop]
      exact ih entries
    have add : recordSteps code working opName depth (first :: stage) entries =
        recordSteps code working opName depth stage (entries.update first []
          (· ++ [⟨opName, predecessorsOf code working depth first, depth⟩])) := by
      rw [recordSteps, foldl_cons, if_neg known]
      rfl
    rw [add]
    obtain ⟨keys, steps⟩ := ih (entries.update first []
      (· ++ [⟨opName, predecessorsOf code working depth first, depth⟩]))
    refine ⟨keys.trans ?_, fun step => (steps step).trans ?_⟩
    · simp only [Dict.mem_keys_iff, Dict.get_update, mem_cons]
      by_cases same : id = first
      · subst same
        simp [known]
      · simp [same]
    rw [Dict.getD_update, mem_cons]
    by_cases same : id = first
    · subst same
      rw [if_pos rfl, mem_append, mem_singleton]
      tauto
    · simp [same]

theorem traceStages_spec (stage : Nat → List NodeId) (ops : List Op) :
    (traceStages code debug stage ops).resultNodes = workingSet stage ops.length ∧
    (∀ id, id ∈ (traceStages code debug stage ops).entries.keys ↔ ∃ depth < ops.length, id ∈ stage depth) ∧
    ∀ id step, step ∈ (traceStages code debug stage ops).entries.getD id [] ↔
      ∃ depth op, ops[depth]? = some op ∧ (id ∈ stage depth ∧ id ∉ workingSet stage depth) ∧
        step = ⟨debug op, predecessorsOf code (workingSet stage depth) depth id, depth⟩ := by
  induction ops using List.reverseRecOn with
  | nil => exact ⟨rfl, fun id => by simp [traceStages], fun id step => by simp [traceStages, Dict.getD]⟩
  | append_singleton ops op ih =>
    obtain ⟨result, keys, steps⟩ := ih
    have next : traceStages code debug stage (ops ++ [op]) =
        traceStage code (stage ops.length) (debug op) ops.length (traceStages code debug stage ops) := by
      unfold traceStages
      rw [zipIdx_append, foldl_append]
      simp
    have after (id : NodeId) := @recordSteps_spec code (traceStages code debug stage ops).resultNodes
      (debug op) ops.length (stage ops.length) (traceStages code debug stage ops).entries id
    rw [next]
    unfold traceStage
    refine ⟨by rw [length_append]; rfl, fun id => ?_, fun id step => ?_⟩
    · rw [(after id).1, keys, result, length_append, length_singleton]
      constructor
      · rintro (⟨depth, less, mem⟩ | ⟨mem, -⟩)
        · exact ⟨depth, by omega, mem⟩
        · exact ⟨ops.length, by omega, mem⟩
      rintro ⟨depth, less, mem⟩
      rcases Nat.lt_succ_iff_lt_or_eq.mp less with less | rfl
      · exact .inl ⟨depth, less, mem⟩
      by_cases known : id ∈ workingSet stage ops.length
      · cases count : ops.length with
        | zero =>
          rw [count] at known
          cases known
        | succ previous =>
          rw [count] at known
          exact .inl ⟨previous, by omega, known⟩
      · exact .inr ⟨mem, known⟩
    rw [(after id).2 step, steps, result]
    constructor
    · rintro (⟨depth, op', found, rest⟩ | ⟨fresh, same⟩)
      · refine ⟨depth, op', ?_, rest⟩
        rwa [List.getElem?_append_left (List.getElem?_eq_some_iff.mp found).1]
      · exact ⟨ops.length, op, by simp, fresh, same⟩
    rintro ⟨depth, op', found, fresh, same⟩
    rcases Nat.lt_trichotomy depth ops.length with less | rfl | more
    · rw [List.getElem?_append_left less] at found
      exact .inl ⟨depth, op', found, fresh, same⟩
    · rw [getElem?_concat_length] at found
      obtain rfl := Option.some.inj found
      exact .inr ⟨fresh, same⟩
    · rw [getElem?_eq_none (by simp; omega)] at found
      cases found

end Stages

/-- Whatever the operators do, the trace is exact when no node is lost and every edge to a node of the
stage before is one along which the operator works. -/
theorem tracePipe_exact_iff {Op : Type} (code : CodeGraph) (debug : Op → String)
    (runs : Nat → PipeRun Op) (maxNodes : Nat) (ops : List Op) :
    TraceExact runs maxNodes ops (tracePipe code debug runs maxNodes ops) ↔
      Traceable code runs maxNodes ops := by
  obtain ⟨result, keys, steps⟩ := @traceStages_spec Op code debug (stageNodes runs maxNodes ops) ops
  have last (some' : 0 < ops.length) :
      workingSet (stageNodes runs maxNodes ops) ops.length = stageNodes runs maxNodes ops (ops.length - 1) := by
    rw [show ops.length = ops.length - 1 + 1 by omega]
    rfl
  constructor
  · intro exact'
    constructor
    · intro depth less id mem
      have entry := (exact'.entries id).mp ((keys id).mpr ⟨depth, less, mem⟩)
      rwa [tracePipe, result, last (by omega)] at entry
    intro depth op found id mem fresh prev before joined
    refine (exact'.produced id _ ((steps id _).mpr ⟨depth + 1, op, found, ⟨mem, fresh⟩, rfl⟩) depth op rfl
      found prev ?_).2
    exact mem_filter.mpr ⟨before, joined⟩
  intro traceable
  constructor
  · intro id
    refine (keys id).trans ?_
    rw [tracePipe, result]
    constructor
    · rintro ⟨depth, less, mem⟩
      rw [last (by omega)]
      exact traceable.lasting depth less id mem
    intro mem
    cases count : ops.length with
    | zero =>
      rw [count] at mem
      cases mem
    | succ depth =>
      rw [count] at mem
      exact ⟨depth, by omega, mem⟩
  intro id step recorded depth op stage found prev listed
  obtain ⟨depth', op', found', ⟨mem, fresh⟩, rfl⟩ := (steps id step).mp recorded
  subst stage
  obtain rfl := Option.some.inj (found.symm.trans found')
  obtain ⟨before, joined⟩ := mem_filter.mp listed
  exact ⟨before, traceable.caused depth op found id mem fresh prev before joined⟩

/-- The third function calls the first one and is called by the second one. -/
def calledBetween : List (CodeGraph.Operation Unit) :=
  [.addNode { id := ⟨1⟩, kind := .function, name := "a1" },
    .addNode { id := ⟨2⟩, kind := .function, name := "a2" },
    .addNode { id := ⟨3⟩, kind := .function, name := "b" },
    .addEdge ⟨3⟩ ⟨1⟩ { kind := .calls, weight := 0 }, .addEdge ⟨2⟩ ⟨3⟩ { kind := .calls, weight := 0 }]

def calledBetweenEngine : QueryEngine := ⟨CodeGraph.run .fresh calledBetween, .sorted⟩

def debugName : DslOp → String
  | .selectFn name => "SelectFn(\"" ++ name ++ "\")"
  | .callers => "Callers"
  | _ => ""

/-- The callers of two functions keep the entry of the first one, and the second one, which calls the
found node, is recorded among its predecessors. -/
theorem tracePipe_not_exact :
    let runs : Nat → PipeRun DslOp := fun _ => .ofEngine calledBetweenEngine { maxNodes := 3 }
    let trace := tracePipe calledBetweenEngine.code debugName runs 3 [.selectFn "a", .callers]
    trace.resultNodes = [⟨3⟩] ∧ ⟨1⟩ ∈ trace.entries.keys ∧
      ⟨"Callers", [⟨1⟩, ⟨2⟩], 1⟩ ∈ trace.entries.getD ⟨3⟩ [] ∧ ¬(runs 1).Produces .callers ⟨2⟩ ⟨3⟩ ∧
      ¬TraceExact runs 3 [.selectFn "a", .callers] trace := by
  intro runs trace
  have seeds : calledBetweenEngine.applySelectFn "a" = {⟨1⟩, ⟨2⟩} := by
    rw [applySelectFn_eq]
    decide +kernel
  have first : stageNodes runs 3 [.selectFn "a", .callers] 0 = [⟨1⟩, ⟨2⟩] := by
    change ((PipeRun.ofEngine calledBetweenEngine { maxNodes := 3 }).order.iterate
      (calledBetweenEngine.applySelectFn "a")).take 3 = _
    rw [seeds]
    decide +kernel
  have second : stageNodes runs 3 [.selectFn "a", .callers] 1 = [⟨3⟩] := by
    change ((PipeRun.ofEngine calledBetweenEngine { maxNodes := 3 }).order.iterate
      (calledBetweenEngine.applyCallers (calledBetweenEngine.applySelectFn "a"))).take 3 = _
    rw [seeds]
    decide +kernel
  obtain ⟨result, keys, steps⟩ := @traceStages_spec DslOp calledBetweenEngine.code debugName
    (stageNodes runs 3 [.selectFn "a", .callers]) [.selectFn "a", .callers]
  have unrelated : ⟨3⟩ ∉ calledBetweenEngine.applyCallers {⟨2⟩} := by decide +kernel
  have only : trace.resultNodes = [⟨3⟩] := result.trans second
  have kept : ⟨1⟩ ∈ trace.entries.keys := (keys ⟨1⟩).mpr ⟨0, by decide, by rw [first]; decide⟩
  refine ⟨only, kept, (steps ⟨3⟩ _).mpr ⟨1, .callers, rfl, ⟨?_, ?_⟩, ?_⟩, ?_, fun exact' => ?_⟩
  · rw [second]
    decide
  · change ⟨3⟩ ∉ stageNodes runs 3 [.selectFn "a", .callers] 0
    rw [first]
    decide
  · change _ = (⟨"Callers", predecessorsOf _ (stageNodes runs 3 [.selectFn "a", .callers] 0) 1 ⟨3⟩, 1⟩ :
      ProvenanceStep)
    rw [first]
    decide +kernel
  · exact fun produced => unrelated produced.1
  · have lost := (exact'.entries ⟨1⟩).mp kept
    rw [only] at lost
    cases mem_singleton.mp lost

end Codegraph.Dsl
