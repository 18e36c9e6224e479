import Codegraph.Graph.CodeGraph
import Codegraph.Library.Iteration
import Codegraph.Library.QueueSearch

namespace Codegraph.TaintV2

open Library List

/-- A path from a source to a sink with the first sanitizer on it. -/
structure TaintFlow where
  source : NodeId
  sink : NodeId
  path : List NodeId
  passedThroughSanitizer : Option NodeId
deriving DecidableEq

structure TaintConfig where
  sources : List NodeId
  sinks : List NodeId
  sanitizers : List NodeId

/-- A node is visited once before and once after a sanitizer. -/
structure VisitState where
  node : NodeId
  sanitized : Bool
deriving DecidableEq

/-- The search from one source and what is reported for all of them. -/
structure Analysis where
  search : QueueSearch VisitState
  sanitizerOnPath : Dict VisitState NodeId
  seenPairs : ListSet (NodeId × NodeId × Bool)
  flows : List TaintFlow

def rootOf (config : TaintConfig) (source : NodeId) : VisitState :=
  ⟨source, decide (source ∈ config.sanitizers)⟩

/-- The search starts with the source, which may be a sanitizer itself. -/
def Analysis.start (config : TaintConfig) (source : NodeId)
    (reported : ListSet (NodeId × NodeId × Bool) × List TaintFlow) : Analysis where
  search := .start (rootOf config source)
  sanitizerOnPath :=
    if source ∈ config.sanitizers then (∅ : Dict VisitState NodeId).set (rootOf config source) source
    else ∅
  seenPairs := reported.1
  flows := reported.2

/-- The rest of the queue waits on. -/
def Analysis.pop (analysis : Analysis) (queue : List VisitState) : Analysis :=
  { analysis with search := { analysis.search with queue := queue } }

/-- The fuel pays for every predecessor once. -/
def walkBack (predecessor : Dict VisitState VisitState) (source : VisitState) : Nat → VisitState → List NodeId
  | 0, _ => []
  | fuel + 1, cursor =>
    match predecessor.get cursor with
    | none => []
    | some prev => prev.node :: if prev = source then [] else walkBack predecessor source fuel prev

def reconstructFlow (source sink : VisitState) (predecessor : Dict VisitState VisitState)
    (sanitizer : Option NodeId) : TaintFlow where
  source := source.node
  sink := sink.node
  path := (sink.node :: walkBack predecessor source predecessor.keys.length sink).reverse
  passedThroughSanitizer := sanitizer

/-- A sink other than the source is reported once with and once without a sanitizer. -/
def report (config : TaintConfig) (root current : VisitState) (analysis : Analysis) : Analysis :=
  if current.node ∈ config.sinks ∧ current.node ≠ root.node then
    let pair := (root.node, current.node, current.sanitized)
    if pair ∈ analysis.seenPairs.members then analysis
    else
      { analysis with
        seenPairs := analysis.seenPairs.insert pair
        flows := analysis.flows ++ [reconstructFlow root current analysis.search.predecessor
          (analysis.sanitizerOnPath.get current)] }
  else analysis

/-- The marker of the current node is carried on, or a sanitizer sets its own. -/
def visitNext (code : CodeGraph) (config : TaintConfig) (current : VisitState) (analysis : Analysis)
    (next : NodeId) : Analysis :=
  if code.containsNode next then
    let nextState : VisitState := ⟨next, current.sanitized || decide (next ∈ config.sanitizers)⟩
    if nextState ∈ analysis.search.visited.members then analysis
    else
      { analysis with
        search := analysis.search.meet current nextState
        sanitizerOnPath :=
          match analysis.sanitizerOnPath.get current with
          | some sanitizer => analysis.sanitizerOnPath.set nextState sanitizer
          | none =>
            if next ∈ config.sanitizers then analysis.sanitizerOnPath.set nextState next
            else analysis.sanitizerOnPath }
  else analysis

def searchStep (code : CodeGraph) (useDefs : NodeId → List NodeId) (config : TaintConfig)
    (root : VisitState) (analysis : Analysis) : Option Analysis :=
  match analysis.search.queue with
  | [] => none
  | current :: queue =>
    some ((useDefs current.node).foldl (visitNext code config current)
      (report config root current (analysis.pop queue)))

/-- The fuel pays for every node in both states. -/
def analyzeSource (code : CodeGraph) (useDefs : NodeId → List NodeId) (config : TaintConfig)
    (reported : ListSet (NodeId × NodeId × Bool) × List TaintFlow) (source : NodeId) :
    ListSet (NodeId × NodeId × Bool) × List TaintFlow :=
  if code.containsNode source then
    let final := loop (searchStep code useDefs config (rootOf config source))
      (2 * code.allNodeIds.length) (.start config source reported)
    (final.seenPairs, final.flows)
  else reported

def analyze (code : CodeGraph) (useDefs : NodeId → List NodeId) (config : TaintConfig) : List TaintFlow :=
  (config.sources.foldl (analyzeSource code useDefs config) (.empty, [])).2

section

variable (code : CodeGraph) (useDefs : NodeId → List NodeId) (config : TaintConfig)

/-- The oracle leads from the source to the end of the path through nodes of the graph. -/
inductive OraclePath (source : NodeId) : List NodeId → NodeId → Prop
  | start (stored : code.containsNode source) : OraclePath source [source] source
  | step {path : List NodeId} {middle target : NodeId} (before : OraclePath source path middle)
      (listed : target ∈ useDefs middle) (stored : code.containsNode target) :
      OraclePath source (path ++ [target]) target

/-- A sanitizer lies on the path. -/
def sanitized (path : List NodeId) : Bool := path.any fun node => decide (node ∈ config.sanitizers)

def firstSanitizer (path : List NodeId) : Option NodeId :=
  path.find? fun node => decide (node ∈ config.sanitizers)

theorem firstSanitizer_isSome (path : List NodeId) :
    (firstSanitizer config path).isSome = sanitized config path := by
  apply Bool.eq_iff_iff.mpr
  rw [firstSanitizer, sanitized, find?_isSome, any_eq_true]

def nextStates (current : VisitState) : List VisitState :=
  ((useDefs current.node).filter fun next => code.containsNode next).map fun next =>
    ⟨next, current.sanitized || decide (next ∈ config.sanitizers)⟩

variable {code useDefs config}

theorem mem_nextStates (current next : VisitState) :
    next ∈ nextStates code useDefs config current ↔ next.node ∈ useDefs current.node ∧
      code.containsNode next.node ∧
      next.sanitized = (current.sanitized || decide (next.node ∈ config.sanitizers)) := by
  rw [nextStates, mem_map]
  constructor
  · intro ⟨node, listed, same⟩
    obtain ⟨listed, stored⟩ := mem_filter.mp listed
    rw [← same]
    exact ⟨listed, stored, rfl⟩
  · intro ⟨listed, stored, same⟩
    exact ⟨next.node, mem_filter.mpr ⟨listed, stored⟩, by rw [← same]⟩

theorem hops_iff {source : NodeId} (stored : code.containsNode source) (count : Nat) (state : VisitState) :
    Hops (fun first second => second ∈ nextStates code useDefs config first) (rootOf config source)
        count state ↔
      ∃ path, OraclePath code useDefs source path state.node ∧ path.length = count + 1 ∧
        sanitized config path = state.sanitized := by
  constructor
  · intro hops
    induction hops with
    | start => exact ⟨[source], .start stored, rfl, by simp [sanitized, rootOf]⟩
    | step _ last ih =>
      obtain ⟨path, before, length, marked⟩ := ih
      obtain ⟨listed, stored, same⟩ := (mem_nextStates _ _).mp last
      refine ⟨_, .step before listed stored, by rw [length_append, length]; rfl, ?_⟩
      rw [same, ← marked]
      simp [sanitized]
  intro ⟨path, oracle, length, marked⟩
  obtain ⟨node, mark⟩ := state
  simp only at oracle marked
  induction oracle generalizing count mark with
  | start =>
    obtain rfl : count = 0 := by simpa using length.symm
    rw [← marked]
    have root : rootOf config source = ⟨source, sanitized config [source]⟩ := by
      simp [sanitized, rootOf]
    rw [← root]
    exact .start
  | @step path middle target before listed stored ih =>
    rw [length_append, length_singleton] at length
    cases count with
    | zero => cases before <;> simp at length
    | succ count =>
      apply Hops.step (ih count (by omega) (sanitized config path) rfl)
      refine (mem_nextStates _ _).mpr ⟨listed, stored, ?_⟩
      rw [← marked]
      simp [sanitized]

/-- The markers follow the predecessors. -/
structure Marked (config : TaintConfig) (root : VisitState) (search : QueueSearch VisitState)
    (sanitizerOnPath : Dict VisitState NodeId) : Prop where
  unvisited : ∀ state ∉ search.visited.members, sanitizerOnPath.get state = none
  start : sanitizerOnPath.get root = firstSanitizer config [root.node]
  led : ∀ state ∈ search.visited.members, state ≠ root →
    ∀ before, search.predecessor.get state = some before →
      before ∈ search.visited.members ∧ sanitizerOnPath.get state =
        (sanitizerOnPath.get before).or (firstSanitizer config [state.node])

theorem Marked.traced {root : VisitState} {search : QueueSearch VisitState}
    {sanitizerOnPath : Dict VisitState NodeId} (marked : Marked config root search sanitizerOnPath)
    {path : List VisitState} {state : VisitState} (traced : search.Traced root path state)
    (visited : state ∈ search.visited.members) :
    sanitizerOnPath.get state = firstSanitizer config (path.map VisitState.node) := by
  induction traced with
  | root => exact marked.start
  | led traced apart found ih =>
    obtain ⟨earlier, same⟩ := marked.led _ visited apart _ found
    rw [same, ih earlier, map_append]
    unfold firstSanitizer
    rw [find?_append]
    rfl

theorem oraclePath_traced {source : NodeId} (stored : code.containsNode source)
    {search : QueueSearch VisitState}
    (sound : search.Sound (nextStates code useDefs config) (rootOf config source))
    {path : List VisitState} {state : VisitState}
    (traced : search.Traced (rootOf config source) path state)
    (visited : state ∈ search.visited.members) :
    OraclePath code useDefs source (path.map VisitState.node) state.node ∧
      sanitized config (path.map VisitState.node) = state.sanitized := by
  induction traced with
  | root => exact ⟨.start stored, by simp [sanitized, rootOf]⟩
  | led traced apart found ih =>
    rcases sound.led _ visited with same | ⟨before, earlier, found', listed, _⟩
    · exact absurd same apart
    rw [found] at found'
    cases found'
    obtain ⟨oracle, marked⟩ := ih earlier
    obtain ⟨listed, stored, same⟩ := (mem_nextStates _ _).mp listed
    rw [map_append, map_singleton]
    refine ⟨.step oracle listed stored, ?_⟩
    rw [same, ← marked]
    simp [sanitized]

theorem walkBack_traced {root : VisitState} {search : QueueSearch VisitState}
    (unled : search.predecessor.get root = none) {path : List VisitState} {state : VisitState}
    (traced : search.Traced root path state) (fuel : Nat) (enough : path.length ≤ fuel + 1) :
    state.node :: walkBack search.predecessor root fuel state = (path.map VisitState.node).reverse := by
  induction traced generalizing fuel with
  | root =>
    cases fuel with
    | zero => rfl
    | succ fuel => simp [walkBack, unled]
  | @led path before state traced apart found ih =>
    rw [length_append, length_singleton] at enough
    rw [map_append, reverse_append]
    cases fuel with
    | zero => cases traced <;> simp at enough
    | succ fuel =>
      have rest := ih fuel (by omega)
      rw [← rest]
      simp only [walkBack, found]
      by_cases same : before = root
      · subst same
        rw [if_pos rfl]
        cases fuel with
        | zero => rfl
        | succ fuel => simp [walkBack, unled]
      · rw [if_neg same]
        rfl

end

end Codegraph.TaintV2
