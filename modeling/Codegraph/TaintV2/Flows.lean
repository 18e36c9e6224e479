import Codegraph.TaintV2.Paths

namespace Codegraph.TaintV2

open Library List Dict ListSet

variable {code : CodeGraph} {useDefs : NodeId → List NodeId} {config : TaintConfig}

theorem Marked.meet {root current next : VisitState} {analysis : Analysis}
    (marked : Marked config root analysis.search analysis.sanitizerOnPath)
    (here : current ∈ analysis.search.visited.members)
    (start : root ∈ analysis.search.visited.members)
    (fresh : next ∉ analysis.search.visited.members) :
    Marked config root (analysis.search.meet current next)
      (match analysis.sanitizerOnPath.get current with
        | some sanitizer => analysis.sanitizerOnPath.set next sanitizer
        | none =>
          if next.node ∈ config.sanitizers then analysis.sanitizerOnPath.set next next.node
          else analysis.sanitizerOnPath) := by
  have value (state : VisitState) :
      (match analysis.sanitizerOnPath.get current with
        | some sanitizer => analysis.sanitizerOnPath.set next sanitizer
        | none =>
          if next.node ∈ config.sanitizers then analysis.sanitizerOnPath.set next next.node
          else analysis.sanitizerOnPath).get state =
        if state = next then
          (analysis.sanitizerOnPath.get current).or (firstSanitizer config [next.node])
        else analysis.sanitizerOnPath.get state := by
    rw [firstSanitizer, find?_singleton]
    cases analysis.sanitizerOnPath.get current with
    | some sanitizer => exact get_set _ _ _ _
    | none =>
      simp only [decide_eq_true_eq, Option.none_or]
      split
      · exact get_set _ _ _ _
      split
      · rename_i same
        rw [same]
        exact marked.unvisited next fresh
      · rfl
  have members (state : VisitState) : state ∈ (analysis.search.meet current next).visited.members ↔
      state = next ∨ state ∈ analysis.search.visited.members := by
    rw [QueueSearch.meet, if_neg fresh]
    exact mem_insert _ _ _
  have leads (state : VisitState) : (analysis.search.meet current next).predecessor.get state =
      if state = next then some current else analysis.search.predecessor.get state := by
    rw [QueueSearch.meet, if_neg fresh]
    exact get_set _ _ _ _
  have old (state : VisitState) (visited : state ∈ analysis.search.visited.members) :
      state ≠ next := fun same => fresh (same ▸ visited)
  refine ⟨?_, ?_, ?_⟩
  · intro state outside
    rw [members, not_or] at outside
    rw [value, if_neg outside.1]
    exact marked.unvisited state outside.2
  · rw [value, if_neg (old root start)]
    exact marked.start
  intro state visited apart before led
  rw [members, value]
  rw [leads] at led
  by_cases same : state = next
  · rw [if_pos same] at led
    cases led
    rw [value, if_neg (old current here), if_pos same, same]
    exact ⟨.inr here, rfl⟩
  rw [if_neg same] at led
  obtain ⟨earlier, found⟩ :=
    marked.led state (((members state).mp visited).resolve_left same) apart before led
  rw [value, if_neg (old before earlier), if_neg same]
  exact ⟨.inr earlier, found⟩

/-- The successors of a state are met from it, and nothing is reported. -/
theorem foldl_visitNext {root current : VisitState} (nexts : List NodeId) (analysis : Analysis)
    (marked : Marked config root analysis.search analysis.sanitizerOnPath)
    (here : current ∈ analysis.search.visited.members)
    (start : root ∈ analysis.search.visited.members) :
    let final := nexts.foldl (visitNext code config current) analysis
    final.search = ((nexts.filter fun next => code.containsNode next).map fun next =>
        ⟨next, current.sanitized || decide (next ∈ config.sanitizers)⟩).foldl
        (QueueSearch.meet current) analysis.search ∧
      final.seenPairs = analysis.seenPairs ∧ final.flows = analysis.flows ∧
      Marked config root final.search final.sanitizerOnPath := by
  induction nexts generalizing analysis with
  | nil => exact ⟨rfl, rfl, rfl, marked⟩
  | cons next nexts ih =>
    rw [foldl_cons]
    by_cases stored : code.containsNode next
    · rw [filter_cons_of_pos stored, map_cons, foldl_cons]
      by_cases visited : (⟨next, current.sanitized || decide (next ∈ config.sanitizers)⟩ : VisitState) ∈
          analysis.search.visited.members
      · have same : visitNext code config current analysis next = analysis := by
          rw [visitNext, if_pos stored]
          exact if_pos visited
        have same' : analysis.search.meet current
            ⟨next, current.sanitized || decide (next ∈ config.sanitizers)⟩ = analysis.search :=
          if_pos visited
        rw [same, same']
        exact ih analysis marked here start
      have met := marked.meet here start visited
      have changed : visitNext code config current analysis next =
          { analysis with
            search := analysis.search.meet current
              ⟨next, current.sanitized || decide (next ∈ config.sanitizers)⟩
            sanitizerOnPath :=
              match analysis.sanitizerOnPath.get current with
              | some sanitizer => analysis.sanitizerOnPath.set
                  ⟨next, current.sanitized || decide (next ∈ config.sanitizers)⟩ sanitizer
              | none =>
                if next ∈ config.sanitizers then analysis.sanitizerOnPath.set
                  ⟨next, current.sanitized || decide (next ∈ config.sanitizers)⟩ next
                else analysis.sanitizerOnPath } := by
        rw [visitNext, if_pos stored]
        exact if_neg visited
      have kept (state : VisitState) (mem : state ∈ analysis.search.visited.members) :
          state ∈ (analysis.search.meet current
            ⟨next, current.sanitized || decide (next ∈ config.sanitizers)⟩).visited.members := by
        rw [QueueSearch.meet, if_neg visited]
        exact (mem_insert _ _ _).mpr (.inr mem)
      rw [changed]
      exact ih _ met (kept current here) (kept root start)
    · have same : visitNext code config current analysis next = analysis := if_neg stored
      rw [filter_cons_of_neg stored, same]
      exact ih analysis marked here start

/-- The source, the sink and whether a sanitizer lies between them. -/
def TaintFlow.key (flow : TaintFlow) : NodeId × NodeId × Bool :=
  (flow.source, flow.sink, flow.passedThroughSanitizer.isSome)

/-- A flow is a shortest path of the oracle among those with, or without, a sanitizer. -/
structure Correct (code : CodeGraph) (useDefs : NodeId → List NodeId) (config : TaintConfig)
    (flow : TaintFlow) : Prop where
  source : flow.source ∈ config.sources
  sink : flow.sink ∈ config.sinks
  apart : flow.sink ≠ flow.source
  path : OraclePath code useDefs flow.source flow.path flow.sink
  first : flow.passedThroughSanitizer = firstSanitizer config flow.path
  shortest : ∀ other, OraclePath code useDefs flow.source other flow.sink →
    sanitized config other = sanitized config flow.path → flow.path.length ≤ other.length

/-- Each seen pair belongs to one correct flow. -/
structure Reports (code : CodeGraph) (useDefs : NodeId → List NodeId) (config : TaintConfig)
    (seen : ListSet (NodeId × NodeId × Bool)) (flows : List TaintFlow) : Prop where
  keys : flows.map TaintFlow.key = seen.members
  correct : ∀ flow ∈ flows, Correct code useDefs config flow

/-- The states that have left the queue are reported. -/
structure Searching (code : CodeGraph) (useDefs : NodeId → List NodeId) (config : TaintConfig)
    (source : NodeId) (earlier : ListSet (NodeId × NodeId × Bool)) (analysis : Analysis) : Prop where
  sound : analysis.search.Sound (nextStates code useDefs config) (rootOf config source)
  marked : Marked config (rootOf config source) analysis.search analysis.sanitizerOnPath
  stored : ∀ state ∈ analysis.search.visited.members, code.containsNode state.node
  reports : Reports code useDefs config analysis.seenPairs analysis.flows
  kept : ∀ pair ∈ earlier.members, pair ∈ analysis.seenPairs.members
  done : ∀ state ∈ analysis.search.visited.members, state ∈ analysis.search.queue ∨
    (state.node ∈ config.sinks → state.node ≠ source →
      (source, state.node, state.sanitized) ∈ analysis.seenPairs.members)

variable {source : NodeId} {earlier : ListSet (NodeId × NodeId × Bool)}

theorem Searching.reconstruct {analysis : Analysis}
    (searching : Searching code useDefs config source earlier analysis)
    (configured : source ∈ config.sources) (stored : code.containsNode source)
    {current : VisitState} (visited : current ∈ analysis.search.visited.members)
    (sink : current.node ∈ config.sinks) (apart : current.node ≠ source) :
    let flow := reconstructFlow (rootOf config source) current analysis.search.predecessor
      (analysis.sanitizerOnPath.get current)
    Correct code useDefs config flow ∧ flow.key = (source, current.node, current.sanitized) := by
  intro flow
  obtain ⟨depth, distance⟩ := searching.sound.reached current visited
  obtain ⟨path, traced, length⟩ := searching.sound.traced visited distance
  obtain ⟨oracle, mark⟩ := oraclePath_traced stored searching.sound traced visited
  have back := walkBack_traced searching.sound.unled traced analysis.search.predecessor.keys.length
    (traced.length_le searching.sound visited)
  have nodes : flow.path = path.map VisitState.node := by
    change (current.node :: walkBack _ _ _ _).reverse = _
    rw [back, reverse_reverse]
  have first : flow.passedThroughSanitizer = firstSanitizer config flow.path := by
    rw [nodes]
    exact searching.marked.traced traced visited
  constructor
  · refine ⟨configured, sink, apart, ?_, first, ?_⟩
    · rwa [nodes]
    intro other oracle' same
    rw [nodes, mark] at same
    rw [nodes, length_map, length]
    have positive : 0 < other.length := by cases oracle' <;> simp
    have hops := (hops_iff stored (other.length - 1) current).mpr ⟨other, oracle', by omega, same⟩
    have shorter := distance.least _ hops
    omega
  rw [TaintFlow.key, first, firstSanitizer_isSome, nodes, mark]
  rfl

theorem start_searching (stored : code.containsNode source)
    {reported : ListSet (NodeId × NodeId × Bool) × List TaintFlow}
    (reports : Reports code useDefs config reported.1 reported.2) :
    Searching code useDefs config source reported.1 (.start config source reported) := by
  have only (state : VisitState) : state ∈ (QueueSearch.start (rootOf config source)).visited.members ↔
        state = rootOf config source := by
    change state ∈ (ListSet.empty.insert (rootOf config source)).members ↔ _
    rw [mem_insert, members_empty]
    simp
  refine ⟨QueueSearch.start_sound _ _, ⟨?_, ?_, ?_⟩, ?_, reports, fun _ mem => mem, ?_⟩
  · intro state outside
    have apart : state ≠ rootOf config source := fun same => outside ((only state).mpr same)
    unfold Analysis.start
    simp only
    split
    · rw [get_set_ne _ _ apart]
      exact get_empty state
    · exact get_empty state
  · simp only [Analysis.start, firstSanitizer, rootOf, find?_singleton, decide_eq_true_eq]
    split
    · exact get_set_self _ _ _
    · exact get_empty _
  · intro state visited apart
    exact absurd ((only state).mp visited) apart
  · intro state visited
    rwa [(only state).mp visited]
  · intro state visited
    exact .inl (mem_singleton.mpr ((only state).mp visited))

theorem Searching.report {analysis : Analysis}
    (searching : Searching code useDefs config source earlier analysis)
    (configured : source ∈ config.sources) (stored : code.containsNode source)
    {current : VisitState} (visited : current ∈ analysis.search.visited.members)
    (queue : List VisitState) :
    let reported := TaintV2.report config (rootOf config source) current (analysis.pop queue)
    reported.search = { analysis.search with queue := queue } ∧ reported.sanitizerOnPath = analysis.sanitizerOnPath ∧
      Reports code useDefs config reported.seenPairs reported.flows ∧
      (∀ pair ∈ analysis.seenPairs.members, pair ∈ reported.seenPairs.members) ∧
      (current.node ∈ config.sinks → current.node ≠ source →
        (source, current.node, current.sanitized) ∈ reported.seenPairs.members) := by
  intro reported
  by_cases wanted : current.node ∈ config.sinks ∧ current.node ≠ source
  · by_cases seen : (source, current.node, current.sanitized) ∈ analysis.seenPairs.members
    · have same : reported = analysis.pop queue := (if_pos wanted).trans (if_pos seen)
      rw [same]
      exact ⟨rfl, rfl, searching.reports, fun _ mem => mem, fun _ _ => seen⟩
    have added : reported = { analysis.pop queue with
        seenPairs := analysis.seenPairs.insert (source, current.node, current.sanitized)
        flows := analysis.flows ++ [reconstructFlow (rootOf config source) current
          analysis.search.predecessor (analysis.sanitizerOnPath.get current)] } :=
      (if_pos wanted).trans (if_neg seen)
    obtain ⟨correct, key⟩ := searching.reconstruct configured stored visited wanted.1 wanted.2
    rw [added]
    refine ⟨rfl, rfl, ⟨?_, ?_⟩, ?_, ?_⟩
    · have members : (analysis.seenPairs.insert (source, current.node, current.sanitized)).members =
          analysis.seenPairs.members ++ [(source, current.node, current.sanitized)] := by
        rw [ListSet.insert, dif_neg seen]
      rw [members, map_append, searching.reports.keys, map_singleton, key]
    · intro flow listed
      rcases mem_append.mp listed with old | new
      · exact searching.reports.correct flow old
      · rwa [mem_singleton.mp new]
    · exact fun pair mem => (mem_insert _ _ _).mpr (.inr mem)
    · exact fun _ _ => (mem_insert _ _ _).mpr (.inl rfl)
  have same : reported = analysis.pop queue := if_neg wanted
  rw [same]
  exact ⟨rfl, rfl, searching.reports, fun _ mem => mem, fun sink apart => absurd ⟨sink, apart⟩ wanted⟩

/-- A state leaves the queue with its flow reported and its successors visited. -/
theorem searchStep_searching (configured : source ∈ config.sources)
    (stored : code.containsNode source) (before after : Analysis)
    (searching : Searching code useDefs config source earlier before)
    (moved : searchStep code useDefs config (rootOf config source) before = some after) :
    Searching code useDefs config source earlier after ∧
      after.search.queue.length + before.search.visited.size <
        before.search.queue.length + after.search.visited.size := by
  unfold searchStep at moved
  cases waiting : before.search.queue with
  | nil =>
    rw [waiting] at moved
    contradiction
  | cons current queue =>
    rw [waiting] at moved
    have here : current ∈ before.search.visited.members :=
      searching.sound.waiting current (by rw [waiting]; exact mem_cons_self)
    obtain ⟨sameSearch, sameMarks, reports, kept, seen⟩ := searching.report configured stored here queue
    have landed := Option.some.inj moved
    generalize report config (rootOf config source) current (before.pop queue) = reported at *
    have marked : Marked config (rootOf config source) reported.search reported.sanitizerOnPath := by
      rw [sameSearch, sameMarks]
      exact ⟨searching.marked.unvisited, searching.marked.start, searching.marked.led⟩
    have visited : current ∈ reported.search.visited.members := by rwa [sameSearch]
    have start : rootOf config source ∈ reported.search.visited.members := by
      rw [sameSearch]
      exact searching.sound.start
    obtain ⟨met, samePairs, sameFlows, marked'⟩ :=
      foldl_visitNext (useDefs current.node) reported marked visited start
    have sound := searching.sound.expand waiting
    obtain ⟨new, expanded⟩ := QueueSearch.foldl_meet current (nextStates code useDefs config current)
      { before.search with queue := queue }
    rw [sameSearch] at met
    change _ = (nextStates code useDefs config current).foldl _ _ at met
    rw [landed] at met samePairs sameFlows marked'
    rw [← met] at sound expanded
    refine ⟨⟨sound, marked', ?_, ?_, ?_, ?_⟩, ?_⟩
    · intro state visited
      rcases (expanded.visited state).mp visited with old | late
      · exact searching.stored state old
      · exact ((mem_nextStates _ _).mp (expanded.listed state late)).2.1
    · rwa [samePairs, sameFlows]
    · intro pair mem
      rw [samePairs]
      exact kept pair (searching.kept pair mem)
    · intro state visited
      rw [samePairs, expanded.queue]
      rcases (expanded.visited state).mp visited with old | late
      · rcases searching.done state old with waits | done
        · rw [waiting] at waits
          rcases mem_cons.mp waits with same | waits
          · rw [same]
            exact .inr seen
          · exact .inl (mem_append_left new waits)
        · exact .inr fun sink apart => kept _ (done sink apart)
      · exact .inl (mem_append_right queue late)
    · have size := expanded.size
      have length := congrArg List.length expanded.queue
      simp only [length_append] at length
      rw [length_cons]
      change after.search.visited.size = before.search.visited.size + new.length at size
      omega

/-- The states that are not visited and the ones that wait. -/
def searchMeasure (code : CodeGraph) (analysis : Analysis) : Nat :=
  2 * code.allNodeIds.length + analysis.search.queue.length - analysis.search.visited.size

theorem Searching.bounded {analysis : Analysis}
    (searching : Searching code useDefs config source earlier analysis) :
    analysis.search.visited.size ≤ 2 * code.allNodeIds.length := by
  have inside : analysis.search.visited.members ⊆
      (code.allNodeIds ×ˢ [true, false]).map fun pair => ⟨pair.1, pair.2⟩ := by
    intro state visited
    have stored := searching.stored state visited
    have listed := (mem_keys_iff code.indexMap state.node).mpr (Option.isSome_iff_exists.mp stored)
    apply mem_map.mpr
    refine ⟨(state.node, state.sanitized), mem_product.mpr ⟨listed, ?_⟩, rfl⟩
    cases state.sanitized <;> simp
  have small := (subperm_of_subset analysis.search.visited.nodup inside).length_le
  rw [length_map, length_product] at small
  exact le_trans small (le_of_eq (mul_comm _ _))

theorem analyzeSource_spec (configured : source ∈ config.sources)
    {reported : ListSet (NodeId × NodeId × Bool) × List TaintFlow}
    (reports : Reports code useDefs config reported.1 reported.2) :
    let final := analyzeSource code useDefs config reported source
    Reports code useDefs config final.1 final.2 ∧ (∀ pair ∈ reported.1.members, pair ∈ final.1.members) ∧
      ∀ sink ∈ config.sinks, sink ≠ source → ∀ path, OraclePath code useDefs source path sink →
        (source, sink, sanitized config path) ∈ final.1.members := by
  have rooted (path : List NodeId) (sink : NodeId) (oracle : OraclePath code useDefs source path sink) :
      code.containsNode source := by
    induction oracle with
    | start stored => exact stored
    | step _ _ _ ih => exact ih
  unfold analyzeSource
  split
  · rename_i stored
    have started := start_searching stored reports
    have keeps (before after : Analysis)
        (searching : Searching code useDefs config source reported.1 before)
        (moved : searchStep code useDefs config (rootOf config source) before = some after) :=
      (searchStep_searching configured stored before after searching moved).1
    have falls (before after : Analysis)
        (searching : Searching code useDefs config source reported.1 before)
        (moved : searchStep code useDefs config (rootOf config source) before = some after) :
        searchMeasure code after < searchMeasure code before := by
      obtain ⟨searching', balance⟩ := searchStep_searching configured stored before after searching moved
      have small := searching.bounded
      have small' := searching'.bounded
      unfold searchMeasure
      omega
    have enough : searchMeasure code (.start config source reported) ≤ 2 * code.allNodeIds.length := by
      change 2 * code.allNodeIds.length + 1 - 1 ≤ _
      omega
    have halts := halts_loop keeps falls _ _ started enough
    have searching := halts.preserves keeps started
    have ended := halts.ended
    generalize loop (searchStep code useDefs config (rootOf config source)) _ _ = final at *
    have drained : final.search.queue = [] := by
      unfold searchStep at ended
      cases waiting : final.search.queue with
      | nil => rfl
      | cons current queue =>
        rw [waiting] at ended
        contradiction
    refine ⟨searching.reports, searching.kept, ?_⟩
    intro sink configured' apart path oracle
    obtain ⟨count, length⟩ : ∃ count, path.length = count + 1 := by cases oracle <;> simp
    have hops := (hops_iff stored count ⟨sink, sanitized config path⟩).mpr ⟨path, oracle, length, rfl⟩
    have visited := searching.sound.complete drained hops
    exact ((searching.done _ visited).resolve_left (by rw [drained]; exact not_mem_nil))
      configured' apart
  · rename_i absent
    exact ⟨reports, fun _ mem => mem, fun sink _ _ path oracle => absurd (rooted path sink oracle) absent⟩

/-- The flows are paths of the oracle from a source to another sink, each source and sink has at
most one flow with and one without a sanitizer, and it has one exactly when there is such a path. -/
theorem analyze_flows (code : CodeGraph) (useDefs : NodeId → List NodeId) (config : TaintConfig) :
    ((analyze code useDefs config).map TaintFlow.key).Nodup ∧
    (∀ flow ∈ analyze code useDefs config, Correct code useDefs config flow) ∧
    ∀ source ∈ config.sources, ∀ sink ∈ config.sinks, sink ≠ source →
      ((∃ flow ∈ analyze code useDefs config, flow.source = source ∧ flow.sink = sink ∧
          flow.passedThroughSanitizer = none) ↔
        ∃ path, OraclePath code useDefs source path sink ∧ ∀ node ∈ path, node ∉ config.sanitizers) ∧
      ((∃ flow ∈ analyze code useDefs config, flow.source = source ∧ flow.sink = sink ∧
          flow.passedThroughSanitizer ≠ none) ↔
        ∃ path, OraclePath code useDefs source path sink ∧ ∃ node ∈ path, node ∈ config.sanitizers) := by
  have folded (todo : List NodeId) (inside : todo ⊆ config.sources)
      (reported : ListSet (NodeId × NodeId × Bool) × List TaintFlow)
      (reports : Reports code useDefs config reported.1 reported.2) :
      let final := todo.foldl (analyzeSource code useDefs config) reported
      Reports code useDefs config final.1 final.2 ∧ (∀ pair ∈ reported.1.members, pair ∈ final.1.members) ∧
        ∀ source ∈ todo, ∀ sink ∈ config.sinks, sink ≠ source → ∀ path,
          OraclePath code useDefs source path sink →
            (source, sink, sanitized config path) ∈ final.1.members := by
    induction todo generalizing reported with
    | nil => exact ⟨reports, fun _ mem => mem, by simp⟩
    | cons first todo ih =>
      obtain ⟨reports', kept, found⟩ := analyzeSource_spec (inside mem_cons_self) reports
      obtain ⟨reports'', kept', found'⟩ := ih
        (fun source listed => inside (mem_cons_of_mem first listed)) _ reports'
      refine ⟨reports'', fun pair mem => kept' pair (kept pair mem), ?_⟩
      intro source listed sink configured apart path oracle
      rcases mem_cons.mp listed with same | later
      · rw [same] at apart oracle ⊢
        exact kept' _ (found sink configured apart path oracle)
      · exact found' source later sink configured apart path oracle
  obtain ⟨reports, _, complete⟩ := folded config.sources (fun _ listed => listed) (.empty, [])
    ⟨rfl, fun _ absent => absurd absent not_mem_nil⟩
  change Reports code useDefs config _ (analyze code useDefs config) at reports
  have found (source : NodeId) (listed : source ∈ config.sources) (sink : NodeId)
      (listed' : sink ∈ config.sinks) (apart : sink ≠ source) (mark : Bool) :
      (∃ flow ∈ analyze code useDefs config, flow.source = source ∧ flow.sink = sink ∧
          flow.passedThroughSanitizer.isSome = mark) ↔
        ∃ path, OraclePath code useDefs source path sink ∧ sanitized config path = mark := by
    constructor
    · intro ⟨flow, mem, first, last, passed⟩
      have correct := reports.correct flow mem
      refine ⟨flow.path, ?_, ?_⟩
      · rw [← first, ← last]
        exact correct.path
      · rw [← passed, correct.first, firstSanitizer_isSome]
    intro ⟨path, oracle, marked⟩
    have key := complete source listed sink listed' apart path oracle
    rw [← reports.keys, marked] at key
    obtain ⟨flow, mem, same⟩ := mem_map.mp key
    cases same
    exact ⟨flow, mem, rfl, rfl, rfl⟩
  refine ⟨?_, reports.correct, ?_⟩
  · rw [reports.keys]
    exact ListSet.nodup _
  intro source listed sink listed' apart
  have clean := found source listed sink listed' apart false
  have dirty := found source listed sink listed' apart true
  unfold sanitized at clean dirty
  simp only [Option.isSome_eq_false_iff, Option.isNone_iff_eq_none, any_eq_false,
    decide_eq_true_eq] at clean
  simp only [Option.isSome_iff_ne_none, any_eq_true, decide_eq_true_eq] at dirty
  exact ⟨clean, dirty⟩

end Codegraph.TaintV2
