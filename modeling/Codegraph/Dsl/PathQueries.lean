import Codegraph.Dsl.Truncation
import Codegraph.Library.FirstPaths
import Codegraph.Traversal.FoundPaths

namespace Codegraph.Dsl

open Library List

section Rounds

variable {next : Nat → List Nat} {root target maxDepth : Nat} {depth : Nat → Option Nat}
  {rank : Nat → List Nat}

/-- The search from one slot meets each other slot first along the least of the shortest ways. -/
structure PathState.Ordered (next : Nat → List Nat) (root target maxDepth : Nat)
    (depth : Nat → Option Nat) (rank : Nat → List Nat) (state : PathState) : Prop where
  sound : state.Sound next (· = root) target maxDepth (some root) depth
  ranked : RankedBy next root depth state.parents.get rank
  searching : state.found = false → InOrder next root depth state.parents.get rank state.queue

theorem pathStepAlong_ordered {before after : PathState}
    (ordered : before.Ordered next root target maxDepth depth rank)
    (moved : pathStepAlong next target maxDepth (some root) before = some after) :
    ∃ depth' rank', after.Ordered next root target maxDepth depth' rank' := by
  obtain ⟨searching, current, level, queue, waits, step⟩ := pathStepAlong_cases moved
  have search := ordered.sound.searching searching
  have order := ordered.searching searching
  rw [waits] at search order
  rcases step with ⟨beyond, rfl⟩ | ⟨within, new, visited⟩
  · exact ⟨depth, rank, ordered.sound.skip searching waits beyond, ordered.ranked,
      fun _ => order.skip search⟩
  have fresh := ordered.sound.fresh visited
  refine ⟨_, _, ordered.sound.visit searching waits within visited,
    order.meet search within fresh visited.led visited.kept, fun open' => ?_⟩
  rcases visited.outcome with ⟨found, _⟩ | ⟨_, _, _, queue'⟩
  · exact absurd (open'.symm.trans found) Bool.false_ne_true
  · rw [queue']
    exact order.expand search within fresh visited.placed visited.led visited.kept

theorem source_ordered (next : Nat → List Nat) (differs : root ≠ target) (maxDepth : Nat) :
    PathState.Ordered next root target maxDepth (fun slot => if slot = root then some 0 else none)
      (fun _ => []) ⟨∅, [(root, 0)], false⟩ := by
  have zero {slot count : Nat} (met : (if slot = root then some 0 else none) = some count) :
      slot = root ∧ 0 = count := by
    split at met
    · rename_i here
      exact ⟨here, Option.some.inj met⟩
    · contradiction
  have ranked : RankedBy next root (fun slot => if slot = root then some 0 else none)
      (Dict.get (∅ : Dict Nat Nat)) fun _ => [] := by
    refine ⟨rfl, ?_, ?_, ?_⟩
    · exact fun slot count met => (zero met).2
    · exact fun slot count before met _ => absurd (zero met).2 (Nat.succ_ne_zero count).symm
    · exact fun slot count _ path _ _ => not_lt.mp (not_lt_nil _)
  refine ⟨source_sound next (fun _ => Iff.rfl) differs maxDepth, ranked, fun _ => ⟨ranked, ?_, ?_⟩⟩
  · exact pairwise_singleton _ _
  intro first head entry mem deeper
  obtain rfl : (root, 0) = first := Option.some.inj head
  rw [mem_singleton.mp mem] at deeper
  contradiction

/-- The way back from a met slot has the places of its steps. -/
theorem parentChain_ranks {edge : Nat → Nat → Prop} {roots : Nat → Prop} {parents : Dict Nat Nat}
    (led : Led edge roots depth parents.get) (ranked : RankedBy next root depth parents.get rank)
    {isStart : Nat → Bool}
    (starts : ∀ slot count, depth slot = some count → (isStart slot = true ↔ count = 0))
    {slot count : Nat} (met : depth slot = some count) {fuel : Nat} {chain : List Nat}
    (traced : parentChain parents isStart fuel slot = some chain) :
    ranks next (slot :: chain).reverse = rank slot := by
  induction fuel generalizing slot count chain with
  | zero =>
    rw [parentChain] at traced
    split at traced
    · rename_i here
      have same := (starts slot count met).mp here
      rw [same] at met
      rw [← Option.some.inj traced]
      exact (length_eq_zero_iff.mp (ranked.length slot 0 met)).symm
    · contradiction
  | succ fuel ih =>
    rw [parentChain] at traced
    split at traced
    · rename_i here
      have same := (starts slot count met).mp here
      rw [same] at met
      rw [← Option.some.inj traced]
      exact (length_eq_zero_iff.mp (ranked.length slot 0 met)).symm
    rename_i passed
    cases count with
    | zero => exact absurd ((starts slot 0 met).mpr rfl) passed
    | succ count =>
      obtain ⟨before, found, met', _⟩ := led.led slot count met
      rw [found] at traced
      obtain ⟨chain', traced', rfl⟩ := Option.map_eq_some_iff.mp traced
      have last : (before :: chain').reverse.getLast? = some before := by
        rw [reverse_cons, getLast?_concat]
      rw [reverse_cons, ranks_concat next last, ih met' traced', ranked.led slot count before met found]

theorem searchPath_first {code : CodeGraph} {slots : List Nat}
    (stored : ∀ first, ∀ second ∈ next first, second ∈ slots)
    (bound : PathState.cost slots (some root) ⟨∅, [(root, 0)], false⟩ ≤ code.graph.nodeCount + 1)
    (differs : root ≠ target) {path : List NodeId}
    (answer : searchPath code next root target maxDepth = some path) :
    ∃ way, path = way.filterMap code.nodeIdFor ∧
      Trail (· = root) (fun first second => second ∈ next first) target way ∧
      ∀ other, Trail (· = root) (fun first second => second ∈ next first) target other →
        other.length = way.length → ranks next way ≤ ranks next other := by
  let Inv (state : PathState) := ∃ depth rank, state.Ordered next root target maxDepth depth rank
  have keeps (before after : PathState) (inv : Inv before)
      (moved : pathStepAlong next target maxDepth (some root) before = some after) : Inv after := by
    obtain ⟨depth, rank, ordered⟩ := inv
    exact pathStepAlong_ordered ordered moved
  have halts := halts_loop keeps (fun before after _ moved => pathStepAlong_cost stored moved)
    (code.graph.nodeCount + 1) _ ⟨_, _, source_ordered next differs maxDepth⟩ bound
  obtain ⟨depth, rank, ordered⟩ := halts.preserves keeps ⟨_, _, source_ordered next differs maxDepth⟩
  unfold searchPath at answer
  dsimp only at answer
  generalize loop (pathStepAlong next target maxDepth (some root)) (code.graph.nodeCount + 1)
    ⟨∅, [(root, 0)], false⟩ = final at answer ordered
  split at answer
  · rename_i found
    obtain ⟨led, count, within, met, least⟩ := ordered.sound.found found
    have starts := ordered.sound.source_iff fun slot => (Iff.rfl : slot = root ↔ slot = root)
    have enough := led.depth_le met fun other before parent => (Dict.mem_keys_iff _ _).mpr ⟨before, parent⟩
    obtain ⟨chain, traced, length, route⟩ := parentChain_spec led starts met enough
    refine ⟨(target :: chain).reverse, ?_, route, fun other route' same => ?_⟩
    · rw [reconstructPath, traced] at answer
      exact (Option.some.inj answer).symm
    rw [parentChain_ranks led ordered.ranked starts met traced]
    refine ordered.ranked.least target count met other route' ?_
    rw [same, length_reverse, length_cons, length]
  · contradiction

end Rounds

/-- The ends of the edges at a node, of which the last one that was added comes first. -/
def edgeEnds (code : CodeGraph) (id : NodeId) : List NodeId := (code.getEdgesFrom id).map Prod.fst

/-- No other simple path is shorter, and none of the same length comes before it when the paths are
compared step by step and a newer edge comes before an older one. -/
def FirstShortest (code : CodeGraph) (maxDepth : Nat) (source target : NodeId) (path : List NodeId) : Prop :=
  SimplePath code maxDepth source target path ∧
    ∀ other, SimplePath code maxDepth source target other → path.length < other.length ∨
      path.length = other.length ∧ ranks (edgeEnds code) path ≤ ranks (edgeEnds code) other

section Names

variable {code : CodeGraph} {maxDepth : Nat} {source target : NodeId}

theorem mem_edgeEnds (id other : NodeId) :
    other ∈ edgeEnds code id ↔ ∃ data, (other, data) ∈ code.getEdgesFrom id := by
  rw [edgeEnds, mem_map]
  constructor
  · rintro ⟨edge, mem, rfl⟩
    exact ⟨edge.2, mem⟩
  · rintro ⟨data, mem⟩
    exact ⟨(other, data), mem, rfl⟩

/-- There is at most one such path. -/
theorem FirstShortest.unique {path other : List NodeId}
    (first : FirstShortest code maxDepth source target path)
    (first' : FirstShortest code maxDepth source target other) : path = other := by
  have length : path.length = other.length := by
    rcases first.2 other first'.1 with shorter | ⟨same, _⟩
    · rcases first'.2 path first.1 with shorter' | ⟨same', _⟩
      · omega
      · exact same'.symm
    · exact same
  have low := (first.2 other first'.1).resolve_left (by omega)
  have high := (first'.2 path first.1).resolve_left (by omega)
  have linked {path : List NodeId} (simple : SimplePath code maxDepth source target path) :
      path.IsChain fun first second => second ∈ edgeEnds code first :=
    simple.linked.imp fun first second step => (mem_edgeEnds first second).mpr step
  exact ranks_injective (linked first.1) (linked first'.1)
    (first.1.starts.trans first'.1.starts.symm) length (le_antisymm low.2 high.2)

variable (consistent : CodeGraph.Consistent code)

include consistent

theorem edgeEnds_nameOf {slot : Nat} (stored : slot ∈ code.graph.slots) :
    edgeEnds code (code.nameOf slot) = (code.graph.successors slot).map code.nameOf := by
  have resolved := (CodeGraph.resolve_eq_some_iff consistent _ slot).mpr ⟨stored, rfl⟩
  rw [edgeEnds, CodeGraph.getEdgesFrom, show code.indexMap.get (code.nameOf slot) = some slot from resolved]
  rw [StableGraph.successors, map_map, map_filterMap, ← filterMap_eq_map]
  refine filterMap_congr fun link mem => ?_
  have listed := ((code.graph.mem_edgesFrom slot link).mp mem).1
  have named := CodeGraph.nodeIdFor_eq (CodeGraph.link_slots listed).2
  rw [CodeGraph.nodeIdFor] at named
  rwa [Option.map_map]

theorem SimplePath.admissible (stored : (code.resolve source).isSome) {path : List NodeId}
    (simple : SimplePath code maxDepth source target path) :
    Admissible code (fun _ _ => false) (fun _ => false) (· = source) target path := by
  refine admissible_iff.mpr ⟨⟨source, simple.starts, rfl, ?_⟩, simple.ends, ?_⟩
  · obtain ⟨slot, resolved⟩ := Option.isSome_iff_exists.mp stored
    obtain ⟨inside, named⟩ := (CodeGraph.resolve_eq_some_iff consistent source slot).mp resolved
    exact (allowed_iff consistent source).mpr ⟨slot, inside, named, avoidsSlot_never code slot⟩
  refine simple.linked.imp fun first second => ?_
  rintro ⟨data, mem⟩
  have edge := (CodeGraph.mem_getEdgesFrom consistent first (second, data)).mp mem
  obtain ⟨link, listed, -, named, -⟩ := (CodeGraph.mem_edges_iff first second data).mp edge
  exact ⟨⟨data, edge, rfl⟩, (allowed_iff consistent second).mpr
    ⟨link.target, (CodeGraph.link_slots listed).2, named, avoidsSlot_never code link.target⟩⟩

theorem Admissible.simple {path : List NodeId}
    (admissible : Admissible code (fun _ _ => false) (fun _ => false) (· = source) target path)
    (distinct : path.Nodup) (short : path.length ≤ maxDepth + 1) :
    SimplePath code maxDepth source target path := by
  obtain ⟨start, head, rfl⟩ := admissible.head
  refine ⟨head, admissible.last, ?_, distinct, short⟩
  refine admissible.steps.imp fun first second => ?_
  rintro ⟨data, edge, -⟩
  exact ⟨data, (CodeGraph.mem_getEdgesFrom consistent first (second, data)).mpr edge⟩

theorem Admissible.way {sourceIdx targetIdx : Nat} (here : code.resolve source = some sourceIdx)
    (there : code.resolve target = some targetIdx) {path : List NodeId}
    (admissible : Admissible code (fun _ _ => false) (fun _ => false) (· = source) target path) :
    ∃ way, way.map code.nameOf = path ∧
      Trail (· = sourceIdx) (fun first second => second ∈ code.graph.successors first) targetIdx way := by
  let slotOf (id : NodeId) : Nat := (code.resolve id).getD 0
  have slots (id : NodeId) (mem : id ∈ path) :
      slotOf id ∈ code.graph.slots ∧ code.nameOf (slotOf id) = id := by
    obtain ⟨slot, data, resolved, _⟩ := admissible.nodes id mem
    change (code.resolve id).getD 0 ∈ _ ∧ code.nameOf ((code.resolve id).getD 0) = id
    rw [resolved]
    exact (CodeGraph.resolve_eq_some_iff consistent id slot).mp resolved
  obtain ⟨start, head, rfl⟩ := admissible.head
  refine ⟨path.map slotOf, ?_, ⟨sourceIdx, ?_, rfl⟩, ?_, ?_⟩
  · rw [map_map]
    exact (map_congr_left fun id mem => (slots id mem).2).trans (map_id path)
  · rw [head?_map, head, Option.map_some]
    change some ((code.resolve start).getD 0) = _
    rw [here]
    rfl
  · rw [getLast?_map, admissible.last, Option.map_some]
    change some ((code.resolve target).getD 0) = _
    rw [there]
    rfl
  · rw [isChain_map]
    refine admissible.steps.imp_of_mem_imp fun first second mem mem' => ?_
    rintro ⟨data, edge, -⟩
    obtain ⟨link, listed, source, target, -⟩ := (CodeGraph.mem_edges_iff first second data).mp edge
    obtain ⟨left, right⟩ := CodeGraph.link_slots listed
    obtain ⟨inside, named⟩ := slots first mem
    obtain ⟨inside', named'⟩ := slots second mem'
    rw [← CodeGraph.nameOf_injOn consistent left inside (source.trans named.symm),
      ← CodeGraph.nameOf_injOn consistent right inside' (target.trans named'.symm)]
    exact mem_map.mpr ⟨link, (code.graph.mem_edgesFrom _ link).mpr ⟨listed, rfl⟩, rfl⟩

theorem findPath_first (stored : (code.resolve source).isSome) {path : List NodeId}
    (answer : findPath code source target maxDepth = some path) :
    FirstShortest code maxDepth source target path := by
  have shortest := findPath_shortest consistent source target maxDepth
  rw [answer] at shortest
  obtain ⟨admissible, short, least⟩ := shortest
  have distinct := (admissible_iff.mp admissible).nodup fun other route =>
    least other (admissible_iff.mpr route)
  refine ⟨admissible.simple consistent distinct short, fun other simple => ?_⟩
  have admissible' := simple.admissible consistent stored
  rcases Nat.lt_or_eq_of_le (least other admissible') with shorter | same
  · exact .inl shorter
  refine .inr ⟨same, ?_⟩
  unfold findPath at answer
  obtain ⟨sourceIdx, here⟩ := Option.isSome_iff_exists.mp stored
  rw [here] at answer
  cases there : code.resolve target with
  | none =>
    rw [there] at answer
    contradiction
  | some targetIdx =>
    rw [there] at answer
    dsimp only at answer
    split at answer
    · rw [← Option.some.inj answer]
      exact not_lt.mp (not_lt_nil _)
    rename_i differs
    obtain ⟨inside, rfl⟩ := (CodeGraph.resolve_eq_some_iff consistent source sourceIdx).mp here
    obtain ⟨inside', rfl⟩ := (CodeGraph.resolve_eq_some_iff consistent target targetIdx).mp there
    have follows := follows_successors code targetIdx
    obtain ⟨way, rfl, route, first⟩ :=
      searchPath_first follows.stored (source_cost code sourceIdx) differs answer
    let begins (id : NodeId) : Prop := id = code.nameOf sourceIdx
    have rooted (slot : Nat) : slot = sourceIdx ↔ slot ∈ code.graph.slots ∧ begins (code.nameOf slot) ∧
          avoidsSlot code (fun _ _ => false) slot = false := by
      constructor
      · rintro rfl
        exact ⟨inside, rfl, avoidsSlot_never code slot⟩
      · rintro ⟨stored, named, -⟩
        exact CodeGraph.nameOf_injOn consistent stored inside named
    have closed (way : List Nat) (route : Trail (· = sourceIdx)
        (fun first second => second ∈ code.graph.successors first) targetIdx way) :
        ranks (edgeEnds code) (way.map code.nameOf) = ranks code.graph.successors way := by
      obtain ⟨⟨start, head, rfl⟩, last, steps⟩ := route
      refine ranks_map code.graph.slots
        (fun first mem second mem' => CodeGraph.nameOf_injOn consistent mem mem') ?_
        (fun first _ second step => follows.stored first second step)
        fun slot mem => edgeEnds_nameOf consistent mem
      refine steps.induction (· ∈ code.graph.slots) way
        (fun first second step _ => follows.stored first second step) fun nonempty => ?_
      rw [head?_eq_some_head nonempty] at head
      rwa [Option.some.inj head]
    obtain ⟨named, _⟩ := admissible_names consistent follows rooted
      (avoidsSlot_never code targetIdx) route
    obtain ⟨way', rfl, route'⟩ := admissible'.way consistent here there
    rw [named] at same ⊢
    rw [closed way route, closed way' route']
    refine first way' route' ?_
    rw [length_map, length_map] at same
    exact same.symm

theorem findPath_eq_some_iff (stored : (code.resolve source).isSome) (path : List NodeId) :
    findPath code source target maxDepth = some path ↔ FirstShortest code maxDepth source target path := by
  constructor
  · exact findPath_first consistent stored
  intro first
  have shortest := findPath_shortest consistent source target maxDepth
  cases answer : findPath code source target maxDepth with
  | none =>
    rw [answer] at shortest
    have far := shortest path (first.1.admissible consistent stored)
    have near := first.1.short
    omega
  | some other => rw [(findPath_first consistent stored answer).unique first]

end Names

/-- A simple path whose inner nodes have the kind that the query asks for and one of whose steps may
follow an edge of the kind that it asks for. -/
structure RestrictedPath (code : CodeGraph) (options : PathOptions) (source target : NodeId)
    (path : List NodeId) : Prop where
  simple : SimplePath code (options.maxDepth.getD defaultMaxDepth) source target path
  intermediate : ∀ kind, options.intermediateKind = some kind → ∀ id ∈ path.tail.dropLast,
    ∃ data, code.getNode id = some data ∧ data.kind = kind
  via : ∀ required, options.viaEdge = some required → ∃ first second data, [first, second] <:+: path ∧
    (second, data) ∈ code.getEdgesFrom first ∧ edgeKindMatches data.kind required = true

/-- What the query collects for two nodes. -/
def contributed (code : CodeGraph) (options : PathOptions) (maxNodes : Nat) (source target : NodeId) :
    List (List NodeId) :=
  (candidatePaths code options maxNodes source target).filter (pathMatchesFilters code options)

/-- Neither the searches for simple paths nor the loops over the paths end because of the budget. -/
structure Unexhausted (engine : QueryEngine) (config : QueryConfig) (options : PathOptions)
    (sources targets : List NodeId) : Prop where
  searches : ∀ source ∈ sources, ∀ target ∈ targets,
    BudgetSuffices engine.code options config.maxNodes source target
  collected :
    (engine.executePathQuery config options sources targets).totalBeforeTruncation < config.maxNodes

/-- A query for all paths returns the nodes on the restricted paths. A query for shortest paths collects
a least restricted path for each two nodes between which there is one. -/
def PathQueryExact (engine : QueryEngine) (config : QueryConfig) (options : PathOptions)
    (sources targets : List NodeId) : Prop :=
  match options.mode with
  | .allSimple => ∀ id, id ∈ (engine.executePathQuery config options sources targets).nodes ↔
      ∃ source ∈ sources, ∃ target ∈ targets, ∃ path,
        RestrictedPath engine.code options source target path ∧ id ∈ path
  | .shortest =>
    (∀ source ∈ sources, ∀ target ∈ targets,
      ((∃ path, RestrictedPath engine.code options source target path) ↔
        contributed engine.code options config.maxNodes source target ≠ []) ∧
      ∀ path ∈ contributed engine.code options config.maxNodes source target,
        RestrictedPath engine.code options source target path ∧
          ∀ other, RestrictedPath engine.code options source target other → path.length ≤ other.length) ∧
    ∀ id, id ∈ (engine.executePathQuery config options sources targets).nodes ↔
      ∃ source ∈ sources, ∃ target ∈ targets,
        ∃ path ∈ contributed engine.code options config.maxNodes source target, id ∈ path

section Queries

variable {code : CodeGraph} {options : PathOptions} {source target : NodeId}

theorem mem_zip_tail {Entry : Type} (entries : List Entry) (first second : Entry) :
    (first, second) ∈ entries.zip entries.tail ↔ [first, second] <:+: entries := by
  induction entries with
  | nil => simp
  | cons head rest ih =>
    cases rest with
    | nil =>
      rw [infix_cons_iff]
      simp
    | cons next rest =>
      rw [infix_cons_iff, ← ih, cons_prefix_cons, cons_prefix_cons]
      change (first, second) ∈ (head, next) :: (next :: rest).zip rest ↔ _
      rw [mem_cons, Prod.mk.injEq]
      simp

theorem restrictedPath_iff (path : List NodeId) : RestrictedPath code options source target path ↔
    SimplePath code (options.maxDepth.getD defaultMaxDepth) source target path ∧
      pathMatchesFilters code options path = true := by
  have inner (kind : NodeKind) : (path.tail.dropLast.all fun id =>
        ((code.getNode id).map fun data => decide (data.kind = kind)).getD false) = true ↔
      ∀ id ∈ path.tail.dropLast, ∃ data, code.getNode id = some data ∧ data.kind = kind := by
    rw [all_eq_true]
    refine forall₂_congr fun id _ => ?_
    cases code.getNode id <;> simp
  have step (required : EdgeKind) : ((path.zip path.tail).any fun step =>
        (code.getEdgesFrom step.1).any fun edge =>
          edge.1 = step.2 && edgeKindMatches edge.2.kind required) = true ↔
      ∃ first second data, [first, second] <:+: path ∧
        (second, data) ∈ code.getEdgesFrom first ∧ edgeKindMatches data.kind required = true := by
    rw [any_eq_true]
    simp only [any_eq_true, Bool.and_eq_true, decide_eq_true_eq]
    constructor
    · rintro ⟨⟨first, second⟩, mem, ⟨end', data⟩, listed, rfl, matched⟩
      exact ⟨first, end', data, (mem_zip_tail path first end').mp mem, listed, matched⟩
    rintro ⟨first, second, data, inside, listed, matched⟩
    exact ⟨(first, second), (mem_zip_tail path first second).mpr inside, (second, data), listed,
      rfl, matched⟩
  rw [pathMatchesFilters, Bool.and_eq_true]
  constructor
  · intro restricted
    refine ⟨restricted.simple, ?_, ?_⟩
    · cases chosen : options.intermediateKind with
      | none => rfl
      | some kind => exact (inner kind).mpr (restricted.intermediate kind chosen)
    cases chosen : options.viaEdge with
    | none => rfl
    | some required => exact (step required).mpr (restricted.via required chosen)
  rintro ⟨simple, intermediate, via⟩
  refine ⟨simple, fun kind chosen => ?_, fun required chosen => ?_⟩
  · rw [chosen] at intermediate
    exact (inner kind).mp intermediate
  · rw [chosen] at via
    exact (step required).mp via

variable {engine : QueryEngine} {config : QueryConfig} {sources targets : List NodeId}

/-- With enough budget the result holds the nodes of what each two nodes contribute. -/
theorem executePathQuery_nodes (left : Unexhausted engine config options sources targets)
    (id : NodeId) : id ∈ (engine.executePathQuery config options sources targets).nodes ↔
      ∃ source ∈ sources, ∃ target ∈ targets,
        ∃ path ∈ contributed engine.code options config.maxNodes source target, id ∈ path := by
  have found : ∀ source ∈ sources, ∀ target ∈ targets,
      ∀ path ∈ contributed engine.code options config.maxNodes source target, True :=
    fun _ _ _ _ _ _ => trivial
  have gathered := gatherPaths_spec config.maxNodes found
  have collected := left.collected
  generalize made : gatherUntil config.maxNodes (fun source nodes =>
    gatherUntil config.maxNodes (fun target nodes => gatherUntil config.maxNodes addPath
      (contributed engine.code options config.maxNodes source target) nodes) targets nodes) sources ∅ =
        set at gathered
  have result : engine.executePathQuery config options sources targets = engine.finish config set :=
    congrArg (engine.finish config) made
  rw [result] at collected ⊢
  have small : set.card < config.maxNodes := by rwa [← length_iterate engine.runtime set]
  rw [finish_nodes set small.le, engine.runtime.listed]
  exact gathered.2.resolve_left (not_le.mpr small) id

theorem contributed_allSimple (mode : options.mode = .allSimple)
    (suffices' : BudgetSuffices engine.code options config.maxNodes source target) (id : NodeId) :
    (∃ path ∈ contributed engine.code options config.maxNodes source target, id ∈ path) ↔
      ∃ path, RestrictedPath engine.code options source target path ∧ id ∈ path := by
  obtain ⟨sound, covers⟩ := candidatePaths_spec suffices'
  have candidate (path : List NodeId) : CandidatePath engine.code options source target path ↔
      SimplePath engine.code (options.maxDepth.getD defaultMaxDepth) source target path := by
    rw [CandidatePath, mode]
  constructor
  · rintro ⟨path, mem, on⟩
    obtain ⟨listed, matched⟩ := mem_filter.mp mem
    exact ⟨path, (restrictedPath_iff path).mpr ⟨(candidate path).mp (sound path listed), matched⟩, on⟩
  rintro ⟨path, restricted, on⟩
  obtain ⟨simple, matched⟩ := (restrictedPath_iff path).mp restricted
  obtain ⟨found, listed, matched', on'⟩ := covers path ((candidate path).mpr simple) matched id on
  exact ⟨found, mem_filter.mpr ⟨listed, matched'⟩, on'⟩

theorem mem_contributed_shortest (consistent : CodeGraph.Consistent code)
    (mode : options.mode = .shortest) (stored : (code.resolve source).isSome) (target : NodeId)
    (maxNodes : Nat) (path : List NodeId) : path ∈ contributed code options maxNodes source target ↔
      FirstShortest code (options.maxDepth.getD defaultMaxDepth) source target path ∧
        pathMatchesFilters code options path = true := by
  rw [contributed, candidatePaths, mode, mem_filter, Option.mem_toList,
    findPath_eq_some_iff consistent stored]

theorem SimplePath.first (consistent : CodeGraph.Consistent code) {maxDepth : Nat}
    (stored : (code.resolve source).isSome) {path : List NodeId}
    (simple : SimplePath code maxDepth source target path) :
    ∃ first, FirstShortest code maxDepth source target first := by
  have shortest := findPath_shortest consistent source target maxDepth
  cases answer : findPath code source target maxDepth with
  | none =>
    rw [answer] at shortest
    have far := shortest path (simple.admissible consistent stored)
    have near := simple.short
    omega
  | some first => exact ⟨first, findPath_first consistent stored answer⟩

theorem contributed_shortest_iff (consistent : CodeGraph.Consistent code)
    (mode : options.mode = .shortest) (stored : (code.resolve source).isSome) (target : NodeId)
    (maxNodes : Nat) : (((∃ path, RestrictedPath code options source target path) ↔
        contributed code options maxNodes source target ≠ []) ∧
      ∀ path ∈ contributed code options maxNodes source target,
        RestrictedPath code options source target path ∧
          ∀ other, RestrictedPath code options source target other → path.length ≤ other.length) ↔
    ((∃ path, RestrictedPath code options source target path) → ∀ path,
      FirstShortest code (options.maxDepth.getD defaultMaxDepth) source target path →
        pathMatchesFilters code options path = true) := by
  have mem := mem_contributed_shortest consistent mode stored target maxNodes
  have least (path : List NodeId) (listed : path ∈ contributed code options maxNodes source target) :
      RestrictedPath code options source target path ∧
        ∀ other, RestrictedPath code options source target other → path.length ≤ other.length := by
    obtain ⟨first, matched⟩ := (mem path).mp listed
    refine ⟨(restrictedPath_iff path).mpr ⟨first.1, matched⟩, fun other restricted => ?_⟩
    rcases first.2 other restricted.simple with shorter | ⟨same, _⟩
    · exact shorter.le
    · exact same.le
  constructor
  · rintro ⟨contributes, _⟩ exists' path first
    obtain ⟨other, listed⟩ := exists_mem_of_ne_nil _ (contributes.mp exists')
    obtain ⟨first', matched⟩ := (mem other).mp listed
    rwa [first.unique first']
  intro passes
  refine ⟨⟨fun exists' => ?_, fun nonempty => ?_⟩, least⟩
  · obtain ⟨path, restricted⟩ := exists'
    obtain ⟨first, isFirst⟩ := restricted.simple.first consistent stored
    exact ne_nil_of_mem
      ((mem first).mpr ⟨isFirst, passes ⟨path, restricted⟩ first isFirst⟩)
  · obtain ⟨path, listed⟩ := exists_mem_of_ne_nil _ nonempty
    exact ⟨path, (least path listed).1⟩

end Queries

/-- With enough budget a query for all paths finds the restricted ones. A query for shortest paths does
when the first of the shortest paths between two nodes is restricted or no path between them is. -/
theorem pathQuery_exact_iff {engine : QueryEngine} (consistent : CodeGraph.Consistent engine.code)
    (config : QueryConfig) (options : PathOptions) (sources targets : List NodeId)
    (stored : ∀ source ∈ sources, (engine.code.resolve source).isSome)
    (left : Unexhausted engine config options sources targets) :
    PathQueryExact engine config options sources targets ↔
      (options.mode = .shortest → ∀ source ∈ sources, ∀ target ∈ targets,
        (∃ path, RestrictedPath engine.code options source target path) → ∀ path,
          FirstShortest engine.code (options.maxDepth.getD defaultMaxDepth) source target path →
            pathMatchesFilters engine.code options path = true) := by
  unfold PathQueryExact
  cases mode : options.mode with
  | shortest =>
    have each (source : NodeId) (mem : source ∈ sources) (target : NodeId) :=
      contributed_shortest_iff consistent mode (stored source mem) target config.maxNodes
    constructor
    · rintro ⟨contributes, _⟩ _ source mem target mem'
      exact (each source mem target).mp (contributes source mem target mem')
    intro passes
    exact ⟨fun source mem target mem' =>
      (each source mem target).mpr (passes rfl source mem target mem'), executePathQuery_nodes left⟩
  | allSimple =>
    refine iff_of_true (fun id => ?_) fun other => by contradiction
    rw [executePathQuery_nodes left]
    refine exists_congr fun source => and_congr_right fun mem => exists_congr fun target =>
      and_congr_right fun mem' => ?_
    exact contributed_allSimple mode (left.searches source mem target mem') id

/-- The first function calls the last one by way of a type and by way of another function. -/
def twoWays : List (CodeGraph.Operation Unit) :=
  [.addNode { id := ⟨1⟩, kind := .function, name := "a" },
    .addNode { id := ⟨2⟩, kind := .function, name := "b" },
    .addNode { id := ⟨3⟩, kind := .struct, name := "c" },
    .addNode { id := ⟨4⟩, kind := .function, name := "d" },
    .addEdge ⟨1⟩ ⟨2⟩ { kind := .calls, weight := 0 }, .addEdge ⟨2⟩ ⟨4⟩ { kind := .calls, weight := 0 },
    .addEdge ⟨1⟩ ⟨3⟩ { kind := .usesType, weight := 0 },
    .addEdge ⟨3⟩ ⟨4⟩ { kind := .references, weight := 0 }]

def twoWaysEngine : QueryEngine := ⟨CodeGraph.run .fresh twoWays, .sorted⟩

/-- The shortest path by way of the type is looked at and left out, and the one by way of the function
is not found. -/
theorem pathQuery_not_exact :
    Unexhausted twoWaysEngine {} { mode := .shortest, intermediateKind := some .function } [⟨1⟩] [⟨4⟩] ∧
      ¬ PathQueryExact twoWaysEngine {} { mode := .shortest, intermediateKind := some .function }
        [⟨1⟩] [⟨4⟩] := by
  constructor
  · refine ⟨fun source _ target _ other => ?_, by decide +kernel⟩
    contradiction
  intro exact'
  have simple : SimplePath twoWaysEngine.code defaultMaxDepth ⟨1⟩ ⟨4⟩ [⟨1⟩, ⟨2⟩, ⟨4⟩] := by
    refine ⟨rfl, rfl, ?_, by decide, by decide⟩
    rw [isChain_cons_cons, isChain_cons_cons]
    exact ⟨⟨{ kind := .calls, weight := 0 }, by decide +kernel⟩,
      ⟨{ kind := .calls, weight := 0 }, by decide +kernel⟩, isChain_singleton _⟩
  have contributes := (exact'.1 ⟨1⟩ mem_cons_self ⟨4⟩ mem_cons_self).1.mp
    ⟨[⟨1⟩, ⟨2⟩, ⟨4⟩], (restrictedPath_iff _).mpr ⟨simple, by decide +kernel⟩⟩
  exact contributes (by decide +kernel)

/-- The shortest path by way of the type is what the query for types on the way asks for. -/
theorem pathQuery_exact_iff_twoWays :
    PathQueryExact twoWaysEngine {} { mode := .shortest, intermediateKind := some .struct }
      [⟨1⟩] [⟨4⟩] := by
  have consistent := CodeGraph.run_consistent .fresh twoWays
  have stored : ∀ source ∈ [(⟨1⟩ : NodeId)], (twoWaysEngine.code.resolve source).isSome := by
    intro source mem
    rw [mem_singleton.mp mem]
    decide +kernel
  refine (pathQuery_exact_iff consistent {} _ [⟨1⟩] [⟨4⟩] stored ?_).mpr ?_
  · refine ⟨fun source _ target _ other => ?_, by decide +kernel⟩
    contradiction
  intro _ source mem target mem' _ path first
  have answer : findPath twoWaysEngine.code ⟨1⟩ ⟨4⟩ defaultMaxDepth = some [⟨1⟩, ⟨3⟩, ⟨4⟩] := by
    decide +kernel
  have found := (findPath_eq_some_iff consistent (stored source mem) path).mpr first
  rw [mem_singleton.mp mem, mem_singleton.mp mem'] at found
  rw [← Option.some.inj (answer.symm.trans found)]
  decide +kernel

end Codegraph.Dsl
