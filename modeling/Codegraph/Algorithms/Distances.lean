import Codegraph.Algorithms.KShortestPaths

namespace Codegraph

open Library List Relaxing

namespace CodeGraph

variable {code : CodeGraph}

/-- The weight of an edge as an exact cost. -/
def exactly (weigh : EdgeData → ℚ≥0) (data : EdgeData) : Exact := (weigh data : Exact)

theorem weighted_finite {weigh : EdgeData → ℚ≥0} (node : Nat) (edge : Nat × Exact)
    (listed : edge ∈ code.weighted (exactly weigh) node) : edge.2 ≠ ⊤ := by
  obtain ⟨link, -, -, rfl⟩ := mem_weighted.mp listed
  exact WithTop.coe_ne_top

theorem weighted_stored {Cost : Type} {weigh : EdgeData → Cost} (node : Nat) (edge : Nat × Cost)
    (listed : edge ∈ code.weighted weigh node) : edge.1 ∈ code.graph.slots := by
  obtain ⟨link, mem, -, rfl⟩ := mem_weighted.mp listed
  exact (link_slots mem).2

theorem explore_halts_exact (weigh : EdgeData → ℚ≥0) (policy : HeapPolicy Exact)
    (goal : Option Nat) {source : Nat} (stored : source ∈ code.graph.slots) :
    ∃ fuel result, Relaxing.explore policy (code.weighted (exactly weigh)) goal fuel 0
      (.start source) = some result := by
  obtain ⟨unit, positive, counts⟩ := exists_unit (code.graph.links.map fun link => weigh link.weight)
  have falling := @exact_falling _ (code.weighted (exactly weigh)) unit positive
    fun node edge listed => by
      obtain ⟨link, mem, -, rfl⟩ := mem_weighted.mp listed
      obtain ⟨count, same⟩ := counts _ (mem_map_of_mem mem)
      exact ⟨count, congrArg _ same⟩
  have closed : ∀ node ∈ code.graph.slots.toFinset,
      ∀ edge ∈ code.weighted (exactly weigh) node, edge.1 ∈ code.graph.slots.toFinset :=
    fun node _ edge listed => mem_toFinset.mpr (weighted_stored node edge listed)
  exact explore_halts falling closed (mem_toFinset.mpr stored)

theorem resolve_spec (consistent : Consistent code) {id : NodeId} {slot : Nat}
    (resolved : code.resolve id = some slot) :
    slot ∈ code.graph.slots ∧ code.nameOf slot = id := by
  obtain ⟨data, found, named⟩ := (consistent.mapped id slot).mp resolved
  refine ⟨(code.graph.mem_slots slot).mpr (by rw [found]; rfl), ?_⟩
  rwa [nameOf, nodeIdFor, found]

section Agreement

variable {weigh : EdgeData → ℚ≥0} {a b : NodeId} {aIdx bIdx : Nat} {distance : Exact}

/-- The distances of the graph with the weights read as exact costs. -/
abbrev DistanceBetween (weigh : EdgeData → ℚ≥0) (code : CodeGraph) : Nat → Nat → Exact → Prop :=
  IsDistance (code.weighted (exactly weigh))

theorem weightedShortestPath_spec (policy : HeapPolicy Exact) (atA : code.resolve a = some aIdx)
    (atB : code.resolve b = some bIdx) (stored : aIdx ∈ code.graph.slots)
    (is : DistanceBetween weigh code aIdx bIdx distance) :
    ∃ bound, ∀ fuel, bound ≤ fuel → ∃ result,
      code.weightedShortestPath policy (exactly weigh) fuel a b = some result ∧
        result.map Prod.snd = reported distance := by
  obtain ⟨halting, ⟨found, final⟩, ends⟩ := explore_halts_exact weigh policy (some bIdx) stored
  obtain ⟨distance', is', rfl⟩ := explore_distance weighted_finite ends
  obtain rfl := is.unique is'
  unfold weightedShortestPath
  rw [atA, atB]
  dsimp only
  cases known : reported distance with
  | none =>
    refine ⟨halting, fun fuel enough => ⟨none, ?_, rfl⟩⟩
    rw [explore_mono ends enough, known]
    rfl
  | some cost =>
    rw [known] at ends
    obtain ⟨walking, path, walked, -⟩ := explore_path exact_ordered exact_additive
      exact_finite exact_harmless ends
    refine ⟨max halting walking, fun fuel enough => ⟨some (path.filterMap code.nodeIdFor, cost), ?_, rfl⟩⟩
    rw [explore_mono ends ((le_max_left _ _).trans enough)]
    change (Relaxing.walkBack final.prev fuel bIdx [bIdx]).bind _ = _
    rw [walked fuel ((le_max_right _ _).trans enough)]
    rfl

/-- The cost that a list of neighbours gives for a node. -/
def costOf (neighbors : List (NodeId × Exact)) (id : NodeId) : Option Exact :=
  (neighbors.find? fun entry => entry.1 = id).map Prod.snd

theorem costOf_eq {neighbors : List (NodeId × Exact)} {id : NodeId} {cost : Option Exact}
    (listed : ∀ value, (id, value) ∈ neighbors ↔ cost = some value) : costOf neighbors id = cost := by
  unfold costOf
  cases found : neighbors.find? fun entry => entry.1 = id with
  | none =>
    cases known : cost with
    | none => rfl
    | some value =>
      have absent := find?_eq_none.mp found (id, value) ((listed value).mpr known)
      exact absurd (decide_eq_true rfl) absent
  | some entry =>
    have same : entry.1 = id := by simpa using find?_some found
    have mem := mem_of_find?_eq_some found
    rw [(listed entry.2).mp (same ▸ mem)]
    rfl

theorem mem_foundNodes (order : HashOrder Nat) {nodeIdx : Nat} {dist : Dict Nat Exact}
    {entry : NodeId × Exact} : entry ∈ code.foundNodes order nodeIdx dist ↔
      ∃ slot, slot ≠ nodeIdx ∧ dist.get slot = some entry.2 ∧ code.nodeIdFor slot = some entry.1 := by
  rw [foundNodes, mem_filterMap]
  constructor
  · rintro ⟨slot, mem, found⟩
    obtain ⟨cost, labelled, found⟩ := Option.bind_eq_some_iff.mp found
    obtain ⟨id, named, rfl⟩ := Option.map_eq_some_iff.mp found
    exact ⟨slot, of_decide_eq_true (mem_filter.mp mem).2, labelled, named⟩
  rintro ⟨slot, other, labelled, named⟩
  refine ⟨slot, mem_filter.mpr ⟨?_, decide_eq_true other⟩, ?_⟩
  · rw [order.listed, mem_toFinset, Dict.mem_keys_iff]
    exact ⟨entry.2, labelled⟩
  · rw [labelled, named]
    rfl

theorem length_foundNodes (order : HashOrder Nat) (nodeIdx : Nat) {dist : Dict Nat Exact}
    (inside : ∀ slot cost, dist.get slot = some cost → slot ∈ code.graph.slots) :
    (code.foundNodes order nodeIdx dist).length ≤ code.graph.nodeCount := by
  have covered : dist.keys.toFinset ⊆ code.graph.slots.toFinset := by
    intro slot mem
    rw [mem_toFinset, Dict.mem_keys_iff] at mem
    obtain ⟨cost, found⟩ := mem
    exact mem_toFinset.mpr (inside slot cost found)
  calc _ ≤ (order.iterate dist.keys.toFinset).length :=
        (length_filterMap_le _ _).trans (length_filter_le _ _)
    _ = dist.keys.toFinset.card := by
        rw [← toFinset_card_of_nodup (order.distinct _), order.iterate_toFinset]
    _ ≤ code.graph.slots.toFinset.card := Finset.card_le_card covered
    _ = code.graph.nodeCount := by
        rw [toFinset_card_of_nodup code.graph.slots_nodup, StableGraph.length_slots]

theorem walk_stored {weigh : EdgeData → Exact} {first last : Nat} {cost : Exact}
    (walk : CostWalk (code.weighted weigh) first cost last) (stored : first ∈ code.graph.slots) :
    last ∈ code.graph.slots := by
  induction walk with
  | stay => exact stored
  | step listed rest ih => exact ih (weighted_stored _ _ listed)

theorem nearestNeighbors_spec (consistent : Consistent code) (policy : HeapPolicy Exact)
    (order : HashOrder Nat) (atA : code.resolve a = some aIdx) (atB : code.resolve b = some bIdx)
    (apart : a ≠ b) (is : DistanceBetween weigh code aIdx bIdx distance) :
    ∃ bound, ∀ fuel, bound ≤ fuel → ∀ n, code.graph.nodeCount ≤ n → ∃ neighbors,
      code.nearestNeighbors policy (exactly weigh) order fuel a n = some neighbors ∧
        costOf neighbors b = reported distance := by
  obtain ⟨stored, named⟩ := resolve_spec consistent atA
  obtain ⟨stored', named'⟩ := resolve_spec consistent atB
  obtain ⟨halting, ⟨found, final⟩, ends⟩ := explore_halts_exact weigh policy none stored
  have labels := explore_distances weighted_finite ends
  have inside : ∀ slot cost, final.dist.get slot = some cost → slot ∈ code.graph.slots := by
    intro slot cost labelled
    obtain ⟨distance', is', same⟩ := labels slot
    rw [labelled] at same
    refine walk_stored (is'.walk fun infinite => ?_) stored
    rw [infinite] at same
    exact nomatch same
  have label : final.dist.get bIdx = reported distance := by
    obtain ⟨distance', is', same⟩ := labels bIdx
    rw [same, is.unique is']
  refine ⟨halting, fun fuel enough n large =>
    ⟨((code.foundNodes order aIdx final.dist).mergeSort fun first second =>
      !Costing.less second.2 first.2).take n, ?_, costOf_eq fun value => ?_⟩⟩
  · rw [nearestNeighbors, atA]
    dsimp only
    rw [explore_mono ends enough]
    rfl
  have whole := (length_foundNodes order aIdx inside).trans large
  rw [take_of_length_le (by rwa [length_mergeSort]), mem_mergeSort, mem_foundNodes, ← label]
  constructor
  · rintro ⟨slot, -, labelled, known⟩
    have mem := inside slot value labelled
    rw [nodeIdFor_eq mem] at known
    have same := nameOf_injOn consistent mem stored'
      ((Option.some.inj known).trans named'.symm)
    exact same ▸ labelled
  intro labelled
  refine ⟨bIdx, fun same => apart ?_, labelled, ?_⟩
  · rw [← named, ← named', same]
  · rw [nodeIdFor_eq stored', named']

/-- The first of the simple paths has the cost of the distance. -/
theorem kShortest_head {results : List (List NodeId × Exact)} (stored : aIdx ∈ code.graph.slots)
    (cheapest : KShortest (exactly weigh) code aIdx bIdx 1 results)
    (is : DistanceBetween weigh code aIdx bIdx distance) :
    results.head?.map Prod.snd = reported distance := by
  obtain ⟨chosen, distinct, simple, rfl, count, -, below⟩ := cheapest
  have edges (link : Link EdgeData) (mem : link ∈ code.graph.links) :
      (link.target, exactly weigh link.weight) ∈ code.weighted (exactly weigh) link.source :=
    mem_weighted.mpr ⟨link, mem, rfl, rfl⟩
  have shortest {cost : Exact} (walk : CostWalk (code.weighted (exactly weigh)) aIdx cost bIdx) :
      ∃ ids, SimplePath code.graph.links aIdx ids bIdx ∧
        pathCost (exactly weigh) code.graph.links ids ≤ cost :=
    exists_simplePath (fun slot edge => mem_weighted.mp) walk
  cases chosen with
  | nil =>
    have infinite : distance = ⊤ := by
      by_contra finite
      obtain ⟨ids, path, -⟩ := shortest (is.walk finite)
      have paths := simplePath_finite (fun link mem => (link_slots mem).2) stored bIdx
      have some := (Set.ncard_pos paths).mpr ⟨ids, path⟩
      rw [length_nil] at count
      omega
    exact (if_pos infinite).symm
  | cons ids rest =>
    have path := simple ids mem_cons_self
    have walk := path.1.walk edges
    have finite := walk.ne_top weighted_finite
    have least : pathCost (exactly weigh) code.graph.links ids ≤ distance := by
      by_cases infinite : distance = ⊤
      · exact infinite ▸ le_top
      obtain ⟨other, path', small⟩ := shortest (is.walk infinite)
      refine le_trans ?_ small
      by_cases mem : other ∈ ids :: rest
      · rw [length_cons] at count
        obtain rfl : rest = [] := eq_nil_of_length_eq_zero (by omega)
        exact (mem_singleton.mp mem ▸ le_rfl)
      · exact below ids mem_cons_self other path' mem
    have same := le_antisymm least (is.least _ walk)
    rw [reported, if_neg (same ▸ finite), ← same]
    rfl

/-- The four distances between two nodes agree, and the paths that are listed are the cheapest. -/
theorem distances_agree (weigh : EdgeData → ℚ≥0) (dijkstra enumerate nearest : HeapPolicy Exact)
    (order : HashOrder Nat) (consistent : Consistent code) (few : code.graph.nodeCount ≤ 2000)
    (atA : code.resolve a = some aIdx) (atB : code.resolve b = some bIdx) (apart : a ≠ b) :
    (∃ distance : Option Exact, (∃ bound, ∀ fuel, bound ≤ fuel →
      (∃ result, code.weightedShortestPath dijkstra (exactly weigh) fuel a b = some result ∧
        result.map Prod.snd = distance) ∧
      (∃ results, code.kShortestPaths enumerate (exactly weigh) fuel a b 1 = some results ∧
        results.head?.map Prod.snd = distance) ∧
      (code.allPairsDistances (exactly weigh)).get (a, b) = distance ∧
      ∀ n, code.graph.nodeCount ≤ n → ∃ neighbors,
        code.nearestNeighbors nearest (exactly weigh) order fuel a n = some neighbors ∧
          costOf neighbors b = distance) ∧
      (distance = none ↔ ∀ cost, ¬CostWalk (code.weighted (exactly weigh)) aIdx cost bIdx)) ∧
    ∀ k, ∃ bound, ∀ fuel, bound ≤ fuel → ∃ results,
      code.kShortestPaths enumerate (exactly weigh) fuel a b k = some results ∧
        KShortest (exactly weigh) code aIdx bIdx k results := by
  obtain ⟨stored, named⟩ := resolve_spec consistent atA
  obtain ⟨stored', named'⟩ := resolve_spec consistent atB
  obtain ⟨i, first⟩ := getElem?_of_mem stored
  obtain ⟨j, last⟩ := getElem?_of_mem stored'
  have different : aIdx ≠ bIdx := fun same => apart (by rw [← named, ← named', same])
  have positions : i ≠ j := fun same => different (by
    rw [same, last] at first
    exact (Option.some.inj first).symm)
  have is := @distances_spec code (exactly weigh) _ _ _ _ first last different
  obtain ⟨bound, shortest⟩ := weightedShortestPath_spec dijkstra atA atB stored is
  obtain ⟨bound', listed⟩ := @kShortestPaths_spec code (exactly weigh) enumerate 1 _ _ _ _ atA atB stored
  obtain ⟨bound'', neighbors⟩ := nearestNeighbors_spec consistent nearest order atA atB apart is
  refine ⟨⟨reported ((code.distances (exactly weigh)).entry i j),
    ⟨max bound (max bound' bound''), fun fuel enough => ?_⟩, ?_⟩,
    fun k => kShortestPaths_spec enumerate k atA atB stored⟩
  · obtain ⟨early, enough⟩ := max_le_iff.mp enough
    obtain ⟨early', early''⟩ := max_le_iff.mp enough
    obtain ⟨results, halted, cheapest⟩ := listed fuel early'
    refine ⟨shortest fuel early, ⟨results, halted, kShortest_head stored cheapest is⟩, ?_,
      neighbors fuel early''⟩
    rw [← named, ← named']
    exact get_allPairsDistances consistent (by rwa [StableGraph.length_slots]) first last positions
  rw [reported_eq_none]
  constructor
  · intro infinite cost walk
    exact walk.ne_top weighted_finite (top_le_iff.mp (infinite ▸ is.least cost walk))
  intro unreachable
  by_contra finite
  exact unreachable _ (is.walk finite)

end Agreement

/-- A function that calls another one in two places. -/
def twoCalls : List Edit :=
  [.addNode caller, .addNode callee, .addEdge caller.id callee.id ⟨.calls, {}, 5⟩,
    .addEdge caller.id callee.id ⟨.calls, {}, 3⟩]

theorem distances_agree_twoCalls : ∃ bound, ∀ fuel, bound ≤ fuel → ∃ result,
    (edited .fresh twoCalls).weightedShortestPath Exact.first
      (exactly fun data => data.weight.toNat) fuel caller.id callee.id = some result ∧
        result.map Prod.snd = ((edited .fresh twoCalls).allPairsDistances
          (exactly fun data => data.weight.toNat)).get (caller.id, callee.id) := by
  have first : (edited .fresh twoCalls).resolve caller.id = some 1 := by decide +kernel
  have second : (edited .fresh twoCalls).resolve callee.id = some 2 := by decide +kernel
  obtain ⟨⟨distance, ⟨bound, agree⟩, -⟩, -⟩ := distances_agree (fun data => data.weight.toNat)
    Exact.first Exact.first Exact.first .ascending (edited_consistent .fresh twoCalls)
    (by decide +kernel) first second (by decide)
  refine ⟨bound, fun fuel enough => ?_⟩
  obtain ⟨shortest, -, matrix, -⟩ := agree fuel enough
  rwa [matrix]

end CodeGraph

end Codegraph
