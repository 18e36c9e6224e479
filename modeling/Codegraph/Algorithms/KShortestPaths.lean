import Codegraph.Algorithms.AllPairs
import Mathlib.Data.Set.Card

namespace Codegraph

open Library List

section Paths

variable {Weight : Type}

/-- The targets of the edges at some positions. -/
def targetsOf (links : List (Link Weight)) (ids : List Nat) : List Nat :=
  ids.filterMap fun id => (links[id]?).map Link.target

/-- The costs of the edges at some positions. -/
def pathCost (weigh : Weight → Exact) (links : List (Link Weight)) (ids : List Nat) : Exact :=
  (ids.map fun id => ((links[id]?).map fun link => weigh link.weight).getD 0).sum

/-- The edges at these positions lead, one after the other, from a slot to a slot. -/
def EdgePath (links : List (Link Weight)) : Nat → List Nat → Nat → Prop
  | source, [], target => source = target
  | source, id :: ids, target =>
    ∃ link, links[id]? = some link ∧ link.source = source ∧ EdgePath links link.target ids target

/-- A path along edges that comes to no slot twice. -/
def SimplePath (links : List (Link Weight)) (source : Nat) (ids : List Nat) (target : Nat) : Prop :=
  EdgePath links source ids target ∧ (source :: targetsOf links ids).Nodup

/-- The edges that lead from a slot to slots that were not visited, the newest first. -/
def stepsFrom (links : List (Link Weight)) (current : Nat) (visited : List Nat) : List (Link Weight × Nat) :=
  (links.zipIdx.filter fun link => link.1.source = current ∧ link.1.target ∉ visited).reverse

/-- The simple paths to the goal that avoid what was visited. -/
def simplePaths (links : List (Link Weight)) (goal : Nat) : Nat → Nat → List Nat → List (List Nat)
  | 0, current, _ => if current = goal then [[]] else []
  | depth + 1, current, visited =>
    if current = goal then [[]]
    else (stepsFrom links current visited).flatMap fun link =>
      (simplePaths links goal depth link.1.target (visited ++ [link.1.target])).map (link.2 :: ·)

variable {links : List (Link Weight)} {weigh : Weight → Exact}

theorem targetsOf_cons {id : Nat} {link : Link Weight} (found : links[id]? = some link)
    (ids : List Nat) : targetsOf links (id :: ids) = link.target :: targetsOf links ids := by
  rw [targetsOf, filterMap_cons, found]
  rfl

theorem pathCost_cons {id : Nat} {link : Link Weight} (found : links[id]? = some link) (ids : List Nat) :
    pathCost weigh links (id :: ids) = weigh link.weight + pathCost weigh links ids := by
  rw [pathCost, map_cons, sum_cons, found]
  rfl

theorem mem_stepsFrom {current : Nat} {visited : List Nat} {link : Link Weight × Nat} :
    link ∈ stepsFrom links current visited ↔
      links[link.2]? = some link.1 ∧ link.1.source = current ∧ link.1.target ∉ visited := by
  rw [stepsFrom, mem_reverse, mem_filter, mem_zipIdx_iff_getElem?, decide_eq_true_iff]

theorem EdgePath.target_mem {source target id : Nat} {ids : List Nat}
    (path : EdgePath links source (id :: ids) target) : target ∈ targetsOf links (id :: ids) := by
  induction ids generalizing source id with
  | nil =>
    obtain ⟨link, found, -, same⟩ := path
    rw [targetsOf_cons found, show link.target = target from same]
    exact mem_cons_self
  | cons next ids ih =>
    obtain ⟨link, found, -, rest⟩ := path
    rw [targetsOf_cons found]
    exact mem_cons_of_mem _ (ih rest)

theorem simplePaths_nodup (goal depth current : Nat) (visited : List Nat) :
    (simplePaths links goal depth current visited).Nodup := by
  induction depth generalizing current visited with
  | zero =>
    unfold simplePaths
    split
    · exact nodup_singleton _
    · exact nodup_nil
  | succ depth ih =>
    unfold simplePaths
    split
    · exact nodup_singleton _
    rw [nodup_flatMap]
    refine ⟨fun link _ => (ih _ _).map cons_injective, ?_⟩
    have distinct : (stepsFrom links current visited).Pairwise fun first second =>
        first.2 ≠ second.2 := by
      rw [stepsFrom, pairwise_reverse]
      refine List.Pairwise.filter _ ?_
      have positions : (links.zipIdx.map Prod.snd).Nodup := by
        rw [zipIdx_map_snd]
        exact nodup_range'
      exact (pairwise_map.mp positions).imp Ne.symm
    refine distinct.imp fun apart => ?_
    rw [Function.onFun, disjoint_left]
    intro ids mem mem'
    obtain ⟨rest, -, rfl⟩ := mem_map.mp mem
    obtain ⟨rest', -, same⟩ := mem_map.mp mem'
    exact apart (List.cons.inj same).1.symm

theorem mem_arrived {goal : Nat} {visited ids : List Nat} (here : goal ∈ visited)
    (distinct : visited.Nodup) : ids ∈ [[]] ↔
      EdgePath links goal ids goal ∧ (visited ++ targetsOf links ids).Nodup := by
  rw [mem_singleton]
  constructor
  · rintro rfl
    exact ⟨rfl, by rwa [targetsOf, filterMap_nil, append_nil]⟩
  rintro ⟨path, apart⟩
  cases ids with
  | nil => rfl
  | cons id ids => exact absurd rfl ((nodup_append.mp apart).2.2 goal here goal path.target_mem)

theorem visited_next {slots visited : List Nat} {next : Nat} (distinct : visited.Nodup)
    (inside : visited ⊆ slots) (stored : next ∈ slots) (fresh : next ∉ visited) :
    (visited ++ [next]).Nodup ∧ visited ++ [next] ⊆ slots := by
  refine ⟨nodup_append.mpr ⟨distinct, nodup_singleton _, ?_⟩, ?_⟩
  · intro slot old other new same
    exact fresh (mem_singleton.mp new ▸ same ▸ old)
  · exact append_subset.mpr ⟨inside, fun slot new => mem_singleton.mp new ▸ stored⟩

theorem visited_room {slots visited : List Nat} {next depth : Nat} (distinct : visited.Nodup)
    (inside : visited ⊆ slots) (stored : next ∈ slots) (fresh : next ∉ visited)
    (room : slots.length ≤ visited.length + depth) : depth ≠ 0 := by
  obtain ⟨longer, within⟩ := visited_next distinct inside stored fresh
  have bounded := (longer.subperm within).length_le
  rw [length_append, length_singleton] at bounded
  omega

theorem mem_simplePaths {slots : List Nat} (wired : ∀ link ∈ links, link.target ∈ slots)
    {goal depth current : Nat} {visited ids : List Nat} (here : current ∈ visited)
    (distinct : visited.Nodup) (inside : visited ⊆ slots)
    (room : slots.length ≤ visited.length + depth) :
    ids ∈ simplePaths links goal depth current visited ↔
      EdgePath links current ids goal ∧ (visited ++ targetsOf links ids).Nodup := by
  induction depth generalizing current visited ids with
  | zero =>
    unfold simplePaths
    split
    · rename_i same
      exact same ▸ mem_arrived here distinct
    rename_i other
    refine iff_of_false not_mem_nil fun ⟨path, apart⟩ => ?_
    cases ids with
    | nil => exact other path
    | cons id ids =>
      obtain ⟨link, found, -, -⟩ := path
      rw [targetsOf_cons found] at apart
      have fresh : link.target ∉ visited := fun old =>
        (nodup_append.mp apart).2.2 _ old _ mem_cons_self rfl
      exact visited_room distinct inside (wired link (mem_of_getElem? found)) fresh room rfl
  | succ depth ih =>
    unfold simplePaths
    split
    · rename_i same
      exact same ▸ mem_arrived here distinct
    rename_i other
    have below {link : Link Weight} (mem : link ∈ links) (fresh : link.target ∉ visited)
        (rest : List Nat) :
        rest ∈ simplePaths links goal depth link.target (visited ++ [link.target]) ↔
          EdgePath links link.target rest goal ∧
            (visited ++ link.target :: targetsOf links rest).Nodup := by
      obtain ⟨longer, within⟩ := visited_next distinct inside (wired link mem) fresh
      rw [ih (mem_append_right _ mem_cons_self) longer within
        (by rw [length_append, length_singleton]; omega), append_assoc]
      rfl
    rw [mem_flatMap]
    constructor
    · rintro ⟨link, step, listed⟩
      obtain ⟨rest, after, rfl⟩ := mem_map.mp listed
      obtain ⟨found, atSource, fresh⟩ := mem_stepsFrom.mp step
      obtain ⟨path, apart⟩ := (below (mem_of_getElem? found) fresh rest).mp after
      rw [targetsOf_cons found]
      exact ⟨⟨link.1, found, atSource, path⟩, apart⟩
    rintro ⟨path, apart⟩
    cases ids with
    | nil => exact absurd path other
    | cons id ids =>
      obtain ⟨link, found, atSource, rest⟩ := path
      rw [targetsOf_cons found] at apart
      have fresh : link.target ∉ visited := fun old =>
        (nodup_append.mp apart).2.2 _ old _ mem_cons_self rfl
      refine ⟨(link, id), mem_stepsFrom.mpr ⟨found, atSource, fresh⟩, ?_⟩
      exact mem_map_of_mem
        ((below (mem_of_getElem? found) fresh ids).mpr ⟨rest, apart⟩)

theorem mem_simplePaths_root {slots : List Nat} (wired : ∀ link ∈ links, link.target ∈ slots)
    {source goal : Nat} (stored : source ∈ slots) (ids : List Nat) :
    ids ∈ simplePaths links goal slots.length source [source] ↔ SimplePath links source ids goal := by
  rw [mem_simplePaths wired mem_cons_self (nodup_singleton _)
    (fun slot mem => mem_singleton.mp mem ▸ stored) (Nat.le_add_left _ _)]
  rfl

theorem simplePath_finite {slots : List Nat} (wired : ∀ link ∈ links, link.target ∈ slots)
    {source : Nat} (stored : source ∈ slots) (goal : Nat) :
    {ids | SimplePath links source ids goal}.Finite := by
  refine (finite_toSet (simplePaths links goal slots.length source [source])).subset ?_
  exact fun ids path => (mem_simplePaths_root wired stored ids).mpr path

theorem EdgePath.walk {edges : Nat → List (Nat × Exact)}
    (listed : ∀ link ∈ links, (link.target, weigh link.weight) ∈ edges link.source)
    {source target : Nat} {ids : List Nat} (path : EdgePath links source ids target) :
    CostWalk edges source (pathCost weigh links ids) target := by
  induction ids generalizing source with
  | nil =>
    obtain rfl : source = target := path
    exact .stay
  | cons id ids ih =>
    obtain ⟨link, found, rfl, rest⟩ := path
    rw [pathCost_cons found]
    exact .step (listed link (mem_of_getElem? found)) (ih rest)

theorem SimplePath.suffix {source target slot : Nat} {ids : List Nat}
    (path : SimplePath links source ids target) (met : slot ∈ source :: targetsOf links ids) :
    ∃ rest, SimplePath links slot rest target ∧ pathCost weigh links rest ≤ pathCost weigh links ids := by
  induction ids generalizing source with
  | nil =>
    obtain rfl := mem_singleton.mp met
    exact ⟨[], path, le_rfl⟩
  | cons id ids ih =>
    rcases mem_cons.mp met with rfl | later
    · exact ⟨id :: ids, path, le_rfl⟩
    obtain ⟨⟨link, found, atSource, after⟩, apart⟩ := path
    rw [targetsOf_cons found] at later apart
    obtain ⟨rest, simple, small⟩ := ih ⟨after, apart.of_cons⟩ later
    refine ⟨rest, simple, small.trans ?_⟩
    rw [pathCost_cons found]
    exact le_add_self

theorem exists_simplePath {edges : Nat → List (Nat × Exact)}
    (listed : ∀ slot, ∀ edge ∈ edges slot, ∃ link ∈ links, link.source = slot ∧
      edge = (link.target, weigh link.weight)) {source target : Nat} {cost : Exact}
    (walk : CostWalk edges source cost target) :
    ∃ ids, SimplePath links source ids target ∧ pathCost weigh links ids ≤ cost := by
  induction walk with
  | stay => exact ⟨[], ⟨rfl, nodup_singleton _⟩, le_rfl⟩
  | @step node last edge cost here rest ih =>
    obtain ⟨ids, simple, small⟩ := ih
    obtain ⟨link, mem, atSource, rfl⟩ := listed node edge here
    by_cases met : node ∈ link.target :: targetsOf links ids
    · obtain ⟨rest, simple', small'⟩ := simple.suffix met
      exact ⟨rest, simple', (small'.trans small).trans le_add_self⟩
    obtain ⟨id, found⟩ := getElem?_of_mem mem
    refine ⟨id :: ids, ⟨⟨link, found, atSource, simple.1⟩, ?_⟩, ?_⟩
    · rw [targetsOf_cons found]
      exact nodup_cons.mpr ⟨met, simple.2⟩
    · rw [pathCost_cons found]
      exact add_le_add_right small _

end Paths

namespace CodeGraph

variable {code : CodeGraph} {weigh : EdgeData → Exact}

/-- What the search knows of a path after some more edges. -/
def pathEntry (weigh : EdgeData → Exact) (code : CodeGraph) (entry : Exact × List Nat)
    (ids : List Nat) : Exact × List Nat :=
  (entry.1 + pathCost weigh code.graph.links ids, entry.2 ++ targetsOf code.graph.links ids)

theorem pathEntry_nil (entry : Exact × List Nat) : code.pathEntry weigh entry [] = entry := by
  rw [pathEntry, pathCost, targetsOf, map_nil, sum_nil, filterMap_nil, add_zero, append_nil]

theorem extendPath_eq (cost : Exact) {path : List Nat} {current : Nat}
    (last : path.getLast? = some current) : code.extendPath weigh (cost, path) =
      (stepsFrom code.graph.links current path).map fun link =>
        (cost + weigh link.1.weight, path ++ [link.1.target]) := by
  have numbered : code.graph.links.zipIdx.map Prod.fst = code.graph.links := zipIdx_map_fst _ _
  have edges : code.graph.edgesFrom current = ((code.graph.links.zipIdx.filter fun link =>
      decide (link.1.source = current)).reverse).map Prod.fst := by
    rw [StableGraph.edgesFrom, map_reverse]
    congr 1
    conv_lhs => rw [← numbered, filter_map]
    rfl
  unfold extendPath weighted stepsFrom
  rw [last]
  dsimp only
  rw [edges, map_map, filter_map, map_map, filter_reverse, filter_filter]
  congr 2
  refine filter_congr fun link _ => ?_
  rw [Bool.eq_iff_iff]
  simp [and_comm]

theorem leaves_extendPath (goal depth : Nat) (cost : Exact) {path : List Nat} {current : Nat}
    (last : path.getLast? = some current) :
    leaves (code.extendPath weigh) (fun path => path.getLast? = some goal) depth (cost, path) =
      (simplePaths code.graph.links goal depth current path).map
        (code.pathEntry weigh (cost, path)) := by
  induction depth generalizing cost path current with
  | zero =>
    unfold leaves simplePaths
    by_cases same : current = goal
    · rw [if_pos same, map_singleton, pathEntry_nil]
      exact if_pos (decide_eq_true (last.trans (congrArg some same)))
    rw [if_neg same]
    refine if_neg fun leaf => same ?_
    exact Option.some.inj (last.symm.trans (of_decide_eq_true leaf))
  | succ depth ih =>
    unfold leaves simplePaths
    by_cases same : current = goal
    · rw [if_pos same, map_singleton, pathEntry_nil]
      exact if_pos (decide_eq_true (last.trans (congrArg some same)))
    rw [if_neg same]
    refine (if_neg fun leaf => same ?_).trans ?_
    · exact Option.some.inj (last.symm.trans (of_decide_eq_true leaf))
    rw [extendPath_eq cost last, flatMap_map, map_flatMap]
    refine flatMap_congr fun link step => ?_
    obtain ⟨found, -, -⟩ := mem_stepsFrom.mp step
    rw [ih _ getLast?_concat, map_map]
    refine map_congr_left fun ids _ => ?_
    unfold pathEntry
    rw [Function.comp_apply, pathCost_cons found, targetsOf_cons found, add_assoc, append_assoc]
    rfl

theorem extendPath_next {entry child : Exact × List Nat} (mem : child ∈ code.extendPath weigh entry) :
    ∃ slot, child.2 = entry.2 ++ [slot] ∧ slot ∈ code.graph.slots ∧ slot ∉ entry.2 := by
  cases last : entry.2.getLast? with
  | none =>
    rw [extendPath, last] at mem
    exact absurd mem not_mem_nil
  | some current =>
    rw [extendPath_eq entry.1 last] at mem
    obtain ⟨link, step, rfl⟩ := mem_map.mp mem
    obtain ⟨found, -, fresh⟩ := mem_stepsFrom.mp step
    exact ⟨link.1.target, rfl, (link_slots (mem_of_getElem? found)).2, fresh⟩

/-- A path can go on only as long as there are slots that it has not come to. -/
theorem extendPath_ends {depth : Nat} {entry : Exact × List Nat} (distinct : entry.2.Nodup)
    (inside : entry.2 ⊆ code.graph.slots)
    (room : code.graph.slots.length ≤ entry.2.length + depth) :
    EndsWithin (code.extendPath weigh) depth entry := by
  induction depth generalizing entry with
  | zero =>
    refine eq_nil_iff_forall_not_mem.mpr fun child mem => ?_
    obtain ⟨slot, -, stored, fresh⟩ := extendPath_next mem
    exact visited_room distinct inside stored fresh room rfl
  | succ depth ih =>
    intro child mem
    obtain ⟨slot, same, stored, fresh⟩ := extendPath_next mem
    obtain ⟨longer, within⟩ := visited_next distinct inside stored fresh
    rw [← same] at longer within
    refine ih longer within ?_
    rw [same, length_append, length_singleton]
    omega

theorem extendPath_grows (entry child : Exact × List Nat)
    (mem : child ∈ code.extendPath weigh entry) : entry.1 ≤ child.1 := by
  unfold extendPath at mem
  split at mem
  · exact absurd mem not_mem_nil
  · obtain ⟨edge, -, rfl⟩ := mem_map.mp mem
    exact le_self_add

/-- The results are the cheapest simple paths, in order, as many as there are or as are wanted. -/
def KShortest (weigh : EdgeData → Exact) (code : CodeGraph) (source target k : Nat)
    (results : List (List NodeId × Exact)) : Prop :=
  ∃ chosen : List (List Nat), chosen.Nodup ∧
    (∀ ids ∈ chosen, SimplePath code.graph.links source ids target) ∧
      results = chosen.map (fun ids =>
        ((source :: targetsOf code.graph.links ids).filterMap code.nodeIdFor,
          pathCost weigh code.graph.links ids)) ∧
        chosen.length = min k {ids | SimplePath code.graph.links source ids target}.ncard ∧
          (chosen.Pairwise fun first second =>
            pathCost weigh code.graph.links first ≤ pathCost weigh code.graph.links second) ∧
            ∀ ids ∈ chosen, ∀ other, SimplePath code.graph.links source other target → other ∉ chosen →
                pathCost weigh code.graph.links ids ≤ pathCost weigh code.graph.links other

theorem ncard_simplePaths {source target : Nat} {paths : List (List Nat)} (distinct : paths.Nodup)
    (listed : ∀ ids, ids ∈ paths ↔ SimplePath code.graph.links source ids target) :
    {ids | SimplePath code.graph.links source ids target}.ncard = paths.length := by
  rw [← toFinset_card_of_nodup distinct, ← Set.ncard_coe_finset]
  congr 1
  ext ids
  rw [coe_toFinset]
  exact (listed ids).symm

theorem kShortest_of_perm {source target k : Nat} {paths : List (List Nat)} (distinct : paths.Nodup)
    (listed : ∀ ids, ids ∈ paths ↔ SimplePath code.graph.links source ids target)
    {final others : List (Exact × List Nat)}
    (perm : (final ++ others).Perm (paths.map (code.pathEntry weigh (0, [source]))))
    (sorted : final.Pairwise fun first second => first.1 ≤ second.1)
    (below : ∀ result ∈ final, ∀ other ∈ others, result.1 ≤ other.1)
    (length : final.length = min k (paths.map (code.pathEntry weigh (0, [source]))).length) :
    KShortest weigh code source target k
      (final.map fun result => (result.2.filterMap code.nodeIdFor, result.1)) := by
  obtain ⟨moved, same, reordered⟩ : Relation.Comp (fun entries paths =>
      entries = List.map (code.pathEntry weigh (0, [source])) paths) List.Perm
        (final ++ others) paths := by
    rwa [eq_map_comp_perm]
  obtain ⟨chosen, rest, rfl, rfl, rfl⟩ := append_eq_map_iff.mp same
  have cost (ids : List Nat) :
      (code.pathEntry weigh (0, [source]) ids).1 = pathCost weigh code.graph.links ids := zero_add _
  rw [length_map, length_map] at length
  refine ⟨chosen, ?_, fun ids mem => ?_, ?_, ?_, ?_, fun ids mem other simple apart => ?_⟩
  · exact (reordered.nodup_iff.mpr distinct).sublist (sublist_append_left _ _)
  · exact (listed ids).mp (reordered.mem_iff.mp (mem_append_left _ mem))
  · rw [map_map]
    refine map_congr_left fun ids _ => ?_
    rw [Function.comp_apply, cost]
    rfl
  · rw [ncard_simplePaths distinct listed, length]
  · refine (pairwise_map.mp sorted).imp fun small => ?_
    rwa [cost, cost] at small
  · have left := (mem_append.mp
      (reordered.mem_iff.mpr ((listed other).mpr simple))).resolve_left apart
    have small := below _ (mem_map_of_mem mem) _ (mem_map_of_mem left)
    rwa [cost, cost] at small

/-- The search for several paths halts with the cheapest simple paths. -/
theorem kShortestPaths_spec (policy : HeapPolicy Exact) (k : Nat) {source target : NodeId}
    {sourceIdx targetIdx : Nat} (atSource : code.resolve source = some sourceIdx)
    (atTarget : code.resolve target = some targetIdx) (stored : sourceIdx ∈ code.graph.slots) :
    ∃ bound, ∀ fuel, bound ≤ fuel → ∃ results,
      code.kShortestPaths policy weigh fuel source target k = some results ∧
        KShortest weigh code sourceIdx targetIdx k results := by
  let depth := code.graph.slots.length
  let paths := simplePaths code.graph.links targetIdx depth sourceIdx [sourceIdx]
  let leaf : List Nat → Bool := fun path => path.getLast? = some targetIdx
  have listed (ids : List Nat) : ids ∈ paths ↔ SimplePath code.graph.links sourceIdx ids targetIdx :=
    mem_simplePaths_root (fun link mem => (link_slots mem).2) stored ids
  have distinct : paths.Nodup := simplePaths_nodup _ _ _ _
  have ends : ∀ entry ∈ [((0 : Exact), [sourceIdx])], EndsWithin (code.extendPath weigh) depth entry := by
    intro entry mem
    rw [mem_singleton.mp mem]
    exact extendPath_ends (nodup_singleton _)
      (fun slot mem => mem_singleton.mp mem ▸ stored) (Nat.le_add_left _ _)
  have all : leaves (code.extendPath weigh) leaf depth (0, [sourceIdx]) =
      paths.map (code.pathEntry weigh (0, [sourceIdx])) :=
    leaves_extendPath targetIdx depth 0 rfl
  refine ⟨treeSize (code.extendPath weigh) depth (0, [sourceIdx]) + 1, fun fuel enough => ?_⟩
  unfold kShortestPaths
  by_cases none : k = 0
  · rw [if_pos none]
    have whole : ([] ++ paths.map (code.pathEntry weigh (0, [sourceIdx]))).Perm
        (paths.map (code.pathEntry weigh (0, [sourceIdx]))) := List.Perm.refl _
    refine ⟨[], rfl, kShortest_of_perm distinct listed whole .nil ?_ ?_⟩
    · exact fun result mem => absurd mem not_mem_nil
    · rw [none, Nat.zero_min, length_nil]
  rw [if_neg none, atSource, atTarget]
  obtain ⟨final, halted⟩ := @bestFirst_halts _ _ (code.extendPath weigh) leaf depth _ policy k _
    ends fuel (by simpa using enough) 0 []
  have enumerated : Enumerated (code.extendPath weigh) leaf depth
      (leaves (code.extendPath weigh) leaf depth (0, [sourceIdx])) [(0, [sourceIdx])] [] := by
    refine ⟨ends, ?_, .nil, fun result mem => absurd mem not_mem_nil⟩
    rw [flatMap_cons, flatMap_nil, append_nil, nil_append]
  obtain ⟨others, perm, sorted, below, length⟩ := bestFirst_spec exact_less
    (fun entry child => extendPath_grows entry child) enumerated (pos_of_ne_zero none) halted
  rw [all] at perm length
  refine ⟨_, ?_, kShortest_of_perm distinct listed perm sorted below length⟩
  change (bestFirst policy (code.extendPath weigh) leaf k fuel 0 [(0, [sourceIdx])] []).bind _ = _
  rw [halted]
  rfl

end CodeGraph

end Codegraph
