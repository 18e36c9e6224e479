import Codegraph.Dsl.PathQueries

namespace Codegraph.Dsl

open Library List

/-- The current path, the slots on it, the neighbors that each of them has left and the paths found so
far. The frame of the last slot comes first. -/
structure SimpleSearch where
  path : List Nat
  onPath : Finset Nat
  stack : List (Nat × List Nat)
  results : List (List NodeId)

/-- The last slot leaves the path. There is one whenever there is a frame. -/
def SimpleSearch.backtrack (search : SimpleSearch) (frames : List (Nat × List Nat)) : Option SimpleSearch :=
  search.path.getLast?.map fun last =>
    { search with path := search.path.dropLast, onPath := search.onPath.erase last, stack := frames }

/-- The current path with the target behind it. -/
def SimpleSearch.snapshot (code : CodeGraph) (targetIdx : Nat) (search : SimpleSearch) : List NodeId :=
  search.path.filterMap code.nodeIdFor ++ (code.nodeIdFor targetIdx).toList

/-- One round of the loop. The search ends early when there are as many paths as are allowed. -/
def simpleRound (code : CodeGraph) (targetIdx maxDepth maxPaths : Nat) (search : SimpleSearch) :
    Option (Round SimpleSearch) :=
  match search.stack with
  | [] => some (.done search)
  | (node, neighbors) :: frames =>
    if maxDepth < search.path.length then (search.backtrack frames).map .next
    else
      match neighbors with
      | [] => (search.backtrack frames).map .next
      | neighbor :: rest =>
        let search := { search with stack := (node, rest) :: frames }
        if neighbor = targetIdx then
          let search := { search with results := search.results ++ [search.snapshot code targetIdx] }
          if maxPaths ≤ search.results.length then some (.done search) else some (.next search)
        else if neighbor ∈ search.onPath then some (.next search)
        else
          some (.next {
            search with
            path := search.path ++ [neighbor]
            onPath := insert neighbor search.onPath
            stack := (neighbor, code.graph.successors neighbor) :: search.stack })

/-- There is no result when the fuel ends. -/
def allSimplePaths (code : CodeGraph) (source target : NodeId) (maxDepth maxPaths fuel : Nat) :
    Option (List (List NodeId)) :=
  if maxPaths = 0 then some []
  else
    match code.resolve source, code.resolve target with
    | some sourceIdx, some targetIdx =>
      if sourceIdx = targetIdx then some [[source]]
      else
        (whileLoop (simpleRound code targetIdx maxDepth maxPaths) fuel
          ⟨[sourceIdx], {sourceIdx}, [(sourceIdx, code.graph.successors sourceIdx)], []⟩).map
            SimpleSearch.results
    | _, _ => some []

section Rounds

variable {code : CodeGraph} {targetIdx maxDepth maxPaths : Nat}

/-- The routes that go on over the neighbors that are left. -/
def onwards (next : Nat → List Nat) (target : Nat) : Nat → List Nat → List Nat → List (List Nat)
  | 0, _, _ => []
  | room + 1, path, neighbors =>
    neighbors.flatMap (branchRoutes target (simpleRoutes next target room) path)

theorem simpleRoutes_eq (next : Nat → List Nat) (target room : Nat) (path : List Nat) (current : Nat) :
    simpleRoutes next target room path current = onwards next target room path (next current) := by
  cases room <;> rfl

/-- The path that ends with the slot of the first frame. -/
def framePath (stack : List (Nat × List Nat)) : List Nat := (stack.map Prod.fst).reverse

/-- The routes that the frames lead to. -/
def pending (next : Nat → List Nat) (target maxDepth : Nat) : List (Nat × List Nat) → List (List Nat)
  | [] => []
  | (node, neighbors) :: frames =>
    onwards next target (maxDepth - frames.length) (framePath ((node, neighbors) :: frames)) neighbors ++
      pending next target maxDepth frames

/-- The rounds that the frames take. -/
def stackCost (next : Nat → List Nat) (target maxDepth : Nat) : List (Nat × List Nat) → Nat
  | [] => 0
  | (node, neighbors) :: frames =>
    routeCost next target (maxDepth - frames.length) (framePath ((node, neighbors) :: frames))
      neighbors + stackCost next target maxDepth frames

/-- The found paths and those that are pending are the listed routes. -/
structure SimpleSearch.Listing (code : CodeGraph) (targetIdx maxDepth maxPaths : Nat)
    (routes : List (List NodeId)) (search : SimpleSearch) : Prop where
  path : search.path = framePath search.stack
  onPath : search.onPath = search.path.toFinset
  distinct : search.path.Nodup
  few : search.results.length < maxPaths
  listed : search.results ++ (pending code.graph.successors targetIdx maxDepth search.stack).map
    (List.filterMap code.nodeIdFor) = routes

variable {routes : List (List NodeId)}

theorem framePath_cons (frame : Nat × List Nat) (frames : List (Nat × List Nat)) :
    framePath (frame :: frames) = framePath frames ++ [frame.1] := by
  unfold framePath
  rw [map_cons, reverse_cons]

theorem backtrack_listing {search : SimpleSearch}
    (listing : search.Listing code targetIdx maxDepth maxPaths routes) {node : Nat}
    {neighbors : List Nat} {frames : List (Nat × List Nat)}
    (top : search.stack = (node, neighbors) :: frames)
    (empty : onwards code.graph.successors targetIdx (maxDepth - frames.length)
      (framePath search.stack) neighbors = []) :
    ∃ after, search.backtrack frames = some after ∧
      after.Listing code targetIdx maxDepth maxPaths routes ∧ after.stack = frames := by
  have path : search.path = framePath frames ++ [node] := by rw [listing.path, top, framePath_cons]
  have distinct := listing.distinct
  rw [path, nodup_append] at distinct
  have shorter : (framePath frames ++ [node]).dropLast = framePath frames := dropLast_concat
  refine ⟨_, by rw [SimpleSearch.backtrack, path, getLast?_concat, Option.map_some], ?_, rfl⟩
  refine ⟨shorter, ?_, ?_, listing.few, ?_⟩
  · rw [listing.onPath, path, shorter]
    ext slot
    simp only [Finset.mem_erase, mem_toFinset, mem_append, mem_singleton]
    constructor
    · rintro ⟨differs, mem | same⟩
      · exact mem
      · exact absurd same differs
    · exact fun mem => ⟨fun same => distinct.2.2 slot mem node (mem_singleton_self node) same, .inl mem⟩
  · rw [shorter]
    exact distinct.1
  have listed := listing.listed
  rw [top] at listed empty
  rwa [pending, empty] at listed

/-- A frame of which nothing is left costs its last round. -/
theorem routeCost_pos (next : Nat → List Nat) (target room : Nat) (path neighbors : List Nat) :
    0 < routeCost next target room path neighbors := by
  cases room with
  | zero => exact Nat.one_pos
  | succ room =>
    rw [routeCost]
    omega

section Neighbors

variable {next : Nat → List Nat} {target node neighbor room : Nat} {rest : List Nat}
  {frames : List (Nat × List Nat)}

section

variable (left : maxDepth - frames.length = room + 1)
include left

/-- The first neighbor that is left leads to the first of the routes. -/
theorem pending_cons : pending next target maxDepth ((node, neighbor :: rest) :: frames) =
      branchRoutes target (simpleRoutes next target room) (framePath ((node, rest) :: frames)) neighbor ++
        pending next target maxDepth ((node, rest) :: frames) := by
  rw [pending, pending, left, onwards, onwards, flatMap_cons, append_assoc]
  rfl

theorem stackCost_cons : stackCost next target maxDepth ((node, neighbor :: rest) :: frames) =
      stackCost next target maxDepth ((node, rest) :: frames) +
        (1 + if neighbor = target ∨ neighbor ∈ framePath ((node, rest) :: frames) then 0
          else routeCost next target room (framePath ((node, rest) :: frames) ++ [neighbor])
            (next neighbor)) := by
  have same : framePath ((node, neighbor :: rest) :: frames) = framePath ((node, rest) :: frames) := rfl
  rw [stackCost, stackCost, left, routeCost, routeCost, map_cons, sum_cons, same]
  omega

/-- A new frame has the routes that go on over its slot. -/
theorem pending_push : pending next target maxDepth ((neighbor, next neighbor) :: (node, rest) :: frames) =
      simpleRoutes next target room (framePath ((node, rest) :: frames) ++ [neighbor]) neighbor ++
        pending next target maxDepth ((node, rest) :: frames) := by
  have room' : maxDepth - ((node, rest) :: frames).length = room := by
    rw [length_cons]
    omega
  rw [pending, room', framePath_cons, simpleRoutes_eq]

theorem stackCost_push :
    stackCost next target maxDepth ((neighbor, next neighbor) :: (node, rest) :: frames) =
      routeCost next target room (framePath ((node, rest) :: frames) ++ [neighbor]) (next neighbor) +
        stackCost next target maxDepth ((node, rest) :: frames) := by
  have room' : maxDepth - ((node, rest) :: frames).length = room := by
    rw [length_cons]
    omega
  rw [stackCost, room', framePath_cons]

end

end Neighbors

/-- A round goes on with less to do or ends with as many of the routes as are allowed. -/
theorem simpleRound_spec {search : SimpleSearch}
    (listing : search.Listing code targetIdx maxDepth maxPaths routes) :
    (∃ next, simpleRound code targetIdx maxDepth maxPaths search = some (.next next) ∧
      next.Listing code targetIdx maxDepth maxPaths routes ∧
      stackCost code.graph.successors targetIdx maxDepth next.stack <
        stackCost code.graph.successors targetIdx maxDepth search.stack) ∨
    ∃ last, simpleRound code targetIdx maxDepth maxPaths search = some (.done last) ∧
      last.results = routes.take maxPaths := by
  cases top : search.stack with
  | nil =>
    right
    refine ⟨search, by rw [simpleRound, top], ?_⟩
    have listed := listing.listed
    rw [top, pending, map_nil, append_nil] at listed
    rw [← listed, take_of_length_le listing.few.le]
  | cons frame frames =>
    obtain ⟨node, neighbors⟩ := frame
    have path : search.path = framePath ((node, neighbors) :: frames) := by rw [listing.path, top]
    have size : search.path.length = frames.length + 1 := by
      rw [path, framePath, length_reverse, length_map, length_cons]
    have leave (empty : onwards code.graph.successors targetIdx (maxDepth - frames.length)
        (framePath search.stack) neighbors = []) (round : simpleRound code targetIdx maxDepth maxPaths
          search = (search.backtrack frames).map .next) :
        ∃ next, simpleRound code targetIdx maxDepth maxPaths search = some (.next next) ∧
          next.Listing code targetIdx maxDepth maxPaths routes ∧
          stackCost code.graph.successors targetIdx maxDepth next.stack <
            stackCost code.graph.successors targetIdx maxDepth ((node, neighbors) :: frames) := by
      obtain ⟨after, left, listing', stack⟩ := backtrack_listing listing top empty
      refine ⟨after, by rw [round, left, Option.map_some], listing', ?_⟩
      rw [stack, stackCost]
      exact Nat.lt_add_of_pos_left (routeCost_pos _ _ _ _ _)
    by_cases far : maxDepth < search.path.length
    · refine .inl (leave ?_ ?_)
      · rw [Nat.sub_eq_zero_of_le (by omega), onwards]
      · rw [simpleRound, top]
        exact if_pos far
    obtain ⟨room, left⟩ : ∃ room, maxDepth - frames.length = room + 1 :=
      ⟨maxDepth - frames.length - 1, by omega⟩
    cases neighbors with
    | nil =>
      refine .inl (leave ?_ ?_)
      · rw [left]
        rfl
      · rw [simpleRound, top]
        exact if_neg far
    | cons neighbor rest =>
      have round : simpleRound code targetIdx maxDepth maxPaths search =
          if neighbor = targetIdx then
            if maxPaths ≤ (search.results ++ [search.snapshot code targetIdx]).length then
              some (.done ⟨search.path, search.onPath, (node, rest) :: frames,
                search.results ++ [search.snapshot code targetIdx]⟩)
            else some (.next ⟨search.path, search.onPath, (node, rest) :: frames,
              search.results ++ [search.snapshot code targetIdx]⟩)
          else if neighbor ∈ search.onPath then
            some (.next ⟨search.path, search.onPath, (node, rest) :: frames, search.results⟩)
          else some (.next ⟨search.path ++ [neighbor], insert neighbor search.onPath,
            (neighbor, code.graph.successors neighbor) :: (node, rest) :: frames,
            search.results⟩) := by
        rw [simpleRound, top]
        exact if_neg far
      have path' : search.path = framePath ((node, rest) :: frames) := path
      have listed := listing.listed
      rw [top, pending_cons left, map_append, ← path'] at listed
      rw [round, stackCost_cons left, ← path']
      by_cases here : neighbor = targetIdx
      · have shot : (branchRoutes targetIdx (simpleRoutes code.graph.successors targetIdx room)
            search.path neighbor).map (List.filterMap code.nodeIdFor) =
            [search.snapshot code targetIdx] := by
          rw [branchRoutes, SimpleSearch.snapshot, if_pos here, map_singleton, filterMap_append]
          cases found : code.nodeIdFor targetIdx <;> simp [found]
        rw [shot, ← append_assoc] at listed
        rw [if_pos here]
        by_cases full : maxPaths ≤ (search.results ++ [search.snapshot code targetIdx]).length
        · refine .inr ⟨_, if_pos full, ?_⟩
          have exact' : (search.results ++ [search.snapshot code targetIdx]).length = maxPaths := by
            have few := listing.few
            rw [length_append, length_singleton] at full ⊢
            omega
          rw [← listed, take_left' exact']
        refine .inl ⟨_, if_neg full, ⟨path', listing.onPath, listing.distinct,
          Nat.lt_of_not_le full, listed⟩, ?_⟩
        exact Nat.lt_add_of_pos_right (Nat.lt_add_right _ Nat.one_pos)
      rw [if_neg here]
      left
      by_cases visited : neighbor ∈ search.onPath
      · have visited' : neighbor ∈ search.path := by rwa [listing.onPath, mem_toFinset] at visited
        have nothing : branchRoutes targetIdx
            (simpleRoutes code.graph.successors targetIdx room) search.path neighbor = [] := by
          rw [branchRoutes, if_neg here, if_pos visited']
        rw [nothing] at listed
        refine ⟨_, if_pos visited, ⟨path', listing.onPath, listing.distinct, listing.few, listed⟩, ?_⟩
        exact Nat.lt_add_of_pos_right (Nat.lt_add_right _ Nat.one_pos)
      have fresh : neighbor ∉ search.path := by rwa [listing.onPath, mem_toFinset] at visited
      have branch : branchRoutes targetIdx
          (simpleRoutes code.graph.successors targetIdx room) search.path neighbor =
          simpleRoutes code.graph.successors targetIdx room (search.path ++ [neighbor])
            neighbor := by
        rw [branchRoutes, if_neg here, if_neg fresh]
      rw [branch] at listed
      refine ⟨_, if_neg visited, ⟨?_, ?_, ?_, listing.few, ?_⟩, ?_⟩
      · rw [framePath_cons, ← path']
      · rw [listing.onPath, toFinset_append, Finset.union_comm]
        rfl
      · rw [← concat_eq_append]
        exact listing.distinct.concat fresh
      · change search.results ++ _ = routes
        rwa [pending_push left, map_append, ← path']
      · change stackCost _ _ _ (_ :: _ :: frames) < _
        rw [stackCost_push left, ← path', if_neg (not_or.mpr ⟨here, fresh⟩)]
        omega

theorem simpleRound_loop {sourceIdx : Nat} (allowed : 0 < maxPaths) {fuel : Nat}
    (enough : stackCost code.graph.successors targetIdx maxDepth
      [(sourceIdx, code.graph.successors sourceIdx)] < fuel) :
    (whileLoop (simpleRound code targetIdx maxDepth maxPaths) fuel
      ⟨[sourceIdx], {sourceIdx}, [(sourceIdx, code.graph.successors sourceIdx)], []⟩).map
        SimpleSearch.results =
      some (((simpleRoutes code.graph.successors targetIdx maxDepth [sourceIdx] sourceIdx).map
        (List.filterMap code.nodeIdFor)).take maxPaths) := by
  have start : SimpleSearch.Listing code targetIdx maxDepth maxPaths
      ((simpleRoutes code.graph.successors targetIdx maxDepth [sourceIdx] sourceIdx).map
        (List.filterMap code.nodeIdFor))
      ⟨[sourceIdx], {sourceIdx}, [(sourceIdx, code.graph.successors sourceIdx)], []⟩ := by
    refine ⟨rfl, rfl, nodup_singleton sourceIdx, allowed, ?_⟩
    rw [pending, pending, append_nil, simpleRoutes_eq]
    rfl
  obtain ⟨last, ended, results⟩ := whileLoop_spec
    (fun search : SimpleSearch => stackCost code.graph.successors targetIdx maxDepth search.stack) _
    (fun search : SimpleSearch => search.results = List.take maxPaths _) (fun _ listing => simpleRound_spec listing)
    start enough
  rw [ended, Option.map_some, results]

end Rounds

/-- The results are simple paths, each listed once, and all of them when there are fewer than are
allowed. -/
structure ListsSimplePaths (code : CodeGraph) (source target : NodeId) (maxDepth maxPaths : Nat)
    (results : List (List NodeId)) : Prop where
  simple : ∀ path ∈ results, SimplePath code maxDepth source target path
  once : results.Nodup
  complete : {path | SimplePath code maxDepth source target path}.encard < maxPaths →
    ∀ path, SimplePath code maxDepth source target path → path ∈ results

section Names

variable {code : CodeGraph} {source target : NodeId}

theorem mem_simpleRoutes_iff (apart : source ≠ target) (maxDepth : Nat) (path : List NodeId) :
    path ∈ simpleRoutes (edgeEnds code) target maxDepth [source] source ↔
      SimplePath code maxDepth source target path := by
  have open' : target ∉ [source] := fun mem => apart (mem_singleton.mp mem).symm
  have top : [source].getLast? = some source := rfl
  rw [mem_simpleRoutes top (nodup_singleton source) open' (isChain_singleton source)]
  simp only [mem_edgeEnds, length_singleton]
  constructor
  · rintro ⟨⟨rest, rfl⟩, last, distinct, linked, short⟩
    exact ⟨rfl, last, linked, distinct, by omega⟩
  intro simple
  obtain ⟨rest, rfl⟩ := head?_eq_some_iff.mp simple.starts
  have short := simple.short
  exact ⟨⟨rest, rfl⟩, simple.ends, simple.distinct, simple.linked, by omega⟩

variable (consistent : CodeGraph.Consistent code)

include consistent

theorem simpleRoutes_names {sourceIdx targetIdx : Nat} (stored : sourceIdx ∈ code.graph.slots)
    (stored' : targetIdx ∈ code.graph.slots) (differs : sourceIdx ≠ targetIdx) (maxDepth : Nat) :
    (simpleRoutes code.graph.successors targetIdx maxDepth [sourceIdx] sourceIdx).map
        (List.filterMap code.nodeIdFor) =
      simpleRoutes (edgeEnds code) (code.nameOf targetIdx) maxDepth [code.nameOf sourceIdx]
        (code.nameOf sourceIdx) := by
  have follows := follows_successors code targetIdx
  have only : ∀ slot ∈ [sourceIdx], slot ∈ code.graph.slots := fun slot mem =>
    mem_singleton.mp mem ▸ stored
  have mapped := simpleRoutes_map code.graph.slots
    (fun first mem second mem' => CodeGraph.nameOf_injOn consistent mem mem')
    (fun slot _ other step => follows.stored slot other step)
    (fun slot mem => edgeEnds_nameOf consistent mem) stored' maxDepth
    only stored
  rw [map_singleton] at mapped
  rw [mapped]
  refine map_congr_left fun route mem => ?_
  have open' : targetIdx ∉ [sourceIdx] := fun mem => differs (mem_singleton.mp mem).symm
  obtain ⟨⟨rest, rfl⟩, -, -, linked, -⟩ := (mem_simpleRoutes rfl (nodup_singleton sourceIdx) open'
    (isChain_singleton sourceIdx) route).mp mem
  have inside := linked.induction (· ∈ code.graph.slots) _
      (fun first second step _ => follows.stored first second step) fun _ => stored
  rw [← filterMap_eq_map]
  exact filterMap_congr fun slot mem => CodeGraph.nodeIdFor_eq (inside slot mem)

theorem allSimplePaths_eq (apart : source ≠ target) (maxDepth maxPaths : Nat) :
    ∃ enough, ∀ fuel ≥ enough, allSimplePaths code source target maxDepth maxPaths fuel =
      some ((simpleRoutes (edgeEnds code) target maxDepth [source] source).take maxPaths) := by
  by_cases none' : maxPaths = 0
  · refine ⟨0, fun fuel _ => ?_⟩
    rw [allSimplePaths, if_pos none', none', take_zero]
  have closed (missing : ∀ path, ¬ SimplePath code maxDepth source target path) :
      simpleRoutes (edgeEnds code) target maxDepth [source] source = [] :=
    eq_nil_iff_forall_not_mem.mpr fun path mem =>
      missing path ((mem_simpleRoutes_iff apart maxDepth path).mp mem)
  cases here : code.resolve source with
  | none =>
    have empty : edgeEnds code source = [] := by
      rw [edgeEnds, CodeGraph.getEdgesFrom, show code.indexMap.get source = none from here]
      rfl
    refine ⟨0, fun fuel _ => ?_⟩
    rw [allSimplePaths, if_neg none', here]
    cases maxDepth with
    | zero => rw [simpleRoutes, take_nil]
    | succ maxDepth => rw [simpleRoutes, empty, flatMap_nil, take_nil]
  | some sourceIdx =>
    have stored : (code.resolve source).isSome := by rw [here]; rfl
    cases there : code.resolve target with
    | none =>
      refine ⟨0, fun fuel _ => ?_⟩
      rw [allSimplePaths, if_neg none', here, there, closed, take_nil]
      intro path simple
      have admissible := simple.admissible consistent stored
      have allowed : CodeGraph.Allowed code (fun _ _ => false) target :=
        admissible.nodes target (mem_of_getLast? admissible.last)
      exact not_allowed_of_unresolved there allowed
    | some targetIdx =>
      obtain ⟨inside, rfl⟩ := (CodeGraph.resolve_eq_some_iff consistent source sourceIdx).mp here
      obtain ⟨inside', rfl⟩ := (CodeGraph.resolve_eq_some_iff consistent target targetIdx).mp there
      have differs : sourceIdx ≠ targetIdx := fun same => apart (congrArg code.nameOf same)
      refine ⟨stackCost code.graph.successors targetIdx maxDepth
        [(sourceIdx, code.graph.successors sourceIdx)] + 1, fun fuel enough => ?_⟩
      rw [allSimplePaths, if_neg none', here, there]
      dsimp only
      rw [if_neg differs, simpleRound_loop (pos_of_ne_zero none') (Nat.lt_of_succ_le enough),
        simpleRoutes_names consistent inside inside' differs]

end Names

/-- The search always ends. Its results are as documented when no two of the first routes, as many as
are allowed, come by the same nodes over different edges. -/
theorem allSimplePaths_lists_iff {code : CodeGraph} (consistent : CodeGraph.Consistent code)
    {source target : NodeId} (apart : source ≠ target) (maxDepth maxPaths : Nat) :
    (∃ enough, ∀ fuel ≥ enough, ∃ results,
      allSimplePaths code source target maxDepth maxPaths fuel = some results ∧
        ListsSimplePaths code source target maxDepth maxPaths results) ↔
      ∀ first ∈ (edgeRoutes (edgeEnds code) target maxDepth [source] source).take maxPaths,
        ∀ second ∈ (edgeRoutes (edgeEnds code) target maxDepth [source] source).take maxPaths,
          first.2 = second.2 → first.1 = second.1 := by
  have simple : ∀ path, path ∈ simpleRoutes (edgeEnds code) target maxDepth [source] source ↔
      SimplePath code maxDepth source target path := mem_simpleRoutes_iff apart maxDepth
  have nodes : (edgeRoutes (edgeEnds code) target maxDepth [source] source).map Prod.snd =
      simpleRoutes (edgeEnds code) target maxDepth [source] source :=
    edgeRoutes_nodes maxDepth [source] source
  have places : ((edgeRoutes (edgeEnds code) target maxDepth [source] source).map Prod.fst).Nodup :=
    edgeRoutes_distinct maxDepth [source] source
  obtain ⟨enough, result⟩ := allSimplePaths_eq consistent apart maxDepth maxPaths
  generalize simpleRoutes (edgeEnds code) target maxDepth [source] source = routes at simple nodes result
  generalize edgeRoutes (edgeEnds code) target maxDepth [source] source = edges at nodes places ⊢
  have taken : (edges.take maxPaths).map Prod.snd = routes.take maxPaths := by rw [map_take, nodes]
  have distinct : (edges.take maxPaths).Nodup :=
    (List.Nodup.of_map Prod.fst places).sublist (take_sublist _ _)
  have once : (routes.take maxPaths).Nodup ↔ ∀ first ∈ edges.take maxPaths,
      ∀ second ∈ edges.take maxPaths, first.2 = second.2 → first.1 = second.1 := by
    rw [← taken, nodup_map_iff_inj_on distinct]
    refine forall₂_congr fun first _ => forall₂_congr fun second _ => forall_congr' fun same => ?_
    rw [Prod.ext_iff, and_iff_left same]
  rw [← once]
  constructor
  · rintro ⟨enough', lists⟩
    obtain ⟨results, answer, listed⟩ := lists (max enough enough') (Nat.le_max_right _ _)
    rw [result _ (le_max_left _ _)] at answer
    rw [Option.some.inj answer]
    exact listed.once
  intro once
  refine ⟨enough, fun fuel bound => ⟨_, result fuel bound, ?_⟩⟩
  refine ⟨fun path mem => (simple path).mp (mem_of_mem_take mem), once, ?_⟩
  intro few path isSimple
  have inside : ((routes.take maxPaths).toFinset : Set (List NodeId)) ⊆
      {path | SimplePath code maxDepth source target path} := fun other mem =>
    (simple other).mp (mem_of_mem_take (mem_toFinset.mp mem))
  have size := (Set.encard_le_encard inside).trans_lt few
  rw [Set.encard_coe_eq_coe_finsetCard, toFinset_card_of_nodup once, length_take, Nat.cast_lt] at size
  rw [take_of_length_le (by omega)]
  exact (simple path).mpr isSimple

/-- The first function calls the second one at two places, and once by way of the third one. -/
def twoCalls : List (CodeGraph.Operation Unit) :=
  [.addNode { id := ⟨1⟩, kind := .function, name := "a" },
    .addNode { id := ⟨2⟩, kind := .function, name := "b" },
    .addNode { id := ⟨3⟩, kind := .function, name := "c" },
    .addEdge ⟨1⟩ ⟨3⟩ { kind := .calls, weight := 0 }, .addEdge ⟨3⟩ ⟨2⟩ { kind := .calls, weight := 0 },
    .addEdge ⟨1⟩ ⟨2⟩ { kind := .calls, weight := 0 }, .addEdge ⟨1⟩ ⟨2⟩ { kind := .calls, weight := 0 },
    .addEdge ⟨1⟩ ⟨2⟩ { kind := .calls, weight := 0 }]

/-- Of the two paths one is listed three times and the other one not at all. -/
theorem allSimplePaths_repeats : allSimplePaths (CodeGraph.run .fresh twoCalls) ⟨1⟩ ⟨2⟩ 5 3 20 =
        some [[⟨1⟩, ⟨2⟩], [⟨1⟩, ⟨2⟩], [⟨1⟩, ⟨2⟩]] ∧
      ¬ ∃ enough, ∀ fuel ≥ enough, ∃ results,
        allSimplePaths (CodeGraph.run .fresh twoCalls) ⟨1⟩ ⟨2⟩ 5 3 fuel = some results ∧
          ListsSimplePaths (CodeGraph.run .fresh twoCalls) ⟨1⟩ ⟨2⟩ 5 3 results := by
  refine ⟨by decide +kernel, ?_⟩
  rintro ⟨enough, lists⟩
  have apart : (⟨1⟩ : NodeId) ≠ ⟨2⟩ := by decide
  obtain ⟨enough', result⟩ := allSimplePaths_eq (CodeGraph.run_consistent .fresh twoCalls) apart 5 3
  obtain ⟨results, answer, listed⟩ := lists (max enough' enough) (Nat.le_max_right _ _)
  rw [result _ (le_max_left _ _)] at answer
  have once := listed.once
  rw [← Option.some.inj answer] at once
  exact absurd once (by decide +kernel)

/-- The first path is listed once when only one is allowed. -/
theorem allSimplePaths_lists_iff_first : ∃ enough, ∀ fuel ≥ enough, ∃ results,
      allSimplePaths (CodeGraph.run .fresh twoCalls) ⟨1⟩ ⟨2⟩ 5 1 fuel = some results ∧
        ListsSimplePaths (CodeGraph.run .fresh twoCalls) ⟨1⟩ ⟨2⟩ 5 1 results :=
  (allSimplePaths_lists_iff (CodeGraph.run_consistent .fresh twoCalls) (by decide) 5 1).mpr
    (by decide +kernel)

end Codegraph.Dsl
