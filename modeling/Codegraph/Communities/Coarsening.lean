import Codegraph.Communities.Modularity

namespace Codegraph.Communities

open Library Finset Dict

section Renumbering

/-- Each community has a number below the count of communities. -/
theorem renumber_spec (community : List Nat) : (renumber community).2.length = community.length ∧
      (∀ label ∈ community, ∃ value, (renumber community).1.get label = some value) ∧
      (∀ label value, (renumber community).1.get label = some value →
        value < (renumber community).1.keys.length) ∧
      ∀ value ∈ (renumber community).2, value < (renumber community).1.keys.length := by
  induction community using List.reverseRecOn with
  | nil => exact ⟨rfl, by simp, by simp [renumber], by simp [renumber]⟩
  | append_singleton community label ih =>
    unfold renumber at ih ⊢
    rw [List.foldl_append, List.foldl_cons, List.foldl_nil]
    revert ih
    generalize community.foldl _ _ = state
    obtain ⟨labels, mapping⟩ := state
    rintro ⟨length, known, below, inside⟩
    dsimp only at length known below inside ⊢
    split
    · rename_i old
      obtain ⟨value, found⟩ := Option.isSome_iff_exists.mp old
      refine ⟨by simp [length], ?_, below, ?_⟩
      · intro other listed
        rcases List.mem_append.mp listed with before | last
        · exact known other before
        · rw [List.mem_singleton.mp last]
          exact ⟨value, found⟩
      intro other listed
      rcases List.mem_append.mp listed with before | last
      · exact inside other before
      · rw [List.mem_singleton.mp last, Dict.getD, found]
        exact below label value found
    rename_i fresh
    have absent : label ∉ labels := by rwa [← AList.lookup_isSome]
    have longer : (labels.set label labels.keys.length).keys.length = labels.keys.length + 1 := by
      rw [Dict.set, AList.keys_insert, List.length_cons,
        List.erase_of_not_mem fun mem => absent (AList.mem_keys.mpr mem)]
    refine ⟨by simp [length], ?_, ?_, ?_⟩
    · intro other listed
      rw [get_set]
      split
      · exact ⟨_, rfl⟩
      rename_i apart
      rcases List.mem_append.mp listed with before | last
      · exact known other before
      · exact absurd (List.mem_singleton.mp last) apart
    · intro other value found
      rw [longer]
      rw [get_set] at found
      split at found
      · cases found
        exact Nat.lt_succ_self _
      · exact Nat.lt_succ_of_lt (below other value found)
    intro value listed
    rw [longer]
    rcases List.mem_append.mp listed with before | last
    · exact Nat.lt_succ_of_lt (inside value before)
    · rw [List.mem_singleton.mp last, getD_set, if_pos rfl]
      exact Nat.lt_succ_self _

/-- Two nodes have one super-node exactly if they are in one community. -/
theorem renumber_get (community : List Nat) :
    (renumber community).2 = community.map (fun label => (renumber community).1.getD label 0) ∧
      ∀ first second value, (renumber community).1.get first = some value →
        (renumber community).1.get second = some value → first = second := by
  induction community using List.reverseRecOn with
  | nil => exact ⟨rfl, by simp [renumber]⟩
  | append_singleton community label ih =>
    obtain ⟨-, known, below, -⟩ := renumber_spec community
    obtain ⟨mapped, injective⟩ := ih
    unfold renumber at mapped injective known below ⊢
    rw [List.foldl_append, List.foldl_cons, List.foldl_nil]
    revert mapped injective known below
    generalize community.foldl _ _ = state
    obtain ⟨labels, mapping⟩ := state
    dsimp only
    intro known below mapped injective
    split
    · exact ⟨by rw [mapped, List.map_append, List.map_singleton], injective⟩
    rename_i fresh
    refine ⟨?_, ?_⟩
    · rw [mapped, List.map_append, List.map_singleton]
      congr 1
      apply List.map_congr_left
      intro other listed
      rw [getD_set, if_neg]
      rintro rfl
      obtain ⟨value, found⟩ := known _ listed
      exact fresh (by rw [found]; rfl)
    intro first second value found found'
    rw [get_set] at found found'
    split_ifs at found found' with same same'
    · exact same.trans same'.symm
    · cases found
      exact absurd (below _ _ found') (lt_irrefl _)
    · cases found'
      exact absurd (below _ _ found) (lt_irrefl _)
    · exact injective first second value found found'

end Renumbering

section Merging

variable {adj : AdjList}

/-- The edges of a node between the communities of its ends. -/
def superPairs (mapping : List Nat) (entry : List (Nat × ℚ) × Nat) : List (Nat × Nat × ℚ) :=
  entry.1.map fun neighbor => (mapping.getD entry.2 0, mapping.getD neighbor.1 0, neighbor.2)

def addSuper (rows : List (Dict Nat ℚ)) (pair : Nat × Nat × ℚ) : List (Dict Nat ℚ) :=
  rows.modify pair.1 fun row => addTo row pair.2

theorem foldl_super (mapping : List Nat) (entries : List (List (Nat × ℚ) × Nat)) (rows : List (Dict Nat ℚ)) :
    entries.foldl (fun superAdj entry =>
      entry.1.foldl (fun superAdj neighbor =>
        superAdj.modify (mapping.getD entry.2 0) fun row : Dict Nat ℚ =>
          row.update (mapping.getD neighbor.1 0) 0 (· + neighbor.2)) superAdj) rows =
      (entries.flatMap (superPairs mapping)).foldl addSuper rows := by
  induction entries generalizing rows with
  | nil => rfl
  | cons entry entries ih =>
    rw [List.foldl_cons, ih, List.flatMap_cons, List.foldl_append]
    rw [superPairs, List.foldl_map]
    rfl

theorem getD_addSuper (pairs : List (Nat × Nat × ℚ)) (rows : List (Dict Nat ℚ)) {place : Nat}
    (inside : place < rows.length) : (pairs.foldl addSuper rows).getD place ∅ =
      ((pairs.filter fun pair => pair.1 = place).map Prod.snd).foldl addTo (rows.getD place ∅) := by
  induction pairs generalizing rows with
  | nil => rfl
  | cons pair pairs ih =>
    have kept : place < (rows.modify pair.1 fun row => addTo row pair.2).length := by simpa using inside
    rw [List.foldl_cons, addSuper, ih _ kept, List.getD_eq_getElem _ _ kept,
      List.getD_eq_getElem _ _ inside, List.getElem_modify]
    by_cases same : pair.1 = place
    · rw [List.filter_cons_of_pos (by simpa using same), if_pos same]
      rfl
    · rw [List.filter_cons_of_neg (by simpa using same), if_neg same]

theorem length_addSuper (pairs : List (Nat × Nat × ℚ)) (rows : List (Dict Nat ℚ)) :
    (pairs.foldl addSuper rows).length = rows.length := by
  induction pairs generalizing rows with
  | nil => rfl
  | cons pair pairs ih => rw [List.foldl_cons, ih, addSuper, List.length_modify]

/-- The pairs of an adjacency list that start at a community. -/
def pairsFrom (adj : AdjList) (mapping : List Nat) (place : Nat) : List (Nat × ℚ) :=
  ((adj.zipIdx.flatMap (superPairs mapping)).filter fun pair => pair.1 = place).map Prod.snd

theorem coarsen_eq (adj : AdjList) (community : List Nat) : (coarsen adj community).1 =
    ((adj.zipIdx.flatMap (superPairs (renumber community).2)).foldl addSuper
      (List.replicate (renumber community).1.keys.length ∅)).map fun row =>
        row.entries.map fun entry => (entry.1, entry.2) := by
  rw [← foldl_super]
  rfl

theorem coarsen_getD (adj : AdjList) (community : List Nat) {place : Nat}
    (inside : place < (renumber community).1.keys.length) :
    (coarsen adj community).1.getD place [] =
      (tally (pairsFrom adj (renumber community).2 place)).entries.map fun entry =>
        (entry.1, entry.2) := by
  rw [coarsen_eq]
  have empty : (List.replicate (renumber community).1.keys.length (∅ : Dict Nat ℚ)).getD place ∅ = ∅ :=
    List.getD_replicate _ inside
  have within : place < (List.replicate (renumber community).1.keys.length (∅ : Dict Nat ℚ)).length := by
    simpa using inside
  have row := getD_addSuper (adj.zipIdx.flatMap (superPairs (renumber community).2)) _ within
  rw [empty] at row
  refine (List.getD_map (f := fun row : Dict Nat ℚ => row.entries.map fun entry =>
    (entry.1, entry.2)) (d := ∅) ..).trans ?_
  rw [row]
  rfl

theorem length_coarsen (adj : AdjList) (community : List Nat) :
    (coarsen adj community).1.length = (renumber community).1.keys.length := by
  rw [coarsen_eq, List.length_map, length_addSuper, List.length_replicate]

theorem listedWeight_pairsFrom (inside : Inside adj) (mapping : List Nat) (first second : Nat) :
    listedWeight (pairsFrom adj mapping first) second =
      ∑ node ∈ range adj.length with communityOf mapping node = first,
        ∑ other ∈ range adj.length with communityOf mapping other = second,
          weightBetween adj node other := by
  rw [pairsFrom, List.filter_flatMap, List.map_flatMap, listedWeight_flatMap, sum_zipIdx _ adj [],
    sum_filter]
  apply sum_congr rfl
  intro node _
  rw [superPairs, List.filter_map, List.map_map]
  dsimp only [Function.comp_def]
  split
  · rename_i same
    change mapping.getD node 0 = first at same
    rw [List.filter_eq_self.mpr fun _ _ => decide_eq_true same,
      ← listedWeight_relabel inside (communityOf mapping)]
    rfl
  rename_i apart
  change ¬ mapping.getD node 0 = first at apart
  rw [List.filter_eq_nil_iff.mpr fun _ _ => by rwa [decide_eq_true_eq]]
  rfl

variable {community : List Nat}

theorem communityOf_renumber (length : community.length = adj.length) {node : Nat}
    (stored : node < adj.length) :
    communityOf (renumber community).2 node < (renumber community).1.keys.length := by
  obtain ⟨same, -, -, below⟩ := renumber_spec community
  have within : node < (renumber community).2.length := by omega
  rw [communityOf, List.getD_eq_getElem _ _ within]
  exact below _ (List.getElem_mem within)

/-- The weight between two communities is the weight between their nodes. -/
theorem weightBetween_coarsen (inside : Inside adj) (length : community.length = adj.length)
    (first second : Nat) : weightBetween (coarsen adj community).1 first second =
      ∑ node ∈ range adj.length with communityOf (renumber community).2 node = first,
        ∑ other ∈ range adj.length with communityOf (renumber community).2 other = second,
          weightBetween adj node other := by
  rcases lt_or_ge first (renumber community).1.keys.length with stored | beyond
  · unfold weightBetween
    rw [coarsen_getD adj community stored, listedWeight_entries, getD_tally, listedWeight_pairsFrom inside]
    rfl
  have none : (range adj.length).filter
      (fun node => communityOf (renumber community).2 node = first) = ∅ := by
    rw [filter_eq_empty_iff]
    intro node mem same
    have below := communityOf_renumber length (mem_range.mp mem)
    omega
  rw [weightBetween, List.getD_eq_default _ _ (by rwa [length_coarsen]), none]
  rfl

theorem coarsen_inside (inside : Inside adj) (length : community.length = adj.length) :
    Inside (coarsen adj community).1 := by
  intro neighbors listed entry mem
  obtain ⟨place, within, rfl⟩ := List.getElem_of_mem listed
  have stored := within
  rw [length_coarsen] at stored
  rw [← List.getD_eq_getElem _ [] within, coarsen_getD adj community stored] at mem
  obtain ⟨row, inRow, rfl⟩ := List.mem_map.mp mem
  have known : ((tally (pairsFrom adj (renumber community).2 place)).get row.1).isSome := by
    rw [(mem_entries_iff _ row.1 row.2).mp inRow]
    rfl
  obtain ⟨pair, inPairs, same⟩ := (isSome_tally _ _).mp known
  obtain ⟨superPair, inSuper, rfl⟩ := List.mem_map.mp inPairs
  obtain ⟨stored', inStored, inNode⟩ := List.mem_flatMap.mp (List.mem_of_mem_filter inSuper)
  obtain ⟨neighbor, inList, rfl⟩ := List.mem_map.mp inNode
  rw [length_coarsen, ← same]
  apply communityOf_renumber length
  exact inside _ (List.fst_mem_of_mem_zipIdx inStored) neighbor inList

theorem covers_renumber (length : community.length = adj.length) (node : Nat) (mem : node ∈ range adj.length) :
    communityOf (renumber community).2 node ∈ range (coarsen adj community).1.length := by
  rw [length_coarsen, mem_range]
  exact communityOf_renumber length (mem_range.mp mem)

theorem communityOf_renumber_iff (length : community.length = adj.length) {node other : Nat}
    (stored : node < adj.length) (stored' : other < adj.length) :
    communityOf (renumber community).2 other = communityOf (renumber community).2 node ↔
      communityOf community other = communityOf community node := by
  obtain ⟨mapped, injective⟩ := renumber_get community
  have value (node : Nat) (stored : node < adj.length) : (renumber community).1.get
      (communityOf community node) = some (communityOf (renumber community).2 node) := by
    have within : node < community.length := by omega
    have listed : communityOf community node ∈ community := by
      rw [communityOf, List.getD_eq_getElem _ _ within]
      exact List.getElem_mem within
    obtain ⟨value, found⟩ := (renumber_spec community).2.1 _ listed
    have same : communityOf (renumber community).2 node = value := by
      rw [mapped, communityOf, List.getD_eq_getElem _ _ (by simpa using within), List.getElem_map,
        ← List.getD_eq_getElem _ 0 within, ← communityOf, Dict.getD, found]
      rfl
    rw [found, same]
  constructor
  · intro same
    exact injective _ _ _ (value other stored') (same ▸ value node stored)
  intro same
  have found := value other stored'
  rw [same, value node stored] at found
  exact (Option.some.inj found).symm

/-- The coarser graph has the weights of the communities, and scores a grouping of them as the graph
scores it on the nodes. -/
theorem coarsen_scores (inside : Inside adj) (length : community.length = adj.length) :
    totalWeight (coarsen adj community).1 = totalWeight adj ∧
    (∀ node < adj.length,
      (degree (coarsen adj community).1).getD ((coarsen adj community).2.getD node 0) 0 =
        ∑ other ∈ range adj.length with communityOf community other = communityOf community node,
          (degree adj).getD other 0) ∧
    ∀ (partition : List Nat) (resolution : ℚ),
      computeModularity (coarsen adj community).1 partition resolution =
        computeModularity adj ((coarsen adj community).2.map (communityOf partition)) resolution := by
  have inside' := coarsen_inside inside length
  have covers := covers_renumber length
  have merged := weightBetween_coarsen inside length
  have total : totalWeight (coarsen adj community).1 = totalWeight adj := by
    have same := doubleWeight_merged covers merged
    rw [doubleWeight_eq inside, doubleWeight_eq inside'] at same
    linarith
  refine ⟨total, ?_, ?_⟩
  · intro node stored
    have same := groupDegree_merged covers merged (fun group => group) (communityOf (renumber community).2 node)
    rw [groupDegree, sum_filter, sum_ite_eq', if_pos (covers node (mem_range.mpr stored)),
      weightedDegree_eq inside'] at same
    refine same.trans (sum_congr (filter_congr fun other mem => ?_) fun other _ => weightedDegree_eq inside other)
    exact communityOf_renumber_iff length stored (mem_range.mp mem)
  intro partition resolution
  by_cases connected : totalWeight adj = 0
  · unfold computeModularity
    rw [if_pos connected, if_pos (total.trans connected)]
  have relabel (node : Nat) (mem : node ∈ range adj.length) :
      communityOf ((renumber community).2.map (communityOf partition)) node =
        communityOf partition (communityOf (renumber community).2 node) := by
    have within : node < (renumber community).2.length := by
      rw [(renumber_spec community).1, length]
      exact mem_range.mp mem
    unfold communityOf
    rw [List.getD_eq_getElem _ _ (by rwa [List.length_map]), List.getElem_map,
      List.getD_eq_getElem _ _ within]
  obtain ⟨score, inner⟩ := @modularity_congr _ _ _ _ _ _ (weightBetween adj) _ _ relabel resolution
  rw [computeModularity_eq _ inside' _ (by rwa [total]), computeModularity_eq _ inside _ connected, total,
    newman, modularity_merged covers merged, innerWeight_merged covers merged, ← score, ← inner]
  rfl

theorem coarsen_scores_couple : computeModularity (coarsen couple [0, 0]).1 [0] 1 =
    computeModularity couple ((coarsen couple [0, 0]).2.map (communityOf [0])) 1 :=
  (coarsen_scores (by decide) rfl).2.2 [0] 1

end Merging

section Building

variable {adj : AdjList}

/-- A link adds an entry to the list of one end. -/
def addEntry (adj : AdjList) (source target : Nat) (weight : ℚ) : AdjList :=
  adj.modify source fun neighbors => neighbors ++ [(target, weight)]

theorem weightBetween_addEntry {source : Nat} (stored : source < adj.length) (target : Nat)
    (weight : ℚ) (first second : Nat) :
    weightBetween (addEntry adj source target weight) first second =
      weightBetween adj first second + if source = first ∧ target = second then weight else 0 := by
  unfold weightBetween addEntry
  by_cases same : source = first
  · subst same
    have within : source < (adj.modify source fun neighbors => neighbors ++ [(target, weight)]).length := by
      simpa using stored
    rw [List.getD_eq_getElem _ _ within, List.getD_eq_getElem _ _ stored, List.getElem_modify_eq]
    rw [listedWeight, List.filter_append, List.map_append, List.sum_append]
    congr 1
    change listedWeight [(target, weight)] second = _
    rw [listedWeight_cons]
    simp [listedWeight]
  · rw [List.getD_eq_getElem?_getD, List.getElem?_modify_ne _ _ same, ← List.getD_eq_getElem?_getD,
      if_neg fun both => same both.1, add_zero]

variable (read : EdgeData → ℚ) (positions : List Nat)

/-- A link is left out or listed from both ends. -/
theorem addLink_cases (adj : AdjList) (link : Link EdgeData) : addLink positions read adj link = adj ∨
      addLink positions read adj link =
        addEntry (addEntry adj (positions.idxOf link.source) (positions.idxOf link.target)
          (read link.weight)) (positions.idxOf link.target) (positions.idxOf link.source)
            (read link.weight) := by
  unfold addLink
  split
  · dsimp only
    split
    · exact .inl rfl
    · exact .inr rfl
  · dsimp only
    split
    · exact .inl rfl
    · exact .inr rfl
  · exact .inl rfl

/-- The list has one entry for each position, and each edge is listed from both ends. -/
structure Built (positions : List Nat) (adj : AdjList) : Prop where
  length : adj.length = positions.length
  undirected : Undirected adj
  inside : Inside adj

variable {positions}

theorem Inside.addEntry (inside : Inside adj) (source : Nat) {target : Nat}
    (stored : target < adj.length) (weight : ℚ) : Inside (addEntry adj source target weight) := by
  intro neighbors listed entry mem
  unfold Communities.addEntry at listed ⊢
  rw [List.length_modify]
  obtain ⟨place, within, rfl⟩ := List.getElem_of_mem listed
  rw [List.getElem_modify] at mem
  split at mem
  · rcases List.mem_append.mp mem with old | new
    · exact inside _ (List.getElem_mem _) entry old
    · rwa [List.mem_singleton.mp new]
  · exact inside _ (List.getElem_mem _) entry mem

theorem Built.addLink (built : Built positions adj) (link : Link EdgeData)
    (source : link.source ∈ positions) (target : link.target ∈ positions) :
    Built positions (addLink positions read adj link) := by
  have first : positions.idxOf link.source < adj.length := by
    rw [built.length]
    exact List.idxOf_lt_length_of_mem source
  have second : positions.idxOf link.target < adj.length := by
    rw [built.length]
    exact List.idxOf_lt_length_of_mem target
  have length (adj : AdjList) (source target : Nat) (weight : ℚ) :
      (addEntry adj source target weight).length = adj.length := List.length_modify ..
  rcases addLink_cases read positions adj link with same | added
  · rwa [same]
  rw [added]
  refine ⟨?_, ?_, ?_⟩
  · rw [length, length, built.length]
  · intro one other
    rw [weightBetween_addEntry (by rwa [length]), weightBetween_addEntry first,
      weightBetween_addEntry (by rwa [length]), weightBetween_addEntry first,
      built.undirected one other]
    simp only [and_comm]
    ring
  · exact (built.inside.addEntry _ second _).addEntry _ (by rwa [length]) _

/-- The graph of the calls lists each edge from both ends. -/
theorem buildAdjacency_built (code : CodeGraph) : Built code.graph.slots (buildAdjacency read code).1 := by
  have stored (slot : Nat) (known : (code.graph.nodes.get slot).isSome) : slot ∈ code.graph.slots :=
    (code.graph.mem_slots slot).mpr known
  have empty (first second : Nat) : weightBetween (code.graph.slots.map fun _ => []) first second = 0 := by
    rw [weightBetween, List.map_const', List.getD_eq_getElem?_getD, List.getElem?_getD_replicate_default_eq]
    rfl
  apply List.foldlRecOn code.graph.links
  · refine ⟨List.length_map _, ?_, ?_⟩
    · intro first second
      rw [empty, empty]
    intro neighbors listed entry mem
    obtain ⟨-, -, rfl⟩ := List.mem_map.mp listed
    exact absurd mem List.not_mem_nil
  intro adj built link listed
  exact built.addLink read link (stored _ (code.graph.wired link listed).1)
    (stored _ (code.graph.wired link listed).2)

end Building

end Codegraph.Communities
