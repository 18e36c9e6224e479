import Codegraph.Communities.Coarsening
import Codegraph.Graph.Replay

namespace Codegraph.Communities

open Library

/-- A grouping of a merged graph has the score that it has on the nodes. -/
theorem computeModularity_merged {fine coarse : AdjList} {owner : Nat → Nat} (inside : Inside fine)
    (inside' : Inside coarse)
    (covers : ∀ node ∈ Finset.range fine.length, owner node ∈ Finset.range coarse.length)
    (merged : ∀ first second, weightBetween coarse first second =
      ∑ node ∈ Finset.range fine.length with owner node = first,
        ∑ other ∈ Finset.range fine.length with owner other = second, weightBetween fine node other)
    (partition : List Nat) (resolution : ℚ) : computeModularity coarse partition resolution =
      computeModularity fine ((List.range fine.length).map fun node => communityOf partition (owner node))
        resolution := by
  have total : totalWeight coarse = totalWeight fine := by
    have same := doubleWeight_merged covers merged
    rw [doubleWeight_eq inside, doubleWeight_eq inside'] at same
    linarith
  by_cases connected : totalWeight fine = 0
  · unfold computeModularity
    rw [if_pos connected, if_pos (total.trans connected)]
  have relabel (node : Nat) (mem : node ∈ Finset.range fine.length) :
      communityOf ((List.range fine.length).map fun node => communityOf partition (owner node)) node =
        communityOf partition (owner node) := by
    rw [Finset.mem_range] at mem
    rw [communityOf, List.getD_eq_getElem _ _ (by simpa using mem), List.getElem_map, List.getElem_range]
  obtain ⟨score, inner⟩ := @modularity_congr _ _ _ _ _ _ (weightBetween fine) _ _ relabel resolution
  rw [computeModularity_eq _ inside' _ (by rwa [total]), computeModularity_eq _ inside _ connected, total,
    newman, modularity_merged covers merged, innerWeight_merged covers merged, newman, score, inner]

section Owners

variable {count : Nat} {toOrig : List (List Nat)} {owner : Nat → Nat}

/-- Each original node is listed by the node that stands for it, and by no other. -/
def Owns (count : Nat) (toOrig : List (List Nat)) (owner : Nat → Nat) : Prop :=
  ∀ node place, (∃ nodes ∈ toOrig[place]?, node ∈ nodes) ↔ node < count ∧ owner node = place

theorem communityOf_foldl_set {pairs : List (Nat × Nat)} {community : List Nat} {node label : Nat}
    (inside : node < community.length) (same : ∀ pair ∈ pairs, pair.1 = node → pair.2 = label)
    (written : (∃ pair ∈ pairs, pair.1 = node) ∨ communityOf community node = label) :
    communityOf (pairs.foldl (fun community pair => community.set pair.1 pair.2) community) node = label := by
  induction pairs generalizing community with
  | nil => simpa using written
  | cons pair pairs ih =>
    refine ih (by simpa using inside) (fun other mem => same other (List.mem_cons_of_mem _ mem)) ?_
    have first := same pair List.mem_cons_self
    unfold communityOf at written ⊢
    rw [List.getD_eq_getElem _ _ (by simpa using inside), List.getElem_set]
    split
    · rename_i here
      exact .inr (first here)
    rename_i apart
    rw [List.getD_eq_getElem _ _ inside] at written
    simpa [apart] using written

/-- Each node gets the community of the node that stands for it. -/
theorem Owns.spread_eq (owns : Owns count toOrig owner) (levelComm : List Nat) :
    spread count toOrig levelComm = (List.range count).map fun node => communityOf levelComm (owner node) := by
  have flat : spread count toOrig levelComm = (toOrig.zipIdx.flatMap fun entry =>
      entry.1.map fun node => (node, communityOf levelComm entry.2)).foldl
        (fun community pair => community.set pair.1 pair.2) (List.replicate count 0) := by
    rw [List.foldl_flatMap]
    simp only [List.foldl_map]
    rfl
  have length (pairs : List (Nat × Nat)) (community : List Nat) :
      (pairs.foldl (fun community pair => community.set pair.1 pair.2) community).length = community.length := by
    induction pairs generalizing community with
    | nil => rfl
    | cons pair pairs ih => rw [List.foldl_cons, ih, List.length_set]
  rw [flat]
  refine List.ext_getElem (by simp [length]) fun node stored within => ?_
  have inside : node < count := by simpa using within
  rw [List.getElem_map, List.getElem_range, ← List.getD_eq_getElem _ 0 stored]
  apply communityOf_foldl_set (by simpa using inside)
  · intro pair mem same
    obtain ⟨entry, placed, inEntry⟩ := List.mem_flatMap.mp mem
    obtain ⟨other, listed, rfl⟩ := List.mem_map.mp inEntry
    obtain rfl : other = node := same
    rw [((owns other entry.2).mp ⟨_, List.mem_zipIdx_iff_getElem?.mp placed, listed⟩).2]
  · obtain ⟨nodes, placed, listed⟩ := (owns node _).mpr ⟨inside, rfl⟩
    exact .inl ⟨_, List.mem_flatMap.mpr
      ⟨_, List.mk_mem_zipIdx_iff_getElem?.mpr placed, List.mem_map_of_mem listed⟩, rfl⟩

theorem mem_foldl_modify (target : Nat → Nat) (entries : List (List Nat × Nat)) (merged : List (List Nat))
    (node place : Nat) : (∃ nodes ∈ (entries.foldl (fun merged entry =>
        merged.modify (target entry.2) (· ++ entry.1)) merged)[place]?, node ∈ nodes) ↔
      ∃ nodes ∈ merged[place]?, node ∈ nodes ∨ ∃ entry ∈ entries, target entry.2 = place ∧ node ∈ entry.1 := by
  induction entries generalizing merged with
  | nil => simp
  | cons entry entries ih =>
    rw [List.foldl_cons, ih, List.getElem?_modify]
    by_cases here : target entry.2 = place
    · simp [here, or_assoc]
    · simp [here]

theorem Owns.merge (owns : Owns count toOrig owner) {mapping : List Nat} {groups : Nat}
    (below : ∀ node < count, communityOf mapping (owner node) < groups) :
    Owns count (mergeOrig toOrig mapping groups) fun node => communityOf mapping (owner node) := by
  intro node place
  refine (mem_foldl_modify (communityOf mapping) toOrig.zipIdx (List.replicate groups []) node place).trans ?_
  have listed : (∃ entry ∈ toOrig.zipIdx, communityOf mapping entry.2 = place ∧ node ∈ entry.1) ↔
      node < count ∧ communityOf mapping (owner node) = place := by
    constructor
    · rintro ⟨entry, placed, rfl, mem⟩
      obtain ⟨inside, same⟩ := (owns node entry.2).mp ⟨_, List.mem_zipIdx_iff_getElem?.mp placed, mem⟩
      exact ⟨inside, congrArg _ same⟩
    · rintro ⟨inside, rfl⟩
      obtain ⟨nodes, placed, mem⟩ := (owns node _).mpr ⟨inside, rfl⟩
      exact ⟨_, List.mk_mem_zipIdx_iff_getElem?.mpr placed, rfl, mem⟩
  rw [listed, List.getElem?_replicate]
  constructor
  · rintro ⟨nodes, placed, empty | mem⟩
    · cases (Option.ite_none_right_eq_some.mp placed).2
      exact absurd empty List.not_mem_nil
    · exact mem
  · rintro ⟨inside, rfl⟩
    exact ⟨[], if_pos (below node inside), .inr ⟨inside, rfl⟩⟩

end Owners

section Run

variable {adj : AdjList} {resolution : ℚ} {seed : UInt64} {level : Level}

theorem length_localMoves (adj : AdjList) (community : List Nat) (resolution : ℚ) (seed : UInt64) :
    (localMoves adj community resolution seed).1.length = community.length := by
  have visited (state : MoveState) (node : Nat) :
      (state.visit adj resolution node).community.length = state.community.length := by
    unfold MoveState.visit
    dsimp only
    split
    · exact List.length_set ..
    · rfl
  have passed (order : List Nat) (state : MoveState) :
      (order.foldl (fun state node => state.visit adj resolution node) state).community.length =
        state.community.length := by
    induction order generalizing state with
    | nil => rfl
    | cons node order ih => exact (ih _).trans (visited state node)
  have moved (order : List Nat) (passes : Nat) (state : MoveState) :
      (movePasses adj resolution order passes state).1.community.length = state.community.length := by
    induction passes generalizing state with
    | zero => rfl
    | succ passes ih =>
      unfold movePasses
      dsimp only
      split
      · exact (ih _).trans (passed order _)
      · exact passed order _
  unfold localMoves
  split
  · rfl
  · exact moved ..

/-- The levels of a run. Each one that is improved and reduced leads to the next one. -/
inductive Reached (adj : AdjList) (resolution : ℚ) (seed : UInt64) : Level → Prop where
  | start : Reached adj resolution seed
      ⟨List.range adj.length, adj, (List.range adj.length).map fun node => [node]⟩
  | coarser {level : Level} {levelComm : List Nat} (reached : Reached adj resolution seed level)
      (improved : localMoves level.adj (List.range level.adj.length) resolution seed = (levelComm, true))
      (smaller : (coarsen level.adj levelComm).1.length < level.adj.length) :
      Reached adj resolution seed ⟨spread adj.length level.toOrig levelComm, (coarsen level.adj levelComm).1,
        mergeOrig level.toOrig (coarsen level.adj levelComm).2 (coarsen level.adj levelComm).1.length⟩

/-- The nodes of a level stand for groups of nodes, with the weights between the groups. -/
structure Stands (adj : AdjList) (level : Level) (owner : Nat → Nat) : Prop where
  owns : Owns adj.length level.toOrig owner
  inside : Inside level.adj
  covers : ∀ node ∈ Finset.range adj.length, owner node ∈ Finset.range level.adj.length
  merged : ∀ first second, weightBetween level.adj first second =
    ∑ node ∈ Finset.range adj.length with owner node = first,
      ∑ other ∈ Finset.range adj.length with owner other = second, weightBetween adj node other

theorem Reached.stands (inside : Inside adj) (reached : Reached adj resolution seed level) :
    ∃ owner, Stands adj level owner := by
  induction reached with
  | start =>
    refine ⟨id, fun node place => ?_, inside, fun _ => id, fun first second => ?_⟩
    · rw [List.getElem?_map]
      constructor
      · rintro ⟨nodes, placed, mem⟩
        obtain ⟨node, found, rfl⟩ := Option.map_eq_some_iff.mp placed
        obtain ⟨stored, rfl⟩ := List.getElem?_eq_some_iff.mp found
        rw [List.length_range] at stored
        rw [List.getElem_range, List.mem_singleton] at mem
        exact ⟨mem ▸ stored, mem⟩
      · rintro ⟨inside, rfl⟩
        exact ⟨[node], by simp [inside], List.mem_singleton_self _⟩
    · simp only [id_eq, Finset.sum_filter, Finset.sum_ite_eq', Finset.mem_range]
      split_ifs
      · rfl
      · rename_i beyond
        exact listedWeight_eq_zero fun entry mem same =>
          beyond (same ▸ Finset.mem_range.mp (inside.mem_range first entry mem))
      · rename_i beyond
        rw [weightBetween, List.getD_eq_default _ _ (Nat.le_of_not_lt beyond)]
        rfl
  | @coarser level levelComm reached improved smaller ih =>
    obtain ⟨owner, owns, inside', covers, merged⟩ := ih
    have length : levelComm.length = level.adj.length := by
      have kept := length_localMoves level.adj (List.range level.adj.length) resolution seed
      rwa [improved, List.length_range] at kept
    have covers' (node : Nat) (mem : node ∈ Finset.range adj.length) :=
      covers_renumber length _ (covers node mem)
    exact ⟨_, owns.merge fun node stored => Finset.mem_range.mp (covers' node (Finset.mem_range.mpr stored)),
      coarsen_inside inside' length, covers', fun first second =>
        (weightBetween_coarsen inside' length first second).trans (merged_trans covers merged _ first second)⟩

/-- Each level of a run has an undirected graph of groups of nodes, and scores a grouping of them as the first
graph scores it on the nodes. -/
theorem Reached.scores {positions : List Nat} (built : Built positions adj)
    (reached : Reached adj resolution seed level) :
    Undirected level.adj ∧ Inside level.adj ∧
      (∃ owner, Owns adj.length level.toOrig owner ∧ ∀ node < adj.length, owner node < level.adj.length) ∧
      ∀ (partition : List Nat) (resolution : ℚ), computeModularity level.adj partition resolution =
        computeModularity adj (spread adj.length level.toOrig partition) resolution := by
  obtain ⟨owner, owns, inside, covers, merged⟩ := reached.stands built.inside
  refine ⟨fun first second => ?_, inside, ⟨owner, owns, fun node stored =>
    Finset.mem_range.mp (covers node (Finset.mem_range.mpr stored))⟩, fun partition resolution => ?_⟩
  · rw [merged, merged, Finset.sum_comm]
    exact Finset.sum_congr rfl fun other _ => Finset.sum_congr rfl fun node _ => built.undirected node other
  · rw [owns.spread_eq]
    exact computeModularity_merged built.inside inside covers merged partition resolution

/-- The first level merges the two nodes. -/
theorem Reached.scores_couple : computeModularity (coarsen couple [0, 0]).1 [0] 1 =
    computeModularity couple (spread 2 [[0, 1]] [0]) 1 := by
  have built : Built [0, 1] couple := ⟨rfl, couple_undirected, by decide⟩
  have improved : localMoves couple (List.range couple.length) 1 0 = ([0, 0], true) := by decide +kernel
  have smaller : (coarsen couple [0, 0]).1.length < couple.length := by decide +kernel
  exact (Reached.scores built (.coarser .start improved smaller)).2.2.2 [0] 1

end Run

section Partition

variable {count : Nat}

theorem renumber_onto (community : List Nat) {value : Nat}
    (below : value < (renumber community).1.keys.length) : value ∈ (renumber community).2 := by
  induction community using List.reverseRecOn with
  | nil => exact absurd below (Nat.not_lt_zero _)
  | append_singleton community label ih =>
    unfold renumber at ih below ⊢
    rw [List.foldl_append, List.foldl_cons, List.foldl_nil] at below ⊢
    revert ih below
    generalize community.foldl _ _ = state
    obtain ⟨labels, mapping⟩ := state
    dsimp only
    intro ih below
    rw [List.mem_append, List.mem_singleton]
    by_cases old : (labels.get label).isSome
    · rw [if_pos old] at below
      exact .inl (ih below)
    have absent : label ∉ labels := by rwa [← AList.lookup_isSome]
    rw [if_neg old, Dict.set, AList.keys_insert, List.length_cons,
      List.erase_of_not_mem fun mem => absent (AList.mem_keys.mpr mem)] at below
    rcases Nat.lt_succ_iff_lt_or_eq.mp below with older | rfl
    · exact .inl (ih older)
    · right
      rw [if_neg old, Dict.getD_set, if_pos rfl]

theorem length_spread (toOrig : List (List Nat)) (levelComm : List Nat) :
    (spread count toOrig levelComm).length = count :=
  List.foldlRecOn (motive := fun community : List Nat => community.length = count) _ _ List.length_replicate
    fun _ same _ _ => List.foldlRecOn (motive := fun community : List Nat => community.length = count) _ _ same
      fun _ same _ _ => List.length_set.trans same

theorem length_levels (resolution : ℚ) (seed : UInt64) (left : Nat) (level : Level)
    (length : level.community.length = count) : (levels count resolution seed left level).length = count := by
  induction left generalizing level with
  | zero => exact length
  | succ left ih =>
    unfold levels
    dsimp only
    split
    · split
      · exact length_spread ..
      · exact ih _ (length_spread ..)
    · exact length

theorem louvain_zip (read : EdgeData → ℚ) (code : CodeGraph) (resolution : ℚ) (seed : UInt64) :
    ∃ community : List Nat, community.length = code.graph.slots.length ∧
      (louvain read code resolution seed).assignments =
        (code.graph.slots.filterMap code.nodeIdFor).zip community ∧
      ∀ label, label ∈ community ↔ label < (louvain read code resolution seed).communityCount := by
  have built := (@buildAdjacency_built read code).length
  unfold louvain
  dsimp only
  split
  · rename_i empty
    exact ⟨[], by rw [← built, empty]; rfl, List.zip_nil_right.symm, by simp⟩
  obtain ⟨length, -, -, below⟩ := renumber_spec (levels (buildAdjacency read code).1.length resolution seed maxLevels
    ⟨_, _, (List.range (buildAdjacency read code).1.length).map fun node => [node]⟩)
  exact ⟨_, length.trans ((length_levels _ _ _ _ List.length_range).trans built), rfl,
    fun label => ⟨below label, renumber_onto _⟩⟩

/-- A node gets the label that has the place of its slot. -/
theorem mem_assignments (read : EdgeData → ℚ) (code : CodeGraph) (resolution : ℚ) (seed : UInt64) :
    ∃ community : List Nat, community.length = code.graph.slots.length ∧
      (∀ id label, (id, label) ∈ (louvain read code resolution seed).assignments ↔
        ∃ (place slot : Nat) (data : NodeData), code.graph.slots[place]? = some slot ∧
          code.graph.node slot = some data ∧ data.id = id ∧ community[place]? = some label) ∧
      ∀ label, label ∈ community ↔ label < (louvain read code resolution seed).communityCount := by
  obtain ⟨community, length, assigned, numbered⟩ := louvain_zip read code resolution seed
  refine ⟨community, length, fun id label => ?_, numbered⟩
  let name := fun slot => (code.nodeIdFor slot).getD ⟨0⟩
  have ids : ∀ slot ∈ code.graph.slots, code.nodeIdFor slot = some (name slot) := by
    intro slot stored
    obtain ⟨data, found⟩ := Option.isSome_iff_exists.mp ((code.graph.mem_slots slot).mp stored)
    simp [name, CodeGraph.nodeIdFor, found]
  rw [assigned, List.filterMap_congr ids, List.filterMap_eq_map', List.mem_iff_getElem?]
  simp only [List.getElem?_zip_eq_some, List.getElem?_map, Option.map_eq_some_iff]
  constructor
  · rintro ⟨place, ⟨slot, there, rfl⟩, given⟩
    obtain ⟨data, found, named⟩ := Option.map_eq_some_iff.mp (ids slot (List.mem_of_getElem? there))
    exact ⟨place, slot, data, there, found, named, given⟩
  · rintro ⟨place, slot, data, there, found, rfl, given⟩
    exact ⟨place, ⟨slot, there, by simp [name, CodeGraph.nodeIdFor, found]⟩, given⟩

/-- Each known node is in one community, and the communities are numbered without a gap. -/
theorem louvain_partitions {ParsedFile : Type} (read : EdgeData → ℚ) (policy : SlotPolicy)
    (operations : List (CodeGraph.Operation ParsedFile)) (resolution : ℚ) (seed : UInt64) :
    let code := CodeGraph.run policy operations
    let result := louvain read code resolution seed
    (∀ id, (code.getNode id).isSome ↔ ∃! label, (id, label) ∈ result.assignments) ∧
      ∀ label, (∃ id, (id, label) ∈ result.assignments) ↔ label < result.communityCount := by
  intro code
  have consistent : code.Consistent := CodeGraph.run_consistent policy operations
  obtain ⟨community, length, assigns, numbered⟩ := mem_assignments read code resolution seed
  refine ⟨fun id => ⟨fun known => ?_, ?_⟩, fun label => ?_⟩
  · obtain ⟨data, found⟩ := Option.isSome_iff_exists.mp known
    obtain ⟨slot, stored, rfl⟩ := (CodeGraph.getNode_eq_some consistent id data).mp found
    obtain ⟨place, inside, rfl⟩ := List.getElem_of_mem
      ((code.graph.mem_slots slot).mpr (Option.isSome_iff_exists.mpr ⟨data, stored⟩))
    have here := List.getElem?_eq_getElem inside
    refine ⟨community[place],
      (assigns _ _).mpr ⟨place, _, data, here, stored, rfl, List.getElem?_eq_getElem _⟩, fun label same => ?_⟩
    obtain ⟨other, slot, data', there, stored', same, given⟩ := (assigns _ _).mp same
    rw [(consistent.unique stored' stored same).1] at there
    obtain rfl := (List.getElem?_inj inside code.graph.slots_nodup).mp (here.trans there.symm)
    exact (Option.some.inj ((List.getElem?_eq_getElem _).symm.trans given)).symm
  · rintro ⟨label, mem, -⟩
    obtain ⟨_, slot, data, -, stored, named, -⟩ := (assigns id label).mp mem
    exact Option.isSome_iff_exists.mpr
      ⟨data, (CodeGraph.getNode_eq_some consistent id data).mpr ⟨slot, stored, named⟩⟩
  · rw [← numbered]
    constructor
    · rintro ⟨id, mem⟩
      obtain ⟨place, _, _, -, -, -, given⟩ := (assigns id label).mp mem
      exact List.mem_of_getElem? given
    · intro mem
      obtain ⟨place, inside, rfl⟩ := List.getElem_of_mem mem
      have stored := List.getElem_mem (length ▸ inside)
      obtain ⟨data, found⟩ := Option.isSome_iff_exists.mp ((code.graph.mem_slots _).mp stored)
      exact ⟨data.id, (assigns _ _).mpr
        ⟨place, _, data, List.getElem?_eq_getElem _, found, rfl, List.getElem?_eq_getElem inside⟩⟩

end Partition

end Codegraph.Communities
