import Codegraph.Communities.Modularity

namespace Codegraph.Communities

open Library Finset Function MoveState

theorem swap_perm (slice : List Nat) {first second : Nat} (inside : first < slice.length)
    (inside' : second < slice.length) : (swap slice first second).Perm slice := by
  rw [swap, List.getD_eq_getElem _ _ inside, List.getD_eq_getElem _ _ inside']
  exact List.set_set_perm inside inside'

theorem shuffleFrom_perm (last : Nat) (state : UInt64) (slice : List Nat)
    (inside : last < slice.length ∨ last = 0) : (shuffleFrom last state slice).Perm slice := by
  induction last generalizing state slice with
  | zero => exact .refl _
  | succ last ih =>
    have stored : last + 1 < slice.length := by omega
    have drawn : (nextRandom state >>> 33).toNat % (last + 2) < slice.length :=
      lt_of_lt_of_le (Nat.mod_lt _ (by omega)) stored
    have swapped := swap_perm slice stored drawn
    refine (ih _ _ (.inl ?_)).trans swapped
    rw [swapped.length_eq]
    omega

theorem mem_visitOrder (adj : AdjList) (seed : UInt64) (node : Nat) :
    node ∈ visitOrder adj seed ↔ node < adj.length := by
  rw [visitOrder, shuffleWithSeed, (shuffleFrom_perm _ _ _ (by omega)).mem_iff, List.mem_range]

namespace MoveState

/-- The running totals are the degrees of the communities. -/
structure Tracks (adj : AdjList) (state : MoveState) : Prop where
  length : state.community.length = adj.length
  labelled : ∀ node < adj.length, communityOf state.community node < state.sigmaTot.length
  totals : ∀ label < state.sigmaTot.length, state.sigmaTot.getD label 0 =
    groupDegree (range adj.length) (weightBetween adj) (communityOf state.community) label

end MoveState

theorem getD_modify (totals : List ℚ) (place label : Nat) (change : ℚ → ℚ)
    (inside : label < totals.length) : (totals.modify place change).getD label 0 =
      if place = label then change (totals.getD label 0) else totals.getD label 0 := by
  rw [List.getD_eq_getElem _ _ (by simpa using inside), List.getElem_modify,
    List.getD_eq_getElem _ _ inside]

theorem communityOf_set (community : List Nat) {node : Nat} (inside : node < community.length)
    (target : Nat) :
    communityOf (community.set node target) = Function.update (communityOf community) node target := by
  funext other
  unfold communityOf
  by_cases same : other = node
  · rw [same, update_self, List.getD_eq_getElem _ _ (by simpa using inside), List.getElem_set_self]
  · rw [update_of_ne same, List.getD_eq_getElem?_getD, List.getD_eq_getElem?_getD,
      List.getElem?_set_ne (Ne.symm same)]

/-- The totals start as the degrees of the communities. -/
theorem getD_sigmaTot (adj : AdjList) (entries : List (Nat × Nat)) (totals : List ℚ) (label : Nat)
    (inside : label < totals.length) :
    (entries.foldl (fun sigmaTot entry =>
      sigmaTot.modify entry.1 (· + (degree adj).getD entry.2 0)) totals).getD label 0 =
        totals.getD label 0 +
          (entries.map fun entry => if entry.1 = label then (degree adj).getD entry.2 0 else 0).sum := by
  induction entries generalizing totals with
  | nil => exact (add_zero _).symm
  | cons entry entries ih =>
    rw [List.foldl_cons, ih _ (by simpa using inside), getD_modify _ _ _ _ inside,
      List.map_cons, List.sum_cons]
    split
    · ring
    · ring

theorem length_sigmaTot (adj : AdjList) (entries : List (Nat × Nat)) (totals : List ℚ) :
    (entries.foldl (fun sigmaTot entry =>
      sigmaTot.modify entry.1 (· + (degree adj).getD entry.2 0)) totals).length = totals.length := by
  induction entries generalizing totals with
  | nil => rfl
  | cons entry entries ih => rw [List.foldl_cons, ih, List.length_modify]

variable {adj : AdjList}

theorem start_tracks (inside : Inside adj) (community : List Nat) (length : community.length = adj.length) :
    (⟨community, sigmaTotOf adj community, false⟩ : MoveState).Tracks adj where
  length := length
  labelled node stored := by
    rw [sigmaTotOf, communityOf, length_sigmaTot, List.length_replicate,
      List.getD_eq_getElem _ _ (length ▸ stored)]
    exact Nat.lt_succ_of_le (List.le_max?_getD_of_mem (List.getElem_mem _))
  totals label within := by
    unfold sigmaTotOf at within ⊢
    rw [length_sigmaTot] at within
    have nothing : (List.replicate (community.max?.getD 0 + 1) (0 : ℚ)).getD label 0 = 0 :=
      List.getD_replicate 0 (by simpa using within)
    rw [getD_sigmaTot _ _ _ _ within, nothing, zero_add,
      sum_zipIdx _ community 0, length, groupDegree, sum_filter]
    apply sum_congr rfl
    intro node _
    rw [weightedDegree_eq inside]
    rfl

namespace MoveState

variable {state : MoveState} {node : Nat}

theorem commWeights_eq (adj : AdjList) (state : MoveState) (node : Nat) :
    state.commWeights adj node = tally ((adj.getD node []).map fun entry =>
      (communityOf state.community entry.1, entry.2)) := by
  rw [tally, List.foldl_map]
  rfl

theorem getD_commWeights (inside : Inside adj) (state : MoveState) (node label : Nat) :
    (state.commWeights adj node).getD label 0 =
      ∑ other ∈ range adj.length with communityOf state.community other = label,
        weightBetween adj node other := by
  rw [commWeights_eq, getD_tally, listedWeight_relabel inside]

theorem mem_candidates (state : MoveState) (node label : Nat) (weight : ℚ) :
    (label, weight) ∈ state.candidates adj node ↔ (state.commWeights adj node).get label = some weight := by
  rw [candidates, (List.perm_insertionSort _ _).mem_iff, List.mem_map, ← Dict.mem_entries_iff]
  constructor
  · rintro ⟨entry, listed, same⟩
    obtain ⟨rfl, rfl⟩ := Prod.mk.inj same
    exact listed
  · intro listed
    exact ⟨_, listed, rfl⟩

/-- The communities of the neighbours are the candidates. -/
theorem candidate_of_neighbor (state : MoveState) {entry : Nat × ℚ} (mem : entry ∈ adj.getD node []) :
    ∃ weight, (communityOf state.community entry.1, weight) ∈ state.candidates adj node := by
  have known : ((state.commWeights adj node).get (communityOf state.community entry.1)).isSome := by
    rw [commWeights_eq, isSome_tally]
    exact ⟨_, List.mem_map_of_mem mem, rfl⟩
  obtain ⟨weight, found⟩ := Option.isSome_iff_exists.mp known
  exact ⟨weight, (mem_candidates state node _ weight).mpr found⟩

/-- The candidates are communities of nodes. -/
theorem neighbor_of_candidate (inside : Inside adj) {candidate : Nat × ℚ}
    (mem : candidate ∈ state.candidates adj node) :
    ∃ other < adj.length, communityOf state.community other = candidate.1 := by
  have found := (mem_candidates state node candidate.1 candidate.2).mp mem
  have known : ((state.commWeights adj node).get candidate.1).isSome := by rw [found]; rfl
  rw [commWeights_eq, isSome_tally] at known
  obtain ⟨pair, listed, same⟩ := known
  obtain ⟨entry, stored, rfl⟩ := List.mem_map.mp listed
  exact ⟨entry.1, mem_range.mp (inside.mem_range node entry stored), same⟩

theorem gain_eq (undirected : Undirected adj) (inside : Inside adj) (tracks : state.Tracks adj)
    (connected : totalWeight adj ≠ 0) (stored : node < adj.length) (resolution : ℚ)
    {candidate : Nat × ℚ} (mem : candidate ∈ state.candidates adj node)
    (other : candidate.1 ≠ state.nodeComm node) :
    state.gain adj resolution node candidate =
      newman adj resolution (state.community.set node candidate.1) -
        newman adj resolution state.community - weightBetween adj node node / totalWeight adj := by
  have listed := mem_range.mpr stored
  have weight : candidate.2 = attachment (range adj.length) (weightBetween adj)
      (communityOf state.community) node candidate.1 := by
    have found := (mem_candidates state node candidate.1 candidate.2).mp mem
    have total := getD_commWeights inside state node candidate.1
    rw [Dict.getD, found, Option.getD_some] at total
    rw [total, attachment, filter_erase, erase_eq_of_notMem]
    exact fun here => other (mem_filter.mp here).2.symm
  have own : (state.commWeights adj node).getD (state.nodeComm node) 0 =
      weightBetween adj node node + attachment (range adj.length) (weightBetween adj)
        (communityOf state.community) node (communityOf state.community node) := by
    rw [getD_commWeights inside, attachment, filter_erase]
    have here : node ∈ (range adj.length).filter fun other =>
        communityOf state.community other = communityOf state.community node :=
      mem_filter.mpr ⟨listed, rfl⟩
    exact (add_sum_erase _ (weightBetween adj node) here).symm
  obtain ⟨neighbor, stored', same⟩ := neighbor_of_candidate inside mem
  have total := tracks.totals candidate.1 (same ▸ tracks.labelled neighbor stored')
  have total' := tracks.totals (state.nodeComm node) (tracks.labelled node stored)
  have apart : candidate.1 ≠ communityOf state.community node := other
  have length := tracks.length ▸ stored
  unfold newman
  rw [communityOf_set _ length, modularity_move undirected listed apart]
  unfold gain insertGain removeCost
  rw [own, weight, total, total', weightedDegree_eq inside, doubleWeight_eq inside]
  change _ - (_ - resolution * (groupDegree _ _ _ (communityOf state.community node) - _) * _ / _) = _
  field_simp
  ring

/-- The totals follow a move. -/
theorem Tracks.moveTo (inside : Inside adj) (tracks : state.Tracks adj) (stored : node < adj.length)
    {target : Nat} (known : target < state.sigmaTot.length) :
    (state.moveTo adj node target).Tracks adj := by
  have length := tracks.length ▸ stored
  refine ⟨?_, ?_, ?_⟩
  · change (state.community.set node target).length = _
    rw [List.length_set, tracks.length]
  · intro other stored'
    change communityOf (state.community.set node target) other < List.length (List.modify _ _ _)
    rw [List.length_modify, List.length_modify, communityOf_set _ length]
    by_cases same : other = node
    · rwa [same, update_self]
    · rw [update_of_ne same]
      exact tracks.labelled other stored'
  intro label within
  change label < List.length (List.modify _ _ _) at within
  rw [List.length_modify, List.length_modify] at within
  change (List.modify (List.modify _ _ _) _ _).getD label 0 =
    groupDegree _ _ (communityOf (state.community.set node target)) label
  rw [getD_modify _ _ _ _ (by rwa [List.length_modify]), getD_modify _ _ _ _ within,
    communityOf_set _ length, groupDegree_update (mem_range.mpr stored), tracks.totals label within,
    weightedDegree_eq inside]
  change (if _ then (if communityOf state.community node = label then _ else _) + _ else
    if communityOf state.community node = label then _ else _) = _
  split_ifs
  · ring
  · ring
  · ring
  · ring

/-- The best gain is not negative, belongs to the best community and is the largest. -/
structure Best (adj : AdjList) (resolution : ℚ) (state : MoveState) (node : Nat)
    (candidates : List (Nat × ℚ)) (best : ℚ × Nat) : Prop where
  nonneg : 0 ≤ best.1
  reached : best = (0, state.nodeComm node) ∨ ∃ candidate ∈ candidates,
    candidate.1 ≠ state.nodeComm node ∧ best = (state.gain adj resolution node candidate, candidate.1)
  largest : ∀ candidate ∈ candidates, candidate.1 ≠ state.nodeComm node →
    state.gain adj resolution node candidate ≤ best.1

variable (resolution : ℚ)

theorem best_better (candidates : List (Nat × ℚ)) : Best adj resolution state node candidates
    (candidates.foldl (state.better adj resolution node) (0, state.nodeComm node)) := by
  induction candidates using List.reverseRecOn with
  | nil => exact ⟨le_refl 0, .inl rfl, by simp⟩
  | append_singleton candidates candidate ih =>
    rw [List.foldl_append, List.foldl_cons, List.foldl_nil]
    revert ih
    generalize candidates.foldl (state.better adj resolution node) _ = best
    intro ih
    have kept (keeps : candidate.1 ≠ state.nodeComm node →
        state.gain adj resolution node candidate ≤ best.1) :
        Best adj resolution state node (candidates ++ [candidate]) best := by
      refine ⟨ih.nonneg, ?_, ?_⟩
      · apply ih.reached.imp id
        rintro ⟨other, listed, found⟩
        exact ⟨other, List.mem_append_left _ listed, found⟩
      intro other listed apart
      rcases List.mem_append.mp listed with old | new
      · exact ih.largest other old apart
      · rw [List.mem_singleton.mp new] at apart ⊢
        exact keeps apart
    unfold better
    dsimp only
    split_ifs with own wins
    · exact kept fun apart => absurd own apart
    · have above : best.1 ≤ state.gain adj resolution node candidate := by
        rcases wins with more | ⟨same, -⟩
        · exact more.le
        · exact same.ge
      refine ⟨ih.nonneg.trans above, .inr ⟨candidate, by simp, own, rfl⟩, ?_⟩
      intro other listed apart
      rcases List.mem_append.mp listed with old | new
      · exact (ih.largest other old apart).trans above
      · rw [List.mem_singleton.mp new]
    · exact kept fun _ => le_of_not_gt fun more => wins (.inl more)

theorem best_spec (adj : AdjList) (state : MoveState) (node : Nat) :
    Best adj resolution state node (state.candidates adj node) (state.best adj resolution node) :=
  best_better resolution _

/-- A visit keeps the node or moves it to the best community. -/
theorem visit_cases (adj : AdjList) (state : MoveState) (node : Nat) :
    (state.visit adj resolution node = state ∧ ∀ candidate ∈ state.candidates adj node,
      candidate.1 ≠ state.nodeComm node → state.gain adj resolution node candidate ≤ 0) ∨
    ∃ candidate ∈ state.candidates adj node, candidate.1 ≠ state.nodeComm node ∧
      0 ≤ state.gain adj resolution node candidate ∧
      state.visit adj resolution node = state.moveTo adj node candidate.1 := by
  have best := best_spec resolution adj state node
  unfold visit
  rcases best.reached with own | ⟨candidate, listed, apart, same⟩
  · left
    rw [own]
    refine ⟨if_neg fun apart => apart rfl, ?_⟩
    intro candidate listed apart
    have least := best.largest candidate listed apart
    rwa [own] at least
  right
  refine ⟨candidate, listed, apart, ?_, ?_⟩
  · have least := best.nonneg
    rwa [same] at least
  · rw [same]
    exact if_pos apart

theorem Tracks.visit (inside : Inside adj) (tracks : state.Tracks adj) (stored : node < adj.length) :
    (state.visit adj resolution node).Tracks adj := by
  rcases visit_cases resolution adj state node with ⟨same, -⟩ | ⟨candidate, listed, -, -, moved⟩
  · rwa [same]
  obtain ⟨neighbor, stored', here⟩ := neighbor_of_candidate inside listed
  rw [moved]
  exact tracks.moveTo inside stored (here ▸ tracks.labelled neighbor stored')

/-- The nodes that a pass visits with the states that they are visited in. -/
def passVisits (adj : AdjList) (resolution : ℚ) : List Nat → MoveState → List (MoveState × Nat)
  | [], _ => []
  | node :: order, state =>
    (state, node) :: passVisits adj resolution order (state.visit adj resolution node)

theorem tracks_visits (inside : Inside adj) {order : List Nat}
    (stored : ∀ node ∈ order, node < adj.length) (tracks : state.Tracks adj) :
    (order.foldl (fun state node => state.visit adj resolution node) state).Tracks adj ∧
      ∀ visit ∈ passVisits adj resolution order state, visit.1.Tracks adj ∧ visit.2 < adj.length := by
  induction order generalizing state with
  | nil => exact ⟨tracks, by simp [passVisits]⟩
  | cons node order ih =>
    have here := stored node List.mem_cons_self
    obtain ⟨final, later⟩ := ih (fun other mem =>
      stored other (List.mem_cons_of_mem _ mem)) (tracks.visit resolution inside here)
    refine ⟨final, ?_⟩
    intro visit listed
    rcases List.mem_cons.mp listed with rfl | listed
    · exact ⟨tracks, here⟩
    · exact later visit listed

theorem moved_visits (order : List Nat) (moved : state.moved = true) :
    (order.foldl (fun state node => state.visit adj resolution node) state).moved = true := by
  induction order generalizing state with
  | nil => exact moved
  | cons node order ih =>
    apply ih
    change (state.visit adj resolution node).moved = true
    rcases visit_cases resolution adj state node with ⟨same, -⟩ | ⟨candidate, -, -, -, here⟩
    · rwa [same]
    · rw [here]
      rfl

theorem unmoved_visits (order : List Nat)
    (unmoved : (order.foldl (fun state node => state.visit adj resolution node) state).moved = false) :
    (order.foldl (fun state node => state.visit adj resolution node) state) = state ∧
      ∀ node ∈ order, (state, node) ∈ passVisits adj resolution order state ∧
        ∀ candidate ∈ state.candidates adj node, candidate.1 ≠ state.nodeComm node →
          state.gain adj resolution node candidate ≤ 0 := by
  induction order generalizing state with
  | nil => exact ⟨rfl, by simp⟩
  | cons node order ih =>
    rw [List.foldl_cons] at unmoved ⊢
    rcases visit_cases resolution adj state node with ⟨same, least⟩ | ⟨candidate, -, -, -, here⟩
    · rw [same] at unmoved ⊢
      obtain ⟨final, later⟩ := ih unmoved
      refine ⟨final, ?_⟩
      intro other listed
      rcases List.mem_cons.mp listed with rfl | listed
      · exact ⟨List.mem_cons_self, least⟩
      obtain ⟨visited, least'⟩ := later other listed
      refine ⟨List.mem_cons_of_mem _ ?_, least'⟩
      rwa [same]
    have stuck : (order.foldl (fun state node => state.visit adj resolution node)
        (state.moveTo adj node candidate.1)).moved = true := moved_visits resolution order rfl
    rw [here, stuck] at unmoved
    exact absurd unmoved (by decide)

end MoveState

/-- The states in which the passes start. -/
def passStarts (adj : AdjList) (resolution : ℚ) (order : List Nat) : Nat → MoveState → List MoveState
  | 0, _ => []
  | passes + 1, state =>
    { state with moved := false } ::
      if (state.pass adj resolution order).moved then
        passStarts adj resolution order passes (state.pass adj resolution order)
      else []

section Run

variable (adj : AdjList) (community : List Nat) (resolution : ℚ) (seed : UInt64)

/-- The states in which the passes of the local moves start. -/
def localStarts : List MoveState :=
  if adj.length = 0 ∨ totalWeight adj = 0 then []
  else passStarts adj resolution (visitOrder adj seed) maxPasses
    ⟨community, sigmaTotOf adj community, false⟩

/-- The local moves visit a node in a state. -/
def Visits (visit : MoveState × Nat) : Prop :=
  ∃ start ∈ localStarts adj community resolution seed,
    visit ∈ start.passVisits adj resolution (visitOrder adj seed)

/-- The gains are changes of the modularity, no move lowers it, and no single move to a neighbouring
community raises it after a pass that moves no node. -/
structure FollowsModularity : Prop where
  gains : ∀ state node, Visits adj community resolution seed (state, node) →
    ∀ candidate ∈ state.candidates adj node, candidate.1 ≠ state.nodeComm node →
      state.gain adj resolution node candidate =
        newman adj resolution (state.community.set node candidate.1) -
          newman adj resolution state.community
  accepted : ∀ state node, Visits adj community resolution seed (state, node) →
    newman adj resolution state.community ≤
      newman adj resolution (state.visit adj resolution node).community
  optimal : ∀ start ∈ localStarts adj community resolution seed,
    let final := start.pass adj resolution (visitOrder adj seed)
    final.moved = false → ∀ node < adj.length, ∀ neighbor ∈ adj.getD node [],
      newman adj resolution (final.community.set node (communityOf final.community neighbor.1)) ≤
        newman adj resolution final.community

end Run

variable {community : List Nat} {resolution : ℚ} {seed : UInt64}

theorem tracks_passStarts (inside : Inside adj) {order : List Nat}
    (stored : ∀ node ∈ order, node < adj.length) (passes : Nat) (state : MoveState)
    (tracks : state.Tracks adj) : ∀ start ∈ passStarts adj resolution order passes state,
      start.Tracks adj ∧ start.moved = false := by
  induction passes generalizing state with
  | zero => simp [passStarts]
  | succ passes ih =>
    have fresh : ({ state with moved := false } : MoveState).Tracks adj :=
      ⟨tracks.length, tracks.labelled, tracks.totals⟩
    intro start listed
    rcases List.mem_cons.mp listed with rfl | later
    · exact ⟨fresh, rfl⟩
    split at later
    · exact ih _ (tracks_visits resolution inside stored fresh).1 start later
    · exact absurd later List.not_mem_nil

theorem localStarts_tracks (inside : Inside adj) (length : community.length = adj.length)
    {start : MoveState} (listed : start ∈ localStarts adj community resolution seed) :
    start.Tracks adj ∧ start.moved = false ∧ totalWeight adj ≠ 0 := by
  unfold localStarts at listed
  split at listed
  · exact absurd listed List.not_mem_nil
  rename_i connected
  rw [not_or] at connected
  obtain ⟨tracks, fresh⟩ := tracks_passStarts inside
    (fun node mem => (mem_visitOrder adj seed node).mp mem) _ _
    (start_tracks inside community length) start listed
  exact ⟨tracks, fresh, connected.2⟩

theorem Visits.tracks (inside : Inside adj) (length : community.length = adj.length)
    {state : MoveState} {node : Nat} (visits : Visits adj community resolution seed (state, node)) :
    state.Tracks adj ∧ node < adj.length ∧ totalWeight adj ≠ 0 := by
  obtain ⟨start, listed, visited⟩ := visits
  obtain ⟨tracks, -, connected⟩ := localStarts_tracks inside length listed
  obtain ⟨here, stored⟩ := (tracks_visits resolution inside
    (fun node mem => (mem_visitOrder adj seed node).mp mem) tracks).2 _ visited
  exact ⟨here, stored, connected⟩

/-- The node could move to another community. -/
def CanMove (adj : AdjList) (state : MoveState) (node : Nat) : Prop :=
  ∃ candidate ∈ state.candidates adj node, candidate.1 ≠ state.nodeComm node

/-- The local moves follow the modularity exactly when no node that could move weighs itself. -/
theorem localMoves_follow_iff (adj : AdjList) (community : List Nat) (resolution : ℚ)
    (seed : UInt64) (undirected : Undirected adj) (inside : Inside adj)
    (length : community.length = adj.length) :
    FollowsModularity adj community resolution seed ↔
      ∀ state node, Visits adj community resolution seed (state, node) → CanMove adj state node →
        weightBetween adj node node = 0 := by
  constructor
  · intro follows state node visits ⟨candidate, listed, apart⟩
    obtain ⟨tracks, stored, connected⟩ := visits.tracks inside length
    have exact := follows.gains state node visits candidate listed apart
    rw [gain_eq undirected inside tracks connected stored resolution listed apart,
      sub_eq_self, div_eq_zero_iff] at exact
    exact exact.resolve_right connected
  intro weightless
  have gains (state : MoveState) (node : Nat)
      (visits : Visits adj community resolution seed (state, node)) (candidate : Nat × ℚ)
      (listed : candidate ∈ state.candidates adj node) (apart : candidate.1 ≠ state.nodeComm node) :
      state.gain adj resolution node candidate =
        newman adj resolution (state.community.set node candidate.1) -
          newman adj resolution state.community := by
    obtain ⟨tracks, stored, connected⟩ := visits.tracks inside length
    rw [gain_eq undirected inside tracks connected stored resolution listed apart,
      weightless state node visits ⟨candidate, listed, apart⟩, zero_div, sub_zero]
  refine ⟨gains, ?_, ?_⟩
  · intro state node visits
    rcases visit_cases resolution adj state node with
      ⟨same, -⟩ | ⟨candidate, listed, apart, nonneg, moved⟩
    · rw [same]
    rw [gains state node visits candidate listed apart, sub_nonneg] at nonneg
    rwa [moved]
  intro start listed final unmoved node stored neighbor mem
  obtain ⟨tracks, fresh, -⟩ := localStarts_tracks inside length listed
  have restart : ({ start with moved := false } : MoveState) = start := by rw [← fresh]
  have whole : final = (visitOrder adj seed).foldl
      (fun state node => state.visit adj resolution node) start := by
    change List.foldl _ ({ start with moved := false } : MoveState) _ = _
    rw [restart]
  rw [whole] at unmoved
  obtain ⟨same, least⟩ := unmoved_visits resolution (visitOrder adj seed) unmoved
  obtain ⟨visited, least⟩ := least node ((mem_visitOrder adj seed node).mpr stored)
  rw [whole, same]
  by_cases own : communityOf start.community neighbor.1 = start.nodeComm node
  · have kept : start.community.set node (start.nodeComm node) = start.community := by
      have within := tracks.length ▸ stored
      rw [MoveState.nodeComm, List.getD_eq_getElem _ _ within, List.set_getElem_self]
    rw [own, kept]
  obtain ⟨weight, candidate⟩ := candidate_of_neighbor start mem
  have bound := least _ candidate own
  rwa [gains start node ⟨start, listed, visited⟩ _ candidate own, sub_nonpos] at bound

/-- A couple has no weight with itself. -/
theorem localMoves_follow_couple : FollowsModularity couple [0, 1] 1 0 ↔
    ∀ state node, Visits couple [0, 1] 1 0 (state, node) → CanMove couple state node →
      weightBetween couple node node = 0 :=
  localMoves_follow_iff couple [0, 1] 1 0 couple_undirected (by decide) rfl

/-- A chain of four calls with its halves made into one node each. -/
def halves : AdjList :=
  (coarsen [[(1, 1)], [(0, 1), (2, 1)], [(1, 1), (3, 1)], [(2, 1)]] [0, 0, 1, 1]).1

theorem halves_undirected : Undirected halves := by
  have listed : halves = [[(1, 1), (0, 2)], [(1, 2), (0, 1)]] := by decide +kernel
  rw [listed]
  intro first second
  match first, second with
  | 0, 0 | 0, 1 | 1, 0 | 1, 1 => rfl
  | 0, second + 2 | 1, second + 2 | first + 2, 0 | first + 2, 1 | first + 2, second + 2 =>
    simp [weightBetween, listedWeight]

/-- The gain of joining the halves is not the change of the modularity. -/
theorem localMoves_not_follow : ¬ ∀ (adj : AdjList) (community : List Nat) (resolution : ℚ)
    (seed : UInt64), Undirected adj → Inside adj →
      (∀ neighbors ∈ adj, ∀ entry ∈ neighbors, 0 ≤ entry.2) → community.length = adj.length →
        FollowsModularity adj community resolution seed := by
  intro always
  have follows := always halves [0, 1] 1 0 halves_undirected (by decide +kernel) (by decide +kernel)
    (by decide +kernel)
  have visits : Visits halves [0, 1] 1 0 (⟨[0, 1], [3, 3], false⟩, 1) :=
    ⟨⟨[0, 1], [3, 3], false⟩, by decide +kernel, by decide +kernel⟩
  have same := follows.gains _ _ visits (0, 1) (by decide +kernel) (by decide +kernel)
  have apart : (⟨[0, 1], [3, 3], false⟩ : MoveState).gain halves 1 1 (0, 1) ≠
      newman halves 1 ([0, 1].set 1 0) - newman halves 1 [0, 1] := by decide +kernel
  exact apart same

end Codegraph.Communities
