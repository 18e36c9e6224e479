import Codegraph.Library.Components
import Codegraph.Library.Settling
import Mathlib.Algebra.BigOperators.Ring.Finset
import Mathlib.Algebra.Order.BigOperators.Group.Finset
import Mathlib.Data.List.GetD

namespace Codegraph.SccGpu

open Library Relation List

section Model

/-- The edges of a graph in two arrays of the same length. -/
structure EdgeArrays where
  n : Nat
  src : List Nat
  dst : List Nat
  sameLength : src.length = dst.length
  srcInside : ∀ v ∈ src, v < n
  dstInside : ∀ v ∈ dst, v < n

/-- The arrays of the device. -/
structure Device where
  active : Nat → Bool
  color : Nat → Nat
  found : Nat → Bool
  label : Nat → Nat

/-- All vertices are active, and each is its own label. -/
def Device.start : Device where
  active _ := true
  color _ := 0
  found _ := false
  label v := v

/-- The orders in which the threads of the edge launches run, by round and by launch. -/
structure Schedule (m : Nat) where
  forward : Nat → Nat → List Nat
  backward : Nat → Nat → List Nat
  forwardAll : ∀ round number, (forward round number).Perm (List.range m)
  backwardAll : ∀ round number, (backward round number).Perm (List.range m)

variable (graph : EdgeArrays)

namespace EdgeArrays

def m : Nat := graph.src.length

end EdgeArrays

/-- A thread of each active vertex. -/
def initRound (device : Device) : Device :=
  { device with
    color := fun v => if v < graph.n ∧ device.active v then v else device.color v
    found := fun v => if v < graph.n ∧ device.active v then false else device.found v }

/-- A thread that changes nothing leaves the flag alone. -/
def fwdMax (device : Device) (e : Nat) : Option Device :=
  let u := graph.src.getD e 0
  let v := graph.dst.getD e 0
  if graph.m ≤ e then none
  else if !device.active u || !device.active v then none
  else if device.color v < device.color u then
    some { device with
      color := Function.update device.color v (max (device.color v) (device.color u)) }
  else none

def markRoots (device : Device) : Device :=
  { device with
    found := fun v => if v < graph.n ∧ device.active v ∧ device.color v = v then true else device.found v }

def bwdFound (device : Device) (e : Nat) : Option Device :=
  let u := graph.src.getD e 0
  let v := graph.dst.getD e 0
  if graph.m ≤ e then none
  else if !device.active u || !device.active v then none
  else if device.color u ≠ device.color v then none
  else if device.found v && !device.found u then
    some { device with found := Function.update device.found u true }
  else none

/-- The second component counts the vertices that stay active. -/
def finalizeRound (device : Device) : Device × Nat :=
  ({ device with
      label := fun v =>
        if v < graph.n ∧ device.active v ∧ device.found v then device.color v else device.label v
      active := fun v =>
        if v < graph.n ∧ device.active v ∧ device.found v then false else device.active v },
    ((List.range graph.n).filter fun v => device.active v && !device.found v).length)

variable (schedule : Schedule graph.m)

/-- A round has no result when the fuel of one of its loops ends. -/
def coloringRound (fuel round : Nat) (device : Device) : Option (Device × Nat) := do
  let device ← settle (fwdMax graph) (schedule.forward round) fuel 0 (initRound graph device)
  let device ← settle (bwdFound graph) (schedule.backward round) fuel 0 (markRoots graph device)
  return finalizeRound graph device

/-- The flag tells whether the rounds end because no vertex stays active. -/
def rounds (fuel : Nat) : Nat → Nat → Device → Option (Device × Bool)
  | 0, _, device => some (device, false)
  | count + 1, round, device => do
    let (device, remaining) ← coloringRound graph schedule fuel round device
    if remaining = 0 then return (device, true) else rounds fuel count (round + 1) device

def sccGpuInner (fuel : Nat) : Option (List Nat) := do
  let (device, _) ← rounds graph schedule fuel (graph.n + 1) 0 Device.start
  return (List.range graph.n).map device.label

end Model

variable {graph : EdgeArrays}

namespace EdgeArrays

/-- Some position of the arrays has the two ends. -/
def Edge (graph : EdgeArrays) (u v : Nat) : Prop :=
  ∃ e < graph.m, graph.src.getD e 0 = u ∧ graph.dst.getD e 0 = v

theorem edge_inside {u v : Nat} (edge : graph.Edge u v) : u < graph.n ∧ v < graph.n := by
  obtain ⟨e, inside, rfl, rfl⟩ := edge
  have inside' : e < graph.dst.length := graph.sameLength ▸ inside
  rw [getD_eq_getElem _ _ inside, getD_eq_getElem _ _ inside']
  exact ⟨graph.srcInside _ (getElem_mem _), graph.dstInside _ (getElem_mem _)⟩

end EdgeArrays

/-- The vertices that take part in a round. -/
def Device.On (graph : EdgeArrays) (device : Device) (v : Nat) : Prop :=
  v < graph.n ∧ device.active v = true

section Forward

/-- What the forward launches keep. -/
structure Flooding (graph : EdgeArrays) (first device : Device) : Prop where
  active : device.active = first.active
  label : device.label = first.label
  found : device.found = first.found
  colored : Colored graph.Edge (device.On graph) device.color

theorem fwdMax_cases {device next : Device} {e : Nat} (moved : fwdMax graph device e = some next) :
    ∃ u v, Live graph.Edge (device.On graph) u v ∧ device.color v < device.color u ∧
      next = { device with color := Function.update device.color v (device.color u) } := by
  unfold fwdMax at moved
  dsimp only at moved
  split at moved
  · cases moved
  rename_i inside
  split at moved
  · cases moved
  rename_i on
  simp only [Bool.or_eq_true, Bool.not_eq_true', not_or, Bool.not_eq_false] at on
  split at moved
  · rename_i less
    have edge : graph.Edge _ _ := ⟨e, not_le.mp inside, rfl, rfl⟩
    have ends := EdgeArrays.edge_inside edge
    refine ⟨_, _, ⟨⟨ends.1, on.1⟩, ⟨ends.2, on.2⟩, edge⟩, less, ?_⟩
    rw [← Option.some.inj moved, max_eq_right less.le]
  · cases moved

theorem fwdMax_idle {device : Device} (idle : ∀ e ∈ List.range graph.m, fwdMax graph device e = none)
    {u v : Nat} (live : Live graph.Edge (device.On graph) u v) : device.color u ≤ device.color v := by
  obtain ⟨here, there, e, inside, rfl, rfl⟩ := live
  have none' := idle e (List.mem_range.mpr inside)
  unfold fwdMax at none'
  rw [if_neg (not_le.mpr inside), here.2, there.2, if_neg (by decide)] at none'
  by_contra less
  rw [if_pos (not_le.mp less)] at none'
  cases none'

theorem flooding_fwdMax {first : Device} (device : Device) (e : Nat) (next : Device)
    (flooding : Flooding graph first device) (moved : fwdMax graph device e = some next) :
    Flooding graph first next := by
  obtain ⟨u, v, live, less, rfl⟩ := fwdMax_cases moved
  exact ⟨flooding.active, flooding.label, flooding.found, flooding.colored.raise live less⟩

/-- How much the colors can still grow. -/
def room (graph : EdgeArrays) (device : Device) : Nat :=
  ∑ v ∈ Finset.range graph.n, (graph.n - device.color v)

theorem room_fwdMax {first : Device} (device : Device) (e : Nat) (next : Device)
    (flooding : Flooding graph first device) (moved : fwdMax graph device e = some next) :
    room graph next < room graph device := by
  obtain ⟨u, v, live, less, rfl⟩ := fwdMax_cases moved
  have bounded := (flooding.colored.source u live.1).1
  unfold room
  dsimp only
  apply Finset.sum_lt_sum
  · intro node _
    by_cases same : node = v
    · rw [same, Function.update_self]
      omega
    · rw [Function.update_of_ne same]
  refine ⟨v, Finset.mem_range.mpr live.2.1.1, ?_⟩
  rw [Function.update_self]
  omega

theorem room_le (graph : EdgeArrays) (device : Device) : room graph device ≤ graph.n * graph.n := by
  have each := Finset.sum_le_card_nsmul (Finset.range graph.n)
    (fun v => graph.n - device.color v) graph.n fun v _ => Nat.sub_le _ _
  rwa [Finset.card_range, smul_eq_mul] at each

theorem flooding_initRound (device : Device) :
    Flooding graph (initRound graph device) (initRound graph device) := by
  have own (v : Nat) (here : (initRound graph device).On graph v) :
      (initRound graph device).color v = v := if_pos here
  refine ⟨rfl, rfl, rfl, ?_, ?_, ?_⟩
  · intro v here
    exact (own v here).ge
  · intro v here
    rwa [own v here]
  · intro v here
    rw [own v here]

end Forward

section Backward

/-- What the backward launches keep. -/
structure Marking (graph : EdgeArrays) (first device : Device) : Prop where
  active : device.active = first.active
  label : device.label = first.label
  color : device.color = first.color
  marked : Marked graph.Edge (device.On graph) device.color fun v => device.found v = true

theorem bwdFound_cases {device next : Device} {e : Nat} (moved : bwdFound graph device e = some next) :
    ∃ u v, Live graph.Edge (device.On graph) u v ∧ device.color u = device.color v ∧
      device.found v = true ∧ device.found u = false ∧
      next = { device with found := Function.update device.found u true } := by
  unfold bwdFound at moved
  dsimp only at moved
  split at moved
  · cases moved
  rename_i inside
  split at moved
  · cases moved
  rename_i on
  simp only [Bool.or_eq_true, Bool.not_eq_true', not_or, Bool.not_eq_false] at on
  split at moved
  · cases moved
  rename_i same
  split at moved
  · rename_i marks
    rw [Bool.and_eq_true, Bool.not_eq_true'] at marks
    have edge : graph.Edge _ _ := ⟨e, not_le.mp inside, rfl, rfl⟩
    have ends := EdgeArrays.edge_inside edge
    exact ⟨_, _, ⟨⟨ends.1, on.1⟩, ⟨ends.2, on.2⟩, edge⟩, not_not.mp same, marks.1, marks.2,
      (Option.some.inj moved).symm⟩
  · cases moved

theorem bwdFound_idle {device : Device}
    (idle : ∀ e ∈ List.range graph.m, bwdFound graph device e = none) {u v : Nat}
    (live : Live graph.Edge (device.On graph) u v) (same : device.color u = device.color v)
    (there : device.found v = true) : device.found u = true := by
  obtain ⟨here, there', e, inside, rfl, rfl⟩ := live
  have none' := idle e (List.mem_range.mpr inside)
  unfold bwdFound at none'
  rw [if_neg (not_le.mpr inside), here.2, there'.2, if_neg (by decide), if_neg (not_not.mpr same),
    there] at none'
  by_contra unmarked
  rw [Bool.not_eq_true] at unmarked
  rw [unmarked, if_pos (by decide)] at none'
  cases none'

theorem marking_bwdFound {first : Device} (device : Device) (e : Nat) (next : Device)
    (marking : Marking graph first device) (moved : bwdFound graph device e = some next) :
    Marking graph first next := by
  obtain ⟨u, v, live, same, there, -, rfl⟩ := bwdFound_cases moved
  refine ⟨marking.active, marking.label, marking.color, ?_⟩
  have marks (node : Nat) : Function.update device.found u true node = true ↔
      node = u ∨ device.found node = true := by
    by_cases here : node = u
    · rw [here, Function.update_self]
      exact iff_of_true rfl (.inl rfl)
    · rw [Function.update_of_ne here, or_iff_right here]
  simp only [marks]
  exact marking.marked.mark live same there

def unmarked (graph : EdgeArrays) (device : Device) : Finset Nat :=
  (Finset.range graph.n).filter fun v => device.found v = false

theorem unmarked_bwdFound {first : Device} (device : Device) (e : Nat) (next : Device)
    (_ : Marking graph first device) (moved : bwdFound graph device e = some next) :
    (unmarked graph next).card < (unmarked graph device).card := by
  obtain ⟨u, v, live, -, -, here, rfl⟩ := bwdFound_cases moved
  apply Finset.card_lt_card
  refine (Finset.ssubset_iff_of_subset ?_).mpr ⟨u, ?_, ?_⟩
  · intro node mem
    obtain ⟨inside, still⟩ := Finset.mem_filter.mp mem
    refine Finset.mem_filter.mpr ⟨inside, ?_⟩
    dsimp only at still
    by_cases same : node = u
    · rw [same, Function.update_self] at still
      cases still
    · rwa [Function.update_of_ne same] at still
  · exact Finset.mem_filter.mpr ⟨Finset.mem_range.mpr live.1.1, here⟩
  intro mem
  have still := (Finset.mem_filter.mp mem).2
  dsimp only at still
  rw [Function.update_self] at still
  cases still

theorem unmarked_le (graph : EdgeArrays) (device : Device) : (unmarked graph device).card ≤ graph.n := by
  have few := Finset.card_filter_le (Finset.range graph.n) fun v => device.found v = false
  rwa [Finset.card_range] at few

theorem marking_markRoots {device : Device} (clear : ∀ v, device.On graph v → device.found v = false) :
    Marking graph (markRoots graph device) (markRoots graph device) := by
  have marks (v : Nat) (here : device.On graph v) :
      (markRoots graph device).found v = true ↔ device.color v = v := by
    change (if v < graph.n ∧ device.active v = true ∧ device.color v = v then true
      else device.found v) = true ↔ _
    split
    · rename_i root
      exact iff_of_true rfl root.2.2
    rename_i other
    rw [clear v here]
    exact iff_of_false Bool.false_ne_true fun root => other ⟨here.1, here.2, root⟩
  refine ⟨rfl, rfl, rfl, ?_, ?_⟩
  · intro v here root
    exact (marks v here).mpr root
  intro v here found
  have root := (marks v here).mp found
  change ReflTransGen (Live graph.Edge (device.On graph)) v (device.color v)
  rw [root]

end Backward

section Rounds

/-- The active vertices are whole components, and the others have their labels. -/
structure Labelled (graph : EdgeArrays) (device : Device) : Prop where
  whole : Whole graph.Edge (device.On graph)
  labels : ∀ v < graph.n, device.active v = false → IsGreatest {u | Mutual graph.Edge v u} (device.label v)

def standing (graph : EdgeArrays) (device : Device) : Finset Nat :=
  (Finset.range graph.n).filter fun v => device.active v = true

theorem mem_standing (graph : EdgeArrays) (device : Device) (v : Nat) :
    v ∈ standing graph device ↔ device.On graph v := by
  rw [standing, Device.On, Finset.mem_filter, Finset.mem_range]

theorem labelled_start : Labelled graph Device.start where
  whole first second here mutually := by
    refine ⟨?_, rfl⟩
    rcases mutually.1.cases_tail with rfl | ⟨middle, -, last⟩
    · exact here.1
    · exact (EdgeArrays.edge_inside last).2
  labels v _ inactive := by cases inactive

variable (schedule : Schedule graph.m)

theorem loops_spec (round extra : Nat) (device : Device) :
    ∃ final, coloringRound graph schedule (graph.n * graph.n + graph.n + 1 + extra) round device =
        some (finalizeRound graph final) ∧ final.active = device.active ∧
      final.label = device.label ∧
      Saturated graph.Edge (final.On graph) final.color ∧
      Spread graph.Edge (final.On graph) final.color fun v => final.found v = true := by
  have room' := room_le graph (initRound graph device)
  obtain ⟨flooded, ran, flooding, still⟩ := settle_spec (fwdMax graph)
    flooding_fwdMax room_fwdMax
    (fun number => (schedule.forwardAll round number).symm.subset)
    (graph.n * graph.n + graph.n + 1 + extra) 0 _ (flooding_initRound device) (by omega)
  have clear (v : Nat) (here : flooded.On graph v) : flooded.found v = false := by
    have on : v < graph.n ∧ device.active v = true := ⟨here.1, flooding.active ▸ here.2⟩
    rw [flooding.found]
    exact if_pos on
  have saturated : Saturated graph.Edge (flooded.On graph) flooded.color :=
    ⟨flooding.colored, fun u v live => fwdMax_idle still live⟩
  have few := unmarked_le graph (markRoots graph flooded)
  obtain ⟨final, ran', marking, still'⟩ := settle_spec (bwdFound graph)
    marking_bwdFound unmarked_bwdFound
    (fun number => (schedule.backwardAll round number).symm.subset)
    (graph.n * graph.n + graph.n + 1 + extra) 0 _ (marking_markRoots clear) (by omega)
  have sameOn : final.On graph = flooded.On graph := by
    funext v
    rw [Device.On, marking.active]
    rfl
  refine ⟨final, ?_, marking.active.trans flooding.active, marking.label.trans flooding.label,
    ?_, ⟨marking.marked, fun u v live same there => bwdFound_idle still' live same there⟩⟩
  · rw [coloringRound, ran]
    change (settle (bwdFound graph) (schedule.backward round) _ 0 (markRoots graph flooded)).bind _ = _
    rw [ran']
    rfl
  · rwa [sameOn, marking.color]

/-- The vertices that are found leave. -/
theorem finalizeRound_on (device : Device) (v : Nat) :
    (finalizeRound graph device).1.On graph v ↔ device.On graph v ∧ ¬ device.found v = true := by
  unfold Device.On finalizeRound
  dsimp only
  by_cases inside : v < graph.n
  · by_cases on : device.active v = true
    · by_cases found : device.found v = true
      · rw [if_pos ⟨inside, on, found⟩]
        exact iff_of_false (fun both => Bool.false_ne_true both.2) fun both => both.2 found
      · rw [if_neg fun all => found all.2.2]
        exact iff_of_true ⟨inside, on⟩ ⟨⟨inside, on⟩, found⟩
    · rw [if_neg fun all => on all.2.1]
      exact iff_of_false (fun both => on both.2) fun both => on both.1.2
  · exact iff_of_false (fun both => inside both.1) fun both => inside both.1.1

theorem finalizeRound_count (device : Device) :
    (finalizeRound graph device).2 = (standing graph (finalizeRound graph device).1).card := by
  have distinct := (nodup_range (n := graph.n)).filter fun v => device.active v && !device.found v
  change List.length _ = _
  rw [← toFinset_card_of_nodup distinct]
  congr 1
  ext v
  rw [mem_toFinset, mem_filter, List.mem_range, Bool.and_eq_true, Bool.not_eq_true',
    mem_standing, finalizeRound_on, Bool.not_eq_true]
  exact and_assoc.symm

/-- A round labels whole components, one at least when a vertex is still active. -/
theorem coloringRound_spec (round extra : Nat) {device : Device}
    (labelled : Labelled graph device) :
    ∃ next, coloringRound graph schedule (graph.n * graph.n + graph.n + 1 + extra) round device =
        some (next, (standing graph next).card) ∧ Labelled graph next ∧
      ((standing graph next).card < (standing graph device).card ∨
        (standing graph device).card = 0 ∧ (standing graph next).card = 0) := by
  obtain ⟨final, ran, active, label, saturated, spread⟩ := loops_spec schedule round extra device
  have sameOn : final.On graph = device.On graph := by
    funext v
    unfold Device.On
    rw [active]
  have whole := sameOn ▸ labelled.whole
  have rest (v : Nat) : (finalizeRound graph final).1.On graph v ↔
      final.On graph v ∧ ¬ final.found v = true := finalizeRound_on final v
  refine ⟨(finalizeRound graph final).1, ?_, ⟨?_, ?_⟩, ?_⟩
  · rw [ran, ← finalizeRound_count]
  · have same : (finalizeRound graph final).1.On graph =
        fun v => final.On graph v ∧ ¬ final.found v = true := by
      funext v
      exact propext (rest v)
    rw [same]
    exact spread.whole_rest saturated whole
  · intro v inside inactive
    by_cases on : final.active v = true
    · have found : final.found v = true := by
        by_contra unmarked
        have still := ((rest v).mpr ⟨⟨inside, on⟩, unmarked⟩).2
        rw [inactive] at still
        cases still
      have new : (finalizeRound graph final).1.label v = final.color v := if_pos ⟨inside, on, found⟩
      rw [new]
      exact saturated.isGreatest whole ⟨inside, on⟩
        ((spread.found_iff saturated ⟨inside, on⟩).mp found)
    have old : (finalizeRound graph final).1.label v = final.label v := if_neg fun all => on all.2.1
    rw [old, label]
    rw [active, Bool.not_eq_true] at on
    exact labelled.labels v inside on
  · have subset : standing graph (finalizeRound graph final).1 ⊆ standing graph device := by
      intro v mem
      rw [mem_standing] at mem ⊢
      rw [← sameOn]
      exact ((rest v).mp mem).1
    rcases (standing graph device).eq_empty_or_nonempty with none' | some'
    · right
      rw [none'] at subset ⊢
      exact ⟨rfl, Finset.card_eq_zero.mpr (Finset.subset_empty.mp subset)⟩
    left
    have mem := Finset.max'_mem _ some'
    have here : final.On graph ((standing graph device).max' some') := by
      rw [sameOn]
      exact (mem_standing _ _ _).mp mem
    have root := saturated.color_of_greatest here fun other there =>
      Finset.le_max' _ other ((mem_standing _ _ _).mpr (sameOn ▸ there))
    apply Finset.card_lt_card
    refine (Finset.ssubset_iff_of_subset subset).mpr ⟨_, mem, ?_⟩
    intro still
    exact ((rest _).mp ((mem_standing _ _ _).mp still)).2 (spread.roots _ here root)

theorem rounds_spec (extra count round : Nat) {device : Device}
    (labelled : Labelled graph device) (enough : (standing graph device).card ≤ count)
    (some' : 0 < count) :
    ∃ final, rounds graph schedule (graph.n * graph.n + graph.n + 1 + extra) count round device =
        some (final, true) ∧ Labelled graph final ∧ standing graph final = ∅ := by
  induction count generalizing round device with
  | zero => exact absurd some' (lt_irrefl 0)
  | succ count ih =>
    obtain ⟨next, ran, labelled', fewer⟩ := coloringRound_spec schedule round extra labelled
    rw [rounds, ran]
    by_cases none' : (standing graph next).card = 0
    · exact ⟨next, if_pos none', labelled', Finset.card_eq_zero.mp none'⟩
    have less := fewer.resolve_right fun both => none' both.2
    obtain ⟨final, ran', rest⟩ := ih (round + 1) labelled' (by omega) (by omega)
    exact ⟨final, (if_neg none').trans ran', rest⟩

/-- The rounds end early enough, and each label is the greatest vertex of a component. -/
theorem sccGpuInner_labels (graph : EdgeArrays) (schedule : Schedule graph.m) (extra : Nat) :
    ∃ device, rounds graph schedule (graph.n * graph.n + graph.n + 1 + extra) (graph.n + 1) 0
        Device.start = some (device, true) ∧
      sccGpuInner graph schedule (graph.n * graph.n + graph.n + 1 + extra) =
        some ((List.range graph.n).map device.label) ∧
      ∀ v < graph.n, IsGreatest {u | Mutual graph.Edge v u} (device.label v) := by
  have few : (standing graph Device.start).card ≤ graph.n + 1 := by
    have bound := Finset.card_filter_le (Finset.range graph.n) fun v => Device.start.active v = true
    rw [Finset.card_range] at bound
    exact bound.trans (Nat.le_succ _)
  obtain ⟨device, ran, labelled, none'⟩ :=
    rounds_spec schedule extra (graph.n + 1) 0 labelled_start few (Nat.succ_pos _)
  refine ⟨device, ran, ?_, ?_⟩
  · rw [sccGpuInner, ran]
    rfl
  intro v inside
  refine labelled.labels v inside ?_
  by_contra on
  rw [Bool.not_eq_false] at on
  have mem := (mem_standing graph device v).mpr ⟨inside, on⟩
  rw [none'] at mem
  exact absurd mem (Finset.notMem_empty v)

end Rounds

end Codegraph.SccGpu
