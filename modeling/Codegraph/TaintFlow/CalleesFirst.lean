import Codegraph.TaintFlow.ComponentSearch
import Mathlib.Algebra.BigOperators.Group.Finset.Basic

namespace Codegraph.TaintFlow.Program

open Library Relation List

namespace SccState

section Cost

variable {succs : Nat → List Nat} {state : SccState} {count : Nat}

/-- What a function that has no number yet will cost. -/
def unvisitedCost (succs : Nat → List Nat) (state : SccState) (u : Nat) : Nat :=
  if (state.index u).isSome then 0 else (succs u).length + 1

def frameCost (succs : Nat → List Nat) (entry : Nat × Nat) : Nat := (succs entry.1).length - entry.2 + 1

/-- The rounds that are left. -/
def cost (succs : Nat → List Nat) (count : Nat) (state : SccState) : Nat :=
  ∑ u ∈ Finset.range count, state.unvisitedCost succs u + (state.work.map (frameCost succs)).sum

/-- A visit costs a function its share. -/
theorem cost_enter {v : Nat} (inside : v < count) (fresh : ¬ state.Known v) :
    (state.enter v).cost succs count = state.cost succs count := by
  have mem := Finset.mem_range.mpr inside
  have new : (state.enter v).unvisitedCost succs v = 0 := if_pos ((known_enter _ _ _).mpr (.inl rfl))
  have old : state.unvisitedCost succs v = (succs v).length + 1 := if_neg fresh
  have rest : ∑ u ∈ (Finset.range count).erase v, (state.enter v).unvisitedCost succs u =
      ∑ u ∈ (Finset.range count).erase v, state.unvisitedCost succs u := by
    apply Finset.sum_congr rfl
    intro u other
    have same : (state.enter v).index u = state.index u :=
      Function.update_of_ne (Finset.ne_of_mem_erase other) _ _
    unfold unvisitedCost
    rw [same]
  have frames : ((state.enter v).work.map (frameCost succs)).sum =
      (succs v).length + 1 + (state.work.map (frameCost succs)).sum := by
    change (((v, 0) :: state.work).map (frameCost succs)).sum = _
    rw [map_cons, sum_cons]
    rfl
  unfold cost
  rw [← Finset.add_sum_erase _ _ mem, ← Finset.add_sum_erase _ _ mem, rest, new, old, frames]
  omega

theorem cost_work (state : SccState) (work : List (Nat × Nat)) :
    ({ state with work := work } : SccState).cost succs count =
      ∑ u ∈ Finset.range count, state.unvisitedCost succs u + (work.map (frameCost succs)).sum := rfl

theorem cost_scan {node position succ : Nat} {rest : List (Nat × Nat)}
    (work : state.work = (node, position) :: rest) (next : (succs node)[position]? = some succ)
    (inside : succ < count) :
    (state.scan node position succ rest).cost succs count < state.cost succs count := by
  have short := (List.getElem?_eq_some_iff.mp next).1
  have advanced : ({ state with work := (node, position + 1) :: rest } : SccState).cost succs count <
      state.cost succs count := by
    rw [cost_work, cost, work, map_cons, map_cons, sum_cons, sum_cons]
    unfold frameCost
    dsimp only
    omega
  unfold scan
  dsimp only
  split
  · rename_i new
    rw [cost_enter inside]
    · exact advanced
    · intro known
      rw [Known, Option.isSome_iff_ne_none] at known
      exact known (Option.isNone_iff_eq_none.mp new)
  split
  · exact advanced
  · exact advanced

theorem cost_finish {node position : Nat} {rest : List (Nat × Nat)}
    (work : state.work = (node, position) :: rest) :
    (state.finish node rest).cost succs count < state.cost succs count := by
  have shorter : ({ state with work := rest } : SccState).cost succs count < state.cost succs count := by
    rw [cost_work, cost, work, map_cons, sum_cons]
    unfold frameCost
    omega
  unfold finish
  cases rest with
  | nil =>
    dsimp only
    split
    · exact shorter
    · exact shorter
  | cons entry below =>
    dsimp only
    split
    · exact shorter
    · exact shorter

end Cost

section Rounds

variable {succs : Nat → List Nat} {count : Nat}

variable {state : SccState}

theorem known_scan {node position succ : Nat} {rest : List (Nat × Nat)} {u : Nat} :
    (state.scan node position succ rest).Known u → u = succ ∨ state.Known u := by
  unfold scan
  dsimp only
  split
  · exact (known_enter _ _ _).mp
  split
  · exact .inr
  · exact .inr

theorem known_finish {node : Nat} {rest : List (Nat × Nat)} {u : Nat} :
    (state.finish node rest).Known u ↔ state.Known u := by
  unfold finish
  cases rest with
  | nil =>
    dsimp only
    split <;> rfl
  | cons entry below =>
    dsimp only
    split <;> rfl

theorem scan_known {node position succ : Nat} {rest : List (Nat × Nat)} {u : Nat}
    (known : state.Known u) : (state.scan node position succ rest).Known u := by
  unfold scan
  dsimp only
  split
  · exact (known_enter _ _ _).mpr (.inr known)
  split
  · exact known
  · exact known

/-- What the search keeps from a state on. -/
structure Searching (succs : Nat → List Nat) (count : Nat) (before state : SccState) : Prop where
  valid : state.Valid succs
  inside : ∀ u, state.Known u → u < count
  grows : ∀ u, before.Known u → state.Known u

theorem whileLoop_round (inRange : ∀ u, ∀ w ∈ succs u, w < count) {before state : SccState} {fuel : Nat}
    (searching : Searching succs count before state) (enough : state.cost succs count < fuel) :
    ∃ last, whileLoop (round succs) fuel state = some last ∧
      Searching succs count before last ∧ last.work = [] := by
  apply whileLoop_spec (cost succs count) (Searching succs count before) _ _ searching enough
  intro state searching
  unfold round
  match work : state.work with
  | [] => exact .inr ⟨state, rfl, searching, work⟩
  | (node, position) :: rest =>
    dsimp only
    cases next : (succs node)[position]? with
    | none =>
      exact .inl ⟨_, rfl, ⟨searching.valid.finish work next,
        fun u known => searching.inside u (known_finish.mp known),
        fun u known => known_finish.mpr (searching.grows u known)⟩, cost_finish work⟩
    | some succ =>
      have inside := inRange node succ (mem_of_getElem? next)
      refine .inl ⟨_, rfl, ⟨searching.valid.scan work next, ?_,
        fun u known => scan_known (searching.grows u known)⟩, cost_scan work next inside⟩
      intro u known
      rcases known_scan known with rfl | old
      · exact inside
      · exact searching.inside u old

theorem stack_nil (valid : state.Valid succs) (idle : state.work = []) : state.stack = [] := by
  rw [eq_nil_iff_forall_not_mem]
  intro y mem
  obtain ⟨x, inPath, -⟩ := valid.ascends y mem
  rw [path, idle] at inPath
  exact absurd inPath not_mem_nil

/-- The rounds that suffice for a root. -/
def enough (succs : Nat → List Nat) (count : Nat) : Nat :=
  ∑ u ∈ Finset.range count, ((succs u).length + 1) + 1

theorem cost_idle (succs : Nat → List Nat) (count : Nat) (idle : state.work = []) :
    state.cost succs count < enough succs count := by
  rw [cost, enough, idle, map_nil, sum_nil, add_zero]
  apply Nat.lt_succ_of_le
  apply Finset.sum_le_sum
  intro u _
  unfold unvisitedCost
  split
  · exact Nat.zero_le _
  · exact le_rfl

theorem visitRoot_spec (inRange : ∀ u, ∀ w ∈ succs u, w < count) (extra : Nat) {before state : SccState}
    (searching : Searching succs count before state) (idle : state.work = []) {root : Nat}
    (inside : root < count) :
    ∃ last, visitRoot succs (enough succs count + extra) state root = some last ∧
      Searching succs count before last ∧ last.work = [] ∧ last.Known root := by
  unfold visitRoot
  split
  · rename_i known
    exact ⟨state, rfl, searching, idle, known⟩
  rename_i fresh
  have same : ({ state with work := [] } : SccState) = state := by rw [← idle]
  rw [same]
  have entered : Searching succs count (state.enter root) (state.enter root) := by
    refine ⟨searching.valid.enter fresh ?_, ?_, fun u known => known⟩
    · intro x mem
      rw [path, idle] at mem
      exact absurd mem not_mem_nil
    intro u known
    rcases (known_enter _ _ _).mp known with rfl | old
    · exact inside
    · exact searching.inside u old
  have cheap := cost_idle succs count idle
  rw [← cost_enter inside fresh] at cheap
  obtain ⟨last, ran, after, idle'⟩ := whileLoop_round inRange entered
    (lt_of_lt_of_le cheap (Nat.le_add_right _ extra))
  refine ⟨last, ran, ⟨after.valid, after.inside, ?_⟩, idle',
    after.grows root ((known_enter _ _ _).mpr (.inl rfl))⟩
  intro u known
  exact after.grows u ((known_enter _ _ _).mpr (.inr (searching.grows u known)))

theorem visitRoots_spec (inRange : ∀ u, ∀ w ∈ succs u, w < count) (extra : Nat) (roots : List Nat)
    {before state : SccState} (searching : Searching succs count before state) (idle : state.work = [])
    (inside : ∀ root ∈ roots, root < count) :
    ∃ last, roots.foldlM (visitRoot succs (enough succs count + extra)) state = some last ∧
      Searching succs count before last ∧ last.work = [] ∧ ∀ root ∈ roots, last.Known root := by
  induction roots generalizing before state with
  | nil => exact ⟨state, rfl, searching, idle, fun root mem => absurd mem not_mem_nil⟩
  | cons root roots ih =>
    obtain ⟨middle, ran, searching', idle', known⟩ :=
      visitRoot_spec inRange extra searching idle (inside root mem_cons_self)
    have again : Searching succs count middle middle :=
      ⟨searching'.valid, searching'.inside, fun u known => known⟩
    obtain ⟨last, ran', after, idle'', all⟩ :=
      ih again idle' fun other mem => inside other (mem_cons_of_mem root mem)
    refine ⟨last, ?_, ⟨after.valid, after.inside, ?_⟩, idle'', ?_⟩
    · rwa [foldlM_cons, ran]
    · exact fun u known' => after.grows u (searching'.grows u known')
    intro other mem
    rcases mem_cons.mp mem with rfl | later
    · exact after.grows other known
    · exact all other later

end Rounds

end SccState

open SccState

/-- The result is the components of the call graph, each after the ones that it calls. -/
theorem tarjan_components (functions : List Function) (extra : Nat) :
    ∃ sccs, tarjan (enough (succs functions) functions.length + extra) functions = some sccs ∧
      sccs.flatten.Perm (List.range functions.length) ∧ (∀ scc ∈ sccs, scc ≠ []) ∧
      (∀ scc ∈ sccs, ∀ u ∈ scc, ∀ w, w ∈ scc ↔ Mutual (Calls functions) u w) ∧
      ∀ (i j : Nat) (first second : List Nat) (caller callee : Nat), sccs[i]? = some first →
        sccs[j]? = some second → caller ∈ first → callee ∈ second → Calls functions caller callee →
        i ≠ j → j < i := by
  have sameEdges : Leads (succs functions) = Calls functions := by
    funext u w
    exact propext (mem_succs functions u w)
  have inRange (u w : Nat) (mem : w ∈ succs functions u) : w < functions.length :=
    ((mem_succs functions u w).mp mem).1
  have begun : SccState.Searching (succs functions) functions.length start start :=
    ⟨valid_start, fun u known => by simp [SccState.Known, start] at known, fun u known => known⟩
  obtain ⟨last, ran, searching, idle, all⟩ := visitRoots_spec inRange extra
    (List.range functions.length) begun rfl fun root mem => List.mem_range.mp mem
  have condensed := searching.valid.condensed
  have empty := stack_nil searching.valid idle
  refine ⟨last.sccs, ?_, ?_, condensed.nonempty, ?_, ?_⟩
  · rw [tarjan, ran]
    rfl
  · rw [perm_ext_iff_of_nodup condensed.distinct nodup_range]
    intro u
    have known := searching.valid.known u
    rw [empty] at known
    constructor
    · intro listed
      exact List.mem_range.mpr (searching.inside u (known.mpr (.inr listed)))
    · intro mem
      exact (known.mp (all u mem)).resolve_left not_mem_nil
  · intro scc listed u mem w
    rw [← sameEdges]
    exact condensed.components scc listed u mem w
  · intro i j first second caller callee here there mem mem' call apart
    rw [← sameEdges] at call
    exact condensed.index_lt here there mem mem' call apart

end Codegraph.TaintFlow.Program
