import Codegraph.TaintFlow.CallComponents

namespace Codegraph.TaintFlow.Program

open Library Relation List

namespace SccState

def Known (state : SccState) (u : Nat) : Prop := (state.index u).isSome = true

/-- The functions of the work list. -/
def path (state : SccState) : List Nat := state.work.map Prod.fst

/-- The edges of the search. -/
def Leads (succs : Nat → List Nat) (u w : Nat) : Prop := w ∈ succs u

abbrev Reaches (succs : Nat → List Nat) : Nat → Nat → Prop := ReflTransGen (Leads succs)

/-- The search has followed the edge. -/
def Scanned (succs : Nat → List Nat) (state : SccState) (u w : Nat) : Prop :=
  w ∈ succs u ∧ ∀ position, (u, position) ∈ state.work → w ∈ (succs u).take position

/-- The first function is the newest one on the work list that is no newer than the second. -/
structure Owns (state : SccState) (x y : Nat) : Prop where
  active : x ∈ state.path
  older : state.number x ≤ state.number y
  newest : ∀ z ∈ state.path, state.number z ≤ state.number y → state.number z ≤ state.number x

/-- The stack holds what reaches a function of the work list, and the low numbers bound the edges back. -/
structure Valid (succs : Nat → List Nat) (state : SccState) : Prop where
  known : ∀ u, state.Known u ↔ u ∈ state.stack ∨ u ∈ state.sccs.flatten
  marked : ∀ u, state.onStack u = true ↔ u ∈ state.stack
  descending : state.stack.Pairwise fun first second => state.number second < state.number first
  below : ∀ u ∈ state.stack, state.number u < state.next
  separate : ∀ u ∈ state.stack, u ∉ state.sccs.flatten
  active : ∀ x ∈ state.path, x ∈ state.stack
  nested : state.path.Pairwise fun first second => state.number second < state.number first
  condensed : Condensed (Leads succs) state.sccs
  scanned : ∀ u w, state.Known u → state.Scanned succs u w → state.Known w
  descends : ∀ x ∈ state.path, ∀ y ∈ state.stack, state.number x ≤ state.number y → Reaches succs x y
  ascends : ∀ y ∈ state.stack, ∃ x ∈ state.path, state.number x ≤ state.number y ∧ Reaches succs y x
  lowSound : ∀ x ∈ state.path, ∃ y ∈ state.stack, state.number y = state.low x ∧
    state.number y ≤ state.number x ∧ Reaches succs x y
  lowComplete : ∀ x y w, state.Owns x y → y ∈ state.stack → w ∈ state.stack →
    state.Scanned succs y w → state.low x ≤ state.number w

variable {succs : Nat → List Nat} {state : SccState}

theorem valid_start : Valid succs start where
  known u := by simp [Known, start]
  marked u := by simp [start]
  descending := List.Pairwise.nil
  below u mem := absurd mem not_mem_nil
  separate u mem := absurd mem not_mem_nil
  active x mem := absurd mem not_mem_nil
  nested := List.Pairwise.nil
  condensed := Condensed.nil
  scanned u w known := by simp [Known, start] at known
  descends x mem := absurd mem not_mem_nil
  ascends y mem := absurd mem not_mem_nil
  lowSound x mem := absurd mem not_mem_nil
  lowComplete x y w owns := absurd owns.active not_mem_nil

theorem number_enter (state : SccState) (v u : Nat) :
    (state.enter v).number u = if u = v then state.next else state.number u := by
  unfold number enter
  dsimp only
  rw [Function.update_apply]
  split <;> rfl

theorem low_enter (state : SccState) (v u : Nat) :
    (state.enter v).low u = if u = v then state.next else state.low u :=
  Function.update_apply ..

theorem known_enter (state : SccState) (v u : Nat) : (state.enter v).Known u ↔ u = v ∨ state.Known u := by
  unfold Known enter
  dsimp only
  rw [Function.update_apply]
  split
  · rename_i same
    exact iff_of_true rfl (.inl same)
  · rename_i other
    exact (or_iff_right other).symm

theorem low_lower (state : SccState) (x bound u : Nat) :
    (state.lower x bound).low u = if u = x then min (state.low x) bound else state.low u :=
  Function.update_apply ..

theorem low_lower_le (state : SccState) (x bound u : Nat) : (state.lower x bound).low u ≤ state.low u := by
  rw [low_lower]
  split
  · rename_i same
    rw [same]
    exact min_le_left _ _
  · exact le_rfl

namespace Valid

section

variable (valid : state.Valid succs)
include valid

theorem known_of_stack {u : Nat} (mem : u ∈ state.stack) : state.Known u := (valid.known u).mpr (.inl mem)

theorem injective {u w : Nat} (here : u ∈ state.stack)
    (there : w ∈ state.stack) (same : state.number u = state.number w) : u = w := by
  by_contra apart
  have differ := valid.descending.imp fun less => less.ne'
  have symmetric : Std.Symm fun first second => state.number first ≠ state.number second :=
    ⟨fun _ _ => Ne.symm⟩
  exact differ.forall here there apart same

theorem enter {v : Nat} (fresh : ¬ state.Known v)
    (leads : ∀ x ∈ state.path, Reaches succs x v) : (state.enter v).Valid succs := by
  have other {u : Nat} (mem : u ∈ state.stack) : u ≠ v := fun same =>
    fresh (same ▸ valid.known_of_stack mem)
  have old {u : Nat} (mem : u ∈ state.stack) : (state.enter v).number u = state.number u := by
    rw [number_enter, if_neg (other mem)]
  have new : (state.enter v).number v = state.next := by rw [number_enter, if_pos rfl]
  have followed {u w : Nat} (known : u ≠ v) (scanned : (state.enter v).Scanned succs u w) :
      state.Scanned succs u w :=
    ⟨scanned.1, fun position mem => scanned.2 position (mem_cons_of_mem _ mem)⟩
  have unfollowed {w : Nat} : ¬ (state.enter v).Scanned succs v w := by
    intro scanned
    exact absurd (scanned.2 0 mem_cons_self) not_mem_nil
  refine ⟨?_, ?_, ?_, ?_, ?_, ?_, ?_, valid.condensed, ?_, ?_, ?_, ?_, ?_⟩
  · intro u
    rw [known_enter, valid.known, ← or_assoc]
    exact or_congr_left mem_cons.symm
  · intro u
    change Function.update state.onStack v true u = true ↔ u ∈ v :: state.stack
    rw [Function.update_apply, mem_cons]
    split
    · rename_i same
      exact iff_of_true rfl (.inl same)
    · rename_i apart
      rw [valid.marked, or_iff_right apart]
  · refine pairwise_cons.mpr ⟨?_, ?_⟩
    · intro u mem
      rw [old mem, new]
      exact valid.below u mem
    apply valid.descending.imp_of_mem
    intro first second mem mem' less
    rwa [old mem, old mem']
  · intro u mem
    rcases mem_cons.mp mem with rfl | mem
    · rw [new]
      exact Nat.lt_succ_self _
    · rw [old mem]
      exact Nat.lt_succ_of_lt (valid.below u mem)
  · intro u mem
    rcases mem_cons.mp mem with rfl | mem
    · exact fun listed => fresh ((valid.known u).mpr (.inr listed))
    · exact valid.separate u mem
  · intro x mem
    rcases mem_cons.mp mem with rfl | mem
    · exact mem_cons_self
    · exact mem_cons_of_mem v (valid.active x mem)
  · refine pairwise_cons.mpr ⟨?_, ?_⟩
    · intro x mem
      rw [old (valid.active x mem), new]
      exact valid.below x (valid.active x mem)
    apply valid.nested.imp_of_mem
    intro first second mem mem' less
    rwa [old (valid.active first mem), old (valid.active second mem')]
  · intro u w known scanned
    by_cases same : u = v
    · rw [same] at scanned
      exact absurd scanned unfollowed
    · exact (known_enter _ _ _).mpr (.inr (valid.scanned u w
        (((known_enter _ _ _).mp known).resolve_left same) (followed same scanned)))
  · intro x mem y mem' order
    rcases mem_cons.mp mem with rfl | inPath
    · rcases mem_cons.mp mem' with rfl | inStack
      · exact .refl
      · rw [new, old inStack] at order
        exact absurd (valid.below y inStack) (not_lt.mpr order)
    rcases mem_cons.mp mem' with rfl | inStack
    · exact leads x inPath
    · rw [old (valid.active x inPath), old inStack] at order
      exact valid.descends x inPath y inStack order
  · intro y mem
    rcases mem_cons.mp mem with rfl | inStack
    · exact ⟨y, mem_cons_self, le_rfl, .refl⟩
    obtain ⟨x, inPath, order, reaches⟩ := valid.ascends y inStack
    refine ⟨x, mem_cons_of_mem v inPath, ?_, reaches⟩
    rwa [old (valid.active x inPath), old inStack]
  · intro x mem
    rcases mem_cons.mp mem with rfl | inPath
    · refine ⟨x, mem_cons_self, ?_, le_rfl, .refl⟩
      rw [new, low_enter, if_pos rfl]
    have inStack := valid.active x inPath
    obtain ⟨y, inStack', same, order, reaches⟩ := valid.lowSound x inPath
    refine ⟨y, mem_cons_of_mem v inStack', ?_, ?_, reaches⟩
    · rw [old inStack', low_enter, if_neg (other inStack), same]
    · rwa [old inStack', old inStack]
  · intro x y w owns mem mem' scanned
    rcases mem_cons.mp mem with rfl | inStack
    · exact absurd scanned unfollowed
    have scanned' := followed (other inStack) scanned
    have older := owns.older
    rcases mem_cons.mp owns.active with rfl | inPath
    · rw [new, old inStack] at older
      exact absurd (valid.below y inStack) (not_lt.mpr older)
    have here := valid.active x inPath
    rcases mem_cons.mp mem' with rfl | inStack'
    · exact absurd (valid.scanned y w (valid.known_of_stack inStack) scanned') fresh
    rw [old here, old inStack] at older
    rw [low_enter, if_neg (other here), old inStack']
    refine valid.lowComplete x y w ⟨inPath, older, ?_⟩ inStack inStack' scanned'
    intro z inPath' order
    have next := owns.newest z (mem_cons_of_mem v inPath')
    rw [old (valid.active z inPath'), old inStack, old here] at next
    exact next order

theorem lower {x y : Nat} (inStack : y ∈ state.stack) (reaches : Reaches succs x y) :
    (state.lower x (state.number y)).Valid succs where
  __ := valid
  lowSound u mem := by
    obtain ⟨other, inStack', same, order, reaches'⟩ := valid.lowSound u mem
    rw [low_lower]
    split
    · rename_i here
      rw [here] at same order reaches' ⊢
      rcases le_total (state.low x) (state.number y) with less | less
      · rw [min_eq_left less]
        exact ⟨other, inStack', same, order, reaches'⟩
      · rw [min_eq_right less]
        exact ⟨y, inStack, rfl, (less.trans same.ge).trans order, reaches⟩
    · exact ⟨other, inStack', same, order, reaches'⟩
  lowComplete u other w owns here there scanned :=
    (low_lower_le state x _ u).trans
      (valid.lowComplete u other w ⟨owns.active, owns.older, owns.newest⟩ here there scanned)

/-- A function is on the work list once. -/
theorem position_unique {u first second : Nat}
    (here : (u, first) ∈ state.work) (there : (u, second) ∈ state.work) : first = second := by
  have nested := pairwise_map.mp valid.nested
  by_contra apart
  have differ := nested.imp fun less => less.ne'
  have symmetric : Std.Symm fun entry other : Nat × Nat => state.number entry.1 ≠ state.number other.1 :=
    ⟨fun _ _ => Ne.symm⟩
  exact differ.forall here there (fun same => apart (Prod.mk.inj same).2) rfl

theorem advance (above : List (Nat × Nat)) {rest : List (Nat × Nat)} {node position succ : Nat}
    (work : state.work = above ++ (node, position) :: rest) (next : (succs node)[position]? = some succ)
    (known : state.Known succ) (bounded : succ ∈ state.stack → state.low node ≤ state.number succ) :
    ({ state with work := above ++ (node, position + 1) :: rest } : SccState).Valid succs := by
  have samePath : ({ state with work := above ++ (node, position + 1) :: rest } : SccState).path =
      state.path := by
    unfold path
    rw [work, map_append, map_append, map_cons, map_cons]
  have inWork : (node, position) ∈ state.work := by
    rw [work]
    exact mem_append_right _ mem_cons_self
  have followed {u w : Nat} (scanned : ({ state with
      work := above ++ (node, position + 1) :: rest } : SccState).Scanned succs u w) :
      state.Scanned succs u w ∨ (u = node ∧ w = succ) := by
    by_cases same : u = node
    · subst same
      have taken := scanned.2 (position + 1) (mem_append_right _ mem_cons_self)
      rw [take_add_one, next, mem_append] at taken
      rcases taken with earlier | last
      · refine .inl ⟨scanned.1, ?_⟩
        intro other mem
        rwa [valid.position_unique mem inWork]
      · exact .inr ⟨rfl, mem_singleton.mp last⟩
    refine .inl ⟨scanned.1, ?_⟩
    intro other mem
    apply scanned.2 other
    rw [work] at mem
    rcases mem_append.mp mem with before | after
    · exact mem_append_left _ before
    rcases mem_cons.mp after with first | after
    · exact absurd (Prod.mk.inj first).1 same
    · exact mem_append_right _ (mem_cons_of_mem _ after)
  have active : node ∈ state.path := mem_map.mpr ⟨_, inWork, rfl⟩
  refine ⟨valid.known, valid.marked, valid.descending, valid.below, valid.separate, ?_, ?_,
    valid.condensed, ?_, ?_, ?_, ?_, ?_⟩
  · rw [samePath]
    exact valid.active
  · rw [samePath]
    exact valid.nested
  · intro u w known' scanned
    rcases followed scanned with old | ⟨-, rfl⟩
    · exact valid.scanned u w known' old
    · exact known
  · rw [samePath]
    exact valid.descends
  · rw [samePath]
    exact valid.ascends
  · rw [samePath]
    exact valid.lowSound
  · intro x y w owns here there scanned
    have inPath := samePath ▸ owns.active
    rcases followed scanned with old | ⟨rfl, rfl⟩
    · exact valid.lowComplete x y w ⟨inPath, owns.older, samePath ▸ owns.newest⟩ here there old
    have newer := owns.newest y (samePath ▸ active) le_rfl
    rw [valid.injective (valid.active x inPath) here (le_antisymm owns.older newer)]
    exact bounded there

end

end Valid

section Finished

variable {node position : Nat} {rest : List (Nat × Nat)}

/-- The functions below the top of the work list are older. -/
theorem Valid.older (valid : state.Valid succs) (work : state.work = (node, position) :: rest) {x : Nat}
    (mem : x ∈ rest.map Prod.fst) : state.number x < state.number node := by
  have nested := valid.nested
  rw [path, work] at nested
  exact (pairwise_cons.mp nested).1 x mem

theorem mem_path (work : state.work = (node, position) :: rest) (x : Nat) :
    x ∈ state.path ↔ x = node ∨ x ∈ rest.map Prod.fst := by
  rw [path, work, map_cons, mem_cons]

/-- A function that leaves the work list has followed all its edges. -/
theorem scanned_rest (work : state.work = (node, position) :: rest)
    (full : (succs node)[position]? = none) {u w : Nat}
    (scanned : ({ state with work := rest } : SccState).Scanned succs u w) :
    state.Scanned succs u w := by
  refine ⟨scanned.1, ?_⟩
  intro other mem
  rw [work] at mem
  rcases mem_cons.mp mem with top | below
  · obtain ⟨rfl, rfl⟩ := Prod.mk.inj top
    rw [take_of_length_le (getElem?_eq_none_iff.mp full)]
    exact scanned.1
  · exact scanned.2 other below

theorem scanned_newer (valid : state.Valid succs) (work : state.work = (node, position) :: rest)
    (full : (succs node)[position]? = none) {u w : Nat} (newer : state.number node ≤ state.number u)
    (listed : w ∈ succs u) : state.Scanned succs u w := by
  apply scanned_rest work full
  refine ⟨listed, ?_⟩
  intro other mem
  have less := valid.older work (mem_map.mpr ⟨_, mem, rfl⟩)
  exact absurd newer (not_le.mpr less)

/-- The finished function has an edge back, so it stays on the stack. -/
theorem Valid.retire (valid : state.Valid succs) (work : state.work = (node, position) :: rest)
    (full : (succs node)[position]? = none)
    (passed : ∀ parent place below, rest = (parent, place) :: below → state.low parent ≤ state.low node)
    (back : state.low node ≠ state.number node) :
    ({ state with work := rest } : SccState).Valid succs := by
  have inPath (x : Nat) (mem : x ∈ rest.map Prod.fst) : x ∈ state.path :=
    (mem_path work x).mpr (.inr mem)
  have top := (mem_path work node).mpr (.inl rfl)
  have onTop := valid.active node top
  have nested := valid.nested
  rw [path, work] at nested
  refine ⟨valid.known, valid.marked, valid.descending, valid.below, valid.separate, ?_,
    (pairwise_cons.mp nested).2, valid.condensed, ?_, ?_, ?_, ?_, ?_⟩
  · exact fun x mem => valid.active x (inPath x mem)
  · exact fun u w known scanned => valid.scanned u w known (scanned_rest work full scanned)
  · exact fun x mem => valid.descends x (inPath x mem)
  · intro y inStack
    obtain ⟨x, mem, order, reaches⟩ := valid.ascends y inStack
    rcases (mem_path work x).mp mem with rfl | below
    · obtain ⟨z, inStack', same, order', reaches'⟩ := valid.lowSound x top
      have less := lt_of_le_of_ne order' fun equal => back (same.symm.trans equal)
      obtain ⟨x', mem', order'', reaches''⟩ := valid.ascends z inStack'
      refine ⟨x', ?_, ((order''.trans less.le).trans order), (reaches.trans reaches').trans reaches''⟩
      rcases (mem_path work x').mp mem' with rfl | below
      · exact absurd order'' (not_le.mpr less)
      · exact below
    · exact ⟨x, below, order, reaches⟩
  · exact fun x mem => valid.lowSound x (inPath x mem)
  · intro x y w owns here there scanned
    have scanned' := scanned_rest work full scanned
    by_cases newer : state.number node ≤ state.number y
    · have bound := valid.lowComplete node y w ⟨top, newer, ?_⟩ here there scanned'
      · have below : x ∈ rest.map Prod.fst := owns.active
        match rest, work, owns, passed, below with
        | (parent, place) :: below, work, owns, passed, mem =>
          have isParent : x = parent := by
            rcases mem_cons.mp mem with same | deeper
            · exact same
            have older := valid.older work (mem_cons_self (a := parent))
            have newest := owns.newest parent mem_cons_self (older.le.trans newer)
            have less := (pairwise_cons.mp (pairwise_cons.mp nested).2).1 x deeper
            exact absurd newest (not_le.mpr less)
          rw [isParent]
          exact (passed parent place below rfl).trans bound
      · intro z mem _
        rcases (mem_path work z).mp mem with rfl | below
        · exact le_rfl
        · exact (valid.older work below).le
    · refine valid.lowComplete x y w ⟨inPath x owns.active, owns.older, ?_⟩ here there scanned'
      intro z mem order
      rcases (mem_path work z).mp mem with rfl | below
      · exact absurd order newer
      · exact owns.newest z below order

theorem popUntil_split {node : Nat} (top below : List Nat) (apart : node ∉ top) :
    popUntil node (top ++ node :: below) = (top ++ [node], below) := by
  induction top with
  | nil =>
    rw [nil_append, popUntil, if_pos rfl]
    rfl
  | cons mem top ih =>
    rw [mem_cons, not_or] at apart
    rw [cons_append, popUntil, if_neg (Ne.symm apart.1), ih apart.2]
    rfl

/-- The functions down to the finished one are a component. -/
theorem Valid.close (valid : state.Valid succs) (work : state.work = (node, position) :: rest)
    (full : (succs node)[position]? = none) (root : state.low node = state.number node) :
    (({ state with work := rest } : SccState).popComponent node).Valid succs := by
  have inPath (x : Nat) (mem : x ∈ rest.map Prod.fst) : x ∈ state.path :=
    (mem_path work x).mpr (.inr mem)
  have onPath := (mem_path work node).mpr (.inl rfl)
  have onTop := valid.active node onPath
  obtain ⟨top, below, split⟩ := append_of_mem onTop
  have descending := valid.descending
  rw [split] at descending
  obtain ⟨-, lowerPart, across⟩ := pairwise_append.mp descending
  have above (u : Nat) (mem : u ∈ top) : state.number node < state.number u :=
    across u mem node mem_cons_self
  have under (u : Nat) (mem : u ∈ below) : state.number u < state.number node :=
    (pairwise_cons.mp lowerPart).1 u mem
  have popped : popUntil node state.stack = (top ++ [node], below) := by
    rw [split]
    exact popUntil_split top below fun mem => (above node mem).false
  have shape : ({ state with work := rest } : SccState).popComponent node =
      { state with
        work := rest
        stack := below
        onStack := fun mem => if mem ∈ top ++ [node] then false else state.onStack mem
        sccs := state.sccs ++ [(top ++ [node]).mergeSort] } := by
    rw [popComponent, popped]
  have mem_stack (u : Nat) : u ∈ state.stack ↔ u ∈ top ++ [node] ∨ u ∈ below := by
    rw [split, append_cons, mem_append]
  have newer (u : Nat) (mem : u ∈ top ++ [node]) : state.number node ≤ state.number u := by
    rcases mem_append.mp mem with inTop | last
    · exact (above u inTop).le
    · rw [mem_singleton.mp last]
  have stays (u : Nat) (mem : u ∈ state.stack) (less : state.number u < state.number node) : u ∈ below :=
    ((mem_stack u).mp mem).resolve_left fun inside => absurd (newer u inside) (not_le.mpr less)
  have remains (u : Nat) (mem : u ∈ below) : u ∈ state.stack := (mem_stack u).mpr (.inr mem)
  have leaves (u : Nat) (mem : u ∈ top ++ [node]) : u ∈ state.stack := (mem_stack u).mpr (.inl mem)
  have apart (u : Nat) (mem : u ∈ below) : u ∉ top ++ [node] := fun inside =>
    absurd (newer u inside) (not_le.mpr (under u mem))
  have listed (u : Nat) : u ∈ (state.sccs ++ [(top ++ [node]).mergeSort]).flatten ↔
      u ∈ state.sccs.flatten ∨ u ∈ top ++ [node] := by
    rw [flatten_append, flatten_singleton, mem_append, mem_mergeSort]
  have known (u : Nat) : state.Known u ↔
      u ∈ below ∨ u ∈ (state.sccs ++ [(top ++ [node]).mergeSort]).flatten := by
    rw [valid.known, mem_stack, listed]
    tauto
  rw [shape]
  refine ⟨known, ?_, (pairwise_cons.mp lowerPart).2, ?_, ?_, ?_, ?_, ?_, ?_, ?_, ?_, ?_, ?_⟩
  · intro u
    change (if u ∈ top ++ [node] then false else state.onStack u) = true ↔ u ∈ below
    split
    · rename_i inside
      exact iff_of_false Bool.false_ne_true fun mem => apart u mem inside
    · rename_i outside
      rw [valid.marked, mem_stack, or_iff_right outside]
  · exact fun u mem => valid.below u (remains u mem)
  · intro u mem inside
    rcases (listed u).mp inside with old | new
    · exact valid.separate u (remains u mem) old
    · exact apart u mem new
  · intro x mem
    exact stays x (valid.active x (inPath x mem)) (valid.older work mem)
  · have nested := valid.nested
    rw [path, work] at nested
    exact (pairwise_cons.mp nested).2
  · have rooted : node ∈ (top ++ [node]).mergeSort := by
      rw [mem_mergeSort]
      exact mem_append_right _ mem_cons_self
    apply valid.condensed.push rooted
    · have distinct : (top ++ [node]).Nodup := by
        refine (descending.sublist ?_).imp fun less same => less.ne' (congrArg state.number same)
        exact (List.Sublist.refl top).append (singleton_sublist.mpr mem_cons_self)
      exact (mergeSort_perm _ _).nodup_iff.mpr distinct
    · intro u mem
      exact valid.separate u (leaves u (mem_mergeSort.mp mem))
    · intro u mem
      have mem := mem_mergeSort.mp mem
      have inStack := leaves u mem
      obtain ⟨x, mem', order, reaches⟩ := valid.ascends u inStack
      have oldest : state.number x ≤ state.number node := by
        rcases (mem_path work x).mp mem' with rfl | deeper
        · exact le_rfl
        · exact (valid.older work deeper).le
      exact ⟨valid.descends node onPath u inStack (newer u mem),
        reaches.trans (valid.descends x mem' node onTop oldest)⟩
    · intro u mem w edge
      have mem := mem_mergeSort.mp mem
      have scanned := scanned_newer valid work full (newer u mem) edge
      have known' := valid.scanned u w (valid.known_of_stack (leaves u mem)) scanned
      rcases (valid.known w).mp known' with inStack | old
      · left
        rw [mem_mergeSort]
        refine ((mem_stack w).mp inStack).resolve_right fun deeper => ?_
        have bound := valid.lowComplete node u w ⟨onPath, newer u mem, ?_⟩ (leaves u mem) inStack
          scanned
        · rw [root] at bound
          exact absurd bound (not_le.mpr (under w deeper))
        · intro z mem' _
          rcases (mem_path work z).mp mem' with rfl | deeper'
          · exact le_rfl
          · exact (valid.older work deeper').le
      · exact .inr old
  · exact fun u w known' scanned => valid.scanned u w known' (scanned_rest work full scanned)
  · exact fun x mem y mem' => valid.descends x (inPath x mem) y (remains y mem')
  · intro y mem
    obtain ⟨x, mem', order, reaches⟩ := valid.ascends y (remains y mem)
    refine ⟨x, ?_, order, reaches⟩
    rcases (mem_path work x).mp mem' with rfl | deeper
    · exact absurd order (not_le.mpr (under y mem))
    · exact deeper
  · intro x mem
    obtain ⟨y, inStack, same, order, reaches⟩ := valid.lowSound x (inPath x mem)
    exact ⟨y, stays y inStack (order.trans_lt (valid.older work mem)), same, order, reaches⟩
  · intro x y w owns mem mem' scanned
    refine valid.lowComplete x y w ⟨inPath x owns.active, owns.older, ?_⟩ (remains y mem)
      (remains w mem') (scanned_rest work full scanned)
    intro z mem'' order
    rcases (mem_path work z).mp mem'' with rfl | deeper
    · exact absurd order (not_le.mpr (under y mem))
    · exact owns.newest z deeper order

theorem Valid.finish (valid : state.Valid succs) (work : state.work = (node, position) :: rest)
    (full : (succs node)[position]? = none) : (state.finish node rest).Valid succs := by
  have ends (lowered : SccState) (valid' : lowered.Valid succs)
      (work' : lowered.work = (node, position) :: rest)
      (passed : ∀ parent place below, rest = (parent, place) :: below →
        lowered.low parent ≤ lowered.low node) :
      (if lowered.low node = lowered.number node then
        ({ lowered with work := rest } : SccState).popComponent node
        else { lowered with work := rest }).Valid succs := by
    split
    · rename_i root
      exact valid'.close work' full root
    · rename_i back
      exact valid'.retire work' full passed back
  match rest, work, ends with
  | [], work, ends => exact ends state valid work fun parent place below same => by cases same
  | (parent, place) :: below, work, ends =>
    have top := (mem_path work node).mpr (.inl rfl)
    have next := (mem_path work parent).mpr (.inr mem_cons_self)
    have older := valid.older work (mem_cons_self (a := parent))
    obtain ⟨y, inStack, same, -, reaches⟩ := valid.lowSound node top
    have down := valid.descends parent next node (valid.active node top) older.le
    have lowered := valid.lower inStack (down.trans reaches)
    rw [same] at lowered
    refine ends (state.lower parent (state.low node)) lowered work ?_
    intro parent' place' below' split
    obtain ⟨rfl, rfl⟩ := Prod.mk.inj (List.cons.inj split).1
    have apart : node ≠ parent := fun equal => older.ne (equal ▸ rfl)
    rw [low_lower, low_lower, if_pos rfl, if_neg apart]
    exact min_le_right _ _

end Finished

/-- An edge to a new function starts a visit of it. -/
theorem Valid.scan (valid : state.Valid succs) {node position succ : Nat} {rest : List (Nat × Nat)}
    (work : state.work = (node, position) :: rest) (next : (succs node)[position]? = some succ) :
    (state.scan node position succ rest).Valid succs := by
  have top := (mem_path work node).mpr (.inl rfl)
  have onTop := valid.active node top
  have edge : Reaches succs node succ := .single (mem_of_getElem? next)
  unfold SccState.scan
  dsimp only
  split
  · rename_i new
    have fresh : ¬ state.Known succ := by
      intro known
      rw [Known, Option.isSome_iff_ne_none] at known
      exact known (Option.isNone_iff_eq_none.mp new)
    have leads (x : Nat) (mem : x ∈ state.path) : Reaches succs x succ := by
      have order : state.number x ≤ state.number node := by
        rcases (mem_path work x).mp mem with rfl | deeper
        · exact le_rfl
        · exact (valid.older work deeper).le
      exact (valid.descends x mem node onTop order).trans edge
    have entered := valid.enter fresh leads
    have apart : node ≠ succ := fun same => fresh (same ▸ valid.known_of_stack onTop)
    refine entered.advance [(succ, 0)] ?_ next
      ((known_enter _ _ _).mpr (.inl rfl)) ?_
    · change (succ, 0) :: state.work = _
      rw [work]
      rfl
    intro _
    obtain ⟨y, inStack, same, order, -⟩ := valid.lowSound node top
    rw [low_enter, if_neg apart, number_enter, if_pos rfl, ← same]
    exact (valid.below y inStack).le
  · rename_i old
    have known : state.Known succ := by
      rw [Known, Option.isSome_iff_ne_none]
      exact fun none' => old (Option.isNone_iff_eq_none.mpr none')
    split
    · rename_i marked
      have inStack := (valid.marked succ).mp marked
      refine (valid.lower inStack edge).advance [] work next known ?_
      intro _
      rw [low_lower, if_pos rfl]
      exact min_le_right _ _
    rename_i unmarked
    refine valid.advance [] work next known ?_
    intro inStack
    exact absurd ((valid.marked succ).mpr inStack) unmarked

end SccState

end Codegraph.TaintFlow.Program
