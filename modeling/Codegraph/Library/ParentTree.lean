import Mathlib.Logic.Relation
import Mathlib.Tactic

namespace Codegraph.Library

open Relation ReflTransGen

variable {Node : Type} {root : Node} {rank : Node → Nat} {idom : Node → Option Node}

/-- The root has no parent, though the table has the root itself for it. -/
def ParentOf (root : Node) (idom : Node → Option Node) (node parent : Node) : Prop :=
  node ≠ root ∧ idom node = some parent

/-- The second node is the first one or above it. -/
def Under (root : Node) (idom : Node → Option Node) : Node → Node → Prop :=
  ReflTransGen (ParentOf root idom)

/-- The nodes with an entry make a tree whose ranks fall towards the root. -/
structure ParentTree (root : Node) (rank : Node → Nat) (idom : Node → Option Node) : Prop where
  rooted : idom root = some root
  falls : ∀ node parent, ParentOf root idom node parent → rank parent < rank node
  known : ∀ node parent, ParentOf root idom node parent → (idom parent).isSome
  apart : ∀ first second, (idom first).isSome → (idom second).isSome → rank first = rank second →
    first = second

namespace Under

variable {first second third node parent above : Node}

theorem parent_unique (up : ParentOf root idom node first) (up' : ParentOf root idom node second) :
    first = second := Option.some.inj (up.2.symm.trans up'.2)

theorem cases_parent (under : Under root idom node above) :
    node = above ∨ ∃ parent, ParentOf root idom node parent ∧ Under root idom parent above :=
  under.cases_head

theorem of_root (under : Under root idom root above) : above = root := by
  rcases under.cases_parent with same | ⟨parent, up, -⟩
  · exact same.symm
  · exact absurd rfl up.1

/-- The nodes above one node are a chain. -/
theorem total (under : Under root idom node first) (under' : Under root idom node second) :
    Under root idom first second ∨ Under root idom second first :=
  total_of_right_unique (fun _ _ _ up up' => parent_unique up up') under under'

end Under

namespace ParentTree

variable {node parent above first second : Node} (tree : ParentTree root rank idom)

include tree

theorem rank_le (under : Under root idom node above) : rank above ≤ rank node := by
  induction under with
  | refl => exact le_rfl
  | tail _ up bound => exact (tree.falls _ _ up).le.trans bound

theorem rank_lt (under : Under root idom node above) (proper : node ≠ above) : rank above < rank node := by
  rcases under.cases_parent with same | ⟨parent, up, higher⟩
  · exact absurd same proper
  · exact (tree.rank_le higher).trans_lt (tree.falls _ _ up)

theorem antisymm (under : Under root idom first second) (under' : Under root idom second first) :
    first = second := by
  by_contra proper
  have lower := tree.rank_lt under proper
  have bound := tree.rank_le under'
  omega

theorem under_known (under : Under root idom node above) (start : (idom node).isSome) :
    (idom above).isSome := by
  induction under with
  | refl => exact start
  | tail _ up _ => exact tree.known _ _ up

theorem parent_of_lt (known : (idom node).isSome) (proper : rank root < rank node) :
    ∃ parent, ParentOf root idom node parent := by
  obtain ⟨parent, found⟩ := Option.isSome_iff_exists.mp known
  refine ⟨parent, ?_, found⟩
  rintro rfl
  exact lt_irrefl _ proper

section Nearest

variable {nodes : Node → Prop}

/-- The node that is above all of these nodes and below every other such node. -/
def Nearest (root : Node) (idom : Node → Option Node) (nodes : Node → Prop) (node : Node) : Prop :=
  ∀ above, Under root idom node above ↔ ∀ member, nodes member → Under root idom member above

omit tree in
theorem Nearest.under (nearest : Nearest root idom nodes node) {mem : Node} (listed : nodes mem) :
    Under root idom mem node := (nearest node).mp ReflTransGen.refl mem listed

theorem common_parent (up : ParentOf root idom first parent) (higher : rank second < rank first)
    (above : Node) : Under root idom parent above ∧ Under root idom second above ↔
      Under root idom first above ∧ Under root idom second above := by
  refine and_congr_left fun under => ?_
  constructor
  · exact ReflTransGen.head up
  intro under'
  rcases under'.cases_parent with same | ⟨parent', up', higher'⟩
  · subst same
    have bound := tree.rank_le under
    omega
  · rwa [Under.parent_unique up up']

end Nearest

section Update

variable [DecidableEq Node] {block meet : Node} (proper : block ≠ root) (lower : rank meet < rank block)

/-- The block has the meeting point for its parent, whatever it had before. -/
def moved (idom : Node → Option Node) (block meet : Node) : Node → Option Node :=
  Function.update idom block (some meet)

omit tree in
theorem moved_isSome : (moved idom block meet node).isSome ↔ node = block ∨ (idom node).isSome := by
  unfold moved
  by_cases same : node = block
  · simp [same]
  · simp [same]

omit tree in
theorem parentOf_moved_of_ne (other : node ≠ block) :
    ParentOf root (moved idom block meet) node parent ↔ ParentOf root idom node parent := by
  unfold ParentOf moved
  rw [Function.update_of_ne other]

include proper

omit tree in
theorem parentOf_moved : ParentOf root (moved idom block meet) block parent ↔ parent = meet := by
  rw [ParentOf, moved, Function.update_self, Option.some.injEq]
  exact ⟨fun up => up.2.symm, fun up => ⟨proper, up.symm⟩⟩

omit tree proper in
theorem under_moved_of_not (away : ¬ Under root idom node block) :
    Under root (moved idom block meet) node above ↔ Under root idom node above := by
  constructor
  · intro under
    induction under using head_induction_on with
    | refl => exact ReflTransGen.refl
    | @head node parent up _ ih =>
      have other : node ≠ block := by
        rintro rfl
        exact away ReflTransGen.refl
      have up' := (parentOf_moved_of_ne other).mp up
      exact (ih fun under => away (under.head up')).head up'
  intro under
  induction under using head_induction_on with
  | refl => exact ReflTransGen.refl
  | @head node parent up _ ih =>
    have other : node ≠ block := by
      rintro rfl
      exact away ReflTransGen.refl
    have up' : ParentOf root (moved idom block meet) node parent := (parentOf_moved_of_ne other).mpr up
    exact (ih fun under => away (under.head up)).head up'

omit proper [DecidableEq Node] in
theorem meet_not_under (lower : rank meet < rank block) : ¬ Under root idom meet block := by
  intro under
  have bound := tree.rank_le under
  omega

include lower

theorem under_moved_block :
    Under root (moved idom block meet) block above ↔ above = block ∨ Under root idom meet above := by
  have same : Under root (moved idom block meet) meet above ↔ Under root idom meet above :=
    under_moved_of_not (tree.meet_not_under lower)
  rw [← same]
  constructor
  · intro under
    rcases under.cases_parent with same | ⟨parent, up, higher⟩
    · exact .inl same.symm
    · rw [(parentOf_moved proper).mp up] at higher
      exact .inr higher
  intro either
  rcases either with rfl | under
  · exact ReflTransGen.refl
  · exact under.head ((parentOf_moved proper).mpr rfl)

theorem under_moved_of_under (under : Under root idom node block) :
    Under root (moved idom block meet) node above ↔
      (Under root idom node above ∧ Under root idom above block) ∨ Under root idom meet above := by
  induction under using head_induction_on with
  | refl =>
    rw [tree.under_moved_block proper lower]
    apply or_congr_left
    constructor
    · rintro rfl
      exact ⟨ReflTransGen.refl, ReflTransGen.refl⟩
    · exact fun both => tree.antisymm both.2 both.1
  | @head node parent up under ih =>
    have other : node ≠ block := by
      rintro rfl
      have falls := tree.falls _ _ up
      have bound := tree.rank_le under
      omega
    have up' : ParentOf root (moved idom block meet) node parent := (parentOf_moved_of_ne other).mpr up
    constructor
    · intro moved
      rcases moved.cases_parent with rfl | ⟨parent', up'', higher⟩
      · exact .inl ⟨ReflTransGen.refl, under.head up⟩
      · rw [← Under.parent_unique up' up''] at higher
        exact (ih.mp higher).imp_left fun both => ⟨both.1.head up, both.2⟩
    intro either
    rcases either with ⟨above, inside⟩ | higher
    · rcases above.cases_parent with rfl | ⟨parent', up'', higher⟩
      · exact ReflTransGen.refl
      · rw [← Under.parent_unique up up''] at higher
        exact (ih.mpr (.inl ⟨higher, inside⟩)).head up'
    · exact (ih.mpr (.inr higher)).head up'

theorem moved_tree (known : (idom meet).isSome)
    (alone : ∀ other, (idom other).isSome → rank other = rank block → other = block) :
    ParentTree root rank (moved idom block meet) where
  rooted := by
    rw [moved, Function.update_of_ne proper.symm]
    exact tree.rooted
  falls := by
    intro node parent up
    by_cases same : node = block
    · subst same
      rwa [(parentOf_moved proper).mp up]
    · exact tree.falls _ _ ((parentOf_moved_of_ne same).mp up)
  known := by
    intro node parent up
    apply moved_isSome.mpr
    by_cases same : node = block
    · subst same
      rw [(parentOf_moved proper).mp up]
      exact .inr known
    · exact .inr (tree.known _ _ ((parentOf_moved_of_ne same).mp up))
  apart := by
    intro first second known' known'' same
    rcases moved_isSome.mp known' with rfl | old
    · rcases moved_isSome.mp known'' with rfl | old'
      · rfl
      · exact (alone second old' same.symm).symm
    rcases moved_isSome.mp known'' with rfl | old'
    · exact alone first old same
    · exact tree.apart _ _ old old' same

section Upward

variable (upward : ∀ parent, idom block = some parent → Under root idom parent meet)

include upward

theorem under_of_moved (known : (idom node).isSome)
    (under : Under root (moved idom block meet) node above) : Under root idom node above := by
  by_cases below : Under root idom node block
  · rcases (tree.under_moved_of_under proper lower below).mp under with ⟨old, -⟩ | higher
    · exact old
    · obtain ⟨parent, found⟩ := Option.isSome_iff_exists.mp (tree.under_known below known)
      exact below.trans ((upward parent found).trans higher |>.head ⟨proper, found⟩)
  · exact (under_moved_of_not below).mp under

omit upward in
theorem under_moved (under : Under root idom node above)
    (inside : Under root idom node block → Under root idom above block) :
    Under root (moved idom block meet) node above := by
  by_cases below : Under root idom node block
  · exact (tree.under_moved_of_under proper lower below).mpr (.inl ⟨under, inside below⟩)
  · exact (under_moved_of_not below).mpr under

end Upward

end Update

end ParentTree

end Codegraph.Library
