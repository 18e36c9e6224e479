import Codegraph.Library.Dominance
import Codegraph.Library.ParentTree

namespace Codegraph.Library

open Relation List Option ParentTree

variable {Node : Type} {edge : Node → Node → Prop} {root : Node} {rank : Node → Nat}
  {idom : Node → Option Node} {next : Nat}

/-- Each reached node but the root has a predecessor of a lower rank. -/
structure Ranking (edge : Node → Node → Prop) (root : Node) (rank : Node → Nat) : Prop where
  apart : ∀ first second, ReachedBy edge root first → ReachedBy edge root second →
    rank first = rank second → first = second
  parents : ∀ node, ReachedBy edge root node → node ≠ root → ∃ before, edge before node ∧
    ReachedBy edge root before ∧ rank before < rank node

/-- The predecessors that have an entry. -/
def Entered (edge : Node → Node → Prop) (idom : Node → Option Node) (node before : Node) : Prop :=
  edge before node ∧ (idom before).isSome

/-- A table in a pass that has refined the entries below a rank. -/
structure Refining (edge : Node → Node → Prop) (root : Node) (rank : Node → Nat) (next : Nat)
    (idom : Node → Option Node) : Prop extends ParentTree root rank idom where
  reached : ∀ node, (idom node).isSome → ReachedBy edge root node
  dominators : ∀ node parent, ParentOf root idom node parent → ∀ dominator,
    StrictlyDominates edge root dominator node → Dominates edge root dominator parent
  meets : ∀ node parent, ParentOf root idom node parent → ∀ above,
    (∀ before, Entered edge idom node before → Under root idom before above) → Under root idom parent above
  forward : ∀ node parent, ParentOf root idom node parent → ∀ above, Under root idom parent above →
    rank node < next ∨ next ≤ rank above → ∀ before, edge before node → ReachedBy edge root before →
      rank before < rank node → Under root idom before above
  passed : ∀ node parent, ParentOf root idom node parent → ∀ before, edge before node →
    ReachedBy edge root before → rank before < rank node → (idom before).isSome
  covered : ∀ node, ReachedBy edge root node → rank node < next → (idom node).isSome

/-- At the start only the root has an entry. -/
theorem refining_root [DecidableEq Node]
    (least : ∀ node, ReachedBy edge root node → rank node < next → node = root) :
    Refining edge root rank next (fun node => if node = root then some root else none) := by
  have known (node : Node) : (if node = root then some root else none).isSome ↔ node = root := by
    split <;> simp [*]
  have none_up (node parent : Node) :
      ¬ ParentOf root (fun node => if node = root then some root else none) node parent := by
    intro up
    have found : (if node = root then some root else none) = some parent := up.2
    rw [if_neg up.1] at found
    contradiction
  refine ⟨⟨if_pos rfl, ?_, ?_, ?_⟩, ?_, ?_, ?_, ?_, ?_, ?_⟩
  · exact fun node parent up => absurd up (none_up node parent)
  · exact fun node parent up => absurd up (none_up node parent)
  · intro first second here here' _
    rw [(known first).mp here, (known second).mp here']
  · intro node here
    rw [(known node).mp here]
    exact ⟨_, .start⟩
  · exact fun node parent up => absurd up (none_up node parent)
  · exact fun node parent up => absurd up (none_up node parent)
  · exact fun node parent up => absurd up (none_up node parent)
  · exact fun node parent up => absurd up (none_up node parent)
  · exact fun node here low => (known node).mpr (least node here low)

namespace Refining

variable {node parent above dominator block meet : Node}

/-- A finished pass starts the next one. -/
theorem restart (refining : Refining edge root rank next idom) (first : Nat)
    (all : ∀ node, ReachedBy edge root node → rank node < next) :
    Refining edge root rank first idom where
  __ := refining
  forward := by
    intro node parent up above under _ before joined here lower
    have reached := refining.reached node (isSome_iff_exists.mpr ⟨parent, up.2⟩)
    exact refining.forward node parent up above under (.inl (all node reached)) before joined here lower
  covered := fun node here _ => refining.covered node here (all node here)

theorem under_of_dominates (refining : Refining edge root rank next idom) (known : (idom node).isSome)
    (dominates : Dominates edge root dominator node) : Under root idom node dominator := by
  induction height : rank node using Nat.strong_induction_on generalizing node with
  | _ height ih =>
    by_cases same : dominator = node
    · rw [same]
      exact ReflTransGen.refl
    have proper : node ≠ root := by
      rintro rfl
      exact same (mem_singleton.mp (dominates _ .start))
    obtain ⟨parent, found⟩ := isSome_iff_exists.mp known
    have up : ParentOf root idom node parent := ⟨proper, found⟩
    have higher := refining.dominators node parent up dominator ⟨same, dominates⟩
    have lower := refining.falls node parent up
    exact (ih _ (height ▸ lower) (refining.known node parent up) higher rfl).head up

theorem dominates_between (refining : Refining edge root rank next idom)
    (dominates : Dominates edge root dominator node) (under : Under root idom node above)
    (higher : Under root idom above dominator) : Dominates edge root dominator above := by
  induction under using ReflTransGen.head_induction_on with
  | refl => exact dominates
  | @head node parent up under ih =>
    apply ih
    apply refining.dominators node parent up dominator
    refine ⟨?_, dominates⟩
    rintro rfl
    have falls := refining.falls _ _ up
    have bound := refining.rank_le (under.trans higher)
    omega

section Meeting

variable (ranking : Ranking edge root rank) (refining : Refining edge root rank next idom)
  (here : ReachedBy edge root block) (proper : block ≠ root) (turn : rank block = next)
  (nearest : ParentTree.Nearest root idom (Entered edge idom block) meet)

include refining

theorem upward (proper : block ≠ root)
    (nearest : ParentTree.Nearest root idom (Entered edge idom block) meet) (parent : Node)
    (found : idom block = some parent) : Under root idom parent meet :=
  refining.meets block parent ⟨proper, found⟩ meet fun _ entered => nearest.under entered

include ranking here proper turn nearest

/-- The meeting point is above a predecessor of a lower rank. -/
theorem meet_below : (idom meet).isSome ∧ rank meet < rank block := by
  obtain ⟨before, joined, reached, lower⟩ := ranking.parents block here proper
  have known := refining.covered before reached (turn ▸ lower)
  have under := nearest.under ⟨joined, known⟩
  exact ⟨refining.under_known under known, (refining.rank_le under).trans_lt lower⟩

variable [DecidableEq Node]

theorem moved_known : ParentTree root rank (ParentTree.moved idom block meet) := by
  obtain ⟨known, lower⟩ := refining.meet_below ranking here proper turn nearest
  exact refining.moved_tree proper lower known fun other known' same =>
    ranking.apart other block (refining.reached other known') here same

section

variable (up : ParentOf root (ParentTree.moved idom block meet) node parent)
include up

theorem moved_dominators
    (strict : StrictlyDominates edge root dominator node) : Dominates edge root dominator parent := by
  by_cases same : node = block
  · subst same
    rw [(parentOf_moved proper).mp up]
    obtain ⟨before, joined, reached, lower⟩ := ranking.parents node here proper
    have known := refining.covered before reached (turn ▸ lower)
    apply refining.dominates_between (strict.before joined) (nearest.under ⟨joined, known⟩)
    apply (nearest dominator).mpr
    intro before entered
    exact refining.under_of_dominates entered.2 (strict.before entered.1)
  · exact refining.dominators node parent ((parentOf_moved_of_ne same).mp up) dominator strict

theorem moved_meets (common : ∀ before, Entered edge (ParentTree.moved idom block meet) node before →
      Under root (ParentTree.moved idom block meet) before above) :
    Under root (ParentTree.moved idom block meet) parent above := by
  obtain ⟨known, lower⟩ := refining.meet_below ranking here proper turn nearest
  have upward := refining.upward proper nearest
  have still (before : Node) (entered : Entered edge idom node before) :
      Under root (ParentTree.moved idom block meet) before above :=
    common before ⟨entered.1, moved_isSome.mpr (.inr entered.2)⟩
  have old (before : Node) (entered : Entered edge idom node before) : Under root idom before above :=
    refining.under_of_moved proper lower upward entered.2 (still before entered)
  by_cases same : node = block
  · subst same
    rw [(parentOf_moved proper).mp up]
    exact (under_moved_of_not (refining.meet_not_under lower)).mpr ((nearest above).mpr old)
  have up' := (parentOf_moved_of_ne same).mp up
  have under := refining.meets node parent up' above old
  by_cases below : Under root idom parent block
  · rcases under.total below with inside | outside
    · exact refining.under_moved proper lower under fun _ => inside
    -- A forward predecessor is under the block too, so it has lost what the block has lost.
    have reached := refining.reached node (isSome_iff_exists.mpr ⟨parent, up'.2⟩)
    obtain ⟨before, joined, reached', lower'⟩ := ranking.parents node reached up.1
    have known' := refining.passed node parent up' before joined reached' lower'
    have below' := refining.forward node parent up' block below (.inr turn.ge) before joined
      reached' lower'
    rcases (refining.under_moved_of_under proper lower below').mp (still before ⟨joined, known'⟩)
      with ⟨-, inside⟩ | higher
    · exact refining.under_moved proper lower under fun _ => inside
    · exact (refining.under_moved_of_under proper lower below).mpr (.inr higher)
  · exact (under_moved_of_not below).mpr under

theorem moved_forward (under : Under root (ParentTree.moved idom block meet) parent above)
    (either : rank node < next + 1 ∨ next + 1 ≤ rank above) {before : Node} (joined : edge before node)
    (reached : ReachedBy edge root before) (less : rank before < rank node) :
    Under root (ParentTree.moved idom block meet) before above := by
  obtain ⟨known, lower⟩ := refining.meet_below ranking here proper turn nearest
  have upward := refining.upward proper nearest
  have away {other : Node} (low : rank other < rank block) : ¬ Under root idom other block := by
    intro below
    have bound := refining.rank_le below
    omega
  by_cases same : node = block
  · subst same
    rw [(parentOf_moved proper).mp up] at under
    have above' := (under_moved_of_not (refining.meet_not_under lower)).mp under
    have entered := nearest.under ⟨joined, refining.covered before reached (turn ▸ less)⟩
    exact (under_moved_of_not (away less)).mpr (entered.trans above')
  have up' := (parentOf_moved_of_ne same).mp up
  have reached' := refining.reached node (isSome_iff_exists.mpr ⟨parent, up'.2⟩)
  have old := refining.under_of_moved proper lower upward (refining.known node parent up') under
  rcases either with earlier | later
  · have distinct : rank node ≠ rank block := fun equal =>
      same (ranking.apart node block reached' here equal)
    have earlier' : rank node < next := by omega
    have above' := refining.forward node parent up' above old (.inl earlier') before joined reached less
    exact (under_moved_of_not (away (by omega))).mpr above'
  have above' := refining.forward node parent up' above old (.inr (by omega)) before joined reached
    less
  apply refining.under_moved proper lower above'
  intro below
  rcases above'.total below with inside | outside
  · exact inside
  · have bound := refining.rank_le outside
    omega

end

omit ranking here proper nearest in
theorem moved_passed (up : ParentOf root (ParentTree.moved idom block meet) node parent) {before : Node}
    (joined : edge before node) (reached : ReachedBy edge root before)
    (less : rank before < rank node) : (ParentTree.moved idom block meet before).isSome := by
  apply moved_isSome.mpr
  by_cases same : node = block
  · subst same
    exact .inr (refining.covered before reached (turn ▸ less))
  · exact .inr (refining.passed node parent ((parentOf_moved_of_ne same).mp up) before joined
      reached less)

theorem refine : Refining edge root rank (next + 1) (ParentTree.moved idom block meet) where
  toParentTree := refining.moved_known ranking here proper turn nearest
  reached := by
    intro node known
    rcases moved_isSome.mp known with rfl | old
    · exact here
    · exact refining.reached node old
  dominators := fun _ _ up _ => refining.moved_dominators ranking here proper turn nearest up
  meets := fun _ _ up _ => refining.moved_meets ranking here proper turn nearest up
  forward := fun _ _ up _ under either _ =>
    refining.moved_forward ranking here proper turn nearest up under either
  passed := fun _ _ up _ => refining.moved_passed turn up
  covered := by
    intro node reached low
    apply moved_isSome.mpr
    by_cases same : node = block
    · exact .inl same
    have distinct : rank node ≠ rank block := fun equal =>
      same (ranking.apart node block reached here equal)
    exact .inr (refining.covered node reached (by omega))

end Meeting

/-- When every entry is the meeting point of the predecessors, the nodes above are the dominators. -/
theorem under_iff_dominates (refining : Refining edge root rank next idom)
    (all : ∀ node, ReachedBy edge root node → (idom node).isSome)
    (stable : ∀ node, ReachedBy edge root node → node ≠ root → ∃ meet, idom node = some meet ∧
      ParentTree.Nearest root idom (Entered edge idom node) meet)
    (here : ReachedBy edge root node) : Under root idom node above ↔ Dominates edge root above node := by
  constructor
  · intro under visited walk
    induction walk with
    | start =>
      rw [under.of_root]
      exact mem_cons_self
    | @next visited middle target before last ih =>
      rcases under.cases_parent with rfl | ⟨parent, up, higher⟩
      · exact mem_cons_self
      obtain ⟨meet, found, nearest⟩ := stable target ⟨_, before.next last⟩ up.1
      rw [up.2] at found
      obtain rfl := some.inj found
      have entered : Entered edge idom target middle := ⟨last, all middle ⟨_, before⟩⟩
      exact mem_cons_of_mem _ (ih ⟨_, before⟩ ((nearest.under entered).trans higher))
  · exact refining.under_of_dominates (all node here)

end Refining

end Codegraph.Library
