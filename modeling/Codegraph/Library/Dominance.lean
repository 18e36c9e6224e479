import Mathlib.Tactic

namespace Codegraph.Library

open List

variable {Node : Type} {step : Node → Node → Prop} {root : Node}

/-- A walk lists its nodes, the last one first. -/
inductive WalkTo (step : Node → Node → Prop) (root : Node) : List Node → Node → Prop
  | start : WalkTo step root [root] root
  | next {visited : List Node} {middle target : Node} (before : WalkTo step root visited middle)
      (last : step middle target) : WalkTo step root (target :: visited) target

variable (step root)

def ReachedBy (node : Node) : Prop := ∃ visited, WalkTo step root visited node

/-- Some walk to the node has at most so many steps. -/
def Within (count : Nat) (node : Node) : Prop :=
  ∃ visited, WalkTo step root visited node ∧ visited.length ≤ count + 1

/-- Every walk to the node passes the dominator. -/
def Dominates (dominator node : Node) : Prop :=
  ∀ visited, WalkTo step root visited node → dominator ∈ visited

def StrictlyDominates (dominator node : Node) : Prop :=
  dominator ≠ node ∧ Dominates step root dominator node

/-- The closest of the nodes that strictly dominate a reached node. -/
def ImmediatelyDominates (dominator node : Node) : Prop :=
  ReachedBy step root node ∧ StrictlyDominates step root dominator node ∧
    ∀ other, StrictlyDominates step root other node → Dominates step root other dominator

variable {step root} {visited : List Node} {node middle dominator : Node}

namespace WalkTo

section

variable (walk : WalkTo step root visited node)
include walk

theorem mem : node ∈ visited := by
  cases walk with
  | start => exact mem_cons_self
  | next => exact mem_cons_self

theorem root_mem : root ∈ visited := by
  induction walk with
  | start => exact mem_cons_self
  | next _ _ ih => exact mem_cons_of_mem _ ih

theorem length_pos : 0 < visited.length := length_pos_of_mem walk.mem

theorem head : visited.head? = some node := by
  cases walk with
  | start => rfl
  | next => rfl

/-- A walk may stop at any of its nodes. -/
theorem suffix (member : middle ∈ visited) :
    ∃ shorter, shorter <:+ visited ∧ WalkTo step root shorter middle := by
  induction walk with
  | start =>
    rw [mem_singleton.mp member]
    exact ⟨[root], suffix_rfl, .start⟩
  | next before last ih =>
    rcases mem_cons.mp member with rfl | earlier
    · exact ⟨_, suffix_rfl, .next before last⟩
    · obtain ⟨shorter, inside, walk⟩ := ih earlier
      exact ⟨shorter, inside.trans (suffix_cons _ _), walk⟩

theorem simple : ∃ shorter, shorter ⊆ visited ∧ shorter.Nodup ∧ WalkTo step root shorter node := by
  induction walk with
  | start => exact ⟨[root], List.Subset.refl _, nodup_singleton root, .start⟩
  | @next visited middle target before last ih =>
    obtain ⟨shorter, inside, distinct, walk⟩ := ih
    by_cases again : target ∈ shorter
    · obtain ⟨cut, part, walk'⟩ := walk.suffix again
      exact ⟨cut, fun other member =>
        mem_cons_of_mem target (inside (part.subset member)),
        distinct.sublist part.sublist, walk'⟩
    · exact ⟨target :: shorter, cons_subset_cons target inside,
        nodup_cons.mpr ⟨again, distinct⟩, .next walk last⟩

theorem enter (other : node ≠ root) :
    ∃ before middle, visited = node :: before ∧ WalkTo step root before middle ∧ step middle node := by
  cases walk with
  | start => exact absurd rfl other
  | next before last => exact ⟨_, _, rfl, before, last⟩

end

theorem mem_of_closed {nodes : Node → Prop} (start : nodes root)
    (closed : ∀ first second, nodes first → step first second → nodes second)
    (walk : WalkTo step root visited node) : nodes node := by
  induction walk with
  | start => exact start
  | next _ last ih => exact closed _ _ ih last

end WalkTo

theorem root_dominates (node : Node) : Dominates step root root node := fun _ walk => walk.root_mem

theorem StrictlyDominates.before (strict : StrictlyDominates step root dominator node)
    (last : step middle node) : Dominates step root dominator middle := by
  intro visited walk
  exact (mem_cons.mp (strict.2 _ (walk.next last))).resolve_left strict.1

/-- Two nodes that dominate each other are the same. -/
theorem Dominates.antisymm {first second : Node} (upper : Dominates step root first second)
    (lower : Dominates step root second first) (reached : ReachedBy step root first) :
    first = second := by
  obtain ⟨visited, walk⟩ := reached
  induction length : visited.length using Nat.strong_induction_on
    generalizing visited first second with
  | _ count ih =>
    obtain ⟨shorter, inside, walk'⟩ := walk.suffix (lower visited walk)
    by_cases whole : shorter.length = visited.length
    · have same := walk.head
      rw [← inside.eq_of_length whole, walk'.head] at same
      exact (Option.some.inj same).symm
    have smaller := length ▸ lt_of_le_of_ne inside.length_le whole
    exact (ih _ smaller lower upper shorter walk' rfl).symm

/-- A node has no two immediate dominators. -/
theorem ImmediatelyDominates.unique {first second : Node}
    (closest : ImmediatelyDominates step root first node)
    (closest' : ImmediatelyDominates step root second node) : first = second := by
  obtain ⟨⟨visited, walk⟩, strict, nearest⟩ := closest
  obtain ⟨-, strict', nearest'⟩ := closest'
  obtain ⟨shorter, -, walk'⟩ := walk.suffix (strict.2 visited walk)
  exact (nearest' first strict).antisymm (nearest second strict') ⟨shorter, walk'⟩

theorem dominates_of_short [DecidableEq Node] {nodes : List Node}
    (inside : ∀ visited node, WalkTo step root visited node → visited ⊆ nodes)
    (short : ∀ visited, WalkTo step root visited node → visited.length ≤ nodes.length →
      dominator ∈ visited) : Dominates step root dominator node := by
  intro visited walk
  obtain ⟨shorter, part, distinct, walk'⟩ := walk.simple
  exact part (short shorter walk'
    (subperm_of_subset distinct (inside shorter node walk')).length_le)

section Within

variable {count count' : Nat}

theorem Within.mono (within : Within step root count node) (more : count ≤ count') :
    Within step root count' node := by
  obtain ⟨visited, walk, short⟩ := within
  exact ⟨visited, walk, short.trans (Nat.succ_le_succ more)⟩

theorem within_zero : Within step root 0 node ↔ node = root := by
  constructor
  · rintro ⟨visited, walk, short⟩
    cases walk with
    | start => rfl
    | next before last =>
      have positive := before.length_pos
      rw [length_cons] at short
      omega
  · rintro rfl
    exact ⟨[node], .start, le_rfl⟩

theorem within_succ (other : node ≠ root) : Within step root (count + 1) node ↔
    ∃ middle, Within step root count middle ∧ step middle node := by
  constructor
  · rintro ⟨visited, walk, short⟩
    obtain ⟨before, middle, rfl, walk', last⟩ := walk.enter other
    exact ⟨middle, ⟨before, walk', Nat.le_of_succ_le_succ short⟩, last⟩
  · rintro ⟨middle, ⟨visited, walk, short⟩, last⟩
    exact ⟨node :: visited, walk.next last, Nat.succ_le_succ short⟩

end Within

section Renaming

variable {Name : Type} {name : Node → Name} {inside : Node → Prop} {step' : Name → Name → Prop}

/-- The second graph is the first with other names for its nodes. -/
structure Renames (name : Node → Name) (inside : Node → Prop) (step : Node → Node → Prop)
    (root : Node) (step' : Name → Name → Prop) : Prop where
  root : inside root
  stays : ∀ first second, step first second → inside first ∧ inside second
  apart : Set.InjOn name {node | inside node}
  steps : ∀ first second, step' first second ↔
    ∃ source target, step source target ∧ name source = first ∧ name target = second

variable (renames : Renames name inside step root step')

include renames

theorem Renames.walk_inside (walk : WalkTo step root visited node) : ∀ middle ∈ visited, inside middle := by
  induction walk with
  | start => exact forall_mem_singleton.mpr renames.root
  | next _ last ih => exact forall_mem_cons.mpr ⟨(renames.stays _ _ last).2, ih⟩

theorem Renames.walk (walk : WalkTo step root visited node) :
    WalkTo step' (name root) (visited.map name) (name node) := by
  induction walk with
  | start => exact .start
  | next _ last ih => exact ih.next ((renames.steps _ _).mpr ⟨_, _, last, rfl, rfl⟩)

theorem Renames.walk_back {visited' : List Name} {node' : Name}
    (walk : WalkTo step' (name root) visited' node') :
    ∃ visited node, visited' = visited.map name ∧ node' = name node ∧ WalkTo step root visited node := by
  induction walk with
  | start => exact ⟨[root], root, rfl, rfl, .start⟩
  | next _ last ih =>
    obtain ⟨visited, node, rfl, rfl, walk⟩ := ih
    obtain ⟨source, target, joined, same, rfl⟩ := (renames.steps _ _).mp last
    have here := renames.apart (renames.stays _ _ joined).1
      (renames.walk_inside walk _ walk.mem) same
    exact ⟨target :: visited, target, rfl, rfl, walk.next (here ▸ joined)⟩

theorem Renames.dominates (insideDominator : inside dominator) (insideNode : inside node) :
    Dominates step' (name root) (name dominator) (name node) ↔ Dominates step root dominator node := by
  constructor
  · intro dominates visited walk
    obtain ⟨middle, member, same⟩ := mem_map.mp (dominates _ (renames.walk walk))
    exact renames.apart (renames.walk_inside walk middle member) insideDominator same ▸ member
  intro dominates visited' walk'
  obtain ⟨visited, other, rfl, same, walk⟩ := renames.walk_back walk'
  rw [← renames.apart insideNode (renames.walk_inside walk _ walk.mem) same] at walk
  exact mem_map_of_mem (dominates visited walk)

/-- Immediate dominators carry over to the names. -/
theorem Renames.immediatelyDominates (insideDominator : inside dominator) (insideNode : inside node) :
    ImmediatelyDominates step' (name root) (name dominator) (name node) ↔
      ImmediatelyDominates step root dominator node := by
  have reached : ReachedBy step' (name root) (name node) ↔ ReachedBy step root node := by
    constructor
    · rintro ⟨visited', walk'⟩
      obtain ⟨visited, other, -, same, walk⟩ := renames.walk_back walk'
      rw [← renames.apart insideNode (renames.walk_inside walk _ walk.mem) same] at walk
      exact ⟨visited, walk⟩
    · exact fun ⟨visited, walk⟩ => ⟨_, renames.walk walk⟩
  have strict {other : Node} (insideOther : inside other) :
      StrictlyDominates step' (name root) (name other) (name node) ↔
        StrictlyDominates step root other node :=
    and_congr (renames.apart.ne_iff insideOther insideNode)
      (renames.dominates insideOther insideNode)
  rw [ImmediatelyDominates, reached, strict insideDominator]
  refine and_congr_right fun ⟨visited, walk⟩ => and_congr_right fun _ => ?_
  constructor
  · intro closest other above
    have insideOther := renames.walk_inside walk other (above.2 visited walk)
    exact (renames.dominates insideOther insideDominator).mp
      (closest (name other) ((strict insideOther).mpr above))
  intro closest other' above'
  obtain ⟨other, member, rfl⟩ := mem_map.mp (above'.2 _ (renames.walk walk))
  have insideOther := renames.walk_inside walk other member
  exact (renames.dominates insideOther insideDominator).mpr
    (closest other ((strict insideOther).mp above'))

theorem Renames.named {first second : Name} (closest : ImmediatelyDominates step' (name root) first second) :
    ∃ dominator node, inside dominator ∧ inside node ∧ first = name dominator ∧ second = name node := by
  obtain ⟨⟨visited', walk'⟩, strict, -⟩ := closest
  have member := strict.2 visited' walk'
  obtain ⟨visited, node, rfl, rfl, walk⟩ := renames.walk_back walk'
  obtain ⟨dominator, listed, rfl⟩ := mem_map.mp member
  exact ⟨dominator, node, renames.walk_inside walk _ listed, renames.walk_inside walk _ walk.mem, rfl, rfl⟩

end Renaming

end Codegraph.Library
