import Codegraph.Library.Dominance
import Codegraph.Library.ListSet

namespace Codegraph.Library

open List

/-- The stack holds nodes to enter and, marked, the entered nodes that are not left yet. The node
that was left last comes first. -/
structure PostSearch (Node : Type) where
  visited : ListSet Node
  post : List Node
  stack : List (Node × Bool)

namespace PostSearch

variable {Node : Type}

def start (root : Node) : PostSearch Node := ⟨.empty, [], [(root, false)]⟩

/-- The entered nodes that are not left. -/
def marked (stack : List (Node × Bool)) : List Node := (stack.filter Prod.snd).map Prod.fst

@[simp] theorem marked_true (u : Node) (stack : List (Node × Bool)) :
    marked ((u, true) :: stack) = u :: marked stack := rfl

@[simp] theorem marked_false (u : Node) (stack : List (Node × Bool)) :
    marked ((u, false) :: stack) = marked stack := rfl

@[simp] theorem marked_unmarked (nodes : List Node) (stack : List (Node × Bool)) :
    marked (nodes.map (·, false) ++ stack) = marked stack := by
  induction nodes with
  | nil => rfl
  | cons node nodes ih => exact ih

variable [DecidableEq Node] (succ : Node → List Node)

/-- The unvisited successors of an entered node are pushed above its mark. -/
def enter (u : Node) (visited : ListSet Node) (stack : List (Node × Bool)) : List (Node × Bool) :=
  (succ u).foldl (fun stack w => if w ∈ visited.members then stack else (w, false) :: stack)
    ((u, true) :: stack)

def run : Nat → PostSearch Node → Option (List Node)
  | 0, _ => none
  | fuel + 1, search =>
    match search.stack with
    | [] => some search.post
    | (u, true) :: stack => run fuel ⟨search.visited, u :: search.post, stack⟩
    | (u, false) :: stack =>
      if u ∈ search.visited.members then run fuel { search with stack }
      else run fuel ⟨search.visited.insert u, search.post, enter succ u (search.visited.insert u) stack⟩

theorem enter_eq (u : Node) (visited : ListSet Node) (stack : List (Node × Bool)) :
    enter succ u visited stack =
      ((succ u).filter (· ∉ visited.members)).reverse.map (·, false) ++ (u, true) :: stack := by
  unfold enter
  generalize (u, true) :: stack = below
  induction succ u generalizing below with
  | nil => rfl
  | cons w rest ih =>
    rw [foldl_cons, ih]
    by_cases known : w ∈ visited.members <;> simp [known]

/-- The unvisited nodes with their edges and the stack together bound the steps that are left. -/
def pendingCost (nodes : List Node) (visited : ListSet Node) (stack : List (Node × Bool)) : Nat :=
  ((nodes.filter (· ∉ visited.members)).map fun u => (succ u).length + 1).sum + stack.length

omit [DecidableEq Node] in
theorem sum_filter_insert (cost : Node → Nat) {nodes : List Node} (distinct : nodes.Nodup)
    [DecidableEq Node] {visited : ListSet Node} {u : Node} (member : u ∈ nodes)
    (fresh : u ∉ visited.members) :
    ((nodes.filter (· ∉ (visited.insert u).members)).map cost).sum + cost u =
      ((nodes.filter (· ∉ visited.members)).map cost).sum := by
  have removed : nodes.filter (· ∉ (visited.insert u).members) =
      (nodes.filter (· ∉ visited.members)).erase u := by
    rw [(distinct.filter _).erase_eq_filter, filter_filter]
    refine filter_congr fun node _ => ?_
    by_cases same : node = u <;> simp [same, fresh]
  have inside : u ∈ nodes.filter (· ∉ visited.members) := by simp [member, fresh]
  rw [removed, add_comm]
  exact (sum_map_erase cost inside)

section Leaving

variable {succ} {root : Node}

/-- Every entry of the stack is reached along the marks below it. -/
def Stacked (step : Node → Node → Prop) (root : Node) : List (Node × Bool) → Prop
  | [] => True
  | (u, _) :: stack => WalkTo step root (u :: marked stack) u ∧ Stacked step root stack

/-- The successors of a marked node are visited or wait above it. -/
def Pending (succ : Node → List Node) : (Node → Prop) → List (Node × Bool) → Prop
  | _, [] => True
  | covered, (u, true) :: stack => (∀ w ∈ succ u, covered w) ∧ Pending succ covered stack
  | covered, (u, false) :: stack => Pending succ (fun w => w = u ∨ covered w) stack

variable {stack : List (Node × Bool)}

omit [DecidableEq Node] in
theorem Pending.mono {covered covered' : Node → Prop}
    (pending : Pending succ covered stack) (more : ∀ w, covered w → covered' w) :
    Pending succ covered' stack := by
  induction stack generalizing covered covered' with
  | nil => trivial
  | cons entry stack ih =>
    obtain ⟨u, mark⟩ := entry
    cases mark with
    | true => exact ⟨fun w member => more w (pending.1 w member), ih pending.2 more⟩
    | false => exact ih pending fun w => Or.imp_right (more w)

omit [DecidableEq Node] in
theorem pending_unmarked (waiting : List Node) {covered : Node → Prop}
    (pending : Pending succ (fun w => w ∈ waiting ∨ covered w) stack) :
    Pending succ covered (waiting.map (·, false) ++ stack) := by
  induction waiting generalizing covered with
  | nil => exact pending.mono fun w => (Or.resolve_left · not_mem_nil)
  | cons node waiting ih =>
    refine ih (pending.mono fun w => ?_)
    rw [mem_cons]
    tauto

omit [DecidableEq Node] in
theorem stacked_unmarked {step : Node → Node → Prop} (waiting : List Node) (stacked : Stacked step root stack)
    (walks : ∀ w ∈ waiting, WalkTo step root (w :: marked stack) w) :
    Stacked step root (waiting.map (·, false) ++ stack) := by
  induction waiting with
  | nil => exact stacked
  | cons node waiting ih =>
    have walk : WalkTo step root (node :: marked (waiting.map (·, false) ++ stack)) node := by
      rw [marked_unmarked]
      exact walks node mem_cons_self
    exact ⟨walk, ih fun w member => walks w (mem_cons_of_mem node member)⟩

/-- The nodes that are left are listed so that no node comes before one that dominates it. -/
structure Leaving (succ : Node → List Node) (root : Node) (search : PostSearch Node) : Prop where
  stacked : Stacked (fun first second => second ∈ succ first) root search.stack
  pending : Pending succ (· ∈ search.visited.members) search.stack
  entered : ∀ node, node ∈ search.visited.members ↔ node ∈ marked search.stack ∨ node ∈ search.post
  apart : (marked search.stack ++ search.post).Nodup
  closed : ∀ node ∈ search.post, ∀ w ∈ succ node, w ∈ search.visited.members
  reached : ∀ node ∈ search.post, ReachedBy (fun first second => second ∈ succ first) root node
  ordered : search.post.Pairwise fun later earlier =>
    ¬StrictlyDominates (fun first second => second ∈ succ first) root earlier later
  rooted : root ∈ search.visited.members ∨ (root, false) ∈ search.stack

omit [DecidableEq Node] in
theorem start_leaving (succ : Node → List Node) (root : Node) : Leaving succ root (start root) :=
  ⟨⟨.start, trivial⟩, trivial, by simp [start, marked], nodup_nil, by simp [start],
    by simp [start], List.Pairwise.nil, .inr mem_cons_self⟩

omit [DecidableEq Node] in
/-- A node is left below the nodes that it is reached along. -/
theorem Leaving.leave {visited : ListSet Node} {post : List Node} {u : Node}
    (leaving : Leaving succ root ⟨visited, post, (u, true) :: stack⟩) :
    Leaving succ root ⟨visited, u :: post, stack⟩ := by
  obtain ⟨walk, stacked⟩ := leaving.stacked
  obtain ⟨covered, pending⟩ := leaving.pending
  have apart := leaving.apart
  rw [marked_true, cons_append, nodup_cons] at apart
  have disjoint := disjoint_of_nodup_append apart.2
  refine ⟨stacked, pending, fun node => ?_, ?_, ?_, ?_, ?_, ?_⟩
  · rw [leaving.entered, marked_true, mem_cons, mem_cons]
    tauto
  · exact nodup_middle.mpr (nodup_cons.mpr apart)
  · intro node member
    rcases mem_cons.mp member with rfl | old
    · exact covered
    · exact leaving.closed node old
  · intro node member
    rcases mem_cons.mp member with rfl | old
    · exact ⟨_, walk⟩
    · exact leaving.reached node old
  · refine pairwise_cons.mpr ⟨fun earlier member strict => ?_, leaving.ordered⟩
    rcases mem_cons.mp (strict.2 _ walk) with same | above
    · exact strict.1 same
    · exact disjoint above member
  · rcases leaving.rooted with old | waiting
    · exact .inl old
    rcases mem_cons.mp waiting with same | below
    · exact absurd (congrArg Prod.snd same) Bool.false_ne_true
    · exact .inr below

omit [DecidableEq Node] in
/-- A node that was entered meanwhile is skipped. -/
theorem Leaving.skip {visited : ListSet Node} {post : List Node} {u : Node}
    (leaving : Leaving succ root ⟨visited, post, (u, false) :: stack⟩)
    (known : u ∈ visited.members) : Leaving succ root ⟨visited, post, stack⟩ := by
  have pending : Pending succ (fun w => w = u ∨ w ∈ visited.members) stack := leaving.pending
  refine ⟨leaving.stacked.2, pending.mono fun w => ?_, leaving.entered, leaving.apart,
    leaving.closed, leaving.reached, leaving.ordered, ?_⟩
  · rintro (rfl | old)
    · exact known
    · exact old
  rcases leaving.rooted with old | waiting
  · exact .inl old
  rcases mem_cons.mp waiting with same | below
  · obtain rfl : root = u := congrArg Prod.fst same
    exact .inl known
  · exact .inr below

theorem Leaving.enter {visited : ListSet Node} {post : List Node} {u : Node}
    (leaving : Leaving succ root ⟨visited, post, (u, false) :: stack⟩)
    (fresh : u ∉ visited.members) :
    Leaving succ root ⟨visited.insert u, post, PostSearch.enter succ u (visited.insert u) stack⟩ := by
  obtain ⟨walk, stacked⟩ := leaving.stacked
  have pending : Pending succ (fun w => w = u ∨ w ∈ visited.members) stack := leaving.pending
  have entered := leaving.entered u
  rw [enter_eq]
  refine ⟨?_, ?_, fun node => ?_, ?_, fun node left w member => ?_, leaving.reached, leaving.ordered, ?_⟩
  · refine stacked_unmarked _ ⟨walk, stacked⟩ fun w member => ?_
    exact walk.next (mem_of_mem_filter (mem_reverse.mp member))
  · refine pending_unmarked _ ⟨fun w member => ?_, pending.mono fun w => ?_⟩
    · by_cases known : w ∈ (visited.insert u).members
      · exact .inr known
      · refine .inl (mem_reverse.mpr (mem_filter.mpr ⟨member, ?_⟩))
        exact decide_eq_true known
    · intro either
      exact .inr ((visited.mem_insert u w).mpr either)
  · have old := leaving.entered node
    rw [marked_unmarked, marked_true, ListSet.mem_insert, old, mem_cons]
    tauto
  · rw [marked_unmarked, marked_true, cons_append, nodup_cons]
    refine ⟨fun member => fresh (entered.mpr (mem_append.mp member)), leaving.apart⟩
  · exact (visited.mem_insert u w).mpr (.inr (leaving.closed node left w member))
  · rcases leaving.rooted with old | waiting
    · exact .inl ((visited.mem_insert u root).mpr (.inr old))
    rcases mem_cons.mp waiting with same | below
    · exact .inl ((visited.mem_insert u root).mpr (.inl (congrArg Prod.fst same)))
    · exact .inr (mem_append_right _ (mem_cons_of_mem _ below))

end Leaving

/-- The search ends and lists the reached nodes, each once and dominators first. -/
structure Listed (succ : Node → List Node) (root : Node) (post : List Node) : Prop where
  nodup : post.Nodup
  mem : ∀ node, node ∈ post ↔ ReachedBy (fun first second => second ∈ succ first) root node
  ordered : post.Pairwise fun later earlier =>
    ¬StrictlyDominates (fun first second => second ∈ succ first) root earlier later

theorem Listed.idxOf_le {succ : Node → List Node} {root dominator node : Node} {post : List Node}
    (listed : Listed succ root post)
    (reached : ReachedBy (fun first second => second ∈ succ first) root node)
    (dominates : Dominates (fun first second => second ∈ succ first) root dominator node) :
    post.idxOf dominator ≤ post.idxOf node := by
  by_contra less
  rw [not_le] at less
  have member := (listed.mem node).mpr reached
  obtain ⟨visited, walk⟩ := reached
  obtain ⟨shorter, -, walk'⟩ := walk.suffix (dominates visited walk)
  have member' := (listed.mem dominator).mpr ⟨shorter, walk'⟩
  have pair := pairwise_iff_getElem.mp listed.ordered (post.idxOf node) (post.idxOf dominator)
    (idxOf_lt_length_iff.mpr member) (idxOf_lt_length_iff.mpr member') less
  rw [getElem_idxOf, getElem_idxOf] at pair
  exact pair ⟨fun same => absurd less (by rw [same]; exact lt_irrefl _), dominates⟩

theorem Listed.idxOf_root {succ : Node → List Node} {root : Node} {post : List Node}
    (listed : Listed succ root post) : post.idxOf root = 0 := by
  cases post with
  | nil => rfl
  | cons head post =>
    have first := listed.idxOf_le ((listed.mem head).mp mem_cons_self)
      (root_dominates head)
    rw [idxOf_cons_self] at first
    exact Nat.le_zero.mp first

theorem run_listed {succ : Node → List Node} {root : Node} {nodes : List Node}
    (distinct : nodes.Nodup) (closed : ∀ u ∈ nodes, ∀ w ∈ succ u, w ∈ nodes)
    (fuel : Nat) (search : PostSearch Node) (leaving : Leaving succ root search)
    (inside : ∀ entry ∈ search.stack, entry.1 ∈ nodes)
    (enough : pendingCost succ nodes search.visited search.stack < fuel) :
    ∃ post, run succ fuel search = some post ∧ Listed succ root post := by
  induction fuel generalizing search with
  | zero => exact absurd enough (Nat.not_lt_zero _)
  | succ fuel ih =>
    obtain ⟨visited, post, stack⟩ := search
    unfold run
    cases stack with
    | nil =>
      have all (node : Node) : node ∈ visited.members ↔ node ∈ post := by
        simpa [marked] using leaving.entered node
      refine ⟨post, rfl, by simpa [marked] using leaving.apart, fun node => ?_, leaving.ordered⟩
      refine ⟨leaving.reached node, fun ⟨_, walk⟩ => ?_⟩
      refine walk.mem_of_closed ?_ fun first second member next => ?_
      · exact (all root).mp (leaving.rooted.resolve_right not_mem_nil)
      · exact (all second).mp (leaving.closed first member second next)
    | cons entry stack =>
      obtain ⟨u, mark⟩ := entry
      have below : ∀ entry ∈ stack, entry.1 ∈ nodes :=
        fun entry member => inside entry (mem_cons_of_mem _ member)
      unfold pendingCost at enough
      dsimp only at enough
      rw [length_cons] at enough
      cases mark with
      | true => exact ih _ leaving.leave below (by unfold pendingCost; dsimp only; omega)
      | false =>
        by_cases known : u ∈ visited.members
        · dsimp only
          rw [if_pos known]
          exact ih _ (leaving.skip known) below (by unfold pendingCost; dsimp only; omega)
        dsimp only
        rw [if_neg known]
        have here : u ∈ nodes := inside (u, false) mem_cons_self
        refine ih _ (leaving.enter known) ?_ ?_
        · intro entry member
          rw [enter_eq] at member
          rcases mem_append.mp member with new | old
          · obtain ⟨w, listed, rfl⟩ := mem_map.mp new
            exact closed u here w (mem_of_mem_filter (mem_reverse.mp listed))
          rcases mem_cons.mp old with rfl | old
          · exact here
          · exact below entry old
        have paid := sum_filter_insert (fun u => (succ u).length + 1) distinct here known
        have fewer := length_filter_le (· ∉ (visited.insert u).members) (succ u)
        unfold pendingCost
        dsimp only
        rw [enter_eq, length_append, length_map, length_reverse, length_cons]
        omega

end PostSearch

end Codegraph.Library
