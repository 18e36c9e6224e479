import Codegraph.Library.Iteration
import Codegraph.Library.Positions
import Codegraph.Library.PostOrder
import Mathlib.Algebra.BigOperators.Group.Finset.Basic

namespace Codegraph.Library

open List Function

/-- The node that was entered last is on top, and the node that was left last comes first. -/
structure ResumedSearch (Node : Type) where
  visited : Node → Bool
  post : List Node
  stack : List (Node × Nat)

namespace ResumedSearch

variable {Node : Type} [DecidableEq Node] (succ : Node → List Node)

def start (root : Node) : ResumedSearch Node where
  visited := fun node => decide (node = root)
  post := []
  stack := [(root, 0)]

/-- The top node moves on to its next successor. -/
def advance (search : ResumedSearch Node) (node : Node) (next : Nat) (target : Node)
    (rest : List (Node × Nat)) : ResumedSearch Node :=
  if search.visited target then { search with stack := (node, next + 1) :: rest }
  else
    { search with
      visited := Function.update search.visited target true
      stack := (target, 0) :: (node, next + 1) :: rest }

def leave (search : ResumedSearch Node) (node : Node) (rest : List (Node × Nat)) : ResumedSearch Node :=
  { search with post := node :: search.post, stack := rest }

def round (search : ResumedSearch Node) : Option (Round (ResumedSearch Node)) :=
  match search.stack with
  | [] => some (.done search)
  | (node, next) :: rest =>
    match (succ node)[next]? with
    | some target => some (.next (search.advance node next target rest))
    | none => some (.next (search.leave node rest))

variable {succ} {root : Node}

/-- Every entered node is reached along the nodes below it. -/
def Stacked (step : Node → Node → Prop) (root : Node) : List (Node × Nat) → Prop
  | [] => True
  | (node, _) :: rest => WalkTo step root (node :: rest.map Prod.fst) node ∧ Stacked step root rest

/-- The nodes that are left are listed so that no node comes before one that dominates it, and each
one but the root comes after a node it is reached from. -/
structure Leaving (succ : Node → List Node) (root : Node) (search : ResumedSearch Node) : Prop where
  stacked : Stacked (fun first second => second ∈ succ first) root search.stack
  scanned : ∀ entry ∈ search.stack, ∀ w ∈ (succ entry.1).take entry.2, search.visited w = true
  entered : ∀ node, search.visited node = true ↔ node ∈ search.stack.map Prod.fst ∨ node ∈ search.post
  apart : (search.stack.map Prod.fst ++ search.post).Nodup
  closed : ∀ node ∈ search.post, ∀ w ∈ succ node, search.visited w = true
  reached : ∀ node ∈ search.post, ReachedBy (fun first second => second ∈ succ first) root node
  ordered : search.post.Pairwise fun later earlier =>
    ¬StrictlyDominates (fun first second => second ∈ succ first) root earlier later
  parents : ∀ node ∈ search.post, node ≠ root → ∃ before, node ∈ succ before ∧
    (before ∈ search.stack.map Prod.fst ∨ [before, node].Sublist search.post)
  rooted : search.visited root = true

theorem start_leaving (succ : Node → List Node) (root : Node) : Leaving succ root (start root) where
  stacked := ⟨.start, trivial⟩
  scanned := by
    intro entry mem w listed
    obtain rfl := mem_singleton.mp mem
    exact absurd listed not_mem_nil
  entered := by simp [start]
  apart := nodup_singleton root
  closed := by simp [start]
  reached := by simp [start]
  ordered := List.Pairwise.nil
  parents := by simp [start]
  rooted := by simp [start]

omit [DecidableEq Node] in
/-- A node is left below the nodes that it is reached along. -/
theorem Leaving.leave {search : ResumedSearch Node} {node : Node} {next : Nat}
    {rest : List (Node × Nat)} (leaving : Leaving succ root search)
    (top : search.stack = (node, next) :: rest) (last : (succ node)[next]? = none) :
    Leaving succ root (search.leave node rest) := by
  have stacked := leaving.stacked
  have scanned := leaving.scanned
  have entered := leaving.entered
  have apart := leaving.apart
  have parents := leaving.parents
  rw [top] at stacked scanned entered apart parents
  obtain ⟨walk, below⟩ := stacked
  rw [map_cons, cons_append, nodup_cons] at apart
  have disjoint := disjoint_of_nodup_append apart.2
  have whole := take_of_length_le (getElem?_eq_none_iff.mp last)
  refine ⟨below, fun entry mem => scanned entry (mem_cons_of_mem _ mem), ?_, ?_, ?_, ?_,
    ?_, ?_, leaving.rooted⟩
  · intro other
    change search.visited other = true ↔ other ∈ rest.map Prod.fst ∨ other ∈ node :: search.post
    rw [entered, map_cons, mem_cons, mem_cons]
    tauto
  · exact nodup_middle.mpr (nodup_cons.mpr apart)
  · intro other mem w listed
    rcases mem_cons.mp mem with rfl | old
    · exact scanned (other, next) mem_cons_self w (whole.symm ▸ listed)
    · exact leaving.closed other old w listed
  · intro other mem
    rcases mem_cons.mp mem with rfl | old
    · exact ⟨_, walk⟩
    · exact leaving.reached other old
  · apply pairwise_cons.mpr
    refine ⟨fun earlier mem strict => ?_, leaving.ordered⟩
    rcases mem_cons.mp (strict.2 _ walk) with same | above
    · exact strict.1 same
    · exact disjoint above mem
  · intro other mem proper
    rcases mem_cons.mp mem with rfl | old
    · obtain ⟨visited, middle, whole, before, joined⟩ := walk.enter proper
      obtain rfl := tail_eq_of_cons_eq whole
      exact ⟨middle, joined, .inl before.mem⟩
    obtain ⟨before, joined, place⟩ := parents other old proper
    refine ⟨before, joined, ?_⟩
    rcases place with above | listed
    · rcases mem_cons.mp above with rfl | above
      · exact .inr ((singleton_sublist.mpr old).cons_cons before)
      · exact .inl above
    · exact .inr (listed.cons node)

/-- A successor is visited from the top node unless it is visited already. -/
theorem Leaving.advance {search : ResumedSearch Node} {node target : Node} {next : Nat}
    {rest : List (Node × Nat)} (leaving : Leaving succ root search)
    (top : search.stack = (node, next) :: rest) (found : (succ node)[next]? = some target) :
    Leaving succ root (search.advance node next target rest) := by
  have stacked := leaving.stacked
  have scanned := leaving.scanned
  have entered := leaving.entered
  have apart := leaving.apart
  have parents := leaving.parents
  rw [top] at stacked scanned entered apart parents
  obtain ⟨walk, below⟩ := stacked
  have listed := mem_of_getElem? found
  have taken (w : Node) (mem : w ∈ (succ node).take (next + 1)) : search.visited w = true ∨ w = target := by
    rw [take_add_one, found] at mem
    rcases mem_append.mp mem with old | new
    · exact .inl (scanned (node, next) mem_cons_self w old)
    · exact .inr (mem_singleton.mp new)
  unfold ResumedSearch.advance
  by_cases known : search.visited target = true
  · rw [if_pos known]
    refine ⟨⟨walk, below⟩, ?_, entered, apart, leaving.closed, leaving.reached, leaving.ordered,
      parents, leaving.rooted⟩
    intro entry mem w placed
    rcases mem_cons.mp mem with rfl | old
    · rcases taken w placed with old | rfl
      · exact old
      · exact known
    · exact scanned entry (mem_cons_of_mem _ old) w placed
  rw [if_neg known]
  have update (w : Node) :
      update search.visited target true w = true ↔ w = target ∨ search.visited w = true := by
    by_cases same : w = target
    · simp [same]
    · simp [same]
  have fresh : target ∉ ((node, next) :: rest).map Prod.fst ++ search.post := by
    rwa [mem_append, ← entered]
  refine ⟨⟨walk.next listed, walk, below⟩, ?_, ?_, nodup_cons.mpr ⟨fresh, apart⟩, ?_,
    leaving.reached, leaving.ordered, ?_, (update root).mpr (.inr leaving.rooted)⟩
  · intro entry mem w placed
    apply (update w).mpr
    rcases mem_cons.mp mem with rfl | mem
    · exact absurd placed not_mem_nil
    rcases mem_cons.mp mem with rfl | old
    · exact (taken w placed).symm
    · exact .inr (scanned entry (mem_cons_of_mem _ old) w placed)
  · intro other
    rw [update, entered, map_cons, map_cons, mem_cons (a := other) (b := target)]
    exact or_assoc.symm
  · intro other mem w placed
    exact (update w).mpr (.inr (leaving.closed other mem w placed))
  · intro other mem proper
    obtain ⟨before, joined, place⟩ := parents other mem proper
    exact ⟨before, joined, place.imp_left (mem_cons_of_mem target)⟩

section Cost

/-- What a node that is not visited yet will cost. -/
def unvisitedCost (succ : Node → List Node) (search : ResumedSearch Node) (node : Node) : Nat :=
  if search.visited node then 0 else (succ node).length + 1

def frameCost (succ : Node → List Node) (entry : Node × Nat) : Nat :=
  (succ entry.1).length - entry.2 + 1

/-- The rounds that are left. -/
def cost (succ : Node → List Node) (nodes : Finset Node) (search : ResumedSearch Node) : Nat :=
  ∑ node ∈ nodes, search.unvisitedCost succ node + (search.stack.map (frameCost succ)).sum

omit [DecidableEq Node] in
theorem cost_leave {search : ResumedSearch Node} {nodes : Finset Node} {node : Node} {next : Nat}
    {rest : List (Node × Nat)} (top : search.stack = (node, next) :: rest) :
    (search.leave node rest).cost succ nodes < search.cost succ nodes := by
  have same : ∑ u ∈ nodes, (search.leave node rest).unvisitedCost succ u =
      ∑ u ∈ nodes, search.unvisitedCost succ u := rfl
  unfold cost
  rw [same, top, map_cons, sum_cons]
  unfold leave frameCost
  dsimp only
  omega

theorem sum_unvisited {search : ResumedSearch Node} {nodes : Finset Node} {target : Node}
    {stack : List (Node × Nat)} (inside : target ∈ nodes) (fresh : search.visited target ≠ true) :
    ∑ node ∈ nodes, (⟨Function.update search.visited target true, search.post, stack⟩ :
        ResumedSearch Node).unvisitedCost succ node + ((succ target).length + 1) =
      ∑ node ∈ nodes, search.unvisitedCost succ node := by
  have others : ∑ node ∈ nodes.erase target,
      (⟨update search.visited target true, search.post, stack⟩ :
        ResumedSearch Node).unvisitedCost succ node =
      ∑ node ∈ nodes.erase target, search.unvisitedCost succ node := by
    apply Finset.sum_congr rfl
    intro node mem
    have same : update search.visited target true node = search.visited node :=
      update_of_ne (Finset.ne_of_mem_erase mem) _ _
    simp only [unvisitedCost, same]
  have old : search.unvisitedCost succ target = (succ target).length + 1 := if_neg fresh
  have new : unvisitedCost succ ⟨update search.visited target true, search.post, stack⟩
      target = 0 := by
    simp [unvisitedCost]
  rw [← Finset.add_sum_erase _ _ inside, ← Finset.add_sum_erase nodes _ inside, others, old, new]
  omega

theorem cost_advance {search : ResumedSearch Node} {nodes : Finset Node} {node target : Node}
    {next : Nat} {rest : List (Node × Nat)} (top : search.stack = (node, next) :: rest)
    (found : (succ node)[next]? = some target) (inside : target ∈ nodes) :
    (search.advance node next target rest).cost succ nodes < search.cost succ nodes := by
  have short := (List.getElem?_eq_some_iff.mp found).1
  unfold advance
  by_cases known : search.visited target = true
  · rw [if_pos known]
    have same : ∑ u ∈ nodes,
        ({ search with stack := (node, next + 1) :: rest } : ResumedSearch Node).unvisitedCost succ u =
        ∑ u ∈ nodes, search.unvisitedCost succ u := rfl
    unfold cost
    rw [same, top, map_cons, map_cons, sum_cons, sum_cons]
    simp only [frameCost]
    omega
  rw [if_neg known]
  have paid : ∑ u ∈ nodes, (⟨update search.visited target true, search.post,
      (target, 0) :: (node, next + 1) :: rest⟩ : ResumedSearch Node).unvisitedCost succ u +
        ((succ target).length + 1) = ∑ u ∈ nodes, search.unvisitedCost succ u :=
    sum_unvisited inside known
  unfold cost
  rw [top]
  simp only [map_cons, sum_cons, frameCost, Nat.sub_zero]
  omega

end Cost

/-- The search lists the reached nodes below their dominators and after a node each is reached from. -/
structure Listed (succ : Node → List Node) (root : Node) (order : List Node) : Prop extends
    PostSearch.Listed succ root order where
  parents : ∀ node ∈ order, node ≠ root → ∃ before, node ∈ succ before ∧
    order.idxOf before < order.idxOf node

theorem whileLoop_round {nodes : Finset Node} (closed : ∀ u, ∀ w ∈ succ u, w ∈ nodes) {fuel : Nat}
    (enough : (start root).cost succ nodes < fuel) :
    ∃ last, whileLoop (round succ) fuel (start root) = some last ∧ Listed succ root last.post := by
  apply whileLoop_spec (cost succ nodes) (Leaving succ root) (fun last => Listed succ root last.post)
    ?_ (start_leaving succ root) enough
  intro search leaving
  unfold round
  split
  · rename_i done
    have all (node : Node) : search.visited node = true ↔ node ∈ search.post := by
      simpa [done] using leaving.entered node
    have distinct : search.post.Nodup := by simpa [done] using leaving.apart
    refine .inr ⟨search, rfl, ⟨distinct, fun node => ?_, leaving.ordered⟩, ?_⟩
    · constructor
      · exact leaving.reached node
      intro ⟨_, walk⟩
      apply walk.mem_of_closed ((all root).mp leaving.rooted)
      intro first second mem next
      exact (all second).mp (leaving.closed first mem second next)
    intro node mem proper
    obtain ⟨before, joined, place⟩ := leaving.parents node mem proper
    have listed : [before, node].Sublist search.post := by simpa [done] using place
    exact ⟨before, joined, idxOf_lt_of_sublist distinct listed⟩
  rename_i node next rest top
  left
  split
  · rename_i target found
    exact ⟨_, rfl, leaving.advance top found,
      cost_advance top found (closed node target (mem_of_getElem? found))⟩
  · rename_i last
    exact ⟨_, rfl, leaving.leave top last, cost_leave top⟩

end ResumedSearch

end Codegraph.Library
