import Codegraph.Library.Iteration
import Codegraph.Library.ListSet
import Mathlib.Logic.Relation

namespace Codegraph.Library

open Relation List ListSet

variable {Node : Type} [DecidableEq Node]

/-- The visited nodes and those of them that wait. -/
structure Search (Node : Type) where
  visited : ListSet Node
  frontier : List Node

namespace Search

def start (root : Node) : Search Node := ⟨ListSet.empty.insert root, [root]⟩

/-- A new node waits for its successors. -/
def visit (search : Search Node) (node : Node) : Search Node :=
  if node ∈ search.visited.members then search
  else ⟨search.visited.insert node, node :: search.frontier⟩

variable (search : Search Node)

theorem mem_visit (node other : Node) : other ∈ (search.visit node).visited.members ↔
      other = node ∨ other ∈ search.visited.members := by
  unfold visit
  split
  · rename_i present
    constructor
    · exact .inr
    intro either
    rcases either with same | old
    · rwa [same]
    · exact old
  · exact mem_insert _ _ _

variable (nodes : List Node)

theorem mem_foldl_visit (other : Node) :
    other ∈ (nodes.foldl visit search).visited.members ↔
      other ∈ nodes ∨ other ∈ search.visited.members := by
  induction nodes generalizing search with
  | nil => simp
  | cons node nodes ih => rw [foldl_cons, ih, mem_visit, mem_cons, or_left_comm, or_assoc]

theorem mem_frontier_foldl_visit (other : Node) :
    other ∈ (nodes.foldl visit search).frontier ↔
      other ∈ search.frontier ∨ (other ∈ nodes ∧ other ∉ search.visited.members) := by
  induction nodes generalizing search with
  | nil => simp
  | cons node nodes ih =>
    rw [foldl_cons, ih, mem_visit]
    unfold visit
    split
    · rename_i present
      have absent : other ∉ search.visited.members → other ≠ node := fun fresh same =>
        fresh (same ▸ present)
      rw [mem_cons]
      tauto
    rename_i fresh
    rw [mem_cons, mem_cons]
    by_cases same : other = node
    · subst same
      simp [fresh]
    · simp [same]

/-- A visit adds as many nodes to the waiting ones as to the visited ones. -/
theorem foldl_visit_balance :
    (nodes.foldl visit search).frontier.length + search.visited.size =
      search.frontier.length + (nodes.foldl visit search).visited.size := by
  induction nodes generalizing search with
  | nil => rfl
  | cons node nodes ih =>
    have rest := ih (search.visit node)
    have step : (search.visit node).frontier.length + search.visited.size =
        search.frontier.length + (search.visit node).visited.size := by
      unfold visit
      split
      · rfl
      rename_i fresh
      have inserted : (search.visited.insert node).size = search.visited.size + 1 := by
        unfold ListSet.insert ListSet.size
        rw [dif_neg fresh, length_append, length_singleton]
      rw [inserted, length_cons]
      omega
    rw [foldl_cons]
    omega

/-- The visited nodes are reached, and only waiting nodes may have unvisited successors. -/
structure Sound (next : Node → List Node) (root : Node) (search : Search Node) : Prop where
  start : root ∈ search.visited.members
  reached : ∀ node ∈ search.visited.members,
    ReflTransGen (fun first second => second ∈ next first) root node
  waiting : ∀ node ∈ search.frontier, node ∈ search.visited.members
  closed : ∀ node ∈ search.visited.members, node ∈ search.frontier ∨
    ∀ other ∈ next node, other ∈ search.visited.members

theorem start_sound (next : Node → List Node) (root : Node) : (start root).Sound next root := by
  have only (node : Node) : node ∈ (start root).visited.members ↔ node = root := by
    rw [start, mem_insert, members_empty]
    simp
  refine ⟨(only root).mpr rfl, ?_, ?_, ?_⟩
  · intro node mem
    rw [(only node).mp mem]
  · intro node mem
    exact (only node).mpr (mem_singleton.mp mem)
  · intro node mem
    exact .inl (mem_singleton.mpr ((only node).mp mem))

theorem Sound.expand {next : Node → List Node} {root node : Node} {search : Search Node}
    {rest : List Node} (sound : search.Sound next root) (first : search.frontier = node :: rest) :
    ((next node).foldl visit { search with frontier := rest }).Sound next root := by
  have mem (other : Node) := mem_foldl_visit { search with frontier := rest } (next node) other
  have waits (other : Node) :=
    mem_frontier_foldl_visit { search with frontier := rest } (next node) other
  have here : node ∈ search.visited.members := sound.waiting node (by rw [first]; exact mem_cons_self)
  refine ⟨(mem root).mpr (.inr sound.start), ?_, ?_, ?_⟩
  · intro other visited
    rcases (mem other).mp visited with new | old
    · exact (sound.reached node here).tail new
    · exact sound.reached other old
  · intro other waiting
    rw [mem]
    rcases (waits other).mp waiting with old | ⟨new, _⟩
    · exact .inr (sound.waiting other (by rw [first]; exact mem_cons_of_mem node old))
    · exact .inl new
  intro other visited
  rw [waits]
  by_cases old : other ∈ search.visited.members
  · rcases sound.closed other old with waiting | closed
    · rw [first] at waiting
      rcases mem_cons.mp waiting with same | later
      · rw [same]
        exact .inr fun successor listed => (mem successor).mpr (.inl listed)
      · exact .inl (.inl later)
    · exact .inr fun successor listed => (mem successor).mpr (.inr (closed successor listed))
  · exact .inl (.inr ⟨((mem other).mp visited).resolve_right old, old⟩)

/-- When no node waits, the visited nodes are the reached ones. -/
theorem Sound.complete {next : Node → List Node} {root : Node} {search : Search Node}
    (sound : search.Sound next root) (empty : search.frontier = []) (node : Node) :
    node ∈ search.visited.members ↔ ReflTransGen (fun first second => second ∈ next first) root node := by
  constructor
  · exact sound.reached node
  intro reached
  induction reached with
  | refl => exact sound.start
  | tail _ step visited =>
    rcases sound.closed _ visited with waiting | closed
    · rw [empty] at waiting
      contradiction
    · exact closed _ step

section Beyond

/-- The root waits without being visited. -/
def startBeyond (root : Node) : Search Node := ⟨ListSet.empty, [root]⟩

/-- The last waiting node gets its successors visited. -/
def advance (next : Node → List Node) (search : Search Node) : Option (Search Node) :=
  match search.frontier with
  | [] => none
  | node :: rest => some ((next node).foldl visit { search with frontier := rest })

/-- The visited nodes are reached in at least one step. -/
structure Beyond (next : Node → List Node) (root : Node) (search : Search Node) : Prop where
  reached : ∀ node ∈ search.visited.members, TransGen (fun first second => second ∈ next first) root node
  waiting : ∀ node ∈ search.frontier, node = root ∨ node ∈ search.visited.members
  closed : ∀ node, node = root ∨ node ∈ search.visited.members → node ∈ search.frontier ∨
    ∀ other ∈ next node, other ∈ search.visited.members

variable {next : Node → List Node} {root : Node}

omit [DecidableEq Node] in
theorem startBeyond_beyond : (startBeyond root).Beyond next root where
  reached node mem := absurd mem not_mem_nil
  waiting node mem := .inl (mem_singleton.mp mem)
  closed node either := by
    rcases either with rfl | mem
    · exact .inl (mem_singleton.mpr rfl)
    · exact absurd mem not_mem_nil

theorem Beyond.advance {search after : Search Node} (beyond : search.Beyond next root)
    (moved : search.advance next = some after) : after.Beyond next root := by
  unfold Search.advance at moved
  split at moved
  · cases moved
  rename_i node rest first
  cases moved
  have mem (other : Node) := mem_foldl_visit { search with frontier := rest } (next node) other
  have waits (other : Node) :=
    mem_frontier_foldl_visit { search with frontier := rest } (next node) other
  have here := beyond.waiting node (by rw [first]; exact mem_cons_self)
  refine ⟨?_, ?_, ?_⟩
  · intro other visited
    rcases (mem other).mp visited with new | old
    · rcases here with rfl | visited'
      · exact .single new
      · exact (beyond.reached node visited').tail new
    · exact beyond.reached other old
  · intro other waiting
    rw [mem]
    rcases (waits other).mp waiting with old | ⟨new, -⟩
    · have before := beyond.waiting other (by rw [first]; exact mem_cons_of_mem node old)
      exact before.imp id .inr
    · exact .inr (.inl new)
  intro other either
  rw [waits]
  by_cases old : other = root ∨ other ∈ search.visited.members
  · rcases beyond.closed other old with waiting | closed
    · rw [first] at waiting
      rcases mem_cons.mp waiting with rfl | later
      · exact .inr fun successor listed => (mem successor).mpr (.inl listed)
      · exact .inl (.inl later)
    · exact .inr fun successor listed => (mem successor).mpr (.inr (closed successor listed))
  rw [not_or] at old
  have visited := either.resolve_left old.1
  exact .inl (.inr ⟨((mem other).mp visited).resolve_right old.2, old.2⟩)

theorem Beyond.complete {search : Search Node} (beyond : search.Beyond next root)
    (ended : search.advance next = none) (node : Node) : node ∈ search.visited.members ↔
      TransGen (fun first second => second ∈ next first) root node := by
  have empty : search.frontier = [] := by
    unfold Search.advance at ended
    split at ended
    · assumption
    · cases ended
  have closed (other : Node) (known : other = root ∨ other ∈ search.visited.members) :
      ∀ successor ∈ next other, successor ∈ search.visited.members := by
    refine (beyond.closed other known).resolve_left ?_
    rw [empty]
    exact not_mem_nil
  refine ⟨beyond.reached node, ?_⟩
  intro reached
  induction reached with
  | single step => exact closed root (.inl rfl) _ step
  | tail _ step visited => exact closed _ (.inr visited) _ step

theorem loop_advance_complete {nodes : List Node} (inside : ∀ node, ∀ other ∈ next node, other ∈ nodes)
    (node : Node) :
    node ∈ (loop (Search.advance next) (nodes.length + 1) (startBeyond root)).visited.members ↔
      TransGen (fun first second => second ∈ next first) root node := by
  let Inv (search : Search Node) : Prop :=
    search.Beyond next root ∧ ∀ node ∈ search.visited.members, node ∈ nodes
  let measure (search : Search Node) : Nat :=
    search.frontier.length + (nodes.length - search.visited.size)
  have keeps (before after : Search Node) (inv : Inv before)
      (moved : before.advance next = some after) : Inv after := by
    refine ⟨inv.1.advance moved, ?_⟩
    unfold Search.advance at moved
    split at moved
    · cases moved
    cases moved
    intro other visited
    rcases (mem_foldl_visit _ _ _).mp visited with new | old
    · exact inside _ other new
    · exact inv.2 other old
  have falls (before after : Search Node) (inv : Inv before)
      (moved : before.advance next = some after) : measure after < measure before := by
    have bound : after.visited.size ≤ nodes.length :=
      (subperm_of_subset after.visited.nodup (keeps before after inv moved).2).length_le
    unfold Search.advance at moved
    split at moved
    · cases moved
    rename_i current rest first
    cases moved
    have balance := foldl_visit_balance { before with frontier := rest } (next current)
    have grows : before.visited.size ≤
        ((next current).foldl visit { before with frontier := rest }).visited.size :=
      size_le fun other old => (mem_foldl_visit _ _ _).mpr (.inr old)
    change _ + (nodes.length - _) < before.frontier.length + (nodes.length - before.visited.size)
    rw [first, length_cons]
    dsimp only at balance
    omega
  have started : Inv (startBeyond root) := ⟨startBeyond_beyond, fun _ mem => absurd mem not_mem_nil⟩
  have halts := halts_loop keeps falls (nodes.length + 1) (startBeyond root) started
    (by change 1 + (nodes.length - 0) ≤ nodes.length + 1; omega)
  exact (halts.preserves keeps started).1.complete halts.ended node

end Beyond

end Search

end Codegraph.Library
