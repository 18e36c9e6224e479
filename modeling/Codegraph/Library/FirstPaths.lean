import Codegraph.Library.DepthSearch
import Mathlib.Data.List.Lex

namespace Codegraph.Library

open List Option

variable {Node : Type} [DecidableEq Node]

/-- The places that the nodes of a walk have among what the node before each leads to. -/
def ranks (next : Node → List Node) : List Node → List Nat
  | first :: second :: rest => (next first).idxOf second :: ranks next (second :: rest)
  | _ => []

/-- The longer walk has the place of the last step as well. -/
theorem ranks_concat (next : Node → List Node) {path : List Node} {before : Node}
    (last : path.getLast? = some before) (node : Node) :
    ranks next (path ++ [node]) = ranks next path ++ [(next before).idxOf node] := by
  induction path with
  | nil => contradiction
  | cons first rest ih =>
    cases rest with
    | nil =>
      obtain rfl : first = before := some.inj last
      rfl
    | cons second rest =>
      rw [getLast?_cons_cons] at last
      exact congrArg ((next first).idxOf second :: ·) (ih last)

/-- Walks of the same places from the same node are the same. -/
theorem ranks_injective {next : Node → List Node} {path other : List Node}
    (steps : path.IsChain fun first second => second ∈ next first)
    (steps' : other.IsChain fun first second => second ∈ next first) (head : path.head? = other.head?)
    (length : path.length = other.length) (same : ranks next path = ranks next other) : path = other := by
  induction path generalizing other with
  | nil => exact (length_eq_zero_iff.mp length.symm).symm
  | cons first rest ih =>
    cases other with
    | nil => contradiction
    | cons first' rest' =>
      obtain rfl : first = first' := some.inj head
      cases rest with
      | nil =>
        have empty := length_eq_zero_iff.mp (Nat.succ.inj length).symm
        rw [empty]
      | cons second rest =>
        cases rest' with
        | nil => simp at length
        | cons second' rest' =>
          rw [isChain_cons_cons] at steps steps'
          obtain ⟨place, places⟩ := cons_eq_cons.mp same
          obtain rfl : second = second' := (idxOf_inj steps.1).mp place
          rw [ih steps.2 steps'.2 rfl (Nat.succ.inj length) places]

/-- Places that come first still do so when more follow. -/
theorem append_lt_append {first second : List Nat} (length : first.length = second.length)
    (less : first < second) (left right : List Nat) : first ++ left < second ++ right := by
  induction first generalizing second with
  | nil =>
    rw [length_eq_zero_iff.mp length.symm] at less
    exact absurd less (lt_irrefl [])
  | cons place first ih =>
    cases second with
    | nil => contradiction
    | cons place' second =>
      rw [cons_append, cons_append, cons_lt_cons_iff]
      rcases cons_lt_cons_iff.mp less with lower | ⟨same, less⟩
      · exact .inl lower
      · exact .inr ⟨same, ih (Nat.succ.inj length) less⟩

theorem append_le_append {first second : List Nat} (length : first.length = second.length)
    (least : first ≤ second) (rest : List Nat) : first ++ rest ≤ second ++ rest := by
  rcases eq_or_lt_of_le least with same | less
  · rw [same]
  · exact (append_lt_append length less rest rest).le

theorem append_lt_place (first : List Nat) {place place' : Nat} (less : place < place') :
    first ++ [place] < first ++ [place'] :=
  append_left_lt (cons_lt_cons_iff.mpr (.inl less))

theorem length_ranks (next : Node → List Node) {path : List Node} {count : Nat}
    (length : path.length = count + 1) : (ranks next path).length = count := by
  induction path generalizing count with
  | nil => contradiction
  | cons first rest ih =>
    cases rest with
    | nil => exact Nat.succ.inj length
    | cons second rest =>
      obtain rfl : count = rest.length + 1 := (Nat.succ.inj length).symm
      exact congrArg Nat.succ (ih rfl)

theorem idxOf_map {Image : Type} [DecidableEq Image] (name : Node → Image) {nodes : List Node}
    {node : Node} (apart : ∀ other ∈ nodes, name other = name node → other = node) :
    (nodes.map name).idxOf (name node) = nodes.idxOf node := by
  induction nodes with
  | nil => rfl
  | cons first nodes ih =>
    rw [map_cons]
    by_cases same : first = node
    · rw [same, idxOf_cons_self, idxOf_cons_self]
    have differs : name first ≠ name node := fun equal => same (apart first mem_cons_self equal)
    rw [idxOf_cons_ne _ differs, idxOf_cons_ne _ same,
      ih fun other mem => apart other (mem_cons_of_mem _ mem)]

/-- Names keep the places of the steps. -/
theorem ranks_map {Image : Type} [DecidableEq Image] {next : Node → List Node}
    {next' : Image → List Image} {name : Node → Image} {path : List Node} (nodes : List Node)
    (apart : ∀ first ∈ nodes, ∀ second ∈ nodes, name first = name second → first = second)
    (inside : ∀ node ∈ path, node ∈ nodes) (closed : ∀ node ∈ nodes, ∀ other ∈ next node, other ∈ nodes)
    (named : ∀ node ∈ nodes, next' (name node) = (next node).map name) :
    ranks next' (path.map name) = ranks next path := by
  induction path with
  | nil => rfl
  | cons first rest ih =>
    have later := ih fun node mem => inside node (mem_cons_of_mem _ mem)
    cases rest with
    | nil => rfl
    | cons second rest =>
      have here := inside first mem_cons_self
      have there := inside second (mem_cons_of_mem _ mem_cons_self)
      have place : (next' (name first)).idxOf (name second) = (next first).idxOf second := by
        rw [named first here]
        exact idxOf_map name fun other mem => apart other (closed first here other mem) second there
      exact cons_eq_cons.mpr ⟨place, later⟩

/-- The places of the way that the parents lead to each met node. No walk of its length comes
before it. -/
structure RankedBy (next : Node → List Node) (root : Node) (depth : Node → Option Nat)
    (parent : Node → Option Node) (rank : Node → List Nat) : Prop where
  start : rank root = []
  length : ∀ node count, depth node = some count → (rank node).length = count
  led : ∀ node count before, depth node = some (count + 1) → parent node = some before →
    rank node = rank before ++ [(next before).idxOf node]
  least : ∀ node count, depth node = some count → ∀ path,
    Trail (· = root) (fun first second => second ∈ next first) node path → path.length = count + 1 →
      rank node ≤ ranks next path

/-- What waits at one depth comes in the order of the places, and what waits one step deeper was met
from a node before the first one that waits. -/
structure InOrder (next : Node → List Node) (root : Node) (depth : Node → Option Nat)
    (parent : Node → Option Node) (rank : Node → List Nat) (queue : List (Node × Nat)) : Prop
    extends RankedBy next root depth parent rank where
  sorted : queue.Pairwise fun first second => first.2 = second.2 → rank first.1 < rank second.1
  behind : ∀ first ∈ queue.head?, ∀ entry ∈ queue, entry.2 = first.2 + 1 →
    ∃ before place, rank entry.1 = before ++ [place] ∧ before < rank first.1

variable {next : Node → List Node} {root target : Node} {limit : Nat} {depth : Node → Option Nat}
  {parent : Node → Option Node} {rank : Node → List Nat} {rest : List (Node × Nat)} {current : Node}
  {level : Nat}

omit [DecidableEq Node] in
theorem DepthSearch.window {edge : Node → Node → Prop} {roots : Node → Prop}
    (search : DepthSearch edge roots target limit depth parent ((current, level) :: rest))
    {entry : Node × Nat} (mem : entry ∈ rest) : level ≤ entry.2 ∧ entry.2 ≤ level + 1 :=
  ⟨(pairwise_cons.mp search.sorted).1 entry mem,
    search.near entry.1 entry.2 (search.waiting entry (mem_cons_of_mem _ mem)) (current, level)
      mem_cons_self⟩

namespace InOrder

variable (search : DepthSearch (fun first second => second ∈ next first) (· = root) target limit depth
    parent ((current, level) :: rest))
  (order : InOrder next root depth parent rank ((current, level) :: rest))

include search order

theorem behind_tail {first entry : Node × Nat} (head : first ∈ rest.head?) (mem : entry ∈ rest)
    (deeper : entry.2 = first.2 + 1) :
    ∃ before place, rank entry.1 = before ++ [place] ∧ before < rank first.1 := by
  have inside := mem_of_mem_head? head
  have window := search.window inside
  have window' := search.window mem
  have same : level = first.2 := by omega
  obtain ⟨before, place, split, less⟩ := order.behind (current, level) rfl entry
    (mem_cons_of_mem _ mem) (by rw [deeper, same])
  exact ⟨before, place, split, less.trans ((pairwise_cons.mp order.sorted).1 first inside same)⟩

theorem skip : InOrder next root depth parent rank rest where
  toRankedBy := order.toRankedBy
  sorted := (pairwise_cons.mp order.sorted).2
  behind _ head _ mem deeper := order.behind_tail search head mem deeper

/-- No walk to an unmet node comes before the one by way of the first node that waits. -/
theorem least_new (within : level < limit) {node : Node} (fresh : depth node = none) {path : List Node}
    (route : Trail (· = root) (fun first second => second ∈ next first) node path)
    (length : path.length = level + 2) :
    rank current ++ [(next current).idxOf node] ≤ ranks next path := by
  obtain ⟨⟨start, head, begins⟩, last, steps⟩ := route
  obtain ⟨front, split⟩ := getLast?_eq_some_iff.mp last
  rw [split, length_append, length_singleton] at length
  have size := Nat.succ.inj length
  have nonempty := ne_nil_of_length_eq_add_one size
  obtain ⟨middle, end'⟩ : ∃ middle, front.getLast? = some middle :=
    ⟨front.getLast nonempty, getLast?_eq_some_getLast nonempty⟩
  rw [split, isChain_append] at steps
  rw [split, head?_append_of_ne_nil _ nonempty] at head
  have route' : Trail (· = root) (fun first second => second ∈ next first) middle front :=
    ⟨⟨start, head, begins⟩, end', steps.1⟩
  have step := steps.2.2 middle end' node rfl
  obtain ⟨start', count, begins', size', hops⟩ := route'.hops
  obtain rfl : count = level := Nat.succ.inj (size'.symm.trans size)
  have waits (entry : Node × Nat) (mem : entry ∈ (current, count) :: rest) : count ≤ entry.2 := by
    rcases mem_cons.mp mem with same | later
    · rw [same]
    · exact (search.window later).1
  have met : depth middle = some count ∧ (middle, count) ∈ (current, count) :: rest := by
    rcases search.covers begins' hops within.le with ⟨below, low, met⟩ | ⟨entry, mem, low⟩
    · rcases search.closed middle below met (by omega) with here | closed
      · have same := le_antisymm low (waits _ here)
        rw [same] at met here
        exact ⟨met, here⟩
      obtain ⟨other, _, met'⟩ := closed node step
      rw [fresh] at met'
      contradiction
    · have high := waits entry mem
      omega
  have least := order.least middle count met.1 front route' size
  rw [split, ranks_concat next end' node]
  rcases mem_cons.mp met.2 with same | later
  · obtain rfl : middle = current := congrArg Prod.fst same
    refine append_le_append ?_ least _
    rw [order.length middle count met.1, length_ranks next size]
  have less := (pairwise_cons.mp order.sorted).1 (middle, count) later rfl
  refine (append_lt_append ?_ (less.trans_le least) _ _).le
  rw [order.length current count (search.waiting (current, count) mem_cons_self), length_ranks next size]

/-- The new nodes are reached first by way of the node that they were met from. -/
theorem meet (within : level < limit) {new : List Node} {parent' : Node → Option Node}
    (fresh : ∀ node ∈ new, depth node = none)
    (led : ∀ node ∈ new, parent' node = some current) (kept : ∀ node ∉ new, parent' node = parent node) :
    RankedBy next root (fun node => if node ∈ new then some (level + 1) else depth node) parent'
      (fun node => if node ∈ new then rank current ++ [(next current).idxOf node] else rank node) := by
  have here := search.waiting (current, level) mem_cons_self
  have old {node : Node} {count : Nat} (met : depth node = some count) : node ∉ new := by
    intro mem
    rw [fresh node mem] at met
    contradiction
  refine ⟨?_, ?_, ?_, ?_⟩
  · rw [if_neg (old ((search.rooted root).mpr rfl))]
    exact order.start
  · intro node count met
    split at met
    · rename_i mem
      rw [if_pos mem, length_append, order.length current level here, length_singleton]
      exact some.inj met
    rename_i outside
    rw [if_neg outside]
    exact order.length node count met
  · intro node count before met found
    split at met
    · rename_i mem
      rw [led node mem] at found
      obtain rfl : current = before := some.inj found
      rw [if_pos mem, if_neg (old here)]
    rename_i outside
    rw [kept node outside] at found
    obtain ⟨before', found', met', _⟩ := search.led node count met
    obtain rfl : before' = before := some.inj (found'.symm.trans found)
    rw [if_neg outside, if_neg (old met')]
    exact order.led node count before' met found
  · intro node count met path route length
    split at met
    · rename_i mem
      obtain rfl : level + 1 = count := some.inj met
      rw [if_pos mem]
      exact order.least_new search within (fresh node mem) route length
    rename_i outside
    rw [if_neg outside]
    exact order.least node count met path route length

theorem expand (within : level < limit) {new : List Node} {parent' : Node → Option Node}
    (fresh : ∀ node ∈ new, depth node = none)
    (placed : new.Pairwise fun first second => (next current).idxOf first < (next current).idxOf second)
    (led : ∀ node ∈ new, parent' node = some current) (kept : ∀ node ∉ new, parent' node = parent node) :
    InOrder next root (fun node => if node ∈ new then some (level + 1) else depth node) parent'
      (fun node => if node ∈ new then rank current ++ [(next current).idxOf node] else rank node)
      (rest ++ new.map fun node => (node, level + 1)) := by
  have here := search.waiting (current, level) mem_cons_self
  have waits {entry : Node × Nat} (mem : entry ∈ rest) : entry.1 ∉ new := by
    intro inside
    have met := search.waiting entry (mem_cons_of_mem _ mem)
    rw [fresh entry.1 inside] at met
    contradiction
  have added {entry : Node × Nat} (mem : entry ∈ new.map fun node => (node, level + 1)) :
      entry.1 ∈ new ∧ entry.2 = level + 1 := by
    obtain ⟨node, inside, rfl⟩ := mem_map.mp mem
    exact ⟨inside, rfl⟩
  refine ⟨order.meet search within fresh led kept, ?_, ?_⟩
  · rw [pairwise_append]
    refine ⟨?_, ?_, ?_⟩
    · refine (pairwise_cons.mp order.sorted).2.imp_of_mem fun mem mem' ordered same => ?_
      rw [if_neg (waits mem), if_neg (waits mem')]
      exact ordered same
    · refine pairwise_map.mpr (placed.imp_of_mem fun mem mem' less _ => ?_)
      rw [if_pos mem, if_pos mem']
      exact append_lt_place _ less
    intro first mem second mem' same
    rw [(added mem').2] at same
    obtain ⟨before, place, split, less⟩ := order.behind (current, level) rfl first
      (mem_cons_of_mem _ mem) same
    have size := order.length first.1 first.2 (search.waiting first (mem_cons_of_mem _ mem))
    rw [split, same, length_append, length_singleton] at size
    rw [if_neg (waits mem), if_pos (added mem').1, split]
    refine append_lt_append ?_ less _ _
    rw [order.length current level here]
    exact Nat.succ.inj size
  intro first head entry mem deeper
  cases rest with
  | nil =>
    have same := (added (mem_of_mem_head? head)).2
    have same' := (added mem).2
    omega
  | cons front rest =>
    obtain rfl : front = first := some.inj head
    have inside : front ∈ front :: rest := mem_cons_self
    have window := search.window inside
    rcases mem_append.mp mem with earlier | last
    · obtain ⟨before, place, split, less⟩ := order.behind_tail search rfl earlier deeper
      refine ⟨before, place, ?_, ?_⟩
      · rwa [if_neg (waits earlier)]
      · rwa [if_neg (waits inside)]
    have same := (added last).2
    have level' : level = front.2 := by omega
    refine ⟨rank current, (next current).idxOf entry.1, if_pos (added last).1, ?_⟩
    rw [if_neg (waits inside)]
    exact (pairwise_cons.mp order.sorted).1 front inside level'

end InOrder

end Codegraph.Library
