import Mathlib.Data.List.MinMax
import Mathlib.Data.List.Perm.Basic
import Mathlib.Data.List.Sort
import Mathlib.Tactic

namespace Codegraph.Library

open List

/-- The arithmetic of costs, which need not be exact. -/
class Costing (Cost : Type) where
  zero : Cost
  infinity : Cost
  add : Cost → Cost → Cost
  less : Cost → Cost → Bool

/-- The proper costs are compared by keys, and a cost below a proper one is proper. -/
structure Ordered {Cost Key : Type} [Costing Cost] [LinearOrder Key] (key : Cost → Key)
    (Proper : Cost → Prop) : Prop where
  zero : Proper Costing.zero
  infinity : Proper Costing.infinity
  below : ∀ first second, Proper second → Costing.less first second = true → Proper first
  less : ∀ first second, Proper first → Proper second →
    (Costing.less first second = true ↔ key first < key second)
  injective : ∀ first second, Proper first → Proper second → key first = key second → first = second

theorem Ordered.not_less {Cost Key : Type} [Costing Cost] [LinearOrder Key] {key : Cost → Key}
    {Proper : Cost → Prop} (ordered : Ordered key Proper) {first second : Cost}
    (proper : Proper first) (proper' : Proper second) :
    ¬Costing.less first second = true ↔ key second ≤ key first := by
  rw [ordered.less first second proper proper', not_lt]

/-- A heap hands out any entry that costs no more than the others, at each time its own one. -/
structure HeapPolicy (Cost : Type) [Costing Cost] where
  pick : Nat → List Cost → Nat
  least : ∀ time costs, costs ≠ [] → ∃ least, costs[pick time costs]? = some least ∧
    ∀ other ∈ costs, ¬Costing.less other least = true

namespace HeapPolicy

variable {Cost Entry : Type} [Costing Cost] (policy : HeapPolicy Cost)

/-- The least entry and the rest of the heap. -/
def pop (time : Nat) (heap : List (Cost × Entry)) : Option ((Cost × Entry) × List (Cost × Entry)) :=
  let place := policy.pick time (heap.map Prod.fst)
  heap[place]?.map fun entry => (entry, heap.eraseIdx place)

/-- What is taken out and what stays make up the heap. -/
theorem pop_some {time : Nat} {heap rest : List (Cost × Entry)} {entry : Cost × Entry}
    (popped : policy.pop time heap = some (entry, rest)) :
    heap.Perm (entry :: rest) ∧ ∀ other ∈ heap, ¬Costing.less other.1 entry.1 = true := by
  obtain ⟨entry', found, same⟩ := Option.map_eq_some_iff.mp popped
  obtain ⟨rfl, rfl⟩ := Prod.mk.inj same
  constructor
  · obtain ⟨inside, rfl⟩ := List.getElem?_eq_some_iff.mp found
    exact (getElem_cons_eraseIdx_perm inside).symm
  intro other mem
  have costs : heap.map Prod.fst ≠ [] := ne_nil_of_mem (mem_map_of_mem mem)
  obtain ⟨least, picked, minimal⟩ := policy.least time _ costs
  rw [getElem?_map, found] at picked
  exact Option.some.inj picked ▸ minimal other.1 (mem_map_of_mem mem)

theorem pop_none {time : Nat} {heap : List (Cost × Entry)} (popped : policy.pop time heap = none) :
    heap = [] := by
  by_contra filled
  obtain ⟨least, picked, -⟩ := policy.least time (heap.map Prod.fst)
    fun empty => filled (map_eq_nil_iff.mp empty)
  rw [getElem?_map] at picked
  rw [Option.map_eq_none_iff.mp popped] at picked
  nomatch picked

/-- The least cost that was pushed first. -/
def first {Key : Type} [LinearOrder Key] (key : Cost → Key)
    (less : ∀ first second : Cost, Costing.less first second = true → key first < key second) :
    HeapPolicy Cost where
  pick _ costs := costs.findIdx fun cost => costs.all fun other => !Costing.less other cost
  least _ costs filled := by
    obtain ⟨least, found⟩ := Option.ne_none_iff_exists'.mp
      fun none : costs.argmin key = none => filled (argmin_eq_none.mp none)
    have minimal : ∃ cost ∈ costs, (costs.all fun other => !Costing.less other cost) = true := by
      refine ⟨least, argmin_mem found, all_eq_true.mpr fun other member => ?_⟩
      rw [Bool.not_eq_true', Bool.eq_false_iff]
      exact fun smaller => not_lt_of_mem_argmin member found (less other least smaller)
    have inside := findIdx_lt_length_of_exists minimal
    refine ⟨_, getElem?_eq_getElem inside, fun other member => ?_⟩
    have chosen := all_eq_true.mp (findIdx_getElem (w := inside)) other member
    rwa [Bool.not_eq_true', Bool.eq_false_iff] at chosen

end HeapPolicy

section Bounded

variable {Entry : Type} (before : Entry → Entry → Prop) [DecidableRel before]

/-- The heap grows by an entry and gives up its last one when it holds more than it may. -/
def pushBounded (limit : Nat) (heap : List Entry) (entry : Entry) : List Entry :=
  let grown := heap.orderedInsert before entry
  if limit < grown.length then grown.dropLast else grown

theorem take_orderedInsert (limit : Nat) (entries : List Entry) (entry : Entry) :
    ((entries.take limit).orderedInsert before entry).take limit =
      (entries.orderedInsert before entry).take limit := by
  induction entries generalizing limit with
  | nil => rw [take_nil]
  | cons first rest ih =>
    cases limit with
    | zero => rfl
    | succ limit =>
      rw [take_succ_cons, orderedInsert_cons, orderedInsert_cons]
      split
      · rw [take_succ_cons, take_succ_cons]
        cases limit with
        | zero => rfl
        | succ limit =>
          rw [take_succ_cons, take_succ_cons, take_take, min_eq_left]
          exact Nat.le_succ limit
      · rw [take_succ_cons, take_succ_cons, ih]

theorem pushBounded_take (limit : Nat) (entries : List Entry) (entry : Entry) :
    pushBounded before limit (entries.take limit) entry =
      (entries.orderedInsert before entry).take limit := by
  have grown := orderedInsert_length before (entries.take limit) entry
  have size := length_take_le limit entries
  rw [← take_orderedInsert, pushBounded]
  split
  · rename_i full
    rw [dropLast_eq_take]
    congr 1
    omega
  · rename_i within
    rw [take_of_length_le (Nat.le_of_not_lt within)]

theorem foldl_pushBounded (limit : Nat) (entries : List Entry) :
    entries.foldl (pushBounded before limit) [] = (entries.reverse.insertionSort before).take limit := by
  induction entries using List.reverseRecOn with
  | nil => exact take_nil.symm
  | append_singleton entries entry ih =>
    rw [foldl_append, ih, foldl_cons, foldl_nil, pushBounded_take,
      reverse_append, reverse_singleton, singleton_append, insertionSort_cons]

end Bounded

/-- The comparisons of the entries are those of a total order in which some may be equal. -/
structure TotalOn {Entry : Type} (compare : Entry → Entry → Ordering) (entries : List Entry) : Prop where
  swapped : ∀ first ∈ entries, ∀ second ∈ entries, compare second first = (compare first second).swap
  chained : ∀ first ∈ entries, ∀ second ∈ entries, ∀ third ∈ entries,
    (compare first second).isLE → (compare second third).isLE → (compare first third).isLE

instance {Entry : Type} (compare : Entry → Entry → Ordering) (entries : List Entry) :
    Decidable (TotalOn compare entries) :=
  decidable_of_iff
    ((∀ first ∈ entries, ∀ second ∈ entries, compare second first = (compare first second).swap) ∧
      ∀ first ∈ entries, ∀ second ∈ entries, ∀ third ∈ entries,
        (compare first second).isLE → (compare second third).isLE → (compare first third).isLE)
    ⟨fun both => ⟨both.1, both.2⟩, fun total => ⟨total.swapped, total.chained⟩⟩

/-- A heap hands out its entries in any order. A stable sort orders them by comparisons that are those
of a total order. Otherwise it may panic or leave them in any order. -/
structure SortRuntime (Entry : Type) where
  drain : List Entry → List Entry
  drained : ∀ heap, (drain heap).Perm heap
  sortBy : (Entry → Entry → Ordering) → List Entry → Option (List Entry)
  permuted : ∀ compare entries sorted, sortBy compare entries = some sorted → sorted.Perm entries
  stable : ∀ compare entries, TotalOn compare entries →
    sortBy compare entries = some (entries.mergeSort fun first second => (compare first second).isLE)

/-- The heap hands out its last entry first, and a sort by other comparisons changes nothing. -/
def SortRuntime.lastFirst (Entry : Type) : SortRuntime Entry where
  drain := List.reverse
  drained := reverse_perm
  sortBy compare entries :=
    if TotalOn compare entries then
      some (entries.mergeSort fun first second => (compare first second).isLE)
    else some entries
  permuted compare entries sorted result := by
    split at result
    · rw [← Option.some.inj result]
      exact mergeSort_perm entries _
    · rw [Option.some.inj result]
  stable compare entries total := if_pos total

end Codegraph.Library
