import Mathlib.Tactic

namespace Codegraph.Library

open List

variable {Item : Type}

/-- The items between two positions. -/
def slice (items : List Item) (start stop : Nat) : List Item := (items.drop start).take (stop - start)

theorem slice_map {Image : Type} (change : Item → Image) (items : List Item) (start stop : Nat) :
    slice (items.map change) start stop = (slice items start stop).map change := by
  unfold slice
  rw [← map_drop, ← map_take]

/-- Row `i` lies between pointers `i` and `i + 1`. -/
structure Rows (Item : Type) where
  ptrs : List Nat
  items : List Item

namespace Rows

def empty : Rows Item := ⟨[0], []⟩

def push (rows : Rows Item) (row : List Item) : Rows Item :=
  ⟨rows.ptrs ++ [(rows.items ++ row).length], rows.items ++ row⟩

def pack (lists : List (List Item)) : Rows Item := lists.foldl push empty

variable (lists : List (List Item))

theorem pack_concat (last : List Item) : pack (lists ++ [last]) = (pack lists).push last := by
  simp [pack]

theorem items_pack : (pack lists).items = lists.flatten := by
  induction lists using List.reverseRecOn with
  | nil => rfl
  | append_singleton lists last ih =>
    rw [pack_concat, flatten_append]
    simp [push, ih]

/-- A pointer counts the items of the rows before it. -/
theorem ptrs_pack : (pack lists).ptrs =
      (List.range (lists.length + 1)).map fun index => (lists.take index).flatten.length := by
  induction lists using List.reverseRecOn with
  | nil => rfl
  | append_singleton lists last ih =>
    rw [pack_concat]
    change (pack lists).ptrs ++ [((pack lists).items ++ last).length] = _
    have count : (lists ++ [last]).length = lists.length + 1 := by simp
    rw [ih, items_pack, count, range_succ (n := lists.length + 1), map_append]
    congr 1
    · apply map_congr_left
      intro index mem
      have inside := Nat.lt_succ_iff.mp (List.mem_range.mp mem)
      rw [take_append_of_le_length inside]
    · rw [map_singleton, ← count, take_length, flatten_append]
      simp

theorem length_ptrs : (pack lists).ptrs.length = lists.length + 1 := by
  rw [ptrs_pack, length_map, length_range]

theorem ptrs_getD {index : Nat} (inside : index ≤ lists.length) :
    (pack lists).ptrs.getD index 0 = (lists.take index).flatten.length := by
  rw [ptrs_pack, getD_eq_getElem?_getD, getElem?_map, getElem?_range (Nat.lt_succ_of_le inside)]
  rfl

/-- The pointers ascend. -/
theorem ptrs_sorted : (pack lists).ptrs.Pairwise (· ≤ ·) := by
  rw [ptrs_pack, pairwise_map]
  apply List.Pairwise.imp _ pairwise_lt_range
  intro first second before
  have extends' : lists.take first <+: lists.take second := take_prefix_take_left (le_of_lt before)
  obtain ⟨rest, joined⟩ := extends'
  rw [← joined, flatten_append, length_append]
  exact Nat.le_add_right _ _

theorem slice_pack {index : Nat} (inside : index < lists.length) :
    slice (pack lists).items ((pack lists).ptrs.getD index 0)
      ((pack lists).ptrs.getD (index + 1) 0) = lists[index] := by
  have split : lists.flatten =
      (lists.take index).flatten ++ (lists[index] ++ (lists.drop (index + 1)).flatten) := by
    conv => left; rw [← take_append_drop index lists]
    rw [flatten_append, drop_eq_getElem_cons inside, flatten_cons]
  have after : (lists.take (index + 1)).flatten.length =
      (lists.take index).flatten.length + lists[index].length := by
    rw [take_succ_eq_append_getElem inside, flatten_append, length_append]
    simp
  rw [ptrs_getD lists (le_of_lt inside), ptrs_getD lists inside, items_pack]
  rw [slice, after, split, drop_left, Nat.add_sub_cancel_left, take_left]

end Rows

end Codegraph.Library
