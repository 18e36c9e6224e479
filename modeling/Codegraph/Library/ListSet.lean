import Mathlib.Data.Finset.Image
import Mathlib.Data.List.Sort
import Mathlib.Tactic

namespace Codegraph.Library

open List

/-- The members are listed once each, in the order in which they were inserted. -/
structure ListSet (Element : Type) where
  members : List Element
  nodup : members.Nodup
deriving DecidableEq

namespace ListSet

variable {Element : Type}

def empty : ListSet Element := ⟨[], nodup_nil⟩

def size (set : ListSet Element) : Nat := set.members.length

@[simp] theorem members_empty : (empty : ListSet Element).members = [] := rfl

theorem size_le {first second : ListSet Element}
    (grows : ∀ element ∈ first.members, element ∈ second.members) : first.size ≤ second.size :=
  (subperm_of_subset first.nodup grows).length_le

theorem mem_of_size_le {first second : ListSet Element}
    (grows : ∀ element ∈ first.members, element ∈ second.members)
    (noLarger : second.size ≤ first.size) {element : Element} (mem : element ∈ second.members) :
    element ∈ first.members := by
  have permuted := (subperm_of_subset first.nodup grows).perm_of_length_le noLarger
  exact permuted.mem_iff.mpr mem

variable [DecidableEq Element]

instance (set : ListSet Element) (element : Element) : Decidable (element ∈ set.members) :=
  inferInstance

def insert (set : ListSet Element) (element : Element) : ListSet Element :=
  if fresh : element ∈ set.members then set
  else
    { members := set.members ++ [element]
      nodup := by
        apply List.Nodup.append set.nodup (nodup_singleton element)
        intro other old new
        exact fresh (mem_singleton.mp new ▸ old) }

def erase (set : ListSet Element) (element : Element) : ListSet Element :=
  ⟨set.members.erase element, set.nodup.erase element⟩

def extend (set : ListSet Element) (elements : List Element) : ListSet Element :=
  elements.foldl insert set

@[simp] theorem mem_insert (set : ListSet Element) (element other : Element) :
    other ∈ (set.insert element).members ↔ other = element ∨ other ∈ set.members := by
  unfold insert
  split
  · rename_i present
    constructor
    · exact .inr
    intro either
    rcases either with same | mem
    · rwa [same]
    · exact mem
  · simp [or_comm]

@[simp] theorem mem_erase (set : ListSet Element) (element other : Element) :
    other ∈ (set.erase element).members ↔ other ≠ element ∧ other ∈ set.members :=
  set.nodup.mem_erase_iff

@[simp] theorem mem_extend (set : ListSet Element) (elements : List Element) (other : Element) :
    other ∈ (set.extend elements).members ↔ other ∈ elements ∨ other ∈ set.members := by
  induction elements generalizing set with
  | nil => simp [extend]
  | cons element elements ih =>
    change other ∈ ((set.insert element).extend elements).members ↔ _
    rw [ih, mem_insert, mem_cons, or_left_comm, or_assoc]

end ListSet

/-- A hash set lists each of its members once, in any order. -/
structure HashOrder (Element : Type) where
  iterate : Finset Element → List Element
  distinct : ∀ set, (iterate set).Nodup
  listed : ∀ set element, element ∈ iterate set ↔ element ∈ set

namespace HashOrder

variable {Element : Type} (order : HashOrder Element)

theorem iterate_toFinset [DecidableEq Element] (set : Finset Element) :
    (order.iterate set).toFinset = set := by
  ext element
  rw [mem_toFinset, order.listed]

theorem iterate_eq_nil {set : Finset Element} : order.iterate set = [] ↔ set = ∅ := by
  rw [eq_nil_iff_forall_not_mem, Finset.eq_empty_iff_forall_notMem]
  exact forall_congr' fun element => not_congr (order.listed set element)

/-- The members in ascending order. -/
def ascending : HashOrder Nat where
  iterate set := Quot.liftOn set.val (List.insertionSort (· ≤ ·)) fun first second same =>
    (((perm_insertionSort _ first).trans same).trans
      (perm_insertionSort _ second).symm).eq_of_pairwise' (pairwise_insertionSort _ _)
        (pairwise_insertionSort _ _)
  distinct set := by
    obtain ⟨members, distinct⟩ := set
    induction members using Quotient.inductionOn with
    | h members => exact (perm_insertionSort _ members).nodup_iff.mpr distinct
  listed set element := by
    obtain ⟨members, distinct⟩ := set
    induction members using Quotient.inductionOn with
    | h members => exact (perm_insertionSort _ members).mem_iff

/-- The members come in the order of their codes. -/
def byCode [DecidableEq Element] (code : Element → Nat) (decode : Nat → Element)
    (back : ∀ element, decode (code element) = element) : HashOrder Element where
  iterate set := (ascending.iterate (set.image code)).map decode
  distinct set := by
    refine (ascending.distinct (set.image code)).map_on ?_
    intro first member second member' same
    rw [ascending.listed, Finset.mem_image] at member member'
    obtain ⟨element, -, rfl⟩ := member
    obtain ⟨other, -, rfl⟩ := member'
    rw [back, back] at same
    rw [same]
  listed set element := by
    simp only [mem_map, ascending.listed, Finset.mem_image]
    constructor
    · rintro ⟨_, ⟨other, member, rfl⟩, rfl⟩
      rw [back]
      exact member
    · exact fun member => ⟨_, ⟨element, member, rfl⟩, back element⟩

/-- One element comes before all others. -/
def leading (first : Nat) : HashOrder Nat where
  iterate set :=
    if first ∈ set then first :: ascending.iterate (set.erase first) else ascending.iterate set
  distinct set := by
    split
    · refine nodup_cons.mpr ⟨?_, ascending.distinct _⟩
      rw [ascending.listed]
      exact Finset.notMem_erase first set
    · exact ascending.distinct set
  listed set element := by
    split
    · rename_i member
      rw [mem_cons, ascending.listed, Finset.mem_erase]
      by_cases same : element = first
      · simp [same, member]
      · simp [same]
    · exact ascending.listed set element

end HashOrder

end Codegraph.Library
