import Codegraph.Library.Dict
import Mathlib.Data.Finset.Card
import Mathlib.Data.Finset.Union
import Mathlib.Data.List.Sort
import Mathlib.Data.Option.Basic
import Mathlib.Tactic.Common

namespace Codegraph.Library

open List

section Free

/-- The colors are tried one after another as long as there is fuel. -/
def nextFree (used : Finset Nat) : Nat → Nat → Nat
  | 0, color => color
  | fuel + 1, color => if color ∈ used then nextFree used fuel (color + 1) else color

/-- Some color up to the number of the used ones is free. -/
def firstFree (used : Finset Nat) : Nat := nextFree used used.card 0

theorem nextFree_spec {used : Finset Nat} (fuel color : Nat) (enough : used.card ≤ fuel + color)
    (below : ∀ smaller < color, smaller ∈ used) :
    nextFree used fuel color ∉ used ∧ ∀ smaller < nextFree used fuel color, smaller ∈ used := by
  induction fuel generalizing color with
  | zero =>
    refine ⟨fun taken => ?_, below⟩
    have filled : Finset.range (color + 1) ⊆ used := by
      intro other inside
      rcases Nat.lt_succ_iff_lt_or_eq.mp (Finset.mem_range.mp inside) with less | rfl
      · exact below other less
      · exact taken
    have count := Finset.card_le_card filled
    rw [Finset.card_range] at count
    omega
  | succ fuel ih =>
    unfold nextFree
    split
    · rename_i taken
      refine ih (color + 1) (by omega) fun smaller less => ?_
      rcases Nat.lt_succ_iff_lt_or_eq.mp less with less | rfl
      · exact below smaller less
      · exact taken
    · rename_i free
      exact ⟨free, below⟩

theorem firstFree_eq_iff {used : Finset Nat} {color : Nat} :
    firstFree used = color ↔ color ∉ used ∧ ∀ smaller < color, smaller ∈ used := by
  have free := @nextFree_spec used used.card 0 (by omega) (by simp)
  constructor
  · rintro rfl
    exact free
  rintro ⟨unused, below⟩
  rcases Nat.lt_trichotomy (firstFree used) color with less | same | more
  · exact absurd (below _ less) free.1
  · exact same
  · exact absurd (free.2 _ more) unused

end Free

section Fit

variable {Node : Type} [DecidableEq Node] (near : Node → Finset Node)

def colorsNear (colors : Dict Node Nat) (node : Node) : Finset Nat :=
  (near node).biUnion fun other => (colors.get other).toFinset

/-- A node gets the first color that is free among its neighbours. -/
def colorNode (colors : Dict Node Nat) (node : Node) : Dict Node Nat :=
  colors.set node (firstFree (colorsNear near colors node))

def firstFit (nodes : List Node) : Dict Node Nat := nodes.foldl (colorNode near) ∅

/-- Neighbours differ in color, and each smaller color belongs to a neighbour that comes before. -/
structure FirstFits (before : Node → Node → Prop) (nodes : List Node) (color : Node → Nat) : Prop where
  proper : ∀ first ∈ nodes, ∀ second ∈ nodes, first ≠ second → first ∈ near second →
    color first ≠ color second
  filled : ∀ node ∈ nodes, ∀ smaller < color node,
    ∃ other ∈ nodes, before other node ∧ other ∈ near node ∧ color other = smaller

variable {near} {before : Node → Node → Prop} {nodes : List Node} {color : Node → Nat}

theorem get_firstFit_eq_none {node : Node} (outside : node ∉ nodes) :
    (firstFit near nodes).get node = none := by
  induction nodes using List.reverseRecOn with
  | nil => rfl
  | append_singleton nodes last ih =>
    rw [mem_append, mem_singleton, not_or] at outside
    rw [firstFit, foldl_append, foldl_cons, foldl_nil, colorNode, Dict.get_set, if_neg outside.2]
    exact ih outside.1

section

variable (symmetric : ∀ first second, first ∈ near second → second ∈ near first)
include symmetric

theorem firstFits_concat_iff
    (asymmetric : ∀ first second, before first second → ¬before second first) {last : Node}
    (falls : ∀ node ∈ nodes, before node last) :
    FirstFits near before (nodes ++ [last]) color ↔ FirstFits near before nodes color ∧
      color last ∉ (nodes.toFinset ∩ near last).image color ∧
        ∀ smaller < color last, smaller ∈ (nodes.toFinset ∩ near last).image color := by
  have old {other : Node} (listed : other ∈ nodes ++ [last]) {node : Node} (earlier : before other node)
      (here : node = last ∨ node ∈ nodes) : other ∈ nodes := by
    rcases mem_append.mp listed with inside | same
    · exact inside
    obtain rfl := mem_singleton.mp same
    rcases here with rfl | mem
    · exact absurd earlier (asymmetric _ _ earlier)
    · exact absurd (falls node mem) (asymmetric _ _ earlier)
  have fresh {node : Node} (mem : node ∈ nodes) : node ≠ last := by
    rintro rfl
    exact asymmetric _ _ (falls node mem) (falls node mem)
  constructor
  · intro fits
    refine ⟨⟨fun first mem second mem' => fits.proper first (mem_append_left _ mem) second
      (mem_append_left _ mem'), fun node mem smaller less => ?_⟩, fun taken => ?_,
      fun smaller less => ?_⟩
    · obtain ⟨other, listed, earlier, close, same⟩ :=
        fits.filled node (mem_append_left _ mem) smaller less
      exact ⟨other, old listed earlier (.inr mem), earlier, close, same⟩
    · obtain ⟨other, inside, same⟩ := Finset.mem_image.mp taken
      obtain ⟨mem, close⟩ := Finset.mem_inter.mp inside
      rw [mem_toFinset] at mem
      exact fits.proper other (mem_append_left _ mem) last
        (mem_append_right _ (mem_singleton_self _)) (fresh mem) close same
    obtain ⟨other, listed, earlier, close, same⟩ := fits.filled last
      (mem_append_right _ (mem_singleton_self _)) smaller less
    exact Finset.mem_image.mpr ⟨other, Finset.mem_inter.mpr
      ⟨mem_toFinset.mpr (old listed earlier (.inl rfl)), close⟩, same⟩
  rintro ⟨fits, free, below⟩
  have apart {node : Node} (mem : node ∈ nodes) (close : node ∈ near last) :
      color node ≠ color last := fun same => free (Finset.mem_image.mpr
    ⟨node, Finset.mem_inter.mpr ⟨mem_toFinset.mpr mem, close⟩, same⟩)
  constructor
  · intro first mem second mem' different close
    rcases mem_append.mp mem with inside | same <;>
      rcases mem_append.mp mem' with inside' | same'
    · exact fits.proper first inside second inside' different close
    · obtain rfl := mem_singleton.mp same'
      exact apart inside close
    · obtain rfl := mem_singleton.mp same
      exact (apart inside' (symmetric _ _ close)).symm
    · rw [mem_singleton.mp same, mem_singleton.mp same'] at different
      exact absurd rfl different
  intro node mem smaller less
  rcases mem_append.mp mem with inside | same
  · obtain ⟨other, listed, rest⟩ := fits.filled node inside smaller less
    exact ⟨other, mem_append_left _ listed, rest⟩
  obtain rfl := mem_singleton.mp same
  obtain ⟨other, inside, same⟩ := Finset.mem_image.mp (below smaller less)
  obtain ⟨listed, close⟩ := Finset.mem_inter.mp inside
  rw [mem_toFinset] at listed
  exact ⟨other, mem_append_left _ listed, falls other listed, close, same⟩

theorem firstFits_iff (asymmetric : ∀ first second, before first second → ¬before second first)
    (falls : nodes.Pairwise before) :
    FirstFits near before nodes color ↔
      ∀ node ∈ nodes, (firstFit near nodes).get node = some (color node) := by
  induction nodes using List.reverseRecOn with
  | nil => exact ⟨fun _ => by simp, fun _ => ⟨by simp, by simp⟩⟩
  | append_singleton nodes last ih =>
    have earlier : ∀ node ∈ nodes, before node last := fun node mem =>
      (pairwise_append.mp falls).2.2 node mem last (mem_singleton_self _)
    have fresh : last ∉ nodes := fun mem => asymmetric _ _ (earlier last mem) (earlier last mem)
    have next (node : Node) : (firstFit near (nodes ++ [last])).get node =
        if node = last then some (firstFree (colorsNear near (firstFit near nodes) last))
        else (firstFit near nodes).get node := by
      rw [firstFit, foldl_append, foldl_cons, foldl_nil, colorNode, Dict.get_set]
      rfl
    rw [firstFits_concat_iff symmetric asymmetric earlier,
      ih (pairwise_append.mp falls).1, forall_mem_append, forall_mem_singleton,
      next last, if_pos rfl, Option.some_inj]
    have before' : (∀ node ∈ nodes, (firstFit near (nodes ++ [last])).get node = some (color node)) ↔
        ∀ node ∈ nodes, (firstFit near nodes).get node = some (color node) := by
      refine forall₂_congr fun node mem => ?_
      have different : node ≠ last := fun same => fresh (same ▸ mem)
      rw [next, if_neg different]
    rw [before']
    refine and_congr_right fun found => ?_
    have used : colorsNear near (firstFit near nodes) last = (nodes.toFinset ∩ near last).image color := by
      ext value
      simp only [colorsNear, Finset.mem_biUnion, Option.mem_toFinset, Option.mem_def, Finset.mem_image,
        Finset.mem_inter, mem_toFinset]
      constructor
      · rintro ⟨other, close, has⟩
        have mem : other ∈ nodes := by
          by_contra outside
          rw [get_firstFit_eq_none outside] at has
          cases has
        rw [found other mem] at has
        exact ⟨other, ⟨mem, close⟩, Option.some.inj has⟩
      · rintro ⟨other, ⟨mem, close⟩, rfl⟩
        exact ⟨other, close, found other mem⟩
    rw [used, firstFree_eq_iff]

/-- The found colors fit. -/
theorem firstFit_fits (asymmetric : ∀ first second, before first second → ¬before second first)
    (falls : nodes.Pairwise before) :
    FirstFits near before nodes fun node => (firstFit near nodes).getD node 0 := by
  rw [firstFits_iff symmetric asymmetric falls]
  intro node mem
  have colored : ∃ color, (firstFit near nodes).get node = some color := by
    clear falls
    induction nodes using List.reverseRecOn with
    | nil => cases mem
    | append_singleton nodes last ih =>
      rw [firstFit, foldl_append, foldl_cons, foldl_nil, colorNode, Dict.get_set]
      split
      · exact ⟨_, rfl⟩
      rename_i different
      refine ih ((mem_append.mp mem).resolve_right fun same => ?_)
      exact different (mem_singleton.mp same)
  obtain ⟨color, found⟩ := colored
  rw [Dict.getD, found]
  rfl

end

end Fit

section Sorted

variable {Node : Type} (rank : Node → Nat)

theorem pairwise_insertionSort_falling {first : Node → Node → Prop} {nodes : List Node}
    (ordered : nodes.Pairwise first) :
    (nodes.insertionSort fun one other => rank other ≤ rank one).Pairwise fun one other =>
      rank other < rank one ∨ rank one = rank other ∧ first one other := by
  induction nodes with
  | nil => exact List.Pairwise.nil
  | cons node nodes ih =>
    obtain ⟨front, ordered⟩ := pairwise_cons.mp ordered
    have sorted := ih ordered
    have members : ∀ other ∈ nodes.insertionSort fun one other => rank other ≤ rank one, first node other :=
      fun other mem => front other ((perm_insertionSort _ _).mem_iff.mp mem)
    rw [insertionSort_cons]
    generalize (nodes.insertionSort fun one other => rank other ≤ rank one) = rest at sorted members
    induction rest with
    | nil => exact pairwise_singleton _ _
    | cons other rest ih =>
      obtain ⟨above, sorted⟩ := pairwise_cons.mp sorted
      rw [orderedInsert_cons]
      split
      · rename_i low
        refine pairwise_cons.mpr ⟨fun third mem => ?_, pairwise_cons.mpr ⟨above, sorted⟩⟩
        rcases mem_cons.mp mem with rfl | later
        · exact (Nat.eq_or_lt_of_le low).symm.imp id fun same =>
            ⟨same.symm, members third mem_cons_self⟩
        have own := members third (mem_cons_of_mem _ later)
        rcases above third later with less | ⟨same, _⟩
        · exact .inl (less.trans_le low)
        · exact (Nat.eq_or_lt_of_le (same ▸ low)).symm.imp id fun same' => ⟨same'.symm, own⟩
      rename_i high
      refine pairwise_cons.mpr ⟨fun third mem => ?_, ih sorted fun third later =>
        members third (mem_cons_of_mem _ later)⟩
      rcases (mem_orderedInsert _).mp mem with rfl | later
      · exact .inl (by omega)
      · exact above third later

end Sorted

end Codegraph.Library
