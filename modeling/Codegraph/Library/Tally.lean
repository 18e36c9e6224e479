import Codegraph.Library.Dict
import Mathlib.Algebra.BigOperators.Group.Finset.Basic
import Mathlib.Algebra.BigOperators.Group.List.Basic

namespace Codegraph.Library

open Finset Dict

section Rows

variable {Key K : Type} [DecidableEq Key] [AddCommMonoid K]

/-- The weight listed under a key. -/
def listedWeight (row : List (Key × K)) (key : Key) : K :=
  ((row.filter fun entry => entry.1 = key).map Prod.snd).sum

theorem listedWeight_cons (entry : Key × K) (row : List (Key × K)) (key : Key) :
    listedWeight (entry :: row) key = (if entry.1 = key then entry.2 else 0) + listedWeight row key := by
  unfold listedWeight
  by_cases same : entry.1 = key
  · rw [List.filter_cons_of_pos (by simpa using same), List.map_cons, List.sum_cons, if_pos same]
  · rw [List.filter_cons_of_neg (by simpa using same), if_neg same, zero_add]

theorem listedWeight_eq_sum (row : List (Key × K)) (key : Key) :
    listedWeight row key = (row.map fun entry => if entry.1 = key then entry.2 else 0).sum := by
  induction row with
  | nil => rfl
  | cons entry row ih => rw [listedWeight_cons, ih, List.map_cons, List.sum_cons]

theorem listedWeight_eq_zero {row : List (Key × K)} {key : Key}
    (absent : ∀ entry ∈ row, entry.1 ≠ key) : listedWeight row key = 0 := by
  have nothing : (row.filter fun entry => entry.1 = key) = [] := by
    rw [List.filter_eq_nil_iff]
    intro entry mem
    simpa using absent entry mem
  rw [listedWeight, nothing, List.map_nil, List.sum_nil]

theorem sum_listedWeight {keys : Finset Key} {row : List (Key × K)}
    (inside : ∀ entry ∈ row, entry.1 ∈ keys) (keep : Key → Prop) [DecidablePred keep] :
    ∑ key ∈ keys with keep key, listedWeight row key =
      ((row.filter fun entry => keep entry.1).map Prod.snd).sum := by
  induction row with
  | nil =>
    apply sum_eq_zero
    intro key _
    rfl
  | cons entry row ih =>
    simp_rw [listedWeight_cons]
    rw [sum_add_distrib, ih fun other mem => inside other (List.mem_cons_of_mem _ mem), sum_ite_eq]
    by_cases kept : keep entry.1
    · rw [if_pos (mem_filter.mpr ⟨inside entry List.mem_cons_self, kept⟩),
        List.filter_cons_of_pos (by simpa using kept), List.map_cons, List.sum_cons]
    · rw [if_neg fun mem => kept (mem_filter.mp mem).2,
        List.filter_cons_of_neg (by simpa using kept), zero_add]

theorem sum_listedWeight_all {keys : Finset Key} {row : List (Key × K)}
    (inside : ∀ entry ∈ row, entry.1 ∈ keys) :
    ∑ key ∈ keys, listedWeight row key = (row.map Prod.snd).sum := by
  have all := sum_listedWeight inside fun _ => True
  rw [filter_true_of_mem fun _ _ => trivial] at all
  rw [all, List.filter_eq_self.mpr fun _ _ => by simp]

theorem listedWeight_flatMap {Item : Type} (items : List Item) (row : Item → List (Key × K))
    (key : Key) : listedWeight (items.flatMap row) key =
      (items.map fun item => listedWeight (row item) key).sum := by
  induction items with
  | nil => rfl
  | cons item items ih =>
    rw [List.map_cons, List.sum_cons, ← ih, List.flatMap_cons]
    unfold listedWeight
    rw [List.filter_append, List.map_append, List.sum_append]

theorem listedWeight_const {Item : Type} (items : List Item) (weight : Item → K) (key other : Key) :
    listedWeight (items.map fun item => (key, weight item)) other =
      if key = other then (items.map weight).sum else 0 := by
  split
  · rename_i same
    rw [listedWeight, List.filter_eq_self.mpr (by simp [same]), List.map_map]
    rfl
  rename_i apart
  apply listedWeight_eq_zero
  intro entry mem
  obtain ⟨item, -, rfl⟩ := List.mem_map.mp mem
  exact apart

/-- A list is summed by its positions. -/
theorem sum_range_getD {Row : Type} (value : Row → K) (rows : List Row) (fallback : Row) :
    ∑ index ∈ range rows.length, value (rows.getD index fallback) = (rows.map value).sum := by
  induction rows with
  | nil => rfl
  | cons row rows ih =>
    rw [List.length_cons, sum_range_succ', List.map_cons, List.sum_cons, ← ih, add_comm]
    rfl

theorem sum_zipIdx {Row : Type} (value : Row × Nat → K) (rows : List Row) (fallback : Row) :
    (rows.zipIdx.map value).sum = ∑ index ∈ range rows.length, value (rows.getD index fallback, index) := by
  rw [← List.length_zipIdx (i := 0), ← sum_range_getD value rows.zipIdx (fallback, 0)]
  apply sum_congr rfl
  intro index inside
  rw [List.length_zipIdx, Finset.mem_range] at *
  simp [List.getD_eq_getElem?_getD, inside]

end Rows

section Tally

variable {Key K : Type} [DecidableEq Key] [AddCommMonoid K]

/-- The weight of a pair is added to what its key has. -/
def addTo (dict : Dict Key K) (pair : Key × K) : Dict Key K := dict.update pair.1 0 (· + pair.2)

def tally (pairs : List (Key × K)) : Dict Key K := pairs.foldl addTo ∅

variable (dict : Dict Key K)

theorem getD_foldl_addTo (pairs : List (Key × K)) (key : Key) :
    (pairs.foldl addTo dict).getD key 0 = dict.getD key 0 + listedWeight pairs key := by
  induction pairs generalizing dict with
  | nil => exact (add_zero _).symm
  | cons pair pairs ih =>
    rw [List.foldl_cons, ih, listedWeight_cons, addTo, getD_update, ← add_assoc]
    by_cases same : pair.1 = key
    · rw [if_pos same.symm, if_pos same, same]
    · rw [if_neg (Ne.symm same), if_neg same, add_zero]

theorem isSome_foldl_addTo (pairs : List (Key × K)) (key : Key) :
    ((pairs.foldl addTo dict).get key).isSome ↔ (dict.get key).isSome ∨ ∃ pair ∈ pairs, pair.1 = key := by
  induction pairs generalizing dict with
  | nil => simp
  | cons pair pairs ih =>
    rw [List.foldl_cons, ih, addTo, get_update, List.exists_mem_cons_iff]
    by_cases same : key = pair.1
    · simp [same]
    rw [if_neg same]
    have apart : pair.1 ≠ key := fun other => same other.symm
    tauto

theorem getD_tally (pairs : List (Key × K)) (key : Key) :
    (tally pairs).getD key 0 = listedWeight pairs key := by
  rw [tally, getD_foldl_addTo, getD_empty, zero_add]

theorem isSome_tally (pairs : List (Key × K)) (key : Key) :
    ((tally pairs).get key).isSome ↔ ∃ pair ∈ pairs, pair.1 = key := by
  rw [tally, isSome_foldl_addTo, get_empty]
  simp

theorem sum_entries {Image : Type} [AddCommMonoid Image] (dict : Dict Key K)
    (value : Key → K → Image) (nothing : ∀ key, value key 0 = 0) {keys : Finset Key}
    (covers : ∀ key ∈ dict.keys, key ∈ keys) :
    (dict.entries.map fun entry => value entry.1 entry.2).sum =
      ∑ key ∈ keys, value key (dict.getD key 0) := by
  have listed : (dict.entries.map fun entry => value entry.1 entry.2) =
      dict.keys.map fun key => value key (dict.getD key 0) := by
    rw [AList.keys, List.keys, List.map_map]
    apply List.map_congr_left
    intro entry mem
    have found := (mem_entries_iff dict entry.1 entry.2).mp mem
    change value entry.1 entry.2 = value entry.1 ((dict.get entry.1).getD 0)
    rw [found, Option.getD_some]
  have distinct : (AList.keys dict).Nodup := dict.nodupKeys
  rw [listed, ← List.sum_toFinset _ distinct]
  apply sum_subset
  · intro key mem
    exact covers key (List.mem_toFinset.mp mem)
  intro key _ absent
  have missing : dict.get key = none := by
    by_contra some
    obtain ⟨found, stored⟩ := Option.ne_none_iff_exists'.mp some
    exact absent (List.mem_toFinset.mpr ((mem_keys_iff dict key).mpr ⟨found, stored⟩))
  rw [Dict.getD, missing, Option.getD_none, nothing]

theorem listedWeight_entries (key : Key) :
    listedWeight (dict.entries.map fun entry => (entry.1, entry.2)) key = dict.getD key 0 := by
  have covers (other : Key) (mem : other ∈ dict.keys) : other ∈ insert key dict.keys.toFinset :=
    mem_insert_of_mem (List.mem_toFinset.mpr mem)
  have total := sum_entries dict (fun other weight => if other = key then weight else 0)
    (fun _ => ite_self 0) covers
  rw [sum_ite_eq', if_pos (mem_insert_self _ _)] at total
  rwa [listedWeight_eq_sum, List.map_map]

end Tally

end Codegraph.Library
