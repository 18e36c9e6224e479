import Mathlib.Tactic

namespace Codegraph.Library

open List

section

variable {Entry : Type}

/-- The positions of the entries that have the property, in ascending order. -/
def positions (holds : Entry → Bool) (entries : List Entry) : List Nat :=
  (entries.zipIdx.filter fun entry => holds entry.1).map Prod.snd

@[simp] theorem positions_nil (holds : Entry → Bool) : positions holds [] = [] := rfl

theorem mem_positions {holds : Entry → Bool} {entries : List Entry} {position : Nat} :
    position ∈ positions holds entries ↔ ∃ entry, entries[position]? = some entry ∧ holds entry = true := by
  constructor
  · intro mem
    obtain ⟨⟨entry, index⟩, found, rfl⟩ := mem_map.mp mem
    obtain ⟨listed, satisfied⟩ := mem_filter.mp found
    exact ⟨entry, mem_zipIdx_iff_getElem?.mp listed, satisfied⟩
  intro ⟨entry, found, satisfied⟩
  have listed : (entry, position) ∈ entries.zipIdx := mem_zipIdx_iff_getElem?.mpr found
  exact mem_map.mpr ⟨(entry, position), mem_filter.mpr ⟨listed, satisfied⟩, rfl⟩

theorem getElem?_concat_eq_some {entries : List Entry} {last entry : Entry} {position : Nat} :
    (entries ++ [last])[position]? = some entry ↔
      entries[position]? = some entry ∨ (position = entries.length ∧ entry = last) := by
  rw [getElem?_append]
  by_cases inside : position < entries.length
  · rw [if_pos inside]
    constructor
    · exact .inl
    intro either
    rcases either with found | ⟨here, -⟩
    · exact found
    · omega
  rw [if_neg inside, getElem?_singleton, getElem?_eq_none (by omega)]
  constructor
  · intro found
    split at found
    · exact .inr ⟨by omega, (Option.some.inj found).symm⟩
    · contradiction
  intro either
  rcases either with found | ⟨here, same⟩
  · contradiction
  · rw [if_pos (by omega), same]

theorem zipIdx_concat (entries : List Entry) (last : Entry) :
    (entries ++ [last]).zipIdx = entries.zipIdx ++ [(last, entries.length)] := by
  simp [zipIdx_append]

theorem positions_concat (holds : Entry → Bool) (entries : List Entry) (last : Entry) :
    positions holds (entries ++ [last]) =
      positions holds entries ++ if holds last then [entries.length] else [] := by
  unfold positions
  rw [zipIdx_concat, filter_append, map_append]
  cases found : holds last <;> simp [found]

theorem getD_modify_append (lists : List (List Entry)) (index other : Nat) (value : Entry)
    (inside : index < lists.length) :
    (lists.modify index fun list => list ++ [value]).getD other [] =
      lists.getD other [] ++ if index = other then [value] else [] := by
  rw [getD_eq_getElem?_getD, getD_eq_getElem?_getD, getElem?_modify]
  by_cases same : index = other
  · subst same
    simp [getElem?_eq_getElem inside]
  · cases lists[other]? <;> simp [same]

theorem replicate_nil_getD (count index : Nat) :
    (List.replicate count ([] : List Entry)).getD index [] = [] := by
  rw [getD_eq_getElem?_getD, getElem?_replicate]
  split <;> rfl

section Precedence

variable [DecidableEq Entry] {first second : Entry} {entries : List Entry}

/-- An entry with a lower position is listed before the other one. -/
theorem sublist_of_idxOf_lt (lower : entries.idxOf first < entries.idxOf second)
    (mem : second ∈ entries) : [first, second].Sublist entries := by
  induction entries with
  | nil => exact absurd mem not_mem_nil
  | cons entry entries ih =>
    have apart : second ≠ entry := by
      rintro rfl
      rw [idxOf_cons_self] at lower
      exact Nat.not_lt_zero _ lower
    have later := (mem_cons.mp mem).resolve_left apart
    by_cases same : first = entry
    · rw [same]
      exact (singleton_sublist.mpr later).cons_cons entry
    · rw [idxOf_cons_ne _ (Ne.symm same), idxOf_cons_ne _ (Ne.symm apart)] at lower
      exact (ih (by omega) later).cons entry

theorem idxOf_lt_of_sublist (distinct : entries.Nodup)
    (listed : [first, second].Sublist entries) : entries.idxOf first < entries.idxOf second := by
  induction entries with
  | nil => exact absurd listed.length_le (by simp)
  | cons entry entries ih =>
    rw [nodup_cons] at distinct
    cases listed with
    | cons _ rest =>
      have apart (other : Entry) (mem : other ∈ entries) : entry ≠ other := by
        rintro rfl
        exact distinct.1 mem
      have members := rest.subset
      rw [idxOf_cons_ne _ (apart first (members (by simp))),
        idxOf_cons_ne _ (apart second (members (by simp)))]
      exact Nat.succ_lt_succ (ih distinct.2 rest)
    | cons_cons _ rest =>
      have later := singleton_sublist.mp rest
      have apart : first ≠ second := by
        rintro rfl
        exact distinct.1 later
      rw [idxOf_cons_self, idxOf_cons_ne _ apart]
      exact Nat.succ_pos _

end Precedence

end

/-- The number of entries up to the bound is where a binary search ends. -/
def upTo (bounds : List Nat) (value : Nat) : Nat := bounds.countP (· ≤ value)

theorem upTo_le_length (bounds : List Nat) (value : Nat) : upTo bounds value ≤ bounds.length :=
  countP_le_length

/-- In a strictly ascending list the counted entries are a prefix. -/
theorem getElem_le_iff_lt_upTo {bounds : List Nat} (sorted : bounds.Pairwise (· < ·))
    (value index : Nat) (inside : index < bounds.length) :
    bounds[index] ≤ value ↔ index < upTo bounds value := by
  induction bounds generalizing index with
  | nil => simp at inside
  | cons bound rest ih =>
    obtain ⟨first, sortedRest⟩ := pairwise_cons.mp sorted
    by_cases below : bound ≤ value
    · have counted : upTo (bound :: rest) value = upTo rest value + 1 := by simp [upTo, below]
      cases index with
      | zero => simp [below, counted]
      | succ index =>
        rw [counted]
        simpa using ih sortedRest index (by simpa using inside)
    have above (entry : Nat) (mem : entry ∈ bound :: rest) : ¬ entry ≤ value := by
      rcases mem_cons.mp mem with rfl | later
      · exact below
      · have := first entry later
        omega
    have none : upTo (bound :: rest) value = 0 := by
      rw [upTo, countP_eq_zero]
      simpa using above
    rw [none]
    have := above _ (getElem_mem inside)
    simp only [Nat.not_lt_zero, iff_false]
    exact this

/-- The last counted entry is the one whose successor exceeds the bound. -/
theorem upTo_eq_succ {bounds : List Nat} (sorted : bounds.Pairwise (· < ·))
    {value index : Nat} (inside : index < bounds.length) (below : bounds[index] ≤ value)
    (above : ∀ next : index + 1 < bounds.length, value < bounds[index + 1]) :
    upTo bounds value = index + 1 := by
  have lower := (getElem_le_iff_lt_upTo sorted value index inside).mp below
  have upper : ¬ index + 1 < upTo bounds value := by
    intro more
    have next := lt_of_lt_of_le more (upTo_le_length _ _)
    have := (getElem_le_iff_lt_upTo sorted value (index + 1) next).mpr more
    have := above next
    omega
  omega

end Codegraph.Library
