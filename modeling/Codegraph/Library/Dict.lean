import Mathlib.Data.List.AList
import Mathlib.Tactic

namespace Codegraph.Library

open List

/-- A finite map holds each key once. -/
abbrev Dict (Key Value : Type) := AList (fun _ : Key => Value)

namespace Dict

variable {Key Value : Type} [DecidableEq Key]

/-- The value of a key, if the map has the key. -/
def get (dict : Dict Key Value) (key : Key) : Option Value := AList.lookup key dict

/-- The value of a key, or the default of an absent one. -/
def getD (dict : Dict Key Value) (key : Key) (fallback : Value) : Value := (dict.get key).getD fallback

/-- An insertion replaces the value the key had. -/
def set (dict : Dict Key Value) (key : Key) (value : Value) : Dict Key Value :=
  AList.insert key value dict

/-- A removal leaves every other key. -/
def remove (dict : Dict Key Value) (key : Key) : Dict Key Value := AList.erase key dict

/-- The entry of a key starts at the default and is then updated in place. -/
def update (dict : Dict Key Value) (key : Key) (fallback : Value) (change : Value → Value) :
    Dict Key Value := dict.set key (change (dict.getD key fallback))

/-- Later pairs of the list win. -/
def ofList (pairs : List (Key × Value)) : Dict Key Value :=
  pairs.foldl (fun dict pair => dict.set pair.1 pair.2) ∅

@[simp] theorem get_empty (key : Key) : get (∅ : Dict Key Value) key = none := AList.lookup_empty key

@[simp] theorem getD_empty (key : Key) (fallback : Value) :
    getD (∅ : Dict Key Value) key fallback = fallback := by simp [getD]

variable (dict : Dict Key Value)

variable (key other : Key)

theorem get_set (value : Value) :
    (dict.set key value).get other = if other = key then some value else dict.get other := by
  split
  · rename_i same
    subst same
    exact AList.lookup_insert dict
  · rename_i different
    exact AList.lookup_insert_ne different

@[simp] theorem get_set_self (key : Key) (value : Value) :
    (dict.set key value).get key = some value := by simp [get_set]

theorem get_set_ne {key other : Key} (value : Value)
    (different : other ≠ key) : (dict.set key value).get other = dict.get other := by
  simp [get_set, different]

theorem get_remove :
    (dict.remove key).get other = if other = key then none else dict.get other := by
  split
  · rename_i same
    subst same
    exact AList.lookup_erase other dict
  · rename_i different
    exact AList.lookup_erase_ne different

/-- The entries whose value is kept stay. -/
def retain (dict : Dict Key Value) (keep : Value → Bool) : Dict Key Value :=
  ⟨dict.entries.filter fun entry => keep entry.2, dict.nodupKeys.sublist filter_sublist⟩

theorem get_retain (keep : Value → Bool) (key : Key) :
    (dict.retain keep).get key = (dict.get key).filter keep := by
  ext value
  rw [Option.filter_eq_some_iff]
  refine AList.mem_lookup_iff.trans ?_
  rw [retain, mem_filter]
  exact and_congr_left' AList.mem_lookup_iff.symm

theorem getD_set (value fallback : Value) :
    (dict.set key value).getD other fallback = if other = key then value else dict.getD other fallback := by
  rw [getD, get_set]
  split <;> rfl

theorem get_update (fallback : Value)
    (change : Value → Value) : (dict.update key fallback change).get other =
      if other = key then some (change (dict.getD key fallback)) else dict.get other :=
  get_set dict key other _

theorem getD_update (fallback : Value)
    (change : Value → Value) : (dict.update key fallback change).getD other fallback =
      if other = key then change (dict.getD key fallback) else dict.getD other fallback :=
  getD_set dict key other _ fallback

theorem mem_keys_iff (key : Key) : key ∈ dict.keys ↔ ∃ value, dict.get key = some value := by
  rw [← AList.mem_keys, ← AList.lookup_isSome, Option.isSome_iff_exists]
  rfl

theorem mem_entries_iff (key : Key) (value : Value) :
    (⟨key, value⟩ : Sigma fun _ : Key => Value) ∈ dict.entries ↔ dict.get key = some value :=
  AList.mem_lookup_iff.symm

theorem eq_empty_iff : dict = ∅ ↔ ∀ key, dict.get key = none := by
  constructor
  · rintro rfl key
    exact get_empty key
  intro absent
  apply AList.ext
  apply eq_nil_iff_forall_not_mem.mpr
  rintro ⟨key, value⟩ mem
  have found := AList.mem_lookup_iff.mpr mem
  exact absurd (absent key) (by rw [get, found]; simp)

theorem ofList_concat (pairs : List (Key × Value)) (last : Key × Value) :
    ofList (pairs ++ [last]) = (ofList pairs).set last.1 last.2 := by
  simp [ofList]

theorem get_ofList {pairs : List (Key × Value)} (distinct : (pairs.map Prod.fst).Nodup) (key : Key)
    (value : Value) : (ofList pairs).get key = some value ↔ (key, value) ∈ pairs := by
  induction pairs using List.reverseRecOn with
  | nil => simp [ofList]
  | append_singleton pairs last ih =>
    rw [map_append, nodup_append] at distinct
    obtain ⟨before, -, apart⟩ := distinct
    rw [ofList_concat, get_set, mem_append, mem_singleton, ← ih before]
    by_cases same : key = last.1
    · have absent : (ofList pairs).get key ≠ some value := by
        intro listed
        have mem := mem_map_of_mem (f := Prod.fst) ((ih before).mp listed)
        exact apart key mem last.1 (by simp) same
      rw [or_iff_right absent, if_pos same, Option.some.injEq]
      simp [Prod.ext_iff, same, eq_comm]
    · simp [same, Prod.ext_iff]

end Dict

end Codegraph.Library
