import Codegraph.Library.Dict
import Mathlib.Data.List.Perm.Basic

namespace Codegraph.Library

open List Dict Set

section

variable {Key Item : Type} [DecidableEq Key]

/-- The members with a key, in their order. -/
def group (key : Item → Key) (list : List Item) (wanted : Key) : List Item :=
  list.filter fun item => key item = wanted

variable (key : Item → Key)

theorem mem_group (list : List Item) (wanted : Key) (item : Item) :
    item ∈ group key list wanted ↔ item ∈ list ∧ key item = wanted := by
  simp [group]

theorem group_filter_ne (list : List Item) {wanted other : Key} (apart : wanted ≠ other) :
    group key (list.filter fun item => !decide (key item = other)) wanted = group key list wanted := by
  rw [group, filter_filter]
  apply filter_congr
  intro item _
  by_cases here : key item = wanted
  · simp [here, apart]
  · simp [here]

theorem flatMap_group_perm {keys : List Key} (distinct : keys.Nodup)
    {list : List Item} (covered : ∀ item ∈ list, key item ∈ keys) :
    (keys.flatMap (group key list)).Perm list := by
  induction keys generalizing list with
  | nil =>
    have none := eq_nil_iff_forall_not_mem.mpr fun item mem => by simpa using covered item mem
    rw [none]
    simp
  | cons first rest ih =>
    obtain ⟨absent, distinct⟩ := nodup_cons.mp distinct
    let others := list.filter fun item => !decide (key item = first)
    have coveredRest : ∀ item ∈ others, key item ∈ rest := by
      intro item mem
      obtain ⟨listed, apart⟩ := mem_filter.mp mem
      have apart : key item ≠ first := by simpa using apart
      exact (mem_cons.mp (covered item listed)).resolve_left apart
    have groups : rest.flatMap (group key list) = rest.flatMap (group key others) := by
      apply flatMap_congr
      intro other mem
      have apart : other ≠ first := fun same => absent (same ▸ mem)
      exact (group_filter_ne key list apart).symm
    calc (first :: rest).flatMap (group key list)
        = group key list first ++ rest.flatMap (group key others) := by rw [flatMap_cons, groups]
      _ |>.Perm (group key list first ++ others) := (ih distinct coveredRest).append_left _
      _ |>.Perm list := filter_append_perm _ list

end

/-- Each key has the names it lists. -/
abbrev Buckets (Key Name : Type) := Dict Key (List Name)

namespace Buckets

variable {Key Name : Type} [DecidableEq Key]

/-- The name is listed once more. -/
def push (buckets : Buckets Key Name) (key : Key) (name : Name) : Buckets Key Name :=
  buckets.update key [] fun names => names ++ [name]

/-- The buckets list exactly the pairs, each once. -/
structure Lists (buckets : Buckets Key Name) (pairs : Set (Key × Name)) : Prop where
  members : ∀ key name, name ∈ buckets.getD key [] ↔ (key, name) ∈ pairs
  nodup : ∀ key, (buckets.getD key []).Nodup
  nonempty : ∀ key, buckets.get key ≠ some []

theorem lists_empty : Lists (∅ : Buckets Key Name) ∅ := ⟨by simp, by simp, by simp⟩

variable {buckets : Buckets Key Name}

theorem Lists.congr {pairs pairs' : Set (Key × Name)}
    (lists : Lists buckets pairs) (same : pairs = pairs') : Lists buckets pairs' := same ▸ lists

variable {pairs : Set (Key × Name)}

theorem lists_update (lists : Lists buckets pairs) (key : Key) (name : Name) (change : List Name → List Name)
    (members : ∀ other, other ∈ change (buckets.getD key []) ↔ other = name ∨ other ∈ buckets.getD key [])
    (nodup : (change (buckets.getD key [])).Nodup) :
    Lists (Dict.update buckets key [] change) (insert (key, name) pairs) := by
  refine ⟨fun other name' => ?_, fun other => ?_, fun other => ?_⟩
  · rw [getD_update, mem_insert_iff]
    split
    · rename_i same
      rw [same, members, lists.members]
      simp
    rename_i different
    rw [lists.members]
    simp [different]
  · rw [getD_update]
    split
    · exact nodup
    · exact lists.nodup other
  rw [get_update]
  split
  · intro empty
    have listed := (members name).mpr (.inl rfl)
    rw [Option.some.inj empty] at listed
    contradiction
  · exact lists.nonempty other

theorem lists_push (lists : Lists buckets pairs) {key : Key} {name : Name} (fresh : (key, name) ∉ pairs) :
    Lists (buckets.push key name) (insert (key, name) pairs) := by
  apply lists_update lists key name
  · intro other
    simp [or_comm]
  rw [← lists.members] at fresh
  exact List.Nodup.append (lists.nodup key) (nodup_singleton name)
    (disjoint_singleton.mpr fresh)

theorem lists_unique {first second : Buckets Key Name}
    (left : Lists first pairs) (right : Lists second pairs) (key : Key) :
    Option.Rel List.Perm (first.get key) (second.get key) := by
  have permuted : (first.getD key []).Perm (second.getD key []) := by
    rw [perm_ext_iff_of_nodup (left.nodup key) (right.nodup key)]
    intro name
    rw [left.members, right.members]
  have nonempty := left.nonempty key
  have nonempty' := right.nonempty key
  rw [Dict.getD, Dict.getD] at permuted
  cases found : first.get key with
  | none =>
    cases found' : second.get key with
    | none => exact Option.Rel.none
    | some names =>
      rw [found, found'] at permuted
      rw [found'] at nonempty'
      exact absurd (congrArg some (perm_nil.mp permuted.symm)) nonempty'
  | some names =>
    cases found' : second.get key with
    | none =>
      rw [found, found'] at permuted
      rw [found] at nonempty
      exact absurd (congrArg some (perm_nil.mp permuted)) nonempty
    | some names' =>
      rw [found, found'] at permuted
      exact Option.Rel.some permuted

variable [DecidableEq Name]

/-- The name is listed unless it already is. -/
def add (buckets : Buckets Key Name) (key : Key) (name : Name) : Buckets Key Name :=
  buckets.update key [] fun names => if name ∈ names then names else names ++ [name]

/-- The name is no longer listed, and a key that lists nothing is removed. -/
def drop (buckets : Buckets Key Name) (key : Key) (name : Name) : Buckets Key Name :=
  match buckets.get key with
  | none => buckets
  | some names =>
    let kept := names.filter fun other => other ≠ name
    if kept = [] then buckets.remove key else buckets.set key kept

def addAll (buckets : Buckets Key Name) (keys : List Key) (name : Name) : Buckets Key Name :=
  keys.foldl (fun buckets key => buckets.add key name) buckets

def dropAll (buckets : Buckets Key Name) (keys : List Key) (name : Name) : Buckets Key Name :=
  keys.foldl (fun buckets key => buckets.drop key name) buckets

section

variable (lists : Lists buckets pairs)
include lists

theorem lists_add (key : Key) (name : Name) : Lists (buckets.add key name) (insert (key, name) pairs) := by
  apply lists_update lists key name
  · intro other
    split
    · rename_i present
      exact ⟨.inr, fun either => either.elim (fun same => same ▸ present) id⟩
    · simp [or_comm]
  split
  · exact lists.nodup key
  rename_i fresh
  exact List.Nodup.append (lists.nodup key) (nodup_singleton name)
    (disjoint_singleton.mpr fresh)

theorem lists_drop (key : Key) (name : Name) : Lists (buckets.drop key name) (pairs \ {(key, name)}) := by
  unfold drop
  cases found : buckets.get key with
  | none =>
    apply lists.congr
    rw [sdiff_singleton_eq_self]
    rw [← lists.members, Dict.getD, found]
    simp
  | some names =>
    have listed : buckets.getD key [] = names := by rw [Dict.getD, found, Option.getD_some]
    have after (other : Key) : (if names.filter (fun other => other ≠ name) = [] then buckets.remove key
          else buckets.set key (names.filter fun other => other ≠ name)).getD other [] =
        if other = key then names.filter (fun other => other ≠ name)
          else buckets.getD other [] := by
      split
      · rename_i empty
        rw [Dict.getD, get_remove]
        split
        · rw [empty]
          rfl
        · rfl
      · exact getD_set _ _ _ _ _
    refine ⟨fun other name' => ?_, fun other => ?_, fun other => ?_⟩
    · rw [after, mem_sdiff, ← lists.members]
      split
      · rename_i same
        subst same
        simp [listed]
      · rename_i different
        simp [different]
    · rw [after]
      split
      · exact (listed ▸ lists.nodup key).filter _
      · exact lists.nodup other
    dsimp only
    split
    · rw [get_remove]
      split
      · simp
      · exact lists.nonempty other
    rename_i remains
    rw [get_set]
    split
    · intro empty
      exact remains (Option.some.inj empty)
    · exact lists.nonempty other

theorem lists_addAll (keys : List Key) (name : Name) :
    Lists (buckets.addAll keys name) (pairs ∪ {pair | pair.1 ∈ keys ∧ pair.2 = name}) := by
  induction keys generalizing buckets pairs with
  | nil => simpa [addAll] using lists
  | cons key keys ih =>
    apply (ih (lists_add lists key name)).congr
    ext pair
    simp only [mem_union, mem_insert_iff, mem_ofPred_eq, mem_cons, Prod.ext_iff]
    tauto

theorem lists_dropAll (keys : List Key) (name : Name) :
    Lists (buckets.dropAll keys name) (pairs \ {pair | pair.1 ∈ keys ∧ pair.2 = name}) := by
  induction keys generalizing buckets pairs with
  | nil => simpa [dropAll] using lists
  | cons key keys ih =>
    apply (ih (lists_drop lists key name)).congr
    ext pair
    simp only [mem_sdiff, mem_singleton_iff, mem_ofPred_eq, mem_cons, Prod.ext_iff]
    tauto

end

end Buckets

end Codegraph.Library
