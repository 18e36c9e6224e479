import Codegraph.Library.Heaps

namespace Codegraph.Library

open List

variable {Cost Item : Type}

variable {children : Cost × Item → List (Cost × Item)} {leaf : Item → Bool}

/-- The leaves of the tree below an entry, down to a depth. -/
def leaves (children : Cost × Item → List (Cost × Item)) (leaf : Item → Bool) :
    Nat → Cost × Item → List (Cost × Item)
  | 0, entry => if leaf entry.2 then [entry] else []
  | depth + 1, entry =>
    if leaf entry.2 then [entry] else (children entry).flatMap (leaves children leaf depth)

/-- The number of entries of the tree, down to a depth. -/
def treeSize (children : Cost × Item → List (Cost × Item)) : Nat → Cost × Item → Nat
  | 0, _ => 1
  | depth + 1, entry => 1 + ((children entry).map (treeSize children depth)).sum

/-- The tree ends below an entry within a depth. -/
def EndsWithin (children : Cost × Item → List (Cost × Item)) : Nat → Cost × Item → Prop
  | 0, entry => children entry = []
  | depth + 1, entry => ∀ child ∈ children entry, EndsWithin children depth child

variable {depth : Nat} {entry child : Cost × Item}

section

variable (ends : EndsWithin children depth entry)
include ends

theorem EndsWithin.succ : EndsWithin children (depth + 1) entry := by
  induction depth generalizing entry with
  | zero =>
    intro child mem
    rw [show children entry = [] from ends] at mem
    exact absurd mem not_mem_nil
  | succ depth ih => exact fun child mem => ih (ends child mem)

theorem EndsWithin.inside (mem : child ∈ children entry) : EndsWithin children depth child := by
  cases depth with
  | zero =>
    rw [show children entry = [] from ends] at mem
    exact absurd mem not_mem_nil
  | succ depth => exact (ends child mem).succ

theorem EndsWithin.leaves_succ :
    leaves children leaf (depth + 1) entry = leaves children leaf depth entry := by
  induction depth generalizing entry with
  | zero =>
    unfold leaves
    rw [show children entry = [] from ends, flatMap_nil]
  | succ depth ih =>
    rw [leaves, leaves]
    congr 1
    exact flatMap_congr fun child mem => ih (ends child mem)

theorem EndsWithin.leaves_eq (inner : ¬leaf entry.2 = true) :
    leaves children leaf depth entry = (children entry).flatMap (leaves children leaf depth) := by
  rw [← ends.leaves_succ, leaves, if_neg inner]

end

theorem leaves_leaf (here : leaf entry.2 = true) : leaves children leaf depth entry = [entry] := by
  cases depth <;> exact if_pos here

theorem EndsWithin.treeSize_succ (ends : EndsWithin children depth entry) :
    treeSize children (depth + 1) entry = treeSize children depth entry := by
  induction depth generalizing entry with
  | zero =>
    unfold treeSize
    rw [show children entry = [] from ends]
    rfl
  | succ depth ih =>
    rw [treeSize, treeSize]
    congr 2
    exact map_congr_left fun child mem => ih (ends child mem)

theorem EndsWithin.treeSize_eq (ends : EndsWithin children depth entry) :
    treeSize children depth entry = 1 + ((children entry).map (treeSize children depth)).sum := by
  rw [← ends.treeSize_succ, treeSize]

section Steps

variable [LinearOrder Cost]

theorem leaves_grow (grows : ∀ entry, ∀ child ∈ children entry, entry.1 ≤ child.1) {last : Cost × Item}
    (mem : last ∈ leaves children leaf depth entry) : entry.1 ≤ last.1 := by
  induction depth generalizing entry with
  | zero =>
    unfold leaves at mem
    split at mem
    · rw [mem_singleton.mp mem]
    · exact absurd mem not_mem_nil
  | succ depth ih =>
    unfold leaves at mem
    split at mem
    · rw [mem_singleton.mp mem]
    · obtain ⟨child, listed, below⟩ := mem_flatMap.mp mem
      exact (grows entry child listed).trans (ih below)

/-- The results are in order, and the other leaves are below what waits and cost no less. -/
structure Enumerated (children : Cost × Item → List (Cost × Item)) (leaf : Item → Bool) (depth : Nat)
    (all heap results : List (Cost × Item)) : Prop where
  ends : ∀ entry ∈ heap, EndsWithin children depth entry
  perm : (results ++ heap.flatMap (leaves children leaf depth)).Perm all
  sorted : results.Pairwise fun first second => first.1 ≤ second.1
  below : ∀ result ∈ results, ∀ entry ∈ heap, result.1 ≤ entry.1

variable {all heap results rest : List (Cost × Item)}

theorem Enumerated.result (enumerated : Enumerated children leaf depth all heap results)
    (perm : heap.Perm (entry :: rest)) (least : ∀ other ∈ heap, entry.1 ≤ other.1)
    (here : leaf entry.2 = true) :
    Enumerated children leaf depth all rest (results ++ [entry]) := by
  have waits : ∀ other ∈ rest, other ∈ heap := fun other mem => perm.mem_iff.mpr (mem_cons_of_mem _ mem)
  have waiting := perm.mem_iff.mpr mem_cons_self
  refine ⟨fun other mem => enumerated.ends other (waits other mem), ?_, ?_, ?_⟩
  · have moved := (perm.flatMap_right (leaves children leaf depth)).append_left results
    rw [flatMap_cons, leaves_leaf here, ← append_assoc] at moved
    exact moved.symm.trans enumerated.perm
  · rw [pairwise_append]
    refine ⟨enumerated.sorted, pairwise_singleton _ _, fun result mem last here => ?_⟩
    rw [mem_singleton.mp here]
    exact enumerated.below result mem entry waiting
  intro result mem other listed
  rcases mem_append.mp mem with old | new
  · exact enumerated.below result old other (waits other listed)
  · rw [mem_singleton.mp new]
    exact least other (waits other listed)

theorem Enumerated.expand (grows : ∀ entry, ∀ child ∈ children entry, entry.1 ≤ child.1)
    (enumerated : Enumerated children leaf depth all heap results)
    (perm : heap.Perm (entry :: rest)) (inner : ¬leaf entry.2 = true) :
    Enumerated children leaf depth all (rest ++ children entry) results := by
  have waiting := perm.mem_iff.mpr mem_cons_self
  have here := enumerated.ends entry waiting
  refine ⟨fun other mem => ?_, ?_, enumerated.sorted, fun result mem other listed => ?_⟩
  · rcases mem_append.mp mem with old | new
    · exact enumerated.ends other (perm.mem_iff.mpr (mem_cons_of_mem _ old))
    · exact here.inside new
  · have moved := (perm.flatMap_right (leaves children leaf depth)).append_left results
    rw [flatMap_cons, here.leaves_eq inner] at moved
    rw [flatMap_append]
    exact ((perm_append_comm.append_left results).trans moved.symm).trans enumerated.perm
  rcases mem_append.mp listed with old | new
  · exact enumerated.below result mem other (perm.mem_iff.mpr (mem_cons_of_mem _ old))
  · exact (enumerated.below result mem entry waiting).trans (grows entry other new)

end Steps

variable [Costing Cost]

/-- The cheapest entry is taken out: a leaf is a result, and the others are replaced by their
children. -/
def bestFirst (policy : HeapPolicy Cost) (children : Cost × Item → List (Cost × Item))
    (leaf : Item → Bool) (count : Nat) :
    Nat → Nat → List (Cost × Item) → List (Cost × Item) → Option (List (Cost × Item))
  | 0, _, _, _ => none
  | fuel + 1, time, heap, results =>
    match policy.pop time heap with
    | none => some results
    | some (entry, heap) =>
      if leaf entry.2 then
        if (results ++ [entry]).length = count then some (results ++ [entry])
        else bestFirst policy children leaf count fuel (time + 1) heap (results ++ [entry])
      else bestFirst policy children leaf count fuel (time + 1) (heap ++ children entry) results

theorem bestFirst_halts (policy : HeapPolicy Cost) (count : Nat) {heap : List (Cost × Item)}
    (ends : ∀ entry ∈ heap, EndsWithin children depth entry) {fuel : Nat}
    (enough : (heap.map (treeSize children depth)).sum < fuel) (time : Nat)
    (results : List (Cost × Item)) :
    ∃ final, bestFirst policy children leaf count fuel time heap results = some final := by
  induction fuel generalizing time heap results with
  | zero => exact absurd enough (Nat.not_lt_zero _)
  | succ fuel ih =>
    unfold bestFirst
    split
    · exact ⟨results, rfl⟩
    rename_i entry rest taken
    obtain ⟨perm, -⟩ := policy.pop_some taken
    have here := ends entry (perm.mem_iff.mpr mem_cons_self)
    have others : ∀ other ∈ rest, EndsWithin children depth other := fun other mem =>
      ends other (perm.mem_iff.mpr (mem_cons_of_mem _ mem))
    have total := (perm.map (treeSize children depth)).sum_eq
    rw [map_cons, sum_cons, here.treeSize_eq] at total
    split
    · split
      · exact ⟨_, rfl⟩
      · exact ih others (by omega) (time + 1) _
    refine ih (fun other mem => ?_) ?_ (time + 1) results
    · exact (mem_append.mp mem).elim (others other) here.inside
    · rw [map_append, sum_append]
      omega

/-- The results are the cheapest leaves, in order, and as many as there are or as are wanted. -/
theorem bestFirst_spec [LinearOrder Cost] {policy : HeapPolicy Cost}
    (less : ∀ first second : Cost, Costing.less first second = true ↔ first < second)
    (grows : ∀ entry, ∀ child ∈ children entry, entry.1 ≤ child.1) {count fuel time : Nat}
    {all heap results final : List (Cost × Item)}
    (enumerated : Enumerated children leaf depth all heap results) (few : results.length < count)
    (ends : bestFirst policy children leaf count fuel time heap results = some final) :
    ∃ others, (final ++ others).Perm all ∧ (final.Pairwise fun first second => first.1 ≤ second.1) ∧
      (∀ result ∈ final, ∀ other ∈ others, result.1 ≤ other.1) ∧ final.length = min count all.length := by
  have rest {heap results : List (Cost × Item)}
      (enumerated : Enumerated children leaf depth all heap results)
      (length : results.length = min count all.length) :
      ∃ others, (results ++ others).Perm all ∧ (results.Pairwise fun first second => first.1 ≤ second.1) ∧
          (∀ result ∈ results, ∀ other ∈ others, result.1 ≤ other.1) ∧
            results.length = min count all.length := by
    refine ⟨_, enumerated.perm, enumerated.sorted, fun result mem other below => ?_, length⟩
    obtain ⟨entry, waiting, below⟩ := mem_flatMap.mp below
    exact (enumerated.below result mem entry waiting).trans (leaves_grow grows below)
  induction fuel generalizing time heap results with
  | zero => nomatch ends
  | succ fuel ih =>
    unfold bestFirst at ends
    split at ends
    · rename_i empty
      obtain rfl := Option.some.inj ends
      obtain rfl := policy.pop_none empty
      have length := enumerated.perm.length_eq
      rw [flatMap_nil, append_nil] at length
      exact rest enumerated (by omega)
    rename_i entry others taken
    obtain ⟨perm, least⟩ := policy.pop_some taken
    split at ends
    · rename_i here
      have enumerated' := enumerated.result perm
        (fun other mem => not_lt.mp fun smaller => least other mem ((less _ _).mpr smaller)) here
      split at ends
      · rename_i full
        obtain rfl := Option.some.inj ends
        have length := enumerated'.perm.length_eq
        rw [length_append, full] at length
        exact rest enumerated' (by omega)
      rename_i short
      rw [length_append, length_singleton] at short
      refine ih enumerated' ?_ ends
      rw [length_append, length_singleton]
      omega
    · rename_i inner
      exact ih (enumerated.expand grows perm inner) few ends

end Codegraph.Library
