import Mathlib.Tactic

namespace Codegraph.Library

variable {Node : Type} {edge : Node → Node → Prop} {source : Node}

/-- A walk of so many steps leads from the source to a node. -/
inductive Hops (edge : Node → Node → Prop) (source : Node) : Nat → Node → Prop
  | start : Hops edge source 0 source
  | step {count : Nat} {middle target : Node} (before : Hops edge source count middle)
      (last : edge middle target) : Hops edge source (count + 1) target

/-- The shortest walk to the node has so many steps. -/
structure Distance (edge : Node → Node → Prop) (source target : Node) (count : Nat) : Prop where
  reached : Hops edge source count target
  least : ∀ other, Hops edge source other target → count ≤ other

variable {target : Node} {count : Nat}

/-- Steps that can be followed along a relation lead to related nodes. -/
theorem Hops.follow {Image : Type} {edge' : Image → Image → Prop} (related : Node → Image → Prop)
    (follows : ∀ first second image, related first image → edge first second →
      ∃ image', related second image' ∧ edge' image image')
    {image : Image} (start : related source image)
    (hops : Hops edge source count target) :
    ∃ image', related target image' ∧ Hops edge' image count image' := by
  induction hops with
  | start => exact ⟨image, start, .start⟩
  | step _ last ih =>
    obtain ⟨middle, relatedMiddle, before⟩ := ih
    obtain ⟨image', relatedTarget, last'⟩ := follows _ _ middle relatedMiddle last
    exact ⟨image', relatedTarget, .step before last'⟩

theorem Hops.trans {middle target : Node} {first second : Nat}
    (before : Hops edge source first middle) (after : Hops edge middle second target) :
    Hops edge source (first + second) target := by
  induction after with
  | start => exact before
  | step _ last ih => exact .step ih last

theorem Hops.reflTransGen (hops : Hops edge source count target) :
    Relation.ReflTransGen edge source target := by
  induction hops with
  | start => exact .refl
  | step _ last ih => exact ih.tail last

/-- The same steps lead back along the reversed relation. -/
theorem Hops.reverse (hops : Hops edge source count target) :
    Hops (fun second first => edge first second) target count source := by
  induction hops with
  | start => exact .start
  | @step count middle target _ last ih =>
    have first : Hops (fun second first => edge first second) target 1 middle := .step .start last
    rw [add_comm]
    exact first.trans ih

theorem Distance.zero (edge : Node → Node → Prop) (source : Node) : Distance edge source source 0 :=
  ⟨.start, fun _ _ => Nat.zero_le _⟩

theorem Distance.unique {first second : Nat}
    (left : Distance edge source target first) (right : Distance edge source target second) :
    first = second :=
  le_antisymm (left.least _ right.reached) (right.least _ left.reached)

theorem Distance.zero_iff : Distance edge source target 0 ↔ target = source := by
  constructor
  · intro distance
    cases distance.reached
    rfl
  intro same
  rw [same]
  exact Distance.zero edge source

theorem Distance.exists (hops : Hops edge source count target) :
    ∃ least ≤ count, Distance edge source target least := by
  classical
  have some : ∃ least, Hops edge source least target := ⟨count, hops⟩
  exact ⟨Nat.find some, Nat.find_min' some hops,
    Nat.find_spec some, fun other reached => Nat.find_min' some reached⟩

/-- The last step of a shortest walk comes from a node one step nearer. -/
theorem Distance.before (distance : Distance edge source target (count + 1)) :
    ∃ middle, Distance edge source middle count ∧ edge middle target := by
  cases distance.reached with
  | step before last =>
    rename_i middle
    refine ⟨middle, ⟨before, ?_⟩, last⟩
    intro other reached
    have := distance.least _ (.step reached last)
    omega

/-- Every layer up to that of a node holds a node. -/
theorem Distance.layer {count limit : Nat}
    (distance : Distance edge source target count) (within : limit ≤ count) :
    ∃ middle, Distance edge source middle limit := by
  induction count generalizing target with
  | zero =>
    obtain rfl := Nat.le_zero.mp within
    exact ⟨target, distance⟩
  | succ count ih =>
    rcases Nat.lt_or_eq_of_le within with below | same
    · obtain ⟨middle, before, _⟩ := distance.before
      exact ih before (Nat.le_of_lt_succ below)
    · rw [same]
      exact ⟨target, distance⟩

theorem Distance.after {middle target : Node}
    (distance : Distance edge source middle count) (last : edge middle target) :
    ∃ least ≤ count + 1, Distance edge source target least :=
  Distance.exists (.step distance.reached last)

/-- Distances agree along a one-to-one relation that follows steps in both directions. -/
theorem Distance.follow {Image : Type} {edge' : Image → Image → Prop} (related : Node → Image → Prop)
    (follows : ∀ first second image, related first image → edge first second →
      ∃ image', related second image' ∧ edge' image image')
    (follows' : ∀ first image image', related first image → edge' image image' →
      ∃ second, related second image' ∧ edge first second)
    (unique : ∀ node image image', related node image → related node image' → image = image')
    (unique' : ∀ node node' image, related node image → related node' image → node = node')
    {image image' : Image} (start : related source image)
    (finish : related target image') (count : Nat) :
    Distance edge source target count ↔ Distance edge' image image' count := by
  have hops (length : Nat) : Hops edge source length target ↔ Hops edge' image length image' := by
    constructor
    · intro reached
      obtain ⟨other, here, reached'⟩ := reached.follow related follows start
      rwa [unique target image' other finish here]
    intro reached
    obtain ⟨other, here, reached'⟩ := reached.follow (fun image node => related node image)
      (fun first second image back step => follows' image first second back step) start
    rwa [unique' target other image' finish here]
  constructor
  · exact fun distance => ⟨(hops count).mp distance.reached,
      fun other reached => distance.least other ((hops other).mpr reached)⟩
  · exact fun distance => ⟨(hops count).mpr distance.reached,
      fun other reached => distance.least other ((hops other).mp reached)⟩

/-- The next layer holds what is one step away from the last one and in no layer before it. -/
theorem Distance.next_iff : Distance edge source target (count + 1) ↔
      (∃ middle, Distance edge source middle count ∧ edge middle target) ∧
        ∀ least ≤ count, ¬ Distance edge source target least := by
  constructor
  · intro distance
    refine ⟨distance.before, fun least within nearer => ?_⟩
    have same := distance.unique nearer
    omega
  rintro ⟨⟨middle, before, last⟩, far⟩
  obtain ⟨least, close, distance⟩ := before.after last
  have beyond : ¬ least ≤ count := fun within => far least within distance
  obtain rfl : least = count + 1 := by omega
  exact distance

/-- The marks give the distance of every node up to a limit and of no other node. -/
def Explored (edge : Node → Node → Prop) (source : Node) (depth : Node → Option Nat) (limit : Nat) : Prop :=
  ∀ target count, depth target = some count ↔ Distance edge source target count ∧ count ≤ limit

theorem Explored.beyond {depth : Node → Option Nat} {limit : Nat}
    (explored : Explored edge source depth limit) (unmarked : depth target = none)
    (distance : Distance edge source target count) : limit < count := by
  by_contra within
  have marked := (explored target count).mpr ⟨distance, Nat.le_of_not_lt within⟩
  rw [unmarked] at marked
  contradiction

/-- The next layer holds the unmarked nodes one step away from the last one. -/
theorem Explored.next {depth depth' : Node → Option Nat} {limit : Nat}
    (explored : Explored edge source depth limit)
    (expanded : ∀ target count, depth' target = some count ↔ depth target = some count ∨
      (depth target = none ∧ count = limit + 1 ∧
        ∃ middle, depth middle = some limit ∧ edge middle target)) :
    Explored edge source depth' (limit + 1) := by
  intro target count
  rw [expanded]
  constructor
  · intro either
    rcases either with old | ⟨unmarked, rfl, middle, marked, last⟩
    · obtain ⟨distance, within⟩ := (explored target count).mp old
      exact ⟨distance, Nat.le_succ_of_le within⟩
    obtain ⟨least, close, distance⟩ := ((explored middle limit).mp marked).1.after last
    have far := explored.beyond unmarked distance
    obtain rfl : least = limit + 1 := by omega
    exact ⟨distance, le_refl _⟩
  intro ⟨distance, within⟩
  cases marked : depth target with
  | some other =>
    obtain rfl := ((explored target other).mp marked).1.unique distance
    exact .inl rfl
  | none =>
    have far := explored.beyond marked distance
    obtain rfl : count = limit + 1 := by omega
    obtain ⟨middle, before, last⟩ := distance.before
    exact .inr ⟨rfl, rfl, middle, (explored middle limit).mpr ⟨before, le_refl _⟩, last⟩

theorem Explored.exhausted {depth : Node → Option Nat} {limit : Nat}
    (explored : Explored edge source depth limit) (empty : ∀ target, depth target ≠ some limit)
    (distance : Distance edge source target count) :
    count < limit := by
  by_contra far
  obtain ⟨extra, rfl⟩ := Nat.exists_eq_add_of_le (Nat.le_of_not_lt far)
  induction extra generalizing target with
  | zero => exact empty target ((explored target limit).mpr ⟨distance, le_refl _⟩)
  | succ extra ih =>
    obtain ⟨middle, before, _⟩ := distance.before
    exact ih before (by omega)

end Codegraph.Library
