import Mathlib.Computability.Language
import Mathlib.Logic.Relation
import Mathlib.Tactic

namespace Codegraph.Library

open Relation List

section

variable {Node : Type}

theorem closed_of_reaches {edge : Node → Node → Prop} {marked : Node → Prop} {root node : Node}
    (closed : ∀ first second, marked first → edge first second → marked second) (start : marked root)
    (reaches : ReflTransGen edge root node) : marked node := by
  induction reaches with
  | refl => exact start
  | tail _ step ih => exact closed _ _ ih step

end

section

variable {Node Label : Type} {step : Node → Label → Node → Prop}

/-- A walk reads one label at each step. -/
inductive Walk (step : Node → Label → Node → Prop) (source : Node) : List Label → Node → Prop
  | nil : Walk step source [] source
  | snoc {labels : List Label} {middle target : Node} {label : Label}
      (before : Walk step source labels middle) (last : step middle label target) :
      Walk step source (labels ++ [label]) target

namespace Walk

theorem append {source middle target : Node} {first second : List Label}
    (left : Walk step source first middle) (right : Walk step middle second target) :
    Walk step source (first ++ second) target := by
  induction right with
  | nil => rwa [append_nil]
  | snoc _ last ih =>
    rw [← append_assoc]
    exact .snoc ih last

variable {source target : Node}

theorem single {label : Label} (only : step source label target) :
    Walk step source [label] target := .snoc .nil only

theorem split {first second : List Label} (walk : Walk step source (first ++ second) target) :
    ∃ middle, Walk step source first middle ∧ Walk step middle second target := by
  induction second using List.reverseRecOn generalizing target with
  | nil =>
    rw [append_nil] at walk
    exact ⟨target, walk, .nil⟩
  | append_singleton second label ih =>
    rw [← append_assoc] at walk
    generalize read : first ++ second ++ [label] = labels at walk
    cases walk with
    | nil => simp at read
    | snoc before last =>
      obtain ⟨same, same'⟩ := append_inj' read rfl
      cases same'
      rw [← same] at before
      obtain ⟨middle, left, right⟩ := ih before
      exact ⟨middle, left, .snoc right last⟩

/-- A walk along reversed edges reads the labels backwards. -/
theorem reverse {back : Node → Label → Node → Prop}
    (turned : ∀ first label second, step first label second → back second label first)
    {labels : List Label} (walk : Walk step source labels target) :
    Walk back target labels.reverse source := by
  induction walk with
  | nil => exact .nil
  | snoc _ last ih =>
    rw [reverse_append, reverse_singleton]
    exact (single (turned _ _ _ last)).append ih

theorem nil_iff : Walk step source [] target ↔ target = source := by
  constructor
  · intro walk
    generalize empty : ([] : List Label) = labels at walk
    cases walk with
    | nil => rfl
    | snoc _ _ => simp at empty
  intro same
  rw [same]
  exact .nil

theorem single_iff {label : Label} : Walk step source [label] target ↔ step source label target := by
  constructor
  · intro walk
    obtain ⟨middle, before, last⟩ : ∃ middle, Walk step source [] middle ∧ step middle label target := by
      generalize read : [label] = labels at walk
      cases walk with
      | nil => simp at read
      | snoc before last =>
        rw [← nil_append [label]] at read
        obtain ⟨same, same'⟩ := append_inj' read rfl
        cases same'
        rw [← same] at before
        exact ⟨_, before, last⟩
    rwa [nil_iff.mp before] at last
  · exact single

end Walk

end

end Codegraph.Library
