import Mathlib.Logic.Relation
import Mathlib.Tactic

namespace Codegraph.Library

open Relation List

variable {Node Fact : Type}

section Trace

variable (kills : Fact → Fact → Prop)

/-- The trace generates the fact and later generates no fact that kills it. -/
def Survives (fact : Fact) (trace : List Fact) : Prop :=
  ∃ before after, trace = before ++ fact :: after ∧ ∀ killer ∈ after, ¬ kills killer fact

/-- A set of facts holds this fact after the trace. -/
def HoldsAfter (holds : Prop) (fact : Fact) (trace : List Fact) : Prop :=
  (holds ∧ ∀ killer ∈ trace, ¬ kills killer fact) ∨ Survives kills fact trace

variable {kills}

@[simp] theorem survives_nil (fact : Fact) : ¬ Survives kills fact [] := by
  rintro ⟨before, after, split, -⟩
  simp at split

theorem survives_append (fact : Fact) (first second : List Fact) : Survives kills fact (first ++ second) ↔
      HoldsAfter kills (Survives kills fact first) fact second := by
  constructor
  · rintro ⟨before, after, split, spared⟩
    rcases append_eq_append_iff.mp split with ⟨middle, rfl, rest⟩ | ⟨middle, rfl, rest⟩
    · exact .inr ⟨middle, after, rest, spared⟩
    cases middle with
    | nil =>
      have later : second = [] ++ fact :: after := by simpa using rest.symm
      exact .inr ⟨[], after, later, spared⟩
    | cons head middle =>
      obtain ⟨rfl, rfl⟩ := List.cons.inj rest
      refine .inl ⟨⟨before, middle, rfl, ?_⟩, ?_⟩
      · exact fun killer mem => spared killer (mem_append_left _ mem)
      · exact fun killer mem => spared killer (mem_append_right _ mem)
  rintro (⟨⟨before, after, rfl, spared⟩, passed⟩ | ⟨before, after, rfl, spared⟩)
  · refine ⟨before, after ++ second, by simp, fun killer mem => ?_⟩
    rcases mem_append.mp mem with earlier | later
    · exact spared killer earlier
    · exact passed killer later
  · exact ⟨first ++ before, after, by simp, spared⟩

theorem holdsAfter_nil (holds : Prop) (fact : Fact) : HoldsAfter kills holds fact [] ↔ holds := by
  simp [HoldsAfter]

theorem holdsAfter_append (holds : Prop) (fact : Fact) (first second : List Fact) :
    HoldsAfter kills holds fact (first ++ second) ↔
      HoldsAfter kills (HoldsAfter kills holds fact first) fact second := by
  simp only [HoldsAfter, survives_append, mem_append, or_imp, forall_and]
  tauto

theorem holdsAfter_singleton (holds : Prop) (fact generated : Fact) :
    HoldsAfter kills holds fact [generated] ↔ fact = generated ∨ (holds ∧ ¬ kills generated fact) := by
  have single : Survives kills fact [generated] ↔ fact = generated := by
    constructor
    · rintro ⟨before, after, split, -⟩
      have mem : fact ∈ [generated] := by rw [split]; simp
      simpa using mem
    · rintro rfl
      exact ⟨[], [], rfl, by simp⟩
  rw [HoldsAfter, single]
  simp [or_comm]

theorem holdsAfter_mono {holds holds' : Prop} (implies : holds → holds') {fact : Fact}
    {trace : List Fact} (after : HoldsAfter kills holds fact trace) :
    HoldsAfter kills holds' fact trace :=
  after.imp (And.imp_left implies) id

theorem holdsAfter_congr {holds holds' : Prop} (same : holds ↔ holds') (fact : Fact)
    (trace : List Fact) : HoldsAfter kills holds fact trace ↔ HoldsAfter kills holds' fact trace :=
  ⟨holdsAfter_mono same.mp, holdsAfter_mono same.mpr⟩

end Trace

/-- The nodes lie on a path from the root to the node, which is not among them yet. -/
inductive EntryPath (edge : Node → Node → Prop) (root : Node) : Node → List Node → Prop
  | entry : EntryPath edge root root []
  | step {node next : Node} {passed : List Node} (path : EntryPath edge root node passed)
      (linked : edge node next) : EntryPath edge root next (passed ++ [node])

theorem entryPath_iff {edge : Node → Node → Prop} {root node : Node} :
    (∃ passed, EntryPath edge root node passed) ↔ ReflTransGen edge root node := by
  constructor
  · rintro ⟨passed, path⟩
    induction path with
    | entry => exact ReflTransGen.refl
    | step _ linked ih => exact ih.tail linked
  intro reaches
  induction reaches with
  | refl => exact ⟨[], EntryPath.entry⟩
  | tail _ linked ih =>
    obtain ⟨passed, path⟩ := ih
    exact ⟨_, path.step linked⟩

section Paths

variable {edge : Node → Node → Prop} {root : Node} {kills : Fact → Fact → Prop}
  {start : List Fact} {events : Node → List Fact}

/-- Some path to the node generates the fact and does not kill it afterwards. -/
def Arrives (edge : Node → Node → Prop) (root : Node) (kills : Fact → Fact → Prop)
    (start : List Fact) (events : Node → List Fact) (node : Node) (fact : Fact) : Prop :=
  ∃ passed, EntryPath edge root node passed ∧ Survives kills fact (start ++ passed.flatMap events)

/-- The same up to a point inside the node, which has generated some facts already. -/
def ArrivesAfter (edge : Node → Node → Prop) (root : Node) (kills : Fact → Fact → Prop)
    (start : List Fact) (events : Node → List Fact) (node : Node) (fact : Fact)
    (inside : List Fact) : Prop :=
  ∃ passed, EntryPath edge root node passed ∧ Survives kills fact (start ++ passed.flatMap events ++ inside)

theorem arrives_root {fact : Fact} (generated : Survives kills fact start) :
    Arrives edge root kills start events root fact :=
  ⟨[], EntryPath.entry, by simpa using generated⟩

theorem arrives_step {node next : Node} {fact : Fact} (linked : edge node next)
    (leaves : ArrivesAfter edge root kills start events node fact (events node)) :
    Arrives edge root kills start events next fact := by
  obtain ⟨passed, path, survives⟩ := leaves
  exact ⟨passed ++ [node], path.step linked, by simpa using survives⟩

theorem arrivesAfter_iff {node : Node} {fact : Fact} {inside : List Fact}
    (reachable : ∃ passed, EntryPath edge root node passed) :
    ArrivesAfter edge root kills start events node fact inside ↔
      HoldsAfter kills (Arrives edge root kills start events node fact) fact inside := by
  simp only [ArrivesAfter, survives_append _ _ inside]
  constructor
  · rintro ⟨passed, path, after⟩
    exact holdsAfter_mono (fun survives => ⟨passed, path, survives⟩) after
  rintro (⟨⟨passed, path, survives⟩, spared⟩ | survives)
  · exact ⟨passed, path, .inl ⟨survives, spared⟩⟩
  · obtain ⟨passed, path⟩ := reachable
    exact ⟨passed, path, .inr survives⟩

theorem solution_iff_arrives (incoming outgoing : Node → Fact → Prop)
    (sound : ∀ node fact, outgoing node fact →
      ArrivesAfter edge root kills start events node fact (events node))
    (joined : ∀ node fact, (∃ passed, EntryPath edge root node passed) →
      (incoming node fact ↔ (node = root ∧ Survives kills fact start) ∨
        ∃ before, edge before node ∧ outgoing before fact))
    (transferred : ∀ node fact, (∃ passed, EntryPath edge root node passed) →
      (outgoing node fact ↔ HoldsAfter kills (incoming node fact) fact (events node)))
    {node : Node} (fact : Fact) (reachable : ∃ passed, EntryPath edge root node passed) :
    incoming node fact ↔ Arrives edge root kills start events node fact := by
  constructor
  · intro holds
    rcases (joined node fact reachable).mp holds with ⟨rfl, generated⟩ | ⟨before, linked, leaves⟩
    · exact arrives_root generated
    · exact arrives_step linked (sound before fact leaves)
  rintro ⟨passed, path, survives⟩
  clear reachable
  induction path with
  | entry => exact (joined root fact ⟨[], EntryPath.entry⟩).mpr (.inl ⟨rfl, by simpa using survives⟩)
  | @step before next passed path linked ih =>
    refine (joined next fact ⟨_, path.step linked⟩).mpr (.inr ⟨before, linked, ?_⟩)
    have split : start ++ (passed ++ [before]).flatMap events =
        (start ++ passed.flatMap events) ++ events before := by simp
    rw [split, survives_append] at survives
    exact (transferred before fact ⟨passed, path⟩).mpr (holdsAfter_mono ih survives)

end Paths

end Codegraph.Library
