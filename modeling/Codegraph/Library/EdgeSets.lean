import Mathlib.Logic.Relation
import Mathlib.Tactic

namespace Codegraph.Library

open Relation

variable {Node Edge : Type} (ends : Edge → Node × Node)

/-- The second node is reached from the first through kept edges. -/
def Via (kept : Set Edge) : Node → Node → Prop :=
  ReflTransGen fun first second => ∃ edge ∈ kept, ends edge = (first, second)

/-- The kept edges lead wherever all edges lead. -/
def KeepsReach (all kept : Set Edge) : Prop :=
  ∀ first second, Via ends kept first second ↔ Via ends all first second

/-- An edge without a detour. -/
def Essential (all : Set Edge) : Set Edge :=
  {edge ∈ all | ¬Via ends (all \ {edge}) (ends edge).1 (ends edge).2}

variable {ends} {all kept kept' : Set Edge} {first second : Node}

theorem Via.mono (more : kept ⊆ kept') (reached : Via ends kept first second) :
    Via ends kept' first second := by
  refine ReflTransGen.mono ?_ _ _ reached
  rintro start finish ⟨edge, mem, joins⟩
  exact ⟨edge, more mem, joins⟩

theorem Via.single {edge : Edge} (mem : edge ∈ kept) : Via ends kept (ends edge).1 (ends edge).2 :=
  ReflTransGen.single ⟨edge, mem, rfl⟩

theorem Via.detour (reached : Via ends kept first second)
    (detours : ∀ edge ∈ kept, Via ends kept' (ends edge).1 (ends edge).2) :
    Via ends kept' first second := by
  induction reached with
  | refl => exact ReflTransGen.refl
  | tail _ step ih =>
    obtain ⟨edge, mem, joins⟩ := step
    have detour := detours edge mem
    rw [joins] at detour
    exact ih.trans detour

theorem keepsReach_remove {edge : Edge} (detour : Via ends (all \ {edge}) (ends edge).1 (ends edge).2) :
    KeepsReach ends all (all \ {edge}) := by
  intro first second
  refine ⟨Via.mono Set.diff_subset, fun reached => reached.detour fun other mem => ?_⟩
  by_cases same : other = edge
  · rwa [same]
  · exact Via.single ⟨mem, same⟩

theorem essential_subset (inside : kept ⊆ all) (keeps : KeepsReach ends all kept) :
    Essential ends all ⊆ kept := by
  rintro edge ⟨mem, alone⟩
  by_contra absent
  refine alone (((keeps _ _).mpr (Via.single mem)).mono fun other chosen => ?_)
  exact ⟨inside chosen, fun same => absent (Set.mem_singleton_iff.mp same ▸ chosen)⟩

/-- The essential edges keep reachability exactly when one smallest set of edges does. -/
theorem keepsReach_essential_iff : KeepsReach ends all (Essential ends all) ↔
      ∃ least ⊆ all, KeepsReach ends all least ∧
        ∀ other ⊆ all, KeepsReach ends all other → least ⊆ other := by
  constructor
  · intro keeps
    exact ⟨Essential ends all, fun edge essential => essential.1, keeps,
      fun other inside => essential_subset inside⟩
  rintro ⟨least, inside, keeps, smallest⟩ first second
  have chosen : least ⊆ Essential ends all := by
    refine fun edge mem => ⟨inside mem, fun detour => ?_⟩
    exact (smallest _ Set.diff_subset (keepsReach_remove detour) mem).2 rfl
  constructor
  · exact Via.mono fun edge essential => essential.1
  · exact fun reached => ((keeps first second).mpr reached).mono chosen

/-- Only edges between different nodes matter. -/
theorem via_congr (detours : ∀ edge ∈ kept, Via ends kept' (ends edge).1 (ends edge).2)
    (detours' : ∀ edge ∈ kept', Via ends kept (ends edge).1 (ends edge).2) :
    Via ends kept first second ↔ Via ends kept' first second :=
  ⟨fun reached => reached.detour detours, fun reached => reached.detour detours'⟩

theorem via_image {Node' Edge' : Type} {ends' : Edge' → Node' × Node'} {nodes : Set Node}
    {name : Node → Node'} {rename : Edge → Edge'}
    (named : ∀ edge ∈ kept, ends' (rename edge) = (name (ends edge).1, name (ends edge).2))
    (apart : Set.InjOn name nodes)
    (inside : ∀ edge ∈ kept, (ends edge).1 ∈ nodes ∧ (ends edge).2 ∈ nodes)
    (known : first ∈ nodes) (known' : second ∈ nodes) :
    Via ends' (rename '' kept) (name first) (name second) ↔ Via ends kept first second := by
  constructor
  · intro reached
    have back : ∀ last, Via ends' (rename '' kept) (name first) last →
        ∃ node ∈ nodes, name node = last ∧ Via ends kept first node := by
      intro last reached
      induction reached with
      | refl => exact ⟨first, known, rfl, ReflTransGen.refl⟩
      | tail _ step ih =>
        obtain ⟨node, mem, rfl, walked⟩ := ih
        obtain ⟨_, ⟨edge, chosen, rfl⟩, joins⟩ := step
        obtain ⟨source, target⟩ := Prod.mk.inj ((named edge chosen).symm.trans joins)
        have same := apart (inside edge chosen).1 mem source
        exact ⟨(ends edge).2, (inside edge chosen).2, target, walked.tail ⟨edge, chosen, Prod.ext same rfl⟩⟩
    obtain ⟨node, mem, same, walked⟩ := back _ reached
    rwa [← apart mem known' same]
  intro reached
  refine ReflTransGen.lift name ?_ _ _ reached
  rintro start finish ⟨edge, chosen, joins⟩
  refine ⟨rename edge, ⟨edge, chosen, rfl⟩, ?_⟩
  rw [named edge chosen, joins]

end Codegraph.Library
