import Mathlib.Tactic

namespace Codegraph.Library

open List Option

variable {Object : Type} [DecidableEq Object]

/-- The objects of a database, and those that the stored rows do not admit. -/
structure Catalog (Object : Type) where
  objects : List Object
  clashing : List Object
deriving DecidableEq

/-- A statement needs some objects. An object may come with its parts. -/
inductive Statement (Object : Type) where
  | create (object : Object) (needs parts : List Object)
  | createUnique (object : Object) (needs : List Object)
  | add (object : Object) (needs : List Object)
  | drop (object : Object)
  | settle (object : Object) (needs : List Object)
deriving DecidableEq

/-- A statement may be run only while an object is missing, or only while it is there. -/
inductive Step (Object : Type) where
  | run (statement : Statement Object)
  | ifMissing (object : Object) (step : Step Object)
  | ifPresent (object : Object) (step : Step Object)
deriving DecidableEq

/-- The objects that a statement may bring. -/
def Statement.created : Statement Object → List Object
  | .create object _ parts => object :: parts
  | .createUnique object _ => [object]
  | .add object _ => [object]
  | .drop _ => []
  | .settle _ _ => []

namespace Step

def statement : Step Object → Statement Object
  | .run statement => statement
  | .ifMissing _ step => step.statement
  | .ifPresent _ step => step.statement

def brought (step : Step Object) : List Object := step.statement.created

def dropped (step : Step Object) : List Object :=
  match step.statement with
  | .drop object => [object]
  | _ => []

/-- An object that a step adds without looking for it. -/
def forced : Step Object → List Object
  | .run (.add object _) => [object]
  | .run _ => []
  | .ifMissing _ _ => []
  | .ifPresent _ step => step.forced

/-- An object that a step creates with parts. -/
def composed (step : Step Object) : List (Object × List Object) :=
  match step.statement with
  | .create object _ (part :: parts) => [(object, part :: parts)]
  | _ => []

end Step

namespace Catalog

/-- An object is created unless it exists, and it is added only if it does not exist. -/
def exec (catalog : Catalog Object) : Statement Object → Option (Catalog Object)
  | .create object needs parts =>
    if object ∈ catalog.objects then some catalog
    else if needs ⊆ catalog.objects then
      some { catalog with objects := object :: parts ++ catalog.objects }
    else none
  | .createUnique object needs =>
    if object ∈ catalog.objects then some catalog
    else if needs ⊆ catalog.objects ∧ object ∉ catalog.clashing then
      some { catalog with objects := object :: catalog.objects }
    else none
  | .add object needs =>
    if object ∉ catalog.objects ∧ needs ⊆ catalog.objects then
      some { catalog with objects := object :: catalog.objects }
    else none
  | .drop object => some { catalog with objects := catalog.objects.filter (· ≠ object) }
  | .settle object needs =>
    if needs ⊆ catalog.objects then
      some { catalog with clashing := catalog.clashing.filter (· ≠ object) }
    else none

def step (catalog : Catalog Object) : Step Object → Option (Catalog Object)
  | .run statement => catalog.exec statement
  | .ifMissing object step => if object ∈ catalog.objects then some catalog else catalog.step step
  | .ifPresent object step => if object ∈ catalog.objects then catalog.step step else some catalog

/-- The steps of a transaction. -/
def run (catalog : Catalog Object) : List (Step Object) → Option (Catalog Object)
  | [] => some catalog
  | first :: rest => (catalog.step first).bind (·.run rest)

variable {catalog after : Catalog Object}

theorem exec_keeps {statement : Statement Object} {object : Object}
    (ran : catalog.exec statement = some after) (listed : object ∈ catalog.objects)
    (kept : statement ≠ .drop object) : object ∈ after.objects := by
  cases statement with
  | create other needs parts =>
    dsimp only [exec] at ran
    split at ran
    · cases ran
      exact listed
    split at ran
    · cases ran
      exact mem_append_right _ listed
    · cases ran
  | createUnique other needs =>
    dsimp only [exec] at ran
    split at ran
    · cases ran
      exact listed
    split at ran
    · cases ran
      exact mem_cons_of_mem _ listed
    · cases ran
  | add other needs =>
    dsimp only [exec] at ran
    split at ran
    · cases ran
      exact mem_cons_of_mem _ listed
    · cases ran
  | drop other =>
    cases ran
    exact mem_filter.mpr ⟨listed, decide_eq_true fun same => kept (same ▸ rfl)⟩
  | settle other needs =>
    dsimp only [exec] at ran
    split at ran
    · cases ran
      exact listed
    · cases ran

theorem exec_whole {statement : Statement Object}
    {object part : Object} (ran : catalog.exec statement = some after)
    (whole : object ∈ catalog.objects → part ∈ catalog.objects)
    (together : object ∈ statement.created → part ∈ statement.created)
    (kept : statement ≠ .drop part) : object ∈ after.objects → part ∈ after.objects := by
  intro listed
  by_cases old : object ∈ catalog.objects
  · exact exec_keeps ran (whole old) kept
  cases statement with
  | create other needs parts =>
    dsimp only [exec] at ran
    split at ran
    · cases ran
      exact absurd listed old
    split at ran
    · cases ran
      have new := (mem_append.mp listed).resolve_right old
      exact mem_append_left _ (together new)
    · cases ran
  | createUnique other needs =>
    dsimp only [exec] at ran
    split at ran
    · cases ran
      exact absurd listed old
    split at ran
    · cases ran
      have new := (mem_cons.mp listed).resolve_right old
      have same := mem_singleton.mp (together (mem_singleton.mpr new))
      exact same ▸ mem_cons_self
    · cases ran
  | add other needs =>
    dsimp only [exec] at ran
    split at ran
    · cases ran
      have new := (mem_cons.mp listed).resolve_right old
      have same := mem_singleton.mp (together (mem_singleton.mpr new))
      exact same ▸ mem_cons_self
    · cases ran
  | drop other =>
    cases ran
    exact absurd (mem_filter.mp listed).1 old
  | settle other needs =>
    dsimp only [exec] at ran
    split at ran
    · cases ran
      exact absurd listed old
    · cases ran

theorem step_keeps {step : Step Object} {object : Object}
    (ran : catalog.step step = some after) (listed : object ∈ catalog.objects)
    (kept : object ∉ step.dropped) : object ∈ after.objects := by
  induction step with
  | run statement =>
    refine exec_keeps ran listed ?_
    rintro rfl
    exact kept mem_cons_self
  | ifMissing other step ih =>
    dsimp only [Catalog.step] at ran
    split at ran
    · cases ran
      exact listed
    · exact ih ran kept
  | ifPresent other step ih =>
    dsimp only [Catalog.step] at ran
    split at ran
    · exact ih ran kept
    · cases ran
      exact listed

/-- What no step drops outlives a transaction. -/
theorem run_keeps {steps : List (Step Object)} {object : Object}
    (ran : catalog.run steps = some after) (listed : object ∈ catalog.objects)
    (kept : object ∉ steps.flatMap Step.dropped) : object ∈ after.objects := by
  induction steps generalizing catalog with
  | nil =>
    cases ran
    exact listed
  | cons first rest ih =>
    rw [flatMap_cons, mem_append, not_or] at kept
    obtain ⟨middle, one, later⟩ := bind_eq_some_iff.mp ran
    exact ih later (step_keeps one listed kept.1) kept.2

end Catalog

/-- What is known about a catalog. A ready object is there or can be created, and a whole one has
its parts if it is there. -/
structure Known (Object : Type) where
  present : List Object
  absent : List Object
  ready : List Object
  whole : List (Object × List Object)
deriving DecidableEq

namespace Known

structure Of (known : Known Object) (catalog : Catalog Object) : Prop where
  present : ∀ object ∈ known.present, object ∈ catalog.objects
  absent : ∀ object ∈ known.absent, object ∉ catalog.objects
  ready : ∀ object ∈ known.ready, object ∈ catalog.objects ∨ object ∉ catalog.clashing
  whole : ∀ object parts, (object, parts) ∈ known.whole → object ∈ catalog.objects → parts ⊆ catalog.objects

instance (known : Known Object) (catalog : Catalog Object) : Decidable (known.Of catalog) :=
  decidable_of_iff ((∀ object ∈ known.present, object ∈ catalog.objects) ∧
      (∀ object ∈ known.absent, object ∉ catalog.objects) ∧
      (∀ object ∈ known.ready, object ∈ catalog.objects ∨ object ∉ catalog.clashing) ∧
      ∀ whole ∈ known.whole, whole.1 ∈ catalog.objects → whole.2 ⊆ catalog.objects)
    ⟨fun ⟨present, absent, ready, whole⟩ =>
        ⟨present, absent, ready, fun object parts member => whole (object, parts) member⟩,
      fun of => ⟨of.present, of.absent, of.ready, fun whole member => of.whole _ _ member⟩⟩

/-- Less is known. -/
structure Weaker (weak strong : Known Object) : Prop where
  present : weak.present ⊆ strong.present
  absent : weak.absent ⊆ strong.absent
  ready : weak.ready ⊆ strong.ready
  whole : weak.whole ⊆ strong.whole

instance (weak strong : Known Object) : Decidable (Weaker weak strong) :=
  decidable_of_iff (weak.present ⊆ strong.present ∧ weak.absent ⊆ strong.absent ∧
    weak.ready ⊆ strong.ready ∧ weak.whole ⊆ strong.whole)
    ⟨fun ⟨present, absent, ready, whole⟩ => ⟨present, absent, ready, whole⟩,
      fun ⟨present, absent, ready, whole⟩ => ⟨present, absent, ready, whole⟩⟩

/-- What is still known after some objects were added and others may have been. -/
def grow (known : Known Object) (added touched : List Object) : Known Object where
  present := added ++ known.present
  absent := known.absent.filter (· ∉ touched)
  ready := known.ready
  whole := known.whole.filter fun whole => whole.1 ∉ touched ∨ whole.2 ⊆ added ++ known.present

/-- The parts of a new object are known, and so are those of a whole one. -/
def partsOf (known : Known Object) (object : Object) (parts : List Object) : List Object :=
  if object ∈ known.absent ∨ (object, parts) ∈ known.whole then parts else []

/-- What is known after a statement that is known to succeed. -/
def exec (known : Known Object) : Statement Object → Option (Known Object)
  | .create object needs parts =>
    if object ∈ known.present then some known
    else if needs ⊆ known.present then
      some (known.grow (object :: known.partsOf object parts) (object :: parts))
    else none
  | .createUnique object needs =>
    if object ∈ known.present then some known
    else if needs ⊆ known.present ∧ object ∈ known.ready then
      some (known.grow [object] [object])
    else none
  | .add object needs =>
    if object ∈ known.absent ∧ needs ⊆ known.present then some (known.grow [object] [object])
    else none
  | .drop object => some
      { present := known.present.filter (· ≠ object)
        absent := object :: known.absent
        ready := known.ready.filter (· ≠ object)
        whole := known.whole.filter (object ∉ ·.2) }
  | .settle object needs =>
    if needs ⊆ known.present then some { known with ready := object :: known.ready } else none

def assumePresent (known : Known Object) (object : Object) : Known Object :=
  { known with present := object :: known.present, ready := object :: known.ready }

def assumeAbsent (known : Known Object) (object : Object) : Known Object :=
  { known with absent := object :: known.absent }

/-- What is known either way. -/
def meet (first second : Known Object) : Known Object where
  present := first.present.filter (· ∈ second.present)
  absent := first.absent.filter (· ∈ second.absent)
  ready := first.ready.filter (· ∈ second.ready)
  whole := first.whole.filter (· ∈ second.whole)

/-- A missing object that is not known to be missing is followed both ways. -/
def step (known : Known Object) : Step Object → Option (Known Object)
  | .run statement => known.exec statement
  | .ifMissing object step =>
    if object ∈ known.present then some known
    else ((known.assumeAbsent object).step step).map (·.meet (known.assumePresent object))
  | .ifPresent object step => if object ∈ known.present then known.step step else none

def run (known : Known Object) : List (Step Object) → Option (Known Object)
  | [] => some known
  | first :: rest => (known.step first).bind (·.run rest)

/-- The steps are known to succeed, and something is known after each of them. -/
def keeps (goal : Known Object) : List (Step Object) → Known Object → Bool
  | [], known => goal.Weaker known
  | first :: rest, known => goal.Weaker known && (known.step first).any fun next => keeps goal rest next

variable {catalog : Catalog Object}

theorem Of.weaken {weak strong : Known Object}
    (of : strong.Of catalog) (weaker : Weaker weak strong) : weak.Of catalog where
  present object mem := of.present object (weaker.present mem)
  absent object mem := of.absent object (weaker.absent mem)
  ready object mem := of.ready object (weaker.ready mem)
  whole object parts mem := of.whole object parts (weaker.whole mem)

theorem Of.grow {known : Known Object} {catalog next : Catalog Object} (of : known.Of catalog)
    {added touched : List Object} (old : catalog.objects ⊆ next.objects)
    (new : added ⊆ next.objects)
    (sources : ∀ object ∈ next.objects, object ∈ catalog.objects ∨ object ∈ touched)
    (same : next.clashing = catalog.clashing) : (known.grow added touched).Of next where
  present object mem := by
    rcases mem_append.mp mem with first | later
    · exact new first
    · exact old (of.present object later)
  absent object mem listed := by
    obtain ⟨before, untouched⟩ := mem_filter.mp mem
    rcases sources object listed with early | late
    · exact of.absent object before early
    · exact of_decide_eq_true untouched late
  ready object mem := by
    rw [same]
    exact (of.ready object mem).imp_left (@old object)
  whole object parts mem listed := by
    obtain ⟨before, covered⟩ := mem_filter.mp mem
    rcases of_decide_eq_true covered with untouched | inside
    · have early := (sources object listed).resolve_right untouched
      exact List.Subset.trans (of.whole object parts before early) old
    intro part mem
    rcases mem_append.mp (inside mem) with first | later
    · exact new first
    · exact old (of.present part later)

theorem Of.assumePresent {known : Known Object} {object : Object}
    (of : known.Of catalog) (listed : object ∈ catalog.objects) :
    (known.assumePresent object).Of catalog where
  present other mem := by
    rcases mem_cons.mp mem with rfl | old
    · exact listed
    · exact of.present other old
  absent := of.absent
  ready other mem := by
    rcases mem_cons.mp mem with rfl | old
    · exact .inl listed
    · exact of.ready other old
  whole := of.whole

theorem Of.assumeAbsent {known : Known Object} {object : Object}
    (of : known.Of catalog) (unlisted : object ∉ catalog.objects) :
    (known.assumeAbsent object).Of catalog where
  present := of.present
  absent other mem := by
    rcases mem_cons.mp mem with rfl | old
    · exact unlisted
    · exact of.absent other old
  ready := of.ready
  whole := of.whole

theorem Of.meet_left {first second : Known Object} (of : first.Of catalog) : (first.meet second).Of catalog :=
  of.weaken ⟨filter_subset' _, filter_subset' _, filter_subset' _, filter_subset' _⟩

theorem Of.meet_right {first second : Known Object}
    (of : second.Of catalog) : (first.meet second).Of catalog := by
  refine of.weaken ⟨?_, ?_, ?_, ?_⟩
  all_goals exact fun _ mem => of_decide_eq_true (mem_filter.mp mem).2

theorem Of.exec {known next : Known Object} (of : known.Of catalog)
    {statement : Statement Object} (ran : known.exec statement = some next) :
    ∃ after, catalog.exec statement = some after ∧ next.Of after := by
  cases statement with
  | create object needs parts =>
    dsimp only [Known.exec] at ran
    dsimp only [Catalog.exec]
    split at ran
    · rename_i known
      cases ran
      exact ⟨catalog, if_pos (of.present object known), of⟩
    split at ran
    · rename_i available
      cases ran
      by_cases listed : object ∈ catalog.objects
      · refine ⟨catalog, if_pos listed, of.grow (List.Subset.refl _) ?_ ?_ rfl⟩
        · intro other mem
          rcases mem_cons.mp mem with rfl | part
          · exact listed
          unfold partsOf at part
          split at part
          · rename_i covered
            rcases covered with missing | whole
            · exact absurd listed (of.absent object missing)
            · exact of.whole object parts whole listed part
          · cases part
        · exact fun other mem => .inl mem
      have needed : needs ⊆ catalog.objects := fun other mem => of.present other (available mem)
      rw [if_neg listed, if_pos needed]
      refine ⟨_, rfl, of.grow (subset_append_right _ _) ?_ ?_ rfl⟩
      · intro other mem
        refine mem_append_left _ ?_
        rcases mem_cons.mp mem with rfl | part
        · exact mem_cons_self
        unfold partsOf at part
        split at part
        · exact mem_cons_of_mem _ part
        · cases part
      · exact fun other mem => (mem_append.mp mem).symm
    · cases ran
  | createUnique object needs =>
    dsimp only [Known.exec] at ran
    dsimp only [Catalog.exec]
    split at ran
    · rename_i known
      cases ran
      exact ⟨catalog, if_pos (of.present object known), of⟩
    split at ran
    · rename_i available
      cases ran
      by_cases listed : object ∈ catalog.objects
      · refine ⟨catalog, if_pos listed, of.grow (List.Subset.refl _) ?_ ?_ rfl⟩
        · exact cons_subset.mpr ⟨listed, nil_subset _⟩
        · exact fun other mem => .inl mem
      have needed : needs ⊆ catalog.objects ∧ object ∉ catalog.clashing :=
        ⟨fun other mem => of.present other (available.1 mem),
          (of.ready object available.2).resolve_left listed⟩
      rw [if_neg listed, if_pos needed]
      refine ⟨_, rfl, of.grow (subset_cons_self _ _) ?_ ?_ rfl⟩
      · exact cons_subset.mpr ⟨mem_cons_self, nil_subset _⟩
      · exact fun other mem => (mem_cons.mp mem).symm.imp_right mem_singleton.mpr
    · cases ran
  | add object needs =>
    dsimp only [Known.exec] at ran
    split at ran
    · rename_i available
      cases ran
      have needed : object ∉ catalog.objects ∧ needs ⊆ catalog.objects :=
        ⟨of.absent object available.1, fun other mem => of.present other (available.2 mem)⟩
      refine ⟨_, if_pos needed, of.grow (subset_cons_self _ _) ?_ ?_ rfl⟩
      · exact cons_subset.mpr ⟨mem_cons_self, nil_subset _⟩
      · exact fun other mem => (mem_cons.mp mem).symm.imp_right mem_singleton.mpr
    · cases ran
  | drop object =>
    cases ran
    refine ⟨_, rfl, ?_, ?_, ?_, ?_⟩
    · intro other mem
      obtain ⟨before, different⟩ := mem_filter.mp mem
      exact mem_filter.mpr ⟨of.present other before, different⟩
    · intro other mem listed
      obtain ⟨before, different⟩ := mem_filter.mp listed
      rcases mem_cons.mp mem with same | missing
      · exact of_decide_eq_true different same
      · exact of.absent other missing before
    · intro other mem
      obtain ⟨before, different⟩ := mem_filter.mp mem
      exact (of.ready other before).imp_left fun listed => mem_filter.mpr ⟨listed, different⟩
    · intro other parts mem listed
      obtain ⟨before, outside⟩ := mem_filter.mp mem
      intro part inside
      refine mem_filter.mpr
        ⟨of.whole other parts before (mem_filter.mp listed).1 inside, ?_⟩
      exact decide_eq_true fun same => of_decide_eq_true outside (same ▸ inside)
  | settle object needs =>
    dsimp only [Known.exec] at ran
    split at ran
    · rename_i available
      cases ran
      have needed : needs ⊆ catalog.objects := fun other mem => of.present other (available mem)
      refine ⟨_, if_pos needed, of.present, of.absent, ?_, of.whole⟩
      intro other mem
      rcases mem_cons.mp mem with rfl | before
      · exact .inr fun clashes => of_decide_eq_true (mem_filter.mp clashes).2 rfl
      · exact (of.ready other before).imp_right fun clear clashes => clear (mem_filter.mp clashes).1
    · cases ran

theorem Of.step {known next : Known Object} (of : known.Of catalog)
    {step : Step Object} (ran : known.step step = some next) :
    ∃ after, catalog.step step = some after ∧ next.Of after := by
  induction step generalizing known next with
  | run statement => exact of.exec ran
  | ifMissing object step ih =>
    dsimp only [Known.step] at ran
    dsimp only [Catalog.step]
    by_cases listed : object ∈ catalog.objects
    · refine ⟨catalog, if_pos listed, ?_⟩
      split at ran
      · cases ran
        exact of
      · obtain ⟨other, -, rfl⟩ := map_eq_some_iff.mp ran
        exact (of.assumePresent listed).meet_right
    rw [if_neg listed]
    split at ran
    · rename_i known
      exact absurd (of.present object known) listed
    obtain ⟨other, executed, rfl⟩ := map_eq_some_iff.mp ran
    obtain ⟨after, done, ofAfter⟩ := ih (of.assumeAbsent listed) executed
    exact ⟨after, done, ofAfter.meet_left⟩
  | ifPresent object step ih =>
    dsimp only [Known.step] at ran
    dsimp only [Catalog.step]
    split at ran
    · rename_i known
      rw [if_pos (of.present object known)]
      exact ih of ran
    · cases ran

/-- A transaction whose steps are known to succeed succeeds. -/
theorem Of.run {known next : Known Object} (of : known.Of catalog)
    {steps : List (Step Object)} (ran : known.run steps = some next) :
    ∃ after, catalog.run steps = some after ∧ next.Of after := by
  induction steps generalizing known catalog with
  | nil =>
    cases ran
    exact ⟨catalog, rfl, of⟩
  | cons first rest ih =>
    obtain ⟨middle, one, later⟩ := bind_eq_some_iff.mp ran
    obtain ⟨half, executed, ofHalf⟩ := of.step one
    obtain ⟨after, finished, ofAfter⟩ := ih ofHalf later
    refine ⟨after, ?_, ofAfter⟩
    rwa [Catalog.run, executed]

theorem Of.keeps {known goal : Known Object} (of : known.Of catalog)
    {steps : List (Step Object)} (kept : keeps goal steps known) (n : Nat) :
    ∃ after, catalog.run (steps.take n) = some after ∧ goal.Of after := by
  induction steps generalizing known catalog n with
  | nil =>
    rw [take_nil]
    exact ⟨catalog, rfl, of.weaken (of_decide_eq_true kept)⟩
  | cons first rest ih =>
    obtain ⟨weaker, later⟩ := (Bool.and_eq_true _ _).mp kept
    cases n with
    | zero => exact ⟨catalog, rfl, of.weaken (of_decide_eq_true weaker)⟩
    | succ n =>
      obtain ⟨next, one, rest⟩ := (any_eq_true _ _).mp later
      obtain ⟨half, executed, ofHalf⟩ := of.step one
      obtain ⟨after, finished, ofAfter⟩ := ih ofHalf rest n
      refine ⟨after, ?_, ofAfter⟩
      rwa [take_succ_cons, Catalog.run, executed]

end Known

end Codegraph.Library
