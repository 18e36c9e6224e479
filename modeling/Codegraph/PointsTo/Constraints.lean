import Codegraph.Library.Positions
import Codegraph.PointsTo.Solver
import Mathlib.Data.Set.Card

namespace Codegraph.PointsTo

open Library

/-- A variable may point to a location, or a cell may hold it. -/
inductive Fact where
  | points (var : Var) (loc : AbstractLocation)
  | stores (cell : AbstractLocation) (loc : AbstractLocation)
deriving DecidableEq

/-- The facts a table holds. -/
def PointsToTable.facts (table : PointsToTable) : Set Fact
  | .points var loc => loc ∈ (table.vars.getD var .empty).members
  | .stores cell loc => loc ∈ (table.fields.getD cell .empty).members

/-- The locations an operand may point to. -/
def pts (facts : Set Fact) (operand : Operand) : Set AbstractLocation :=
  {loc | ∃ var, operandVar operand = some var ∧ .points var loc ∈ facts}

/-- The values a field write stores. -/
def stored (owner : NodeId) (facts : Set Fact) (idx : Nat) (src : Operand) : Set AbstractLocation :=
  match src with
  | .const _ => {.literal owner idx}
  | src => pts facts src

/-- The constraint of one operation. -/
def OpHolds (owner : NodeId) (facts : Set Fact) (idx : Nat) (op : IrOp) : Prop :=
  match op with
  | .assign dst (.const _) | .binOp dst _ _ _ => .points dst (.literal owner idx) ∈ facts
  | .assign dst src => ∀ loc ∈ pts facts src, .points dst loc ∈ facts
  | .call (some dst) _ _ _ => .points dst (.heap owner idx) ∈ facts
  | .fieldRead dst base field => ∀ loc ∈ pts facts base, .points dst (fieldCell loc field) ∈ facts ∧
        ∀ value, .stores (fieldCell loc field) value ∈ facts → .points dst value ∈ facts
  | .fieldWrite base field src => ∀ loc ∈ pts facts base, ∀ value ∈ stored owner facts idx src,
      .stores (fieldCell loc field) value ∈ facts
  | _ => True

/-- The receiver and the parameters point to their own locations and every operation holds. -/
structure IsSolution (owner : NodeId) (ir : IrFunction) (facts : Set Fact) : Prop where
  seeded : ∀ param ∈ ir.receiver.toList ++ ir.params, .points param (.param owner param.asStr) ∈ facts
  holds : ∀ (idx : Nat) op, ir.body[idx]? = some op → OpHolds owner facts idx op

/-- The facts that point a variable to some locations. -/
def pointsTo (var : Var) (locs : Set AbstractLocation) : Set Fact := Fact.points var '' locs

def storesIn (cell : AbstractLocation) (locs : Set AbstractLocation) : Set Fact :=
  Fact.stores cell '' locs

/-- The facts that the evaluation of an operation asks for. -/
def asked (owner : NodeId) (facts : Set Fact) (idx : Nat) (op : IrOp) : Set Fact :=
  match op with
  | .assign dst (.const _) | .binOp dst _ _ _ => pointsTo dst {.literal owner idx}
  | .assign dst src => pointsTo dst (pts facts src)
  | .call (some dst) _ _ _ => pointsTo dst {.heap owner idx}
  | .fieldRead dst base field => pointsTo dst {value | ∃ loc ∈ pts facts base,
      value = fieldCell loc field ∨ .stores (fieldCell loc field) value ∈ facts}
  | .fieldWrite base field src => {fact | ∃ loc ∈ pts facts base,
      fact ∈ storesIn (fieldCell loc field) (stored owner facts idx src)}
  | _ => ∅

theorem opHolds_iff_asked (owner : NodeId) (facts : Set Fact) (idx : Nat) (op : IrOp) :
    OpHolds owner facts idx op ↔ asked owner facts idx op ⊆ facts := by
  cases op with
  | assign dst src => cases src <;> simp [OpHolds, asked, pointsTo, Set.subset_def]
  | binOp dst lhs op rhs => simp [OpHolds, asked, pointsTo]
  | call dst callee receiver args => cases dst <;> simp [OpHolds, asked, pointsTo]
  | fieldRead dst base field =>
    constructor
    · intro holds fact known
      obtain ⟨value, ⟨loc, mem, rfl | contents⟩, rfl⟩ := known
      · exact (holds loc mem).1
      · exact (holds loc mem).2 value contents
    intro holds loc mem
    exact ⟨holds ⟨_, ⟨loc, mem, .inl rfl⟩, rfl⟩,
      fun value contents => holds ⟨value, ⟨loc, mem, .inr contents⟩, rfl⟩⟩
  | fieldWrite base field src =>
    constructor
    · intro holds fact known
      obtain ⟨loc, mem, value, written, rfl⟩ := known
      exact holds loc mem value written
    · intro holds loc mem value written
      exact holds ⟨loc, mem, value, written, rfl⟩
  | _ => simp [OpHolds, asked]

/-- The variables whose points-to set an operation reads. -/
def ReadsVar (op : IrOp) (var : Var) : Prop :=
  match op with
  | .assign _ src => operandVar src = some var
  | .fieldRead _ base _ => operandVar base = some var
  | .fieldWrite base _ src => operandVar base = some var ∨ operandVar src = some var
  | _ => False

def ReadsField (op : IrOp) (field : String) : Prop :=
  match op with
  | .fieldRead _ _ read => read = field
  | _ => False

/-- The facts an operation reads when it is evaluated. -/
def ReadsFact (op : IrOp) : Fact → Prop
  | .points var _ => ReadsVar op var
  | .stores cell _ => ∃ field loc, ReadsField op field ∧ cell = fieldCell loc field

theorem asked_unread {owner : NodeId} {facts facts' : Set Fact} {idx : Nat} {op : IrOp}
    (unread : ∀ fact ∈ facts', ReadsFact op fact → fact ∈ facts) :
    asked owner facts' idx op ⊆ asked owner facts idx op := by
  have ptsSame {operand : Operand} {loc : AbstractLocation}
      (reads : ∀ var, operandVar operand = some var → ReadsFact op (.points var loc))
      (mem : loc ∈ pts facts' operand) : loc ∈ pts facts operand := by
    obtain ⟨var, named, held⟩ := mem
    exact ⟨var, named, unread _ held (reads var named)⟩
  cases op with
  | assign dst src =>
    cases src with
    | const text => exact Set.Subset.refl _
    | var src => exact Set.image_mono fun loc mem => ptsSame (fun _ named => named) mem
    | temp src => exact Set.image_mono fun loc mem => ptsSame (fun _ named => named) mem
  | binOp dst lhs op rhs => exact Set.Subset.refl _
  | call dst callee receiver args => cases dst <;> exact Set.Subset.refl _
  | fieldRead dst base field =>
    apply Set.image_mono
    intro value ⟨loc, mem, known⟩
    refine ⟨loc, ptsSame (fun _ named => named) mem, known.imp_right fun held => ?_⟩
    exact unread _ held ⟨field, loc, rfl, rfl⟩
  | fieldWrite base field src =>
    intro fact ⟨loc, mem, value, written, made⟩
    refine ⟨loc, ptsSame (fun _ named => .inl named) mem, value, ?_, made⟩
    cases src with
    | const text => exact written
    | var src => exact ptsSame (fun _ named => .inr named) written
    | temp src => exact ptsSame (fun _ named => .inr named) written
  | _ => exact Set.Subset.refl _

/-- More facts never make an operation ask for fewer. -/
theorem asked_mono {facts facts' : Set Fact} (grown : facts ⊆ facts') (owner : NodeId) (idx : Nat)
    (op : IrOp) : asked owner facts idx op ⊆ asked owner facts' idx op :=
  asked_unread fun _ held _ => grown held

namespace UseIndex

/-- The index lists exactly the operations so far that read each variable and field. -/
structure Indexed (body : List IrOp) (index : UseIndex) : Prop where
  vars : ∀ (idx : Nat) var, idx ∈ index.readersOfVar var ↔ ∃ op, body[idx]? = some op ∧ ReadsVar op var
  fields : ∀ (idx : Nat) field, idx ∈ index.fieldReaders.getD field [] ↔
    ∃ op, body[idx]? = some op ∧ ReadsField op field
  all : ∀ idx : Nat, idx ∈ index.allFieldReaders ↔ ∃ op, body[idx]? = some op ∧ ∃ field, ReadsField op field

variable (index : UseIndex)

theorem reads_readersOfVar (operand : Operand) (idx : Nat) (var : Var) :
    (index.reads operand idx).readersOfVar var =
      index.readersOfVar var ++ if operandVar operand = some var then [idx] else [] := by
  unfold reads
  cases named : operandVar operand with
  | none => simp
  | some other =>
    change (index.varReaders.update other [] fun ops => ops ++ [idx]).getD var [] = _
    rw [Dict.getD_update]
    by_cases same : var = other
    · subst same
      simp [readersOfVar]
    · simp [same, Ne.symm same, readersOfVar]

theorem reads_fields (operand : Operand) (idx : Nat) :
    (index.reads operand idx).fieldReaders = index.fieldReaders ∧
      (index.reads operand idx).allFieldReaders = index.allFieldReaders := by
  unfold reads
  cases operandVar operand <;> exact ⟨rfl, rfl⟩

theorem exists_concat {body : List IrOp} {last : IrOp} {idx : Nat} {property : IrOp → Prop} :
    (∃ op, (body ++ [last])[idx]? = some op ∧ property op) ↔
      (∃ op, body[idx]? = some op ∧ property op) ∨ (idx = body.length ∧ property last) := by
  simp only [getElem?_concat_eq_some, or_and_right, exists_or, and_assoc]
  simp

theorem add_lists (op : IrOp) (idx other : Nat) :
    (∀ var, other ∈ (index.add (op, idx)).readersOfVar var ↔
        other ∈ index.readersOfVar var ∨ (other = idx ∧ ReadsVar op var)) ∧
      (∀ field, other ∈ (index.add (op, idx)).fieldReaders.getD field [] ↔
        other ∈ index.fieldReaders.getD field [] ∨ (other = idx ∧ ReadsField op field)) ∧
      (other ∈ (index.add (op, idx)).allFieldReaders ↔
        other ∈ index.allFieldReaders ∨ (other = idx ∧ ∃ field, ReadsField op field)) := by
  cases op with
  | assign dst src =>
    refine ⟨fun var => ?_, fun field => ?_, ?_⟩
    · rw [add, reads_readersOfVar]
      by_cases named : operandVar src = some var <;> simp [ReadsVar, named]
    · simp [add, reads_fields, ReadsField]
    · simp [add, reads_fields, ReadsField]
  | fieldRead dst base field =>
    refine ⟨fun var => ?_, fun read => ?_, ?_⟩
    · change other ∈ (index.reads base idx).readersOfVar var ↔ _
      rw [reads_readersOfVar]
      by_cases named : operandVar base = some var <;> simp [ReadsVar, named]
    · simp only [add, reads_fields, Dict.getD_update]
      by_cases same : read = field
      · subst same
        simp [ReadsField]
      · simp [same, ReadsField, Ne.symm same]
    · simp [add, reads_fields, ReadsField]
  | fieldWrite base field src =>
    refine ⟨fun var => ?_, fun field => ?_, ?_⟩
    · rw [add, reads_readersOfVar, reads_readersOfVar]
      by_cases named : operandVar base = some var <;>
        by_cases named' : operandVar src = some var <;> simp [ReadsVar, named, named']
    · simp [add, reads_fields, ReadsField]
    · simp [add, reads_fields, ReadsField]
  | _ => simp [add, ReadsVar, ReadsField]

variable (ir : IrFunction)

theorem build_indexed : Indexed ir.body (build ir) := by
  unfold build
  induction ir.body using List.reverseRecOn with
  | nil => exact ⟨by simp [readersOfVar], by simp, by simp⟩
  | append_singleton body op ih =>
    rw [zipIdx_concat, List.foldl_append]
    have added (idx : Nat) := add_lists (body.zipIdx.foldl add {}) op body.length idx
    refine ⟨fun idx var => ?_, fun idx field => ?_, fun idx => ?_⟩
    · rw [exists_concat, ← ih.vars]
      exact (added idx).1 var
    · rw [exists_concat, ← ih.fields]
      exact (added idx).2.1 field
    · rw [exists_concat, ← ih.all]
      exact (added idx).2.2

/-- The index lists the operations that read a fact. -/
def readersOf (index : UseIndex) : Fact → List Nat
  | .points var _ => index.readersOfVar var
  | .stores cell _ => index.readersOfCell cell

theorem readersOf_complete {idx : Nat} {op : IrOp} {fact : Fact}
    (fetched : ir.body[idx]? = some op) (reads : ReadsFact op fact) :
    idx ∈ (build ir).readersOf fact := by
  have indexed := build_indexed ir
  cases fact with
  | points var loc => exact (indexed.vars idx var).mpr ⟨op, fetched, reads⟩
  | stores cell loc =>
    obtain ⟨field, base, named, rfl⟩ := reads
    have listed := (indexed.fields idx field).mpr ⟨op, fetched, named⟩
    have listedAll := (indexed.all idx).mpr ⟨op, fetched, field, named⟩
    change idx ∈ (build ir).readersOfCell (fieldCell base field)
    unfold fieldCell
    split
    · rename_i deep
      -- A base at the limit is its own cell, which every field read can see.
      cases base with
      | field base name => rwa [readersOfCell, if_neg (not_lt.mpr deep)]
      | _ => exact listedAll
    rw [readersOfCell]
    split
    · exact listed
    · exact listedAll

theorem readersOf_inside (fact : Fact) :
    ∀ idx ∈ (build ir).readersOf fact, idx < ir.body.length := by
  have indexed := build_indexed ir
  intro idx mem
  have known : ∃ op, ir.body[idx]? = some op := by
    cases fact with
    | points var loc =>
      obtain ⟨op, fetched, -⟩ := (indexed.vars idx var).mp mem
      exact ⟨op, fetched⟩
    | stores cell loc =>
      change idx ∈ (build ir).readersOfCell cell at mem
      have all (listed : idx ∈ (build ir).allFieldReaders) : ∃ op, ir.body[idx]? = some op := by
        obtain ⟨op, fetched, -⟩ := (indexed.all idx).mp listed
        exact ⟨op, fetched⟩
      cases cell with
      | field base name =>
        rw [readersOfCell] at mem
        split at mem
        · obtain ⟨op, fetched, -⟩ := (indexed.fields idx name).mp mem
          exact ⟨op, fetched⟩
        · exact all mem
      | _ => exact all mem
  obtain ⟨op, fetched⟩ := known
  exact (List.getElem?_eq_some_iff.mp fetched).1

end UseIndex

end Codegraph.PointsTo
