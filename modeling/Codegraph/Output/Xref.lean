import Codegraph.Library.Iteration
import Codegraph.Output.Fitted

namespace Codegraph.Output

open Library List

structure SymbolRef where
  name : String
  kind : String
  file : String
  line : Nat

structure XrefGroup where
  edgeKind : String
  references : List SymbolRef
  omitted : Nat

structure XrefDefinition where
  name : String
  kind : String
  file : String
  line : Nat
  byKind : List XrefGroup

structure XrefOutput where
  schemaVersion : Nat
  kind : String
  definitions : List XrefDefinition
  notFound : Bool
  truncated : Bool

/-- A field that is left out when it has its default. -/
def fieldUnless (skipped : Bool) (key : String) (value : Json) : List (String × Json) :=
  if skipped then [] else [(key, value)]

def SymbolRef.toJson (ref : SymbolRef) : Json :=
  .object [("name", .string ref.name), ("kind", .string ref.kind), ("file", .string ref.file),
    ("line", .number ref.line)]

def XrefGroup.toJson (group : XrefGroup) : Json :=
  .object ([("edgeKind", .string group.edgeKind),
    ("references", .array (group.references.map SymbolRef.toJson))] ++
      fieldUnless (group.omitted = 0) "omitted" (.number group.omitted))

def XrefDefinition.toJson (definition : XrefDefinition) : Json :=
  .object ([("name", .string definition.name), ("kind", .string definition.kind),
    ("file", .string definition.file), ("line", .number definition.line)] ++
      fieldUnless definition.byKind.isEmpty "byKind"
        (.array (definition.byKind.map XrefGroup.toJson)))

namespace XrefOutput

def toJson (output : XrefOutput) : Json :=
  .object ([("schemaVersion", .number output.schemaVersion), ("kind", .string output.kind),
    ("definitions", .array (output.definitions.map XrefDefinition.toJson))] ++
      fieldUnless (!output.notFound) "notFound" (.bool output.notFound) ++
      fieldUnless (!output.truncated) "truncated" (.bool output.truncated))

def len (output : XrefOutput) : Nat := output.toJson.len

/-- The bytes of a new count with room for its digits. -/
def omittedField : Nat := 17

/-- The last reference of the group is counted, and the bytes that this frees are estimated. -/
def popReference (group : XrefGroup) : Option (XrefGroup × Nat) :=
  group.references.getLast?.map fun reference =>
    ({ group with references := group.references.dropLast, omitted := group.omitted + 1 },
      reference.toJson.len + 1 - if group.omitted = 0 then omittedField else 0)

/-- The last group that has a reference loses one. -/
def popGroups : List XrefGroup → Option (List XrefGroup × Nat)
  | [] => none
  | group :: rest =>
    match popGroups rest with
    | some (rest, freed) => some (group :: rest, freed)
    | none => (popReference group).map fun (group, freed) => (group :: rest, freed)

/-- The last definition that has a reference loses one. -/
def popDefinitions : List XrefDefinition → Option (List XrefDefinition × Nat)
  | [] => none
  | definition :: rest =>
    match popDefinitions rest with
    | some (rest, freed) => some (definition :: rest, freed)
    | none => (popGroups definition.byKind).map fun (byKind, freed) =>
      ({ definition with byKind := byKind } :: rest, freed)

end XrefOutput

/-- The output with its estimated size. -/
structure XrefFit where
  output : XrefOutput
  size : Nat

namespace XrefFit

/-- An estimate within the budget is measured. -/
def confirm (budget : Nat) (fit : XrefFit) : XrefFit :=
  if fit.size ≤ budget then { fit with size := fit.output.len } else fit

def step (budget : Nat) (fit : XrefFit) : Option XrefFit :=
  if budget < fit.size then
    match XrefOutput.popDefinitions fit.output.definitions with
    | some (definitions, freed) =>
      some (confirm budget
        ⟨{ fit.output with definitions := definitions }, fit.size - max freed 1⟩)
    | none =>
      if fit.output.definitions = [] then none
      else
        let output := { fit.output with definitions := fit.output.definitions.dropLast }
        some (confirm budget ⟨output, output.len⟩)
  else none

end XrefFit

namespace XrefOutput

/-- The references and definitions that can still be dropped. -/
def droppable (definitions : List XrefDefinition) : Nat :=
  (definitions.map fun definition =>
    (definition.byKind.map fun group => group.references.length).sum + 1).sum

/-- The flag has the length of its field. -/
def flagged (output : XrefOutput) : XrefFit := ⟨{ output with truncated := true }, output.len + 17⟩

def fitTo (output : XrefOutput) (budget : Nat) : XrefOutput :=
  if output.len ≤ budget then output
  else (loop (XrefFit.step budget) (droppable output.definitions) output.flagged).output

/-- The group keeps a prefix of its references and counts the others. -/
structure CutGroup (before after : XrefGroup) : Prop where
  edgeKind : after.edgeKind = before.edgeKind
  references : after.references <+: before.references
  total : after.references.length + after.omitted = before.references.length + before.omitted

/-- The definition keeps its groups. -/
structure CutDefinition (before after : XrefDefinition) : Prop where
  same : { after with byKind := before.byKind } = before
  byKind : List.Forall₂ CutGroup before.byKind after.byKind

/-- The output keeps some of its first definitions. -/
def Cut (before after : List XrefDefinition) : Prop :=
  ∃ count, List.Forall₂ CutDefinition (before.take count) after

theorem CutGroup.refl (group : XrefGroup) : CutGroup group group := ⟨rfl, prefix_rfl, rfl⟩

theorem CutGroup.trans {first second third : XrefGroup} (before : CutGroup first second)
    (after : CutGroup second third) : CutGroup first third :=
  ⟨after.edgeKind.trans before.edgeKind, after.references.trans before.references,
    after.total.trans before.total⟩

theorem CutDefinition.refl (definition : XrefDefinition) : CutDefinition definition definition :=
  ⟨rfl, forall₂_same.mpr fun group _ => CutGroup.refl group⟩

theorem forall₂_trans {Entry : Type} {relation : Entry → Entry → Prop}
    (transitive : ∀ first second third, relation first second → relation second third →
      relation first third) {first second third : List Entry}
    (before : List.Forall₂ relation first second) (after : List.Forall₂ relation second third) :
    List.Forall₂ relation first third := by
  induction before generalizing third with
  | nil => exact after
  | cons head _ ih =>
    cases after with
    | cons head' tail' => exact .cons (transitive _ _ _ head head') (ih tail')

theorem CutDefinition.trans {first second third : XrefDefinition}
    (before : CutDefinition first second) (after : CutDefinition second third) :
    CutDefinition first third := by
  refine ⟨?_, @forall₂_trans _ CutGroup (fun _ _ _ => CutGroup.trans) _ _ _ before.byKind
    after.byKind⟩
  have left := before.same
  have right := after.same
  cases first
  cases second
  cases third
  simp_all

theorem Cut.refl (definitions : List XrefDefinition) : Cut definitions definitions := by
  refine ⟨definitions.length, ?_⟩
  rw [take_length]
  exact forall₂_same.mpr fun definition _ => CutDefinition.refl definition

theorem Cut.trans {first second third : List XrefDefinition} (before : Cut first second)
    (after : Cut second third) : Cut first third := by
  obtain ⟨count, related⟩ := before
  obtain ⟨count', related'⟩ := after
  refine ⟨min count' count, ?_⟩
  rw [← take_take]
  exact @forall₂_trans _ CutDefinition (fun _ _ _ => CutDefinition.trans) _ _ _
    (forall₂_take count' related) related'

theorem popReference_cut {before after : XrefGroup} {freed : Nat}
    (popped : popReference before = some (after, freed)) :
    CutGroup before after ∧ after.references.length + 1 = before.references.length := by
  obtain ⟨reference, last, same⟩ := Option.map_eq_some_iff.mp popped
  cases same
  have whole := dropLast_append_getLast? reference last
  have length := congrArg List.length whole
  rw [length_append, length_singleton] at length
  refine ⟨⟨rfl, dropLast_prefix _, ?_⟩, length⟩
  simp only
  omega

theorem popGroups_cut {before after : List XrefGroup} {freed : Nat}
    (popped : popGroups before = some (after, freed)) :
    List.Forall₂ CutGroup before after ∧ (after.map fun group => group.references.length).sum + 1 =
        (before.map fun group => group.references.length).sum := by
  induction before generalizing after freed with
  | nil => contradiction
  | cons group rest ih =>
    unfold popGroups at popped
    split at popped
    · rename_i rest' freed' later
      cases popped
      obtain ⟨cut, fewer⟩ := ih later
      refine ⟨.cons (CutGroup.refl group) cut, ?_⟩
      rw [map_cons, sum_cons, map_cons, sum_cons]
      omega
    obtain ⟨⟨group', freed'⟩, here, same⟩ := Option.map_eq_some_iff.mp popped
    cases same
    obtain ⟨cut, fewer⟩ := popReference_cut here
    refine ⟨.cons cut (forall₂_same.mpr fun other _ => CutGroup.refl other), ?_⟩
    rw [map_cons, sum_cons, map_cons, sum_cons]
    omega

theorem popDefinitions_cut {before after : List XrefDefinition} {freed : Nat}
    (popped : popDefinitions before = some (after, freed)) :
    List.Forall₂ CutDefinition before after ∧ droppable after < droppable before := by
  induction before generalizing after freed with
  | nil => contradiction
  | cons definition rest ih =>
    unfold popDefinitions at popped
    split at popped
    · rename_i rest' freed' later
      cases popped
      obtain ⟨cut, fewer⟩ := ih later
      refine ⟨.cons (CutDefinition.refl definition) cut, ?_⟩
      unfold droppable at fewer ⊢
      rw [map_cons, sum_cons, map_cons, sum_cons]
      omega
    obtain ⟨⟨byKind, freed'⟩, here, same⟩ := Option.map_eq_some_iff.mp popped
    cases same
    obtain ⟨cut, fewer⟩ := popGroups_cut here
    refine ⟨.cons ⟨rfl, cut⟩ (forall₂_same.mpr fun other _ => CutDefinition.refl other), ?_⟩
    unfold droppable
    rw [map_cons, sum_cons, map_cons, sum_cons]
    simp only
    omega

end XrefOutput

namespace XrefFit

open XrefOutput

/-- A size within the budget is measured, and the definitions are cut from the original ones. -/
structure Sound (budget : Nat) (original : XrefOutput) (fit : XrefFit) : Prop where
  measured : fit.size ≤ budget → fit.output.len ≤ budget
  cut : XrefOutput.Cut original.definitions fit.output.definitions

theorem confirm_measured {budget : Nat} (fit : XrefFit) :
    (confirm budget fit).size ≤ budget → (confirm budget fit).output.len ≤ budget := by
  unfold confirm
  split
  · exact fun small => small
  · rename_i large
    exact fun small => absurd small large

theorem confirm_output (budget : Nat) (fit : XrefFit) : (confirm budget fit).output = fit.output := by
  unfold confirm
  split <;> rfl

theorem step_sound {budget : Nat} {original : XrefOutput} {before after : XrefFit}
    (sound : before.Sound budget original) (moved : step budget before = some after) :
    after.Sound budget original ∧
      droppable after.output.definitions < droppable before.output.definitions := by
  unfold step at moved
  split at moved
  swap
  · contradiction
  split at moved
  · rename_i definitions freed popped
    cases moved
    obtain ⟨cut, fewer⟩ := popDefinitions_cut popped
    rw [confirm_output]
    refine ⟨⟨confirm_measured _, ?_⟩, fewer⟩
    rw [confirm_output]
    refine sound.cut.trans ⟨before.output.definitions.length, ?_⟩
    rwa [take_length]
  split at moved
  · contradiction
  rename_i nonempty
  cases moved
  rw [confirm_output]
  refine ⟨⟨confirm_measured _, ?_⟩, ?_⟩
  · rw [confirm_output]
    refine sound.cut.trans ⟨before.output.definitions.length - 1, ?_⟩
    rw [← dropLast_eq_take]
    exact forall₂_same.mpr fun definition _ => CutDefinition.refl definition
  obtain ⟨front, last, whole⟩ := eq_nil_or_concat' before.output.definitions |>.resolve_left nonempty
  simp only
  rw [whole, dropLast_concat]
  unfold droppable
  rw [map_append, sum_append, map_singleton, sum_singleton]
  omega

end XrefFit

namespace XrefOutput

theorem fitTo_spec (output : XrefOutput) (budget : Nat) :
    (budget < output.len → Halts (XrefFit.step budget) output.flagged
      (loop (XrefFit.step budget) (droppable output.definitions) output.flagged)) ∧
    ((output.fitTo budget).len ≤ budget ∨ (output.fitTo budget).definitions = []) ∧
      Cut output.definitions (output.fitTo budget).definitions := by
  have keeps (before after : XrefFit) (sound : before.Sound budget output)
      (moved : XrefFit.step budget before = some after) : after.Sound budget output :=
    (XrefFit.step_sound sound moved).1
  have falls (before after : XrefFit) (sound : before.Sound budget output)
      (moved : XrefFit.step budget before = some after) :
      droppable after.output.definitions < droppable before.output.definitions :=
    (XrefFit.step_sound sound moved).2
  by_cases small : output.len ≤ budget
  · refine ⟨fun large => absurd small (Nat.not_le_of_lt large), ?_⟩
    rw [fitTo, if_pos small]
    exact ⟨.inl small, Cut.refl _⟩
  have begins : output.flagged.Sound budget output := by
    refine ⟨fun impossible => ?_, Cut.refl _⟩
    change output.len + 17 ≤ budget at impossible
    omega
  have halts := halts_loop keeps falls (droppable output.definitions) _ begins (le_refl _)
  refine ⟨fun _ => halts, ?_⟩
  have sound := halts.preserves keeps begins
  have ended := halts.ended
  rw [fitTo, if_neg small]
  refine ⟨?_, sound.cut⟩
  unfold XrefFit.step at ended
  split at ended
  · right
    split at ended
    · contradiction
    split at ended
    · assumption
    · contradiction
  · rename_i fits
    exact .inl (sound.measured (Nat.le_of_not_lt fits))

end XrefOutput

/-- Payloads and cross-references that are cut to a budget fit it or have nothing left to drop, and
they count what they leave out. -/
theorem cut_payloads_count (payload : Json) (object : payload.IsObject) (budget : Nat)
    (trims : List Trim) (output : XrefOutput) :
    (∃ value, fitted payload budget trims = some value ∧
      (value.len ≤ budget ∨ ∀ trim ∈ trims, itemsAt value trim.array = []) ∧
      (∀ trim ∈ trims, itemsAt value trim.array <+: itemsAt payload trim.array) ∧
      ∀ before trim later omitted, trims = before ++ trim :: later → trim.omitted = some omitted →
        Alone trim omitted (before ++ later) → totalOf trim omitted value = totalOf trim omitted payload) ∧
    (budget < output.len → Halts (XrefFit.step budget) output.flagged
      (loop (XrefFit.step budget) (XrefOutput.droppable output.definitions) output.flagged)) ∧
    ((output.fitTo budget).len ≤ budget ∨ (output.fitTo budget).definitions = []) ∧
      XrefOutput.Cut output.definitions (output.fitTo budget).definitions :=
  ⟨fitted_spec payload object budget trims, output.fitTo_spec budget⟩

def twoArrays : Json := .object [("a", .array [.null]), ("b", .array [.null])]

theorem cut_payloads_count_ready : ∃ value, fitted twoArrays 0 [.counted "a" "n"] = some value ∧
      (value.len ≤ 0 ∨ ∀ trim ∈ [Trim.counted "a" "n"], itemsAt value trim.array = []) := by
  obtain ⟨value, ran, ends, _⟩ := (cut_payloads_count twoArrays ⟨_, rfl⟩ 0 [.counted "a" "n"]
    ⟨1, "xref", [], true, false⟩).1
  exact ⟨value, ran, ends⟩

/-- Two arrays that share a count have no totals of their own, and a payload without fields cannot
be flagged. -/
theorem shared_count_and_bare_array :
    (∃ value, fitted twoArrays 0 [.counted "a" "n", .counted "b" "n"] = some value ∧
      totalOf (.counted "a" "n") "n" value ≠ totalOf (.counted "a" "n") "n" twoArrays) ∧
    fitted (.array []) 0 [] = none :=
  ⟨⟨_, rfl, by decide⟩, rfl⟩

end Codegraph.Output
