import Mathlib.Tactic

namespace Codegraph.Output

open List

/-- A number that is no unsigned integer is its text. -/
inductive Json where
  | null
  | bool (value : Bool)
  | number (value : Nat)
  | other (text : String)
  | string (text : String)
  | array (items : List Json)
  | object (fields : List (String × Json))

/-- The bytes of a character inside quotes. -/
def charLen (c : Char) : Nat :=
  if c = '"' ∨ c = '\\' ∨ c = '\n' ∨ c = '\r' ∨ c = '\t' ∨ c.toNat = 8 ∨ c.toNat = 12 then 2
  else if c.toNat < 32 then 6
  else c.utf8Size

/-- The bytes of a text without its quotes. -/
def escapedLen (text : List Char) : Nat := (text.map charLen).sum

def stringLen (text : String) : Nat := escapedLen text.toList + 2

def decimalLen (value : Nat) : Nat := (Nat.toDigits 10 value).length

mutual

/-- The bytes of the serialized value, with a comma between neighbours and no blanks. -/
def Json.len : Json → Nat
  | .null => 4
  | .bool value => if value then 4 else 5
  | .number value => decimalLen value
  | .other text => text.utf8ByteSize
  | .string text => stringLen text
  | .array items => itemsLen items + (items.length - 1) + 2
  | .object fields => fieldsLen fields + (fields.length - 1) + 2
termination_by structural json => json

def itemsLen : List Json → Nat
  | [] => 0
  | item :: rest => item.len + itemsLen rest
termination_by structural items => items

def fieldsLen : List (String × Json) → Nat
  | [] => 0
  | field :: rest => fieldLen field + fieldsLen rest
termination_by structural fields => fields

def fieldLen : String × Json → Nat
  | (key, value) => stringLen key + value.len + 1
termination_by structural field => field

end

/-- The value of a key. -/
def getField (fields : List (String × Json)) (key : String) : Option Json :=
  (fields.find? (·.1 = key)).map Prod.snd

/-- A key that is there keeps its place, and a new one goes to the end. -/
def setField : List (String × Json) → String → Json → List (String × Json)
  | [], key, value => [(key, value)]
  | field :: rest, key, value =>
    if field.1 = key then (key, value) :: rest else field :: setField rest key value

/-- The order of the fields that are left is not observed. -/
def removeField (fields : List (String × Json)) (key : String) : List (String × Json) :=
  fields.filter (·.1 ≠ key)

namespace Json

def get (json : Json) (key : String) : Option Json :=
  match json with
  | .object fields => getField fields key
  | _ => none

/-- A value without the key has null there. -/
def index (json : Json) (key : String) : Json := (json.get key).getD .null

/-- Null becomes an object, and no other value but an object takes a field. -/
def set (json : Json) (key : String) (value : Json) : Option Json :=
  match json with
  | .null => some (.object [(key, value)])
  | .object fields => some (.object (setField fields key value))
  | _ => none

def asArray (json : Json) : Option (List Json) :=
  match json with
  | .array items => some items
  | _ => none

def asU64 (json : Json) : Option Nat :=
  match json with
  | .number value => some value
  | _ => none

def asString (json : Json) : Option String :=
  match json with
  | .string text => some text
  | _ => none

end Json

section Fields

variable {fields : List (String × Json)} {key other : String} {value : Json}

theorem getField_cons (field : String × Json) :
    getField (field :: fields) key = if field.1 = key then some field.2 else getField fields key := by
  unfold getField
  rw [find?_cons]
  by_cases same : field.1 = key <;> simp [same]

@[simp] theorem getField_setField : getField (setField fields key value) other =
      if other = key then some value else getField fields other := by
  induction fields with
  | nil =>
    rw [setField, getField_cons]
    by_cases equal : other = key
    · rw [if_pos equal.symm, if_pos equal]
    · rw [if_neg (Ne.symm equal), if_neg equal]
  | cons field rest ih =>
    unfold setField
    split
    · rename_i same
      rw [getField_cons, getField_cons, same]
      by_cases equal : other = key
      · rw [if_pos equal.symm, if_pos equal]
      · rw [if_neg (Ne.symm equal), if_neg equal, if_neg (Ne.symm equal)]
    rename_i apart
    rw [getField_cons, ih, getField_cons]
    by_cases equal : other = key
    · rw [if_pos equal, if_neg (equal ▸ apart), if_pos equal]
    · rw [if_neg equal, if_neg equal]

@[simp] theorem getField_removeField :
    getField (removeField fields key) other = if other = key then none else getField fields other := by
  unfold removeField
  induction fields with
  | nil => simp [getField]
  | cons field rest ih =>
    by_cases same : field.1 = key
    · rw [filter_cons_of_neg (by simpa using same), ih, getField_cons, same]
      by_cases equal : other = key
      · rw [if_pos equal, if_pos equal]
      · rw [if_neg equal, if_neg equal, if_neg (Ne.symm equal)]
    rw [filter_cons_of_pos (by simpa using same), getField_cons, ih, getField_cons]
    by_cases equal : other = key
    · rw [if_pos equal, if_neg (equal ▸ same), if_pos equal]
    · rw [if_neg equal, if_neg equal]

theorem setField_setField (value' : Json) :
    setField (setField fields key value) key value' = setField fields key value' := by
  induction fields with
  | nil => simp [setField]
  | cons field rest ih =>
    by_cases same : field.1 = key
    · simp [setField, same]
    · simp [setField, same, ih]

/-- A field that is there keeps its place whatever the other one does. -/
theorem setField_comm (apart : other ≠ key) {old : Json} (found : getField fields key = some old)
    (value' : Json) : setField (setField fields other value') key value =
      setField (setField fields key value) other value' := by
  induction fields with
  | nil => contradiction
  | cons field rest ih =>
    rw [getField_cons] at found
    by_cases here : field.1 = key
    · have different : field.1 ≠ other := fun same => apart (same.symm.trans here)
      have different' := Ne.symm apart
      simp [setField, here, different']
    rw [if_neg here] at found
    by_cases there : field.1 = other
    · simp [setField, there, apart]
    · simp [setField, here, there, ih found]

theorem setField_ne_nil : setField fields key value ≠ [] := by
  intro empty
  have found : getField (setField fields key value) key = some value := by simp
  rw [empty] at found
  contradiction

theorem setField_eq_of_getField (found : getField fields key = some value) :
    setField fields key value = fields := by
  induction fields with
  | nil => contradiction
  | cons field rest ih =>
    rw [getField_cons] at found
    unfold setField
    split
    · rename_i same
      rw [if_pos same] at found
      rw [← same, ← Option.some.inj found]
    rename_i apart
    rw [if_neg apart] at found
    rw [ih found]

theorem removeField_eq_of_absent (absent : getField fields key = none) : removeField fields key = fields := by
  rw [removeField, filter_eq_self]
  intro field mem
  rw [getField, Option.map_eq_none_iff, find?_eq_none] at absent
  simpa using absent field mem

theorem objectLen_setField_present {old : Json} (found : getField fields key = some old) :
    (Json.object (setField fields key value)).len + old.len = (Json.object fields).len + value.len := by
  have parts : fieldsLen (setField fields key value) + old.len = fieldsLen fields + value.len ∧
      (setField fields key value).length = fields.length := by
    induction fields with
    | nil => contradiction
    | cons field rest ih =>
      rw [getField_cons] at found
      unfold setField
      split
      · rename_i same
        rw [if_pos same] at found
        obtain ⟨name, held⟩ := field
        obtain rfl := Option.some.inj found
        simp only at same
        simp only [fieldsLen, fieldLen, same, length_cons, and_true]
        omega
      rename_i apart
      rw [if_neg apart] at found
      obtain ⟨length, count⟩ := ih found
      simp only [fieldsLen, length_cons, count, and_true]
      omega
  obtain ⟨length, count⟩ := parts
  simp only [Json.len, count]
  omega

theorem objectLen_setField_absent (absent : getField fields key = none) (nonempty : fields ≠ []) :
    (Json.object (setField fields key value)).len =
      (Json.object fields).len + (fieldLen (key, value) + 1) := by
  have parts : fieldsLen (setField fields key value) = fieldsLen fields + fieldLen (key, value) ∧
      (setField fields key value).length = fields.length + 1 := by
    clear nonempty
    induction fields with
    | nil => simp [setField, fieldsLen]
    | cons field rest ih =>
      rw [getField_cons] at absent
      unfold setField
      split
      · rename_i same
        rw [if_pos same] at absent
        contradiction
      rename_i apart
      rw [if_neg apart] at absent
      obtain ⟨length, count⟩ := ih absent
      simp only [fieldsLen, length_cons, length, count, and_true]
      omega
  obtain ⟨length, count⟩ := parts
  have positive := length_pos_iff.mpr nonempty
  simp only [Json.len, length, count]
  omega

/-- A field that is taken away frees at least its own bytes. -/
theorem fieldsLen_removeField_le (found : getField fields key = some value) :
    fieldLen (key, value) + fieldsLen (removeField fields key) ≤ fieldsLen fields := by
  have shorter (fields : List (String × Json)) : fieldsLen (removeField fields key) ≤ fieldsLen fields := by
    unfold removeField
    induction fields with
    | nil => exact le_refl _
    | cons field rest ih =>
      rw [filter_cons]
      split <;> simp only [fieldsLen] <;> omega
  induction fields with
  | nil => contradiction
  | cons field rest ih =>
    rw [getField_cons] at found
    by_cases same : field.1 = key
    · rw [if_pos same] at found
      obtain ⟨name, held⟩ := field
      obtain rfl := Option.some.inj found
      simp only at same
      have rest' := shorter rest
      unfold removeField at rest' ⊢
      rw [filter_cons_of_neg (by simpa using same), same]
      simp only [fieldsLen]
      omega
    rw [if_neg same] at found
    have rest' := ih found
    unfold removeField at rest' ⊢
    rw [filter_cons_of_pos (by simpa using same)]
    simp only [fieldsLen]
    omega

end Fields

theorem escapedLen_append (first second : List Char) :
    escapedLen (first ++ second) = escapedLen first + escapedLen second := by
  simp [escapedLen]

namespace Json

/-- The value has fields. -/
def IsObject (json : Json) : Prop := ∃ fields, json = .object fields

variable {json : Json} {key : String} {value : Json}

@[simp] theorem get_object (fields : List (String × Json)) (key : String) :
    (Json.object fields).get key = getField fields key := rfl

/-- An object takes every field and changes no other one. -/
theorem IsObject.set (object : json.IsObject) (key : String) (value : Json) :
    ∃ after, json.set key value = some after ∧ after.IsObject ∧
      ∀ other, after.get other = if other = key then some value else json.get other := by
  obtain ⟨fields, rfl⟩ := object
  exact ⟨_, rfl, ⟨_, rfl⟩, fun other => getField_setField⟩

end Json

end Codegraph.Output
