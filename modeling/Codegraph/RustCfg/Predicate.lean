import Codegraph.Library.ListSet
import Codegraph.Library.Text

namespace Codegraph.RustCfg

open Library List

abbrev Active := Option Bool

/-- What a build is known to set beyond the host target. -/
inductive Features where
  | unknown
  | default (enabled : ListSet (List Char))

/-- False wins, and an unknown leaves it unknown. -/
def and (first second : Active) : Active :=
  match first, second with
  | some false, _ => some false
  | _, some false => some false
  | some true, some true => some true
  | _, _ => none

def allOf (values : List Active) : Active := values.foldl and (some true)

/-- True wins, else an unknown leaves it unknown. -/
def anyOf (values : List Active) : Active :=
  values.foldl
    (fun any value =>
      match any, value with
      | some true, _ => some true
      | _, some true => some true
      | some false, some false => some false
      | _, _ => none)
    (some false)

def splitOnce (separator : Char) (text : List Char) : Option (List Char × List Char) :=
  match text.dropWhile fun c => c ≠ separator with
  | [] => none
  | _ :: after => some (text.takeWhile fun c => c ≠ separator, after)

def trimEnd (text : List Char) : List Char := Text.trimEndMatches Text.isWhitespace text

def trimQuotes (text : List Char) : List Char :=
  Text.trimEndMatches (fun c => c = '"') (text.dropWhile fun c => c = '"')

def isNameByte (c : Char) : Bool := c.isAlphanum || c = '_'

/-- The name and the arguments of a call. -/
def call (predicate : List Char) : Option (List Char × List Char) :=
  (splitOnce '(' predicate).bind fun (before, after) =>
    (Text.stripSuffix [')'] (trimEnd after)).bind fun args =>
      let name := Text.trim before
      if name ≠ [] ∧ name.all isNameByte then some (name, args) else none

/-- The rest of the arguments, split at the commas outside brackets and strings. The current part is
in reverse. -/
def splitFrom (depth : Int) (inString : Bool) (current : List Char) : List Char → List (List Char)
  | [] =>
    let last := Text.trim current.reverse
    if last = [] then [] else [last]
  | c :: rest =>
    if c = '"' then splitFrom depth (!inString) (c :: current) rest
    else if c = '(' ∧ inString = false then splitFrom (depth + 1) inString (c :: current) rest
    else if c = ')' ∧ inString = false then splitFrom (depth - 1) inString (c :: current) rest
    else if c = ',' ∧ inString = false ∧ depth = 0 then
      Text.trim current.reverse :: splitFrom depth inString [] rest
    else splitFrom depth inString (c :: current) rest

def splitArgs (args : List Char) : List (List Char) := splitFrom 0 false [] args

/-- The values that the host build has. A key that nobody passed has none. -/
def hostValue (features : Features) (key value : List Char) : Active :=
  if key = "feature".toList then
    match features with
    | .unknown => none
    | .default enabled => some (value ∈ enabled.members)
  else if key = "target_os".toList then some (value = "linux".toList)
  else if key = "target_family".toList then some (value = "unix".toList)
  else if key = "target_arch".toList then some (value = "x86_64".toList)
  else if key = "target_pointer_width".toList then some (value = "64".toList)
  else if key = "target_endian".toList then some (value = "little".toList)
  else if key = "target_env".toList then some (value = "gnu".toList)
  else if key = "target_vendor".toList then some (value = "unknown".toList)
  else if key = "panic".toList then some (value = "unwind".toList)
  else if key = "target_has_atomic".toList then some true
  else some false

/-- Whether a name alone is set. A `test` build is a build as well. -/
def nameValue (name : List Char) : Active :=
  if name = "test".toList then none
  else some (name = "unix".toList ∨ name = "debug_assertions".toList)

/-- The value of a call with the values of its arguments. -/
def callValue (name : List Char) (values : List Active) : Active :=
  if name = "all".toList then allOf values
  else if name = "any".toList then anyOf values
  else if name = "not".toList then
    match values with
    | [value] => value.map not
    | _ => none
  else none

/-- The arguments are parts of the predicate, so the length of the text is fuel enough. -/
def evaluateWith (features : Features) : Nat → List Char → Active
  | 0, _ => none
  | fuel + 1, text =>
    let predicate := Text.trim text
    if predicate = [] then none
    else
      match call predicate with
      | some (name, args) => callValue name ((splitArgs args).map (evaluateWith features fuel))
      | none =>
        match splitOnce '=' predicate with
        | some (key, value) => hostValue features (Text.trim key) (trimQuotes (Text.trim value))
        | none => nameValue predicate

def evaluate (text : List Char) (features : Features) : Active :=
  evaluateWith features (text.length + 1) text

/-- The characters of identifiers are none of the grammar's other tokens. -/
def isNameChar (c : Char) : Bool :=
  !Text.isWhitespace c && c ≠ '(' && c ≠ ')' && c ≠ ',' && c ≠ '=' && c ≠ '"'

/-- An identifier. -/
structure Name where
  text : List Char
  nonempty : text ≠ []
  plain : ∀ c ∈ text, isNameChar c = true

/-- What stands between the quotes of a value. -/
structure Quoted where
  text : List Char
  plain : '"' ∉ text

inductive Predicate where
  | ident (name : Name)
  | literal (value : Bool)
  | atom (key : Name) (value : Quoted)
  | all (args : List Predicate)
  | any (args : List Predicate)
  | not (arg : Predicate)

@[elab_as_elim] theorem Predicate.induct {motive : Predicate → Prop}
    (ident : ∀ name, motive (.ident name)) (literal : ∀ value, motive (.literal value))
    (atom : ∀ key value, motive (.atom key value))
    (all : ∀ args, (∀ arg ∈ args, motive arg) → motive (.all args))
    (any : ∀ args, (∀ arg ∈ args, motive arg) → motive (.any args))
    (not : ∀ arg, motive arg → motive (.not arg)) (predicate : Predicate) : motive predicate := by
  match predicate with
  | .ident name => exact ident name
  | .literal value => exact literal value
  | .atom key value => exact atom key value
  | .all args => exact all args fun arg _ => Predicate.induct ident literal atom all any not arg
  | .any args => exact any args fun arg _ => Predicate.induct ident literal atom all any not arg
  | .not arg => exact not arg (Predicate.induct ident literal atom all any not arg)
termination_by predicate

namespace Predicate

mutual

/-- The value of a predicate in the host build with some features, as a test build or not. -/
def value (features : ListSet (List Char)) (test : Bool) : Predicate → Bool
  | .ident name => (nameValue name.text).getD test
  | .literal value => value
  | .atom key value => (hostValue (.default features) key.text value.text).getD false
  | .all args => allValue features test args
  | .any args => anyValue features test args
  | .not arg => !value features test arg
termination_by structural predicate => predicate

def allValue (features : ListSet (List Char)) (test : Bool) : List Predicate → Bool
  | [] => true
  | arg :: rest => value features test arg && allValue features test rest
termination_by structural args => args

def anyValue (features : ListSet (List Char)) (test : Bool) : List Predicate → Bool
  | [] => false
  | arg :: rest => value features test arg || anyValue features test rest
termination_by structural args => args

end

mutual

/-- The three-valued rules decide a predicate from what is known of the build. -/
def decided (features : Features) : Predicate → Active
  | .ident name => nameValue name.text
  | .literal value => some value
  | .atom key value => hostValue features key.text value.text
  | .all args => allOf (decidedAll features args)
  | .any args => anyOf (decidedAll features args)
  | .not arg => (decided features arg).map Bool.not
termination_by structural predicate => predicate

def decidedAll (features : Features) : List Predicate → List Active
  | [] => []
  | arg :: rest => decided features arg :: decidedAll features rest
termination_by structural args => args

end

mutual

/-- Each literal `true` is read as `false`. -/
def misread : Predicate → Predicate
  | .ident name => .ident name
  | .literal _ => .literal false
  | .atom key value => .atom key value
  | .all args => .all (misreadAll args)
  | .any args => .any (misreadAll args)
  | .not arg => .not (misread arg)
termination_by structural predicate => predicate

def misreadAll : List Predicate → List Predicate
  | [] => []
  | arg :: rest => misread arg :: misreadAll rest
termination_by structural args => args

end

/-- Any number of blanks. -/
def Blank (text : List Char) : Prop := ∀ c ∈ text, Text.isWhitespace c = true

instance (text : List Char) : Decidable (Blank text) :=
  inferInstanceAs (Decidable (∀ c ∈ text, Text.isWhitespace c = true))

mutual

/-- A text of a predicate, from its first token to its last one. -/
def Prints : Predicate → List Char → Prop
  | .ident name, text => text = name.text
  | .literal value, text => text = if value then "true".toList else "false".toList
  | .atom key value, text => ∃ before after, Blank before ∧ Blank after ∧
      text = key.text ++ before ++ '=' :: (after ++ '"' :: (value.text ++ ['"']))
  | .all args, text => ∃ before inner, Blank before ∧ PrintsArgs args inner ∧
      text = "all".toList ++ before ++ '(' :: (inner ++ [')'])
  | .any args, text => ∃ before inner, Blank before ∧ PrintsArgs args inner ∧
      text = "any".toList ++ before ++ '(' :: (inner ++ [')'])
  | .not arg, text => ∃ before first core last comma, Blank before ∧ Blank first ∧
      Prints arg core ∧ Blank last ∧ (comma = [] ∨ ∃ blank, Blank blank ∧ comma = ',' :: blank) ∧
      text = "not".toList ++ before ++ '(' :: (first ++ core ++ last ++ comma ++ [')'])
termination_by structural predicate => predicate

/-- Arguments are separated by commas, and one may follow the last argument. -/
def PrintsArgs : List Predicate → List Char → Prop
  | [], text => Blank text
  | arg :: rest, text => ∃ first core last after, Blank first ∧ Prints arg core ∧ Blank last ∧
      ((rest = [] ∧ after = []) ∨ ∃ more, PrintsArgs rest more ∧ after = ',' :: more) ∧
      text = first ++ core ++ last ++ after
termination_by structural args => args

end

/-- A text of a predicate with blanks around it. -/
def Printed (predicate : Predicate) (text : List Char) : Prop :=
  ∃ first core last, Blank first ∧ predicate.Prints core ∧ Blank last ∧ text = first ++ core ++ last

end Predicate

section Connectives

variable {values : List Active}

theorem foldl_decides {connect : Active → Active → Active} {unit : Bool}
    (both : ∀ first second, connect first second = some unit ↔ first = some unit ∧ second = some unit)
    (either : ∀ first second, connect first second = some (!unit) ↔
      first = some (!unit) ∨ second = some (!unit)) (values : List Active) (start : Active) :
    (values.foldl connect start = some unit ↔ start = some unit ∧ ∀ value ∈ values, value = some unit) ∧
      (values.foldl connect start = some (!unit) ↔ start = some (!unit) ∨ some (!unit) ∈ values) := by
  induction values generalizing start with
  | nil => simp
  | cons value values ih =>
    obtain ⟨units, others⟩ := ih (connect start value)
    rw [foldl_cons, units, others, both, either, forall_mem_cons, and_assoc,
      mem_cons, or_assoc, @eq_comm _ (some !unit) value]
    exact ⟨Iff.rfl, Iff.rfl⟩

theorem allOf_decides : (allOf values = some true ↔ ∀ value ∈ values, value = some true) ∧
    (allOf values = some false ↔ some false ∈ values) := by
  obtain ⟨units, others⟩ := @foldl_decides and true
    (by rintro (_ | _ | _) (_ | _ | _) <;> simp [and])
    (by rintro (_ | _ | _) (_ | _ | _) <;> simp [and]) values (some true)
  exact ⟨units.trans (and_iff_right rfl), others.trans (or_iff_right (by simp))⟩

theorem anyOf_decides : (anyOf values = some true ↔ some true ∈ values) ∧
    (anyOf values = some false ↔ ∀ value ∈ values, value = some false) := by
  obtain ⟨units, others⟩ := @foldl_decides
    (fun any value =>
      match any, value with
      | some true, _ => some true
      | _, some true => some true
      | some false, some false => some false
      | _, _ => none) false
    (by rintro (_ | _ | _) (_ | _ | _) <;> simp)
    (by rintro (_ | _ | _) (_ | _ | _) <;> simp) values (some false)
  exact ⟨others.trans (or_iff_right (by simp)), units.trans (and_iff_right rfl)⟩

end Connectives

namespace Predicate

variable {features : Features} {enabled : ListSet (List Char)} {test : Bool}
variable {args : List Predicate}

theorem allValue_eq : allValue enabled test args = args.all (value enabled test) := by
  induction args with
  | nil => rfl
  | cons arg args ih => simp only [allValue, all_cons, ih]

theorem anyValue_eq : anyValue enabled test args = args.any (value enabled test) := by
  induction args with
  | nil => rfl
  | cons arg args ih => simp only [anyValue, any_cons, ih]

theorem decidedAll_eq : decidedAll features args = args.map (decided features) := by
  induction args with
  | nil => rfl
  | cons arg args ih => simp only [decidedAll, map_cons, ih]

theorem misreadAll_eq : misreadAll args = args.map misread := by
  induction args with
  | nil => rfl
  | cons arg args ih => simp only [misreadAll, map_cons, ih]

theorem decided_sound (predicate : Predicate) (enabled : ListSet (List Char)) (test result : Bool)
    (decides : predicate.decided (.default enabled) = some result) :
    predicate.value enabled test = result := by
  induction predicate using Predicate.induct generalizing result with
  | ident name =>
    simp only [decided] at decides
    simp [value, decides]
  | literal literal => exact Option.some.inj decides
  | atom key text =>
    simp only [decided] at decides
    simp [value, decides]
  | all args ih =>
    simp only [decided, decidedAll_eq] at decides
    simp only [value, allValue_eq]
    cases result with
    | true =>
      rw [all_eq_true]
      intro arg mem
      exact ih arg mem true
        (allOf_decides.1.mp decides _ (mem_map_of_mem mem))
    | false =>
      obtain ⟨arg, mem, off⟩ := mem_map.mp (allOf_decides.2.mp decides)
      rw [all_eq_false]
      exact ⟨arg, mem, by simp [ih arg mem false off]⟩
  | any args ih =>
    simp only [decided, decidedAll_eq] at decides
    simp only [value, anyValue_eq]
    cases result with
    | true =>
      obtain ⟨arg, mem, on⟩ := mem_map.mp (anyOf_decides.1.mp decides)
      rw [any_eq_true]
      exact ⟨arg, mem, ih arg mem true on⟩
    | false =>
      rw [any_eq_false]
      intro arg mem
      have off := ih arg mem false
        (anyOf_decides.2.mp decides _ (mem_map_of_mem mem))
      simp [off]
  | not arg ih =>
    simp only [decided, Option.map_eq_some_iff] at decides
    obtain ⟨inner, decides, rfl⟩ := decides
    simp only [value, ih inner decides]

theorem decided_mono (predicate : Predicate) (enabled : ListSet (List Char)) (result : Bool)
    (decides : predicate.decided .unknown = some result) :
    predicate.decided (.default enabled) = some result := by
  induction predicate using Predicate.induct generalizing result with
  | ident name => exact decides
  | literal literal => exact decides
  | atom key text =>
    simp only [decided, hostValue] at decides ⊢
    split
    · rename_i feature
      rw [if_pos feature] at decides
      contradiction
    rename_i other
    rwa [if_neg other] at decides
  | all args ih =>
    simp only [decided, decidedAll_eq] at decides ⊢
    cases result with
    | true =>
      rw [allOf_decides.1, forall_mem_map] at decides ⊢
      exact fun arg mem => ih arg mem true (decides arg mem)
    | false =>
      rw [allOf_decides.2, mem_map] at decides ⊢
      obtain ⟨arg, mem, off⟩ := decides
      exact ⟨arg, mem, ih arg mem false off⟩
  | any args ih =>
    simp only [decided, decidedAll_eq] at decides ⊢
    cases result with
    | true =>
      rw [anyOf_decides.1, mem_map] at decides ⊢
      obtain ⟨arg, mem, on⟩ := decides
      exact ⟨arg, mem, ih arg mem true on⟩
    | false =>
      rw [anyOf_decides.2, forall_mem_map] at decides ⊢
      exact fun arg mem => ih arg mem false (decides arg mem)
  | not arg ih =>
    simp only [decided, Option.map_eq_some_iff] at decides ⊢
    obtain ⟨inner, decides, rfl⟩ := decides
    exact ⟨inner, ih inner decides, rfl⟩

end Predicate

end Codegraph.RustCfg
