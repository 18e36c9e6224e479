import Codegraph.Library.Dict

namespace Codegraph

open Library

/-- A named variable of the source. -/
structure Var where
  name : String
deriving DecidableEq

def Var.asStr (var : Var) : String := var.name

/-- An operand is a variable, a literal as written, or a numbered temporary. -/
inductive Operand where
  | var (var : Var)
  | const (text : String)
  | temp (number : Nat)
deriving DecidableEq

inductive BinOpKind where
  | add | sub | mul | div | eq | ne | lt | gt | and | or
  | rem | le | ge | bitAnd | bitOr | bitXor | shl | shr
deriving DecidableEq

/-- Labels are scoped to one function. -/
structure Label where
  number : Nat
deriving DecidableEq

inductive IrOp where
  | assign (dst : Var) (src : Operand)
  | binOp (dst : Var) (lhs : Operand) (op : BinOpKind) (rhs : Operand)
  | call (dst : Option Var) (callee : String) (receiver : Option Operand) (args : List Operand)
  | fieldRead (dst : Var) (base : Operand) (field : String)
  | fieldWrite (base : Operand) (field : String) (src : Operand)
  | branch (cond : Operand) (target : Label)
  | jump (target : Label)
  | ret (value : Option Operand)
  | label (label : Label)
  | nop
deriving DecidableEq

/-- A syntax node starts at a line and column and covers a byte range. -/
structure Span where
  line : Nat := 0
  col : Nat := 0
  startByte : Nat := 0
  endByte : Nat := 0
deriving DecidableEq

/-- A storage location is a variable and a field path below it. -/
structure Place where
  base : Var
  fields : List String
deriving DecidableEq

/-- A place keeps this many fields, and a deeper access stands for its prefix. -/
def maxPlaceDepth : Nat := 3

namespace Place

def var (var : Var) : Place := ⟨var, []⟩

/-- The second value says whether the result is exact. -/
def field (place : Place) (field : String) : Place × Bool :=
  if maxPlaceDepth ≤ place.fields.length then (place, false)
  else ({ place with fields := place.fields ++ [field] }, true)

end Place

/-- An element access is written with a leading bracket. -/
def isElement (field : String) : Bool := field.toList.head? = some '['

/-- An unknown element matches every element. -/
def fieldMatches (a b : String) : Bool :=
  a = b || (a = "[]" && isElement b) || (b = "[]" && isElement a)

/-- Two places can share storage when one is a prefix of the other. -/
def Place.overlaps (place other : Place) : Bool :=
  place.base = other.base &&
    (place.fields.zip other.fields).all fun pair => fieldMatches pair.1 pair.2

/-- A write to a place overwrites the places below it without an unknown element. -/
def Place.covers (place other : Place) : Bool :=
  place.base = other.base && place.fields.length ≤ other.fields.length &&
    (place.fields.zip other.fields).all fun pair => pair.1 = pair.2 && pair.1 ≠ "[]"

theorem Place.covers_base {place other : Place} (covered : place.covers other = true) :
    place.base = other.base := by
  simp only [covers, Bool.and_eq_true, decide_eq_true_eq] at covered
  exact covered.1.1

/-- The value an expression evaluated to, with the syntax node it came from. -/
structure ExprValue where
  span : Span
  kind : String
  operand : Operand
  place : Option Place
  evaluatedAt : Nat
deriving DecidableEq

/-- The storage that the receiver and the arguments of one call designate. -/
structure CallPlaces where
  op : Nat
  receiver : Option Place
  args : List (Option Place)
deriving DecidableEq

/-- A lowered function lists its operations and the position of every label. -/
structure IrFunction where
  name : String := ""
  receiver : Option Var := none
  params : List Var := []
  body : List IrOp := []
  labels : Dict Label Nat := ∅
  spans : List Span := []
  values : List ExprValue := []
  paramSpans : List Span := []
  referenceParams : List Nat := []
  callPlaces : List CallPlaces := []

namespace IrFunction

/-- The recorded places of the call at an operation. -/
def callPlacesAt (func : IrFunction) (op : Nat) : Option CallPlaces :=
  func.callPlaces.find? fun places => places.op = op

end IrFunction

/-- The variable an operation defines. -/
def definedVar : IrOp → Option Var
  | .assign dst _ | .binOp dst _ _ _ | .fieldRead dst _ _ => some dst
  | .call dst _ _ _ => dst
  | _ => none

/-- The operands an operation reads. -/
def opReads : IrOp → List Operand
  | .assign _ src => [src]
  | .binOp _ lhs _ rhs => [lhs, rhs]
  | .call _ _ receiver args => receiver.toList ++ args
  | .fieldRead _ base _ => [base]
  | .fieldWrite base _ src => [base, src]
  | .branch cond _ => [cond]
  | .ret value => value.toList
  | .jump _ | .label _ | .nop => []

/-- Lowering names its temporaries with this prefix. -/
def isTemp (var : Var) : Bool := "__t".toList.isPrefixOf var.asStr.toList

end Codegraph
