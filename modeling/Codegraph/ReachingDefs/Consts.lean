import Codegraph.Ir.Model
import Codegraph.Library.Text

namespace Codegraph

open Library

/-- An `i64` is kept as its two's complement bits. -/
abbrev I64 := BitVec 64

/-- Checked arithmetic has a result only inside the range. -/
def I64.checked (value : Int) : Option I64 :=
  if -(2 ^ 63) ≤ value ∧ value < 2 ^ 63 then some (BitVec.ofInt 64 value) else none

def I64.ofBool (value : Bool) : I64 := if value then 1 else 0

namespace Consts

inductive Value where
  | int (value : I64)
  | str (text : String)
deriving DecidableEq

/-- A folded expression nests at most this deep. -/
def maxDepth : Nat := 32

/-- These methods pick a character of a string by index. -/
def charAt : List String := ["charAt", "codePointAt", "charCodeAt"]

def isCharAt (callee : String) : Bool := charAt.any fun method => method.toList.isSuffixOf callee.toList

/-- The quoted part of a text that starts and ends with the quote. -/
def quoted (quote : Char) (text : List Char) : Option (List Char) :=
  (Text.stripPrefix [quote] text).bind (Text.stripSuffix [quote])

def hexDigits (digits : List Char) : Option (List Char) :=
  (Text.stripPrefix "0x".toList digits).orElse fun _ => Text.stripPrefix "0X".toList digits

def number (text : List Char) : Option Value :=
  let digits := Text.trimEndMatches (fun c => c ∈ ['l', 'L', 'u', 'U']) text
  let parsed :=
    match hexDigits digits with
    | some hex => Text.parseInt 16 hex
    | none => Text.parseInt 10 digits
  (parsed.bind I64.checked).map .int

/-- A literal is an integer, a boolean, a character or a plain double-quoted string. -/
def literal (text : String) : Option Value :=
  let text := Text.trim text.toList
  if text ∈ ["true".toList, "True".toList, "TRUE".toList] then some (.int 1)
  else if text ∈ ["false".toList, "False".toList, "FALSE".toList] then some (.int 0)
  else
    match quoted '\'' text with
    | some [c] => if c ≠ '\\' then some (.int (BitVec.ofNat 64 c.toNat)) else none
    | some _ => none
    | none =>
      match quoted '"' text with
      | some inner => if '\\' ∈ inner ∨ '"' ∈ inner then none else some (.str (String.ofList inner))
      | none => number text

/-- A shift amount is a `u32` below the width. -/
def shiftAmount (amount : I64) : Option Nat :=
  if 0 ≤ amount.toInt ∧ amount.toInt < 64 then some amount.toInt.toNat else none

def applyInt (op : BinOpKind) (lhs rhs : I64) : Option I64 :=
  match op with
  | .add => I64.checked (lhs.toInt + rhs.toInt)
  | .sub => I64.checked (lhs.toInt - rhs.toInt)
  | .mul => I64.checked (lhs.toInt * rhs.toInt)
  | .div => if rhs.toInt = 0 then none else I64.checked (lhs.toInt.tdiv rhs.toInt)
  | .rem =>
    -- The remainder of the least value by -1 overflows with its quotient.
    if rhs.toInt = 0 ∨ (lhs.toInt = -(2 ^ 63) ∧ rhs.toInt = -1) then none
    else I64.checked (lhs.toInt.tmod rhs.toInt)
  | .eq => some (I64.ofBool (lhs.toInt = rhs.toInt))
  | .ne => some (I64.ofBool (lhs.toInt ≠ rhs.toInt))
  | .lt => some (I64.ofBool (lhs.toInt < rhs.toInt))
  | .gt => some (I64.ofBool (lhs.toInt > rhs.toInt))
  | .le => some (I64.ofBool (lhs.toInt ≤ rhs.toInt))
  | .ge => some (I64.ofBool (lhs.toInt ≥ rhs.toInt))
  | .and => some (I64.ofBool (lhs.toInt ≠ 0 ∧ rhs.toInt ≠ 0))
  | .or => some (I64.ofBool (lhs.toInt ≠ 0 ∨ rhs.toInt ≠ 0))
  | .bitAnd => some (lhs &&& rhs)
  | .bitOr => some (lhs ||| rhs)
  | .bitXor => some (lhs ^^^ rhs)
  | .shl => (shiftAmount rhs).map fun amount => lhs <<< amount
  | .shr => (shiftAmount rhs).map fun amount => lhs.sshiftRight amount

def apply (op : BinOpKind) : Value → Value → Option Value
  | .int lhs, .int rhs => (applyInt op lhs rhs).map .int
  | .str lhs, .str rhs =>
    match op with
    | .eq => some (.int (I64.ofBool (lhs = rhs)))
    | .ne => some (.int (I64.ofBool (lhs ≠ rhs)))
    | _ => none
  | _, _ => none

def countDefinition (counts : Dict Var (Nat × Nat)) (entry : IrOp × Nat) : Dict Var (Nat × Nat) :=
  match definedVar entry.1 with
  | some dst => counts.update dst (0, entry.2) fun count => (count.1 + 1, count.2)
  | none => counts

/-- Parameters and the receiver are defined at entry as well. -/
def countEntry (counts : Dict Var (Nat × Nat)) (var : Var) : Dict Var (Nat × Nat) :=
  counts.update var (0, 0) fun count => (count.1 + 2, count.2)

def counts (func : IrFunction) : Dict Var (Nat × Nat) :=
  (func.params ++ func.receiver.toList).foldl countEntry
    (func.body.zipIdx.foldl countDefinition ∅)

/-- The operation that defines a variable with exactly one definition. -/
def single (func : IrFunction) (var : Var) : Option Nat :=
  match (counts func).get var with
  | some (1, index) => some index
  | _ => none

/-- The character a string holds at an index. -/
def characterAt (text : String) (index : I64) : Option I64 :=
  if 0 ≤ index.toInt then
    text.toList[index.toInt.toNat]?.map fun c => BitVec.ofNat 64 c.toNat
  else none

/-- A definition folds when the operands it computes with do. -/
def foldOp (fold : Operand → Option Value) : IrOp → Option Value
  | .assign _ src => fold src
  | .binOp _ lhs op rhs => (fold lhs).bind fun lhs => (fold rhs).bind fun rhs => apply op lhs rhs
  | .call _ callee (some receiver) [arg] =>
    if isCharAt callee then
      match fold receiver with
      | some (.str text) =>
        match fold arg with
        | some (.int index) => (characterAt text index).map .int
        | _ => none
      | _ => none
    else none
  | _ => none

/-- The remaining depth falls by one at each definition looked through. -/
def foldOperand (func : IrFunction) : Nat → Operand → Option Value
  | 0, _ => none
  | _ + 1, .const text => literal text
  | _ + 1, .temp _ => none
  | depth + 1, .var var =>
    ((single func var).bind fun index => func.body[index]?).bind (foldOp (foldOperand func depth))

/-- The fold of an operand starts at depth zero. -/
def operand (func : IrFunction) (op : Operand) : Option Value := foldOperand func (maxDepth + 1) op

/-- A folded condition says whether its branch is taken. -/
def outcome (func : IrFunction) : IrOp → Option Bool
  | .branch cond _ =>
    match operand func cond with
    | some (.int value) => some (value ≠ 0)
    | _ => none
  | _ => none

def branchOutcomes (func : IrFunction) : Dict Nat Bool :=
  Dict.ofList (func.body.zipIdx.filterMap fun entry =>
    (outcome func entry.1).map fun taken => (entry.2, taken))

end Consts

end Codegraph
