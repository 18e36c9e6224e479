import Codegraph.ReachingDefs.Blocks
import Codegraph.ReachingDefs.Consts

namespace Codegraph

open Library Relation

namespace Exec

/-- A boolean is the integer one or zero, and the representation says nothing about objects. -/
inductive Value where
  | int (value : I64)
  | str (text : String)
  | object (identity : Nat)
deriving DecidableEq

/-- The representation leaves these values to the language it was lowered from. -/
structure Interp where
  constant : String → Value
  truthy : Value → Bool

abbrev Env := Var → Value

def ofConst : Consts.Value → Value
  | .int value => .int value
  | .str text => .str text

def ofBool (value : Bool) : Value := .int (I64.ofBool value)

def Interp.isTrue (interp : Interp) : Value → Bool
  | .int value => value ≠ 0
  | value => interp.truthy value

def Interp.literal (interp : Interp) (text : String) : Value :=
  ((Consts.literal text).map ofConst).getD (interp.constant text)

/-- A numbered temporary is the variable lowering names after it. -/
def Interp.operand (interp : Interp) (env : Env) : Operand → Value
  | .var var => env var
  | .const text => interp.literal text
  | .temp number => env ⟨"__t" ++ toString number⟩

/-- Integer operators compute with mathematical integers. -/
def exactInt (op : BinOpKind) (lhs rhs : Int) : Option Int :=
  match op with
  | .add => some (lhs + rhs)
  | .sub => some (lhs - rhs)
  | .mul => some (lhs * rhs)
  | .div => if rhs = 0 then none else some (lhs.tdiv rhs)
  | .rem => if rhs = 0 then none else some (lhs.tmod rhs)
  | .eq => some (if lhs = rhs then 1 else 0)
  | .ne => some (if lhs ≠ rhs then 1 else 0)
  | .lt => some (if lhs < rhs then 1 else 0)
  | .gt => some (if lhs > rhs then 1 else 0)
  | .le => some (if lhs ≤ rhs then 1 else 0)
  | .ge => some (if lhs ≥ rhs then 1 else 0)
  | .and => some (if lhs ≠ 0 ∧ rhs ≠ 0 then 1 else 0)
  | .or => some (if lhs ≠ 0 ∨ rhs ≠ 0 then 1 else 0)
  | .bitAnd => some (BitVec.ofInt 64 lhs &&& BitVec.ofInt 64 rhs).toInt
  | .bitOr => some (BitVec.ofInt 64 lhs ||| BitVec.ofInt 64 rhs).toInt
  | .bitXor => some (BitVec.ofInt 64 lhs ^^^ BitVec.ofInt 64 rhs).toInt
  | .shl => if 0 ≤ rhs ∧ rhs < 64 then some (lhs * 2 ^ rhs.toNat) else none
  | .shr => if 0 ≤ rhs ∧ rhs < 64 then some (lhs / 2 ^ rhs.toNat) else none

/-- An execution without overflow has a result only where the exact one fits. -/
def fits (value : Int) : Prop := -(2 ^ 63) ≤ value ∧ value < 2 ^ 63

/-- The results an operator may have, which are open where the operands have other types. -/
def Interp.BinOpResult (interp : Interp) (op : BinOpKind) (lhs rhs result : Value) : Prop :=
  if op = .and then result = ofBool (interp.isTrue lhs && interp.isTrue rhs)
  else if op = .or then result = ofBool (interp.isTrue lhs || interp.isTrue rhs)
  else
    match lhs, rhs with
    | .int lhs, .int rhs => ∃ exact, exactInt op lhs.toInt rhs.toInt = some exact ∧ fits exact ∧
        result = .int (BitVec.ofInt 64 exact)
    | .str lhs, .str rhs =>
      if op = .eq then result = ofBool (lhs = rhs)
      else if op = .ne then result = ofBool (lhs ≠ rhs)
      else True
    | _, _ => True

/-- A negation `!x` is written `x == false`. -/
def negated (op : BinOpKind) (lhs rhs : Operand) : Option Operand :=
  if op = .eq ∧ rhs = .const "false" then some lhs
  else if op = .eq ∧ lhs = .const "false" then some rhs
  else none

/-- The results a call may have: only a character of a string is known. -/
def Interp.CallResult (interp : Interp) (env : Env) (callee : String) (receiver : Option Operand)
    (args : List Operand) (result : Value) : Prop :=
  match receiver.map (interp.operand env), args.map (interp.operand env) with
  | some (.str text), [.int index] => Consts.isCharAt callee = true →
      ∀ c, Consts.characterAt text index = some c → result = .int c
  | _, _ => True

/-- The values an operation may give to the variable it defines. -/
def Interp.Result (interp : Interp) (env : Env) (op : IrOp) (result : Value) : Prop :=
  match op with
  | .assign _ src => result = interp.operand env src
  | .binOp _ lhs op rhs =>
    match negated op lhs rhs with
    | some operand => result = ofBool (!interp.isTrue (interp.operand env operand))
    | none => interp.BinOpResult op (interp.operand env lhs) (interp.operand env rhs) result
  | .call _ callee receiver args => interp.CallResult env callee receiver args result
  | _ => True

/-- An execution is at an operation and knows the variables. -/
structure Config where
  pc : Nat
  env : Env

def write (env : Env) (dst : Var) (value : Value) : Env :=
  fun var => if var = dst then value else env var

@[simp] theorem write_self (env : Env) (dst : Var) (value : Value) : write env dst value dst = value :=
  if_pos rfl

theorem write_ne (env : Env) {dst var : Var} (value : Value) (different : var ≠ dst) :
    write env dst value var = env var := if_neg different

/-- One operation executes. A return and a jump to a missing label end the execution. -/
inductive Step (interp : Interp) (func : IrFunction) : Config → Config → Prop
  | define {config : Config} {op : IrOp} {dst : Var} {value : Value}
      (fetched : func.body[config.pc]? = some op) (defines : definedVar op = some dst)
      (result : interp.Result config.env op value) :
      Step interp func config ⟨config.pc + 1, write config.env dst value⟩
  | pass {config : Config} {op : IrOp} (fetched : func.body[config.pc]? = some op)
      (defines : definedVar op = none) (stays : op.endsBlock = false) :
      Step interp func config ⟨config.pc + 1, config.env⟩
  | taken {config : Config} {cond : Operand} {target : Label} {index : Nat}
      (fetched : func.body[config.pc]? = some (.branch cond target))
      (holds : interp.isTrue (interp.operand config.env cond) = true)
      (found : func.labels.get target = some index) : Step interp func config ⟨index, config.env⟩
  | fallthrough {config : Config} {cond : Operand} {target : Label}
      (fetched : func.body[config.pc]? = some (.branch cond target))
      (fails : interp.isTrue (interp.operand config.env cond) = false) :
      Step interp func config ⟨config.pc + 1, config.env⟩
  | jump {config : Config} {target : Label} {index : Nat}
      (fetched : func.body[config.pc]? = some (.jump target))
      (found : func.labels.get target = some index) : Step interp func config ⟨index, config.env⟩

/-- An execution from the entry keeps the configurations it has left. -/
inductive Run (interp : Interp) (func : IrFunction) : List Config → Config → Prop
  | entry (env : Env) : Run interp func [] ⟨0, env⟩
  | step {history : List Config} {config next : Config} (run : Run interp func history config)
      (moved : Step interp func config next) : Run interp func (history ++ [config]) next

end Exec

end Codegraph
