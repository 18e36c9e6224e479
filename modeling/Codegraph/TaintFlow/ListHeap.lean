import Codegraph.Ir.Semantics
import Codegraph.TaintFlow.Lists

namespace Codegraph.TaintFlow.Lists

open Library Exec

/-- Storage that functions share has a variable with this prefix. -/
def isShared (var : Var) : Bool := "@".toList.isPrefixOf var.asStr.toList

/-- An execution has the contents of the list objects and the objects that other code has. -/
structure State where
  pc : Nat
  env : Env
  lists : Nat → Option (List Value)
  outside : Nat → Prop

/-- The objects that can be reached through the lists. -/
inductive Reached (lists : Nat → Option (List Value)) (roots : Nat → Prop) : Nat → Prop
  | root {o : Nat} (start : roots o) : Reached lists roots o
  | inside {o p : Nat} {contents : List Value} (before : Reached lists roots o)
      (listed : lists o = some contents) (member : Value.object p ∈ contents) : Reached lists roots p

section Methods

/-- What a method does to a list. -/
inductive Method where
  | append | removeAt | removeFirst | readAt | readFirst | query
deriving DecidableEq

/-- The methods of a list by their names and numbers of arguments. -/
def methodOf (name : String) (count : Nat) : Option Method :=
  if name ∈ ["add", "addLast", "addElement", "offer", "offerLast"] ∧ count = 1 then some .append
  else if name = "remove" ∧ count = 1 then some .removeAt
  else if name ∈ ["removeFirst", "poll", "pollFirst", "pop", "remove"] ∧ count = 0 then
    some .removeFirst
  else if name ∈ ["get", "elementAt"] ∧ count = 1 then some .readAt
  else if name ∈ ["getFirst", "peek", "peekFirst", "element", "firstElement"] ∧ count = 0 then
    some .readFirst
  -- Lengths, comparisons and predicates leave a list as it is.
  else if java.isCleanResult name = true then some .query
  else none

def Known (known : Nat → Prop) (value : Value) : Prop := ∀ o, value = .object o → known o

/-- The result and the contents that a method leaves. A method that throws has none. -/
inductive Acts (outside : Nat → Prop) : Method → List Value → List Value → Value → List Value → Prop
  | append {value result : Value} {contents : List Value} (room : contents.length + 1 < 2 ^ 31)
      (plain : Known outside result) : Acts outside .append [value] contents result (contents ++ [value])
  | removeAt {index : Nat} {element : Value} {contents : List Value} (int : index < 2 ^ 31)
      (found : contents[index]? = some element) :
      Acts outside .removeAt [.int (BitVec.ofNat 64 index)] contents element (contents.eraseIdx index)
  | removeEqual {value result : Value} {contents contents' : List Value}
      (object : ∀ number, value ≠ .int number) (fewer : contents'.Sublist contents)
      (plain : Known outside result) : Acts outside .removeAt [value] contents result contents'
  | removeFirst {element : Value} {rest : List Value} :
      Acts outside .removeFirst [] (element :: rest) element rest
  | removeNone {result : Value} (plain : Known outside result) : Acts outside .removeFirst [] [] result []
  | readAt {index : Nat} {element : Value} {contents : List Value} (int : index < 2 ^ 31)
      (found : contents[index]? = some element) :
      Acts outside .readAt [.int (BitVec.ofNat 64 index)] contents element contents
  | readFirst {element : Value} {rest : List Value} :
      Acts outside .readFirst [] (element :: rest) element (element :: rest)
  | readNone {result : Value} (plain : Known outside result) : Acts outside .readFirst [] [] result []
  | query {args contents : List Value} {result : Value} (plain : Known outside result) :
      Acts outside .query args contents result contents

end Methods

namespace State

/-- An object that nothing in the execution has. -/
def Unused (interp : Interp) (state : State) (o : Nat) : Prop :=
  state.lists o = none ∧ ¬ state.outside o ∧ (∀ var, state.env var ≠ .object o) ∧
    (∀ text, interp.literal text ≠ .object o) ∧
    ∀ p contents, state.lists p = some contents → Value.object o ∉ contents

/-- What other code can reach when it is called with these values. -/
def Exposed (state : State) (passed : List Value) : Nat → Prop :=
  Reached state.lists fun o => state.outside o ∨ Value.object o ∈ passed ∨
    ∃ var, isShared var = true ∧ state.env var = .object o

/-- The variable gets the value and the next operation is up. -/
def define (state : State) (dst : Option Var) (value : Value) : State :=
  { state with
    pc := state.pc + 1
    env :=
      match dst with
      | some dst => write state.env dst value
      | none => state.env }

def setList (state : State) (o : Nat) (contents : List Value) : State :=
  { state with lists := Function.update state.lists o (some contents) }

end State

/-- Other code may change what it can reach and may use new objects. -/
structure Touches (interp : Interp) (state : State) (passed : List Value) (result : Value)
    (after : State) : Prop where
  pc : after.pc = state.pc
  locals : ∀ var, isShared var = false → after.env var = state.env var
  shared : ∀ var, isShared var = true →
    Known (fun o => state.Exposed passed o ∨ state.Unused interp o) (after.env var)
  outside : ∀ o, after.outside o → state.Exposed passed o ∨ state.Unused interp o
  kept : ∀ o, ¬ (state.Exposed passed o ∨ state.Unused interp o) → after.lists o = state.lists o
  contents : ∀ o, state.Exposed passed o ∨ state.Unused interp o → ∀ contents,
    after.lists o = some contents →
      ∀ value ∈ contents, Known (fun o => state.Exposed passed o ∨ state.Unused interp o) value
  returned : Known (fun o => state.Exposed passed o ∨ state.Unused interp o) result

/-- The call makes a list. -/
def Constructs (callee : String) (receiver : Option Operand) (args : List Operand) : Prop :=
  receiver = none ∧ args = [] ∧ isListType callee javaLists.types = true

/-- What a call returns and leaves. -/
inductive Calls (interp : Interp) (state : State) (callee : String) (receiver : Option Operand)
    (args : List Operand) : Value → State → Prop
  | construct {o : Nat} (constructs : Constructs callee receiver args) (unused : state.Unused interp o) :
      Calls interp state callee receiver args (.object o) (state.setList o [])
  | list {target : Operand} {o : Nat} {kind : Method} {contents contents' : List Value} {result : Value}
      (received : receiver = some target) (holds : interp.operand state.env target = .object o)
      (listed : state.lists o = some contents) (known : methodOf (method callee) args.length = some kind)
      (acts : Acts state.outside kind (args.map (interp.operand state.env)) contents result contents') :
      Calls interp state callee receiver args result (state.setList o contents')
  | other {result : Value} {after : State} (constructs : ¬ Constructs callee receiver args)
      (list : ¬ ∃ target o, receiver = some target ∧ interp.operand state.env target = .object o ∧
        (state.lists o).isSome ∧ (methodOf (method callee) args.length).isSome)
      (touches : Touches interp state ((receiver.toList ++ args).map (interp.operand state.env)) result
        after) : Calls interp state callee receiver args result after

/-- An operator and a field read make no reference to an object that nobody else has. -/
def computed : IrOp → Option Var
  | .binOp dst _ _ _ | .fieldRead dst _ _ => some dst
  | _ => none

inductive Step (interp : Interp) (func : IrFunction) (state : State) : State → Prop
  | assign {dst : Var} {src : Operand} (fetched : func.body[state.pc]? = some (.assign dst src)) :
      Step interp func state (state.define (some dst) (interp.operand state.env src))
  | compute {op : IrOp} {dst : Var} {value : Value} (fetched : func.body[state.pc]? = some op)
      (computes : computed op = some dst) (known : Known (Reached state.lists state.outside) value) :
      Step interp func state (state.define (some dst) value)
  | fieldWrite {base src : Operand} {field : String}
      (fetched : func.body[state.pc]? = some (.fieldWrite base field src)) :
      Step interp func state
        { state with
          pc := state.pc + 1
          outside := fun o => state.outside o ∨ interp.operand state.env src = .object o }
  | call {dst : Option Var} {callee : String} {receiver : Option Operand} {args : List Operand}
      {result : Value} {after : State}
      (fetched : func.body[state.pc]? = some (.call dst callee receiver args))
      (calls : Calls interp state callee receiver args result after) :
      Step interp func state (after.define dst result)
  | pass {op : IrOp} (fetched : func.body[state.pc]? = some op)
      (stays : op = .nop ∨ ∃ label, op = .label label) :
      Step interp func state { state with pc := state.pc + 1 }
  | fallthrough {cond : Operand} {target : Label}
      (fetched : func.body[state.pc]? = some (.branch cond target))
      (fails : interp.isTrue (interp.operand state.env cond) = false) :
      Step interp func state { state with pc := state.pc + 1 }
  | taken {cond : Operand} {target : Label} {index : Nat}
      (fetched : func.body[state.pc]? = some (.branch cond target))
      (holds : interp.isTrue (interp.operand state.env cond) = true)
      (found : func.labels.get target = some index) (labelled : func.body[index]? = some (.label target)) :
      Step interp func state { state with pc := index }
  | jump {target : Label} {index : Nat} (fetched : func.body[state.pc]? = some (.jump target))
      (found : func.labels.get target = some index) (labelled : func.body[index]? = some (.label target)) :
      Step interp func state { state with pc := index }

/-- An execution from the entry keeps the states it has left. -/
inductive Run (interp : Interp) (func : IrFunction) : List State → State → Prop
  | entry {state : State} (start : state.pc = 0) : Run interp func [] state
  | step {history : List State} {state next : State} (run : Run interp func history state)
      (moved : Step interp func state next) : Run interp func (history ++ [state]) next

/-- The value that the argument had when the operation was last executed. -/
def LastValue (interp : Interp) (history : List State) (source : Operand × Nat) (value : Value) : Prop :=
  ∃ earlier state later, history = earlier ++ [state] ++ later ∧ state.pc = source.2 ∧
    (∀ other ∈ later, other.pc ≠ source.2) ∧ value = interp.operand state.env source.1

section Condition

/-- The variable that an operand reads. -/
def operandVar : Operand → Option Var
  | .var var => some var
  | .const _ => none
  | .temp number => some ⟨"__t" ++ toString number⟩

/-- The operands whose values the operation stores or passes on. A known method keeps its receiver to
itself, and only an append keeps its argument. -/
def handed (state : Dict Var (List (Operand × Nat))) : IrOp → List Operand
  | .assign _ src | .fieldWrite _ _ src => [src]
  | .call _ callee (some (.var list)) args =>
    if (state.get list).isSome then
      match methodOf (method callee) args.length with
      | some .append => args
      | some _ => []
      | none => .var list :: args
    else .var list :: args
  | .call _ _ receiver args => receiver.toList ++ args
  | _ => []

/-- A call that may run any code. -/
def callsOut (state : Dict Var (List (Operand × Nat))) : IrOp → Bool
  | .call _ callee (some (.var list)) args =>
    !((state.get list).isSome && (methodOf (method callee) args.length).isSome)
  | .call _ callee none args => !(args = [] && isListType callee javaLists.types)
  | .call .. => true
  | _ => false

/-- The other names of the lists in a straight run: the temporaries that may not be the only name of a
new list any more, and each temporary that a tracked variable got its list from. -/
structure Aliases where
  touched : List Var := []
  names : List (Var × Var) := []

namespace Aliases

/-- A pair stays while neither of its variables is assigned. -/
def keep (aliases : Aliases) (op : IrOp) : List (Var × Var) :=
  aliases.names.filter fun pair => definedVar op ≠ some pair.1 ∧ definedVar op ≠ some pair.2

def step (tracking : Tracking) (aliases : Aliases) (op : IrOp) : Aliases :=
  if Tracking.straightEnds op then {}
  else
    match Tracking.constructed java op with
    | some dst => ⟨aliases.touched.filter (· ≠ dst), aliases.keep op⟩
    | none =>
      ⟨(definedVar op).toList ++ (handed tracking.state op).filterMap operandVar ++ aliases.touched,
        ((Tracking.named tracking.fresh op).map Prod.swap).toList ++ aliases.keep op⟩

/-- The other names before an operation. -/
def before (func : IrFunction) : Nat → Aliases
  | 0 => {}
  | index + 1 =>
    match func.body[index]? with
    | some op => (before func index).step (Tracking.before java func index) op
    | none => before func index

end Aliases

/-- A new list gets its first name, or nothing that is still tracked afterwards is passed on, not even
under another name, or assigned, and no shared variable is tracked when other code runs. -/
structure Separate (tracking : Tracking) (aliases : Aliases) (op : IrOp) (after : Tracking) : Prop where
  first : ∀ dst src, Tracking.named tracking.fresh op = some (dst, src) → src ∉ aliases.touched
  handed : Tracking.named tracking.fresh op = none → ∀ operand ∈ handed tracking.state op, ∀ var,
    operandVar operand = some var → after.state.get var = none ∧
      ∀ name, (var, name) ∈ aliases.names → after.state.get name = none
  assigned : Tracking.named tracking.fresh op = none → ∀ dst, definedVar op = some dst →
    after.state.get dst = none
  shared : callsOut tracking.state op = true → ∀ var, isShared var = true → after.state.get var = none

/-- The operation at the index does not hide a name of a list from the tracking. -/
def SeparateAt (func : IrFunction) (index : Nat) : Prop :=
  ∀ op, func.body[index]? = some op →
    Separate (Tracking.before java func index) (Aliases.before func index) op
      (Tracking.before java func (index + 1))

end Condition

end Codegraph.TaintFlow.Lists
