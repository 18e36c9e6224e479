import Codegraph.Ir.Model
import Codegraph.Library.Text

namespace Codegraph.TaintFlow.Lists

open Library

section Rules

/-- The list methods of a language. -/
structure ListRules where
  types : List String
  appends : List String
  removesAt : List String
  removesFirst : List String
  readsAt : List String
  readsFirst : List String

def noLists : ListRules := ⟨[], [], [], [], [], []⟩

def javaLists : ListRules where
  types := ["ArrayList", "LinkedList", "Vector", "ArrayDeque", "CopyOnWriteArrayList"]
  appends := ["add", "addLast", "addElement", "offer", "offerLast"]
  removesAt := ["remove"]
  removesFirst := ["removeFirst", "poll", "pollFirst", "pop", "remove"]
  readsAt := ["get", "elementAt"]
  readsFirst := ["getFirst", "peek", "peekFirst", "element", "firstElement"]

structure PropagationRules where
  cleanResults : List String
  lists : ListRules

def PropagationRules.isCleanResult (rules : PropagationRules) (name : String) : Bool :=
  name ∈ rules.cleanResults

def java : PropagationRules where
  cleanResults := ["length", "size", "isEmpty", "equals", "equalsIgnoreCase", "contains",
    "containsKey", "containsValue", "startsWith", "endsWith", "indexOf", "lastIndexOf", "hashCode",
    "compareTo", "compareToIgnoreCase", "matches", "hasNext", "hasMoreElements", "hasMoreTokens",
    "exists", "isFile", "isDirectory", "getClass", "countTokens"]
  lists := javaLists

end Rules

/-- The part of a text behind the last stop. -/
def lastSegment (stops : List Char) (text : List Char) : List Char :=
  (text.reverse.takeWhile fun c => c ∉ stops).reverse

def method (callee : String) : String := String.ofList (lastSegment ['.', ':'] callee.toList)

/-- The constructed type counts without its package and its parameters. -/
def isListType (callee : String) (types : List String) : Bool :=
  match Text.stripPrefix "new ".toList callee.toList with
  | none => false
  | some rest =>
    let bare := Text.trim (rest.takeWhile (· ≠ '<'))
    String.ofList (lastSegment ['.'] bare) ∈ types

/-- The elements of a tracked list are arguments with the appends that supplied them. -/
structure Tracking where
  fresh : List Var := []
  state : Dict Var (List (Operand × Nat)) := ∅
  reads : Dict Nat (Operand × Nat) := ∅

namespace Tracking

def straightEnds : IrOp → Bool
  | .label _ | .branch _ _ | .jump _ | .ret _ => true
  | _ => false

/-- The temporary that gets a new list. -/
def constructed (rules : PropagationRules) : IrOp → Option Var
  | .call (some dst) callee none args =>
    if args = [] ∧ isTemp dst = true ∧ isListType callee rules.lists.types = true then some dst
    else none
  | _ => none

/-- The variable that a new list is assigned to, with the temporary. -/
def named (fresh : List Var) : IrOp → Option (Var × Var)
  | .assign dst (.var src) => if src ∈ fresh then some (dst, src) else none
  | _ => none

/-- The method called on a tracked list and its arguments. -/
def listCall (state : Dict Var (List (Operand × Nat))) :
    IrOp → Option (Var × List (Operand × Nat) × String × List Operand)
  | .call _ callee (some (.var list)) args =>
    (state.get list).map fun elements => (list, elements, method callee, args)
  | _ => none

def position : List Operand → Option Nat
  | .const text :: _ => Text.parseUsize (Text.trim text.toList)
  | _ => none

def drop (tracking : Tracking) (list : Var) : Tracking :=
  { tracking with state := tracking.state.remove list }

def store (tracking : Tracking) (list : Var) (elements : List (Operand × Nat)) : Tracking :=
  { tracking with state := tracking.state.set list elements }

def read (tracking : Tracking) (index : Nat) (element : Operand × Nat) : Tracking :=
  { tracking with reads := tracking.reads.set index element }

/-- A call on a tracked list. -/
def use (rules : PropagationRules) (tracking : Tracking) (index : Nat) (list : Var)
    (elements : List (Operand × Nat)) (name : String) (args : List Operand) : Tracking :=
  if .var list ∈ args then tracking.drop list
  else if name ∈ rules.lists.appends ∧ args.length = 1 then
    tracking.store list (elements ++ args.map (·, index))
  else if name ∈ rules.lists.removesAt ∧ args.length = 1 then
    match (position args).filter (· < elements.length) with
    | some i => tracking.store list (elements.eraseIdx i)
    | none => tracking.drop list
  else if name ∈ rules.lists.removesFirst ∧ args = [] then
    if elements = [] then tracking.drop list else tracking.store list (elements.drop 1)
  else if name ∈ rules.lists.readsAt ∧ args.length = 1 then
    match (position args).bind fun i => elements[i]? with
    | some element => tracking.read index element
    | none => tracking.drop list
  else if name ∈ rules.lists.readsFirst ∧ args = [] then
    match elements.head? with
    | some element => tracking.read index element
    | none => tracking.drop list
  else if rules.isCleanResult name then tracking
  else tracking.drop list

def dropRead (tracking : Tracking) : Operand → Tracking
  | .var var => tracking.drop var
  | _ => tracking

/-- Any other use of a tracked list forgets it. -/
def forget (tracking : Tracking) (op : IrOp) : Tracking :=
  let read := (opReads op).foldl dropRead tracking
  match op with
  | .assign dst _ | .binOp dst _ _ _ | .fieldRead dst _ _ | .call (some dst) _ _ _ => read.drop dst
  | _ => read

def step (rules : PropagationRules) (tracking : Tracking) (entry : IrOp × Nat) : Tracking :=
  if straightEnds entry.1 then { tracking with fresh := [], state := ∅ }
  else
    match constructed rules entry.1 with
    | some dst => { tracking with fresh := tracking.fresh ++ [dst] }
    | none =>
      match named tracking.fresh entry.1 with
      | some (dst, _) => tracking.store dst []
      | none =>
        match listCall tracking.state entry.1 with
        | some (list, elements, name, args) => tracking.use rules entry.2 list elements name args
        | none => tracking.forget entry.1

/-- What is known before an operation. -/
def before (rules : PropagationRules) (func : IrFunction) (index : Nat) : Tracking :=
  (func.body.take index).zipIdx.foldl (step rules) {}

end Tracking

/-- The reads whose result is one append's argument: the argument and the append. -/
def positionalReads (func : IrFunction) (rules : PropagationRules) : Dict Nat (Operand × Nat) :=
  if rules.lists.types = [] then ∅ else (func.body.zipIdx.foldl (Tracking.step rules) {}).reads

end Codegraph.TaintFlow.Lists
