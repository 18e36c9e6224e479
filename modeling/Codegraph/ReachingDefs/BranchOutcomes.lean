import Codegraph.ReachingDefs.Flow
import Codegraph.ReachingDefs.Folding

namespace Codegraph

open Library List Option Consts

namespace Consts

theorem branchOutcomes_get (func : IrFunction) (position : Nat) :
    (branchOutcomes func).get position = (func.body[position]?).bind (outcome func) := by
  unfold branchOutcomes
  generalize func.body = body
  induction body using List.reverseRecOn with
  | nil => simp [Dict.ofList]
  | append_singleton body op ih =>
    rw [zipIdx_concat, filterMap_append, getElem?_append]
    cases folded : outcome func op with
    | none =>
      have same : Dict.ofList ((body.zipIdx.filterMap fun entry =>
          (outcome func entry.1).map fun taken => (entry.2, taken)) ++
          [(op, body.length)].filterMap fun entry =>
            (outcome func entry.1).map fun taken => (entry.2, taken)) =
          Dict.ofList (body.zipIdx.filterMap fun entry =>
            (outcome func entry.1).map fun taken => (entry.2, taken)) := by
        simp [folded]
      rw [same, ih]
      split
      · rfl
      rename_i outside
      rw [getElem?_eq_none (by omega)]
      cases position - body.length with
      | zero => simp [folded]
      | succ offset => simp
    | some taken =>
      have added : [(op, body.length)].filterMap (fun entry =>
          (outcome func entry.1).map fun taken => (entry.2, taken)) =
          [(body.length, taken)] := by
        simp [folded]
      rw [added, Dict.ofList_concat, Dict.get_set, ih]
      by_cases here : position = body.length
      · subst here
        simp [folded]
      rw [if_neg here]
      split
      · rfl
      rename_i outside
      obtain ⟨offset, rfl⟩ : ∃ offset, position = body.length + 1 + offset :=
        ⟨position - body.length - 1, by omega⟩
      rw [getElem?_eq_none (by omega), getElem?_eq_none (by simp; omega)]

/-- The fold of a recorded branch looks through the one definition of the variable. -/
def Relied (func : IrFunction) (var : Var) : Prop :=
  ∃ (position : Nat) (cond : Operand) (target : Label) (taken : Bool),
    func.body[position]? = some (.branch cond target) ∧
      (branchOutcomes func).get position = some taken ∧ LooksThrough func cond var

theorem LooksThrough.trans {func : IrFunction} {read : Operand} {var inner : Var} {index : Nat}
    {op : IrOp} (outer : LooksThrough func read var) (defined : single func var = some index)
    (found : func.body[index]? = some op) (reads : .var inner ∈ opReads op)
    (innerDefined : ∃ index, single func inner = some index) : LooksThrough func read inner := by
  induction outer with
  | here _ =>
    obtain ⟨index', defined'⟩ := innerDefined
    exact LooksThrough.through defined found reads (LooksThrough.here defined')
  | through defined' found' reads' _ ih => exact LooksThrough.through defined' found' reads' (ih defined)

theorem foldOperand_var {func : IrFunction} {depth : Nat} {var : Var} {value : Value}
    (folded : foldOperand func depth (.var var) = some value) :
    ∃ below index op, depth = below + 1 ∧ single func var = some index ∧
      func.body[index]? = some op ∧ foldOp (foldOperand func below) op = some value := by
  cases depth with
  | zero => simp [foldOperand] at folded
  | succ below =>
    rw [foldOperand] at folded
    obtain ⟨op, found, foldedOp⟩ := bind_eq_some_iff.mp folded
    obtain ⟨index, defined, fetched⟩ := bind_eq_some_iff.mp found
    exact ⟨below, index, op, rfl, defined, fetched, foldedOp⟩

end Consts

namespace Exec

/-- The one definition of the variable has executed. -/
def Executed (func : IrFunction) (history : List Config) (var : Var) : Prop :=
  ∃ config ∈ history, Consts.single func var = some config.pc

/-- A recorded branch, or a definition its fold looks through, reads only looked-through variables
whose one definition has executed. -/
def DefinedFirst (func : IrFunction) (history : List Config) (config : Config) : Prop :=
  ∀ op, func.body[config.pc]? = some op →
    ((∃ taken, (Consts.branchOutcomes func).get config.pc = some taken) ∨
      ∃ var, Consts.Relied func var ∧ Consts.single func var = some config.pc) →
    ∀ var, .var var ∈ opReads op → Consts.Relied func var → Executed func history var

/-- The property holds at every point of the execution. -/
def Throughout (property : List Config → Config → Prop) (history : List Config) (config : Config) : Prop :=
  ∀ earlier current later, history ++ [config] = earlier ++ current :: later → property earlier current

variable {property : List Config → Config → Prop} {history : List Config}

theorem throughout_last
    {config : Config} (always : Throughout property history config) : property history config :=
  always history config [] rfl

theorem throughout_before {config next : Config} (always : Throughout property (history ++ [config]) next) :
    Throughout property history config := by
  intro earlier current later split
  exact always earlier current (later ++ [next]) (by rw [split]; simp)

theorem throughout_entry {config : Config} (first : property [] config) : Throughout property [] config := by
  intro earlier current later split
  obtain ⟨rfl, rest⟩ := append_eq_singleton_iff.mp split.symm |>.resolve_right (by simp)
  cases rest
  exact first

theorem throughout_step {config next : Config} (before : Throughout property history config)
    (last : property (history ++ [config]) next) :
    Throughout property (history ++ [config]) next := by
  intro earlier current later split
  induction later using List.reverseRecOn with
  | nil =>
    obtain ⟨rfl, same⟩ := append_inj' split rfl
    cases same
    exact last
  | append_singleton later final _ =>
    have front : history ++ [config] = earlier ++ current :: later := by
      have split' : (history ++ [config]) ++ [next] = (earlier ++ current :: later) ++ [final] := by
        rw [split]; simp
      exact (append_inj' split' rfl).1
    exact before earlier current later front

/-- The executed definitions of the looked-through variables hold their folded values. -/
def HoldsConstants (func : IrFunction) (history : List Config) (env : Env) : Prop :=
  ∀ var depth value, Executed func history var → Consts.Relied func var →
    Consts.foldOperand func depth (.var var) = some value → env var = ofConst value

theorem operand_sound {interp : Interp} {func : IrFunction} {env : Env} {read : Operand}
    {depth : Nat} {value : Consts.Value}
    (folded : Consts.foldOperand func depth read = some value)
    (known : ∀ var, read = .var var → env var = ofConst value) :
    interp.operand env read = ofConst value := by
  cases read with
  | var var => exact known var rfl
  | const text =>
    cases depth with
    | zero => simp [Consts.foldOperand] at folded
    | succ depth => exact literal_sound folded
  | temp number => cases depth <;> simp [Consts.foldOperand] at folded

theorem define_holds {interp : Interp} {func : IrFunction}
    {config : Config} {op : IrOp} {var : Var} {depth : Nat} {value : Consts.Value} {result : Value}
    (holds : HoldsConstants func history config.env)
    (first : DefinedFirst func history config) (fetched : func.body[config.pc]? = some op)
    (defines : definedVar op = some var) (relied : Consts.Relied func var)
    (folded : Consts.foldOperand func depth (.var var) = some value)
    (computed : interp.Result config.env op result) : result = ofConst value := by
  obtain ⟨below, index, op', rfl, defined, found, foldedOp⟩ := foldOperand_var folded
  have here := (single_eq_some defined).2 config.pc op fetched defines
  subst here
  obtain rfl : op = op' := some.inj (fetched.symm.trans found)
  refine foldOp_sound (fun read reads value foldedRead => ?_) foldedOp computed
  refine operand_sound foldedRead ?_
  rintro inner rfl
  obtain ⟨-, index, -, -, innerDefined, -, -⟩ := foldOperand_var foldedRead
  obtain ⟨position, cond, target, taken, branch, recorded, through⟩ := relied
  have reliedInner : Consts.Relied func inner := ⟨position, cond, target, taken, branch, recorded,
    through.trans defined fetched reads ⟨index, innerDefined⟩⟩
  have executed := first op fetched
    (.inr ⟨var, ⟨position, cond, target, taken, branch, recorded, through⟩, defined⟩)
    inner reads reliedInner
  exact holds inner below value executed reliedInner foldedRead

theorem step_holdsConstants {interp : Interp} {func : IrFunction}
    {config next : Config} (holds : HoldsConstants func history config.env)
    (first : DefinedFirst func history config) (moved : Step interp func config next) :
    HoldsConstants func (history ++ [config]) next.env := by
  -- Only the one definition of a variable can write it or count as its execution.
  have unwritten {op : IrOp} {var : Var} (fetched : func.body[config.pc]? = some op)
      (different : definedVar op ≠ some var)
      (executed : Executed func (history ++ [config]) var) : Executed func history var := by
    obtain ⟨past, mem, defined⟩ := executed
    rcases mem_append.mp mem with earlier | now
    · exact ⟨past, earlier, defined⟩
    rw [mem_singleton.mp now] at defined
    obtain ⟨op', fetched', defines⟩ := (single_eq_some defined).1
    rw [fetched] at fetched'
    cases fetched'
    exact absurd defines different
  intro var depth value executed relied folded
  cases moved with
  | @define op dst result fetched defines computed =>
    by_cases same : var = dst
    · subst same
      change write config.env var result var = ofConst value
      rw [write_self]
      exact define_holds holds first fetched defines relied folded computed
    have different : definedVar op ≠ some var := by
      rw [defines]
      intro same'
      exact same (some.inj same').symm
    change write config.env dst result var = ofConst value
    rw [write_ne _ _ same]
    exact holds var depth value (unwritten fetched different executed) relied folded
  | pass fetched defines _ =>
    exact holds var depth value (unwritten fetched (by simp [defines]) executed) relied folded
  | taken fetched _ _ | fallthrough fetched _ | jump fetched _ =>
    exact holds var depth value
      (unwritten fetched (by simp [definedVar]) executed) relied folded

theorem run_holdsConstants {interp : Interp} {func : IrFunction}
    {config : Config} (run : Run interp func history config)
    (always : Throughout (DefinedFirst func) history config) :
    HoldsConstants func history config.env := by
  induction run with
  | entry env =>
    intro var depth value executed
    obtain ⟨past, mem, -⟩ := executed
    simp at mem
  | step run moved ih =>
    have before := throughout_before always
    exact step_holdsConstants (ih before) (throughout_last before) moved

/-- In an execution that defines first what the folds look through, every branch goes the way that
was recorded, and every step stays on the graph that was pruned. -/
theorem branchOutcomes_sound (interp : Interp) (func : IrFunction) (history : List Config)
    (config : Config) (run : Run interp func history config)
    (always : Throughout (DefinedFirst func) history config) :
    Agrees interp func (Consts.branchOutcomes func) config ∧ ∀ next, Step interp func config next →
        (Blocks.build func (Consts.branchOutcomes func)).Follows config.pc next.pc := by
  have agrees : Agrees interp func (Consts.branchOutcomes func) config := by
    intro cond target taken fetched recorded
    have holds := run_holdsConstants run always
    have folded := recorded
    rw [branchOutcomes_get, fetched, bind_some] at folded
    simp only [Consts.outcome] at folded
    split at folded
    · rename_i value foldedCond
      have sound : interp.operand config.env cond = ofConst (.int value) := by
        refine operand_sound foldedCond ?_
        rintro var rfl
        obtain ⟨-, index, -, -, defined, -, -⟩ := foldOperand_var foldedCond
        have relied : Consts.Relied func var :=
          ⟨config.pc, .var var, target, taken, fetched, recorded, Consts.LooksThrough.here defined⟩
        have executed := throughout_last always _ fetched (.inl ⟨taken, recorded⟩) var
          (by simp [opReads]) relied
        exact holds var _ _ executed relied foldedCond
      rw [sound]
      exact some.inj folded
    · contradiction
  exact ⟨agrees, fun next moved => step_follows agrees moved⟩

/-- The variable is assigned before the branch that reads it. -/
def assignedFirst : IrFunction :=
  { body := [.assign ⟨"x"⟩ (.const "1"), .branch (.var ⟨"x"⟩) ⟨0⟩, .ret none, .label ⟨0⟩]
    labels := Dict.ofList [(⟨0⟩, 3)] }

/-- Every open value is zero or false. -/
def zeroInterp : Interp := ⟨fun _ => .int 0, fun _ => false⟩

theorem branchOutcomes_sound_assignedFirst :
    zeroInterp.isTrue (zeroInterp.operand (write (fun _ => .int 0) ⟨"x"⟩ (.int 1)) (.var ⟨"x"⟩)) =
      true := by
  have assigned : Step zeroInterp assignedFirst ⟨0, fun _ => .int 0⟩
      ⟨1, write (fun _ => .int 0) ⟨"x"⟩ (.int 1)⟩ := by
    have fetched : assignedFirst.body[0]? = some (.assign ⟨"x"⟩ (.const "1")) := rfl
    apply Step.define fetched rfl
    rfl
  refine (branchOutcomes_sound zeroInterp assignedFirst ([] ++ [⟨0, fun _ => .int 0⟩]) _
    (Run.step (Run.entry _) assigned) ?_).1 (.var ⟨"x"⟩) ⟨0⟩ true rfl (by decide)
  apply throughout_step
  · apply throughout_entry
    intro op fetched _ var reads
    cases fetched
    simp [opReads] at reads
  intro op fetched _ var reads _
  cases fetched
  obtain rfl : var = ⟨"x"⟩ := by simpa [opReads] using reads
  exact ⟨⟨0, fun _ => .int 0⟩, by simp, by decide⟩

/-- The variable is assigned on one of the two ways to the branch that reads it. -/
def assignedOnOneWay : IrFunction :=
  { params := [⟨"c"⟩]
    body := [.branch (.var ⟨"c"⟩) ⟨0⟩, .assign ⟨"x"⟩ (.const "1"), .label ⟨0⟩,
      .branch (.var ⟨"x"⟩) ⟨1⟩, .ret none, .label ⟨1⟩]
    labels := Dict.ofList [(⟨0⟩, 2), (⟨1⟩, 5)] }

/-- The branch is recorded as taken, and an execution that skips the assignment falls through. -/
theorem branchOutcomes_unsound : ¬ ∀ interp func history config, Run interp func history config →
    Agrees interp func (Consts.branchOutcomes func) config := by
  intro sound
  let env : Env := fun var => if var = ⟨"c"⟩ then .int 1 else .int 0
  have branch : assignedOnOneWay.body[0]? = some (.branch (.var ⟨"c"⟩) ⟨0⟩) := rfl
  have skipped : Run zeroInterp assignedOnOneWay [⟨0, env⟩] ⟨2, env⟩ :=
    Run.step (Run.entry env) (Step.taken branch rfl rfl)
  have label : assignedOnOneWay.body[2]? = some (.label ⟨0⟩) := rfl
  have reached := Run.step skipped (Step.pass label rfl rfl)
  have recorded : (Consts.branchOutcomes assignedOnOneWay).get 3 = some true := by decide
  have taken := sound _ _ _ _ reached (.var ⟨"x"⟩) ⟨1⟩ true rfl recorded
  exact absurd taken (by decide)

end Exec

end Codegraph
