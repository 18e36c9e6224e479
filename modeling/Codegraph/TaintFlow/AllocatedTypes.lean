import Codegraph.Ir.Semantics
import Codegraph.Library.Text

namespace Codegraph.AllocatedTypes

open Library List

/-- The last part of a path, without type arguments. -/
def simpleType (text : List Char) : List Char :=
  let bare := Text.trim (text.takeWhile (· ≠ '<'))
  Text.trim (((bare.splitOnP fun c => c = '.' ∨ c = ':').reverse.find? (· ≠ [])).getD bare)

section Analysis

variable (isClass : String → Bool)

/-- The class of which a call constructs an object. -/
def constructed (callee : String) : Option String :=
  match Text.stripPrefix "new ".toList callee.toList with
  | some rest => some (String.ofList (simpleType rest))
  | none =>
    let name := String.ofList (simpleType callee.toList)
    if isClass name then some name else none

def construction : IrOp → Option (Var × String)
  | .call (some dst) callee none _ => (constructed isClass callee).map (dst, ·)
  | _ => none

def addTemp (temps : Dict Var String) (op : IrOp) : Dict Var String :=
  match construction isClass op with
  | some (dst, name) => temps.set dst name
  | none => temps

def temps (body : List IrOp) : Dict Var String := body.foldl (addTemp isClass) ∅

def assigned (temps : Dict Var String) : IrOp → Option (Var × Option String)
  | .assign dst (.var src) => some (dst, temps.get src)
  | .assign dst _ | .binOp dst _ _ _ | .fieldRead dst _ _ => some (dst, none)
  | .call (some dst) _ _ _ => if (temps.get dst).isNone then some (dst, none) else none
  | _ => none

def merge (vars : Dict Var (Option String)) (pair : Var × Option String) : Dict Var (Option String) :=
  let entry := (vars.get pair.1).getD pair.2
  vars.set pair.1 (if entry ≠ pair.2 then none else entry)

def vars (body : List IrOp) : Dict Var (Option String) :=
  (body.filterMap (assigned (temps isClass body))).foldl merge ∅

def addVar (out : Dict Var String) (entry : (_ : Var) × Option String) : Dict Var String :=
  match entry.2 with
  | some name => out.set entry.1 name
  | none => out

def allocatedTypes (body : List IrOp) : Dict Var String :=
  (vars isClass body).entries.foldl addVar (temps isClass body)

end Analysis

section Executions

variable (isClass : String → Bool) (interp : Exec.Interp) (classOf : Exec.Value → Option String)
variable (func : IrFunction)

/-- An execution keeps the variables it has written, and its constructions yield objects of their
class. Every step meets a condition. -/
inductive Run (meets : List Var → Exec.Config → Prop) : List Var → Exec.Config → Prop where
  | entry (env : Exec.Env) : Run meets [] ⟨0, env⟩
  | step {written : List Var} {config next : Exec.Config} (run : Run meets written config)
      (met : meets written config) (moved : Exec.Step interp func config next)
      (fresh : ∀ op ∈ func.body[config.pc]?, ∀ dst name, construction isClass op = some (dst, name) →
        classOf (next.env dst) = some name) :
      Run meets ((func.body[config.pc]?.bind definedVar).toList ++ written) next

/-- The operation constructs the object or copies a variable that holds a construction. -/
def Yields (op : IrOp) (var : Var) (name : String) : Prop :=
  construction isClass op = some (var, name) ∨ ∃ src, op = .assign var (.var src) ∧
    ∃ other ∈ func.body, construction isClass other = some (src, name)

/-- Some operation gives the variable an object of the class, and either every operation that writes
the variable does so or the variable holds a construction. -/
def Settled (var : Var) (name : String) : Prop :=
  (∃ op ∈ func.body, Yields isClass func op var name) ∧
    ((∃ op ∈ func.body, ∃ other, construction isClass op = some (var, other)) ∨
      ∀ op ∈ func.body, definedVar op = some var → Yields isClass func op var name)

/-- The operation copies the variable or calls a method on it. -/
def Uses (op : IrOp) (var : Var) : Prop :=
  (∃ dst, op = .assign dst (.var var)) ∨ ∃ dst callee args, op = .call dst callee (some (.var var)) args

/-- A settled variable gets objects of its class only, and is written before it is used. -/
def Orderly (written : List Var) (config : Exec.Config) : Prop :=
  ∀ op ∈ func.body[config.pc]?, ∀ var name, Settled isClass func var name →
    (definedVar op = some var → Yields isClass func op var name) ∧ (Uses op var → var ∈ written)

end Executions

section Lookups

variable {isClass : String → Bool} {body : List IrOp} {var : Var} {name : String}

theorem get_temps (found : (temps isClass body).get var = some name) :
    ∃ op ∈ body, construction isClass op = some (var, name) := by
  unfold temps at found
  induction body using List.reverseRecOn with
  | nil => simp at found
  | append_singleton body last ih =>
    rw [foldl_concat, addTemp] at found
    split at found
    · rename_i dst other made
      rw [Dict.get_set] at found
      split at found
      · rename_i same
        cases found
        exact ⟨last, by simp, same ▸ made⟩
      · obtain ⟨op, mem, made⟩ := ih found
        exact ⟨op, mem_append_left _ mem, made⟩
    · obtain ⟨op, mem, made⟩ := ih found
      exact ⟨op, mem_append_left _ mem, made⟩

/-- A variable keeps a class while every assignment gives it. -/
theorem get_merge (pairs : List (Var × Option String)) (var : Var) :
    ((pairs.foldl merge ∅).get var = none → ∀ pair ∈ pairs, pair.1 ≠ var) ∧
      ∀ name, (pairs.foldl merge ∅).get var = some (some name) →
        (var, some name) ∈ pairs ∧ ∀ pair ∈ pairs, pair.1 = var → pair.2 = some name := by
  induction pairs using List.reverseRecOn with
  | nil => simp
  | append_singleton pairs last ih =>
    obtain ⟨fresh, settled⟩ := ih
    rw [foldl_concat, merge, Dict.get_set]
    split
    · rename_i same
      subst same
      refine ⟨nofun, fun name found => ?_⟩
      cases known : (pairs.foldl merge ∅).get last.1 with
      | none =>
        have apart := fresh known
        grind
      | some entry =>
        have before := settled name
        grind
    rename_i apart
    refine ⟨fun absent => ?_, fun name found => ?_⟩
    · have before := fresh absent
      grind
    · have before := settled name found
      grind

theorem get_allocatedTypes (found : (allocatedTypes isClass body).get var = some name) :
    (vars isClass body).get var = some (some name) ∨ (temps isClass body).get var = some name := by
  have each (entries : List ((_ : Var) × Option String)) (out : Dict Var String)
      (found : (entries.foldl addVar out).get var = some name) :
      ⟨var, some name⟩ ∈ entries ∨ out.get var = some name := by
    induction entries generalizing out with
    | nil => exact .inr found
    | cons entry entries ih =>
      rcases ih _ found with listed | set
      · exact .inl (mem_cons_of_mem _ listed)
      obtain ⟨key, value⟩ := entry
      cases value with
      | none => exact .inr set
      | some other =>
        rw [addVar, Dict.get_set] at set
        grind
  exact (each _ _ found).imp_left (Dict.mem_entries_iff _ _ _).mp

theorem settled_of_get {func : IrFunction} (found : (allocatedTypes isClass func.body).get var = some name) :
    Settled isClass func var name := by
  rcases get_allocatedTypes found with kept | temp
  · obtain ⟨listed, same⟩ := (get_merge _ var).2 name kept
    have copied {op : IrOp} (gives : assigned (temps isClass func.body) op = some (var, some name)) :
        Yields isClass func op var name := by
      unfold assigned at gives
      split at gives
      · rename_i src
        obtain ⟨rfl, temp⟩ := Prod.mk.inj (Option.some.inj gives)
        exact .inr ⟨src, rfl, get_temps temp⟩
      all_goals simp at gives
    obtain ⟨op, mem, gives⟩ := mem_filterMap.mp listed
    refine ⟨⟨op, mem, copied gives⟩, ?_⟩
    cases temp : (temps isClass func.body).get var with
    | some other =>
      obtain ⟨op, mem, made⟩ := get_temps temp
      exact .inl ⟨op, mem, other, made⟩
    | none =>
      refine .inr fun op mem writes => ?_
      obtain ⟨value, gives⟩ : ∃ value, assigned (temps isClass func.body) op = some (var, value) := by
        cases op with
        | assign dst src =>
          cases writes
          cases src <;> exact ⟨_, rfl⟩
        | binOp | fieldRead =>
          cases writes
          exact ⟨_, rfl⟩
        | call dst callee receiver args =>
          obtain rfl : dst = some var := writes
          exact ⟨none, by simp [assigned, temp]⟩
        | _ => cases writes
      obtain rfl : value = some name := same _ (mem_filterMap.mpr ⟨op, mem, gives⟩) rfl
      exact copied gives
  · obtain ⟨op, mem, made⟩ := get_temps temp
    exact ⟨⟨op, mem, .inl made⟩, .inl ⟨op, mem, name, made⟩⟩

end Lookups

section Soundness

variable {isClass : String → Bool} {interp : Exec.Interp} {classOf : Exec.Value → Option String}
variable {func : IrFunction} {written : List Var} {config : Exec.Config}

theorem run_settled (run : Run isClass interp classOf func (Orderly isClass func) written config)
    {var : Var} {name : String} (known : var ∈ written) (settled : Settled isClass func var name) :
    classOf (config.env var) = some name := by
  induction run generalizing var name with
  | entry env => cases known
  | step run met moved fresh ih =>
    rename_i written config next
    cases moved with
    | define fetched defines result =>
      rename_i op dst value
      rw [fetched, Option.bind_some, defines] at known
      obtain ⟨yields, used⟩ := met op fetched var name settled
      by_cases same : var = dst
      · subst same
        rcases yields defines with made | ⟨src, rfl, other, mem, made⟩
        · exact fresh op fetched var name made
        have source : Settled isClass func src name := ⟨⟨other, mem, .inl made⟩, .inl ⟨other, mem, name, made⟩⟩
        have read := (met _ fetched src name source).2 (.inl ⟨_, rfl⟩)
        change classOf (Exec.write config.env var value var) = _
        rw [Exec.write_self, result]
        exact ih read source
      change classOf (Exec.write config.env dst value var) = _
      rw [Exec.write_ne _ _ same]
      exact ih ((mem_cons.mp known).resolve_left same) settled
    | pass fetched defines =>
      rw [fetched, Option.bind_some, defines] at known
      exact ih known settled
    | taken fetched | fallthrough fetched | jump fetched =>
      rw [fetched] at known
      exact ih known settled

/-- A call on a variable of the map finds an object of the class while the execution is orderly. -/
theorem receiver_class (run : Run isClass interp classOf func (Orderly isClass func) written config)
    (met : Orderly isClass func written config) {dst : Option Var} {callee : String} {var : Var}
    {args : List Operand} (reached : func.body[config.pc]? = some (.call dst callee (some (.var var)) args))
    {name : String} (mapped : (allocatedTypes isClass func.body).get var = some name) :
    classOf (config.env var) = some name := by
  have settled := settled_of_get mapped
  exact run_settled run ((met _ reached var name settled).2 (.inr ⟨dst, callee, args, rfl⟩)) settled

end Soundness

def plainInterp : Exec.Interp := ⟨.str, fun _ => true⟩

/-- A method is called on a new object. -/
def newTask : IrFunction where
  body := [.call (some ⟨"__t0"⟩) "new Task" none [], .call none "start" (some (.var ⟨"__t0"⟩)) []]

def madeAs (value : Exec.Value) : Option String := if value = .object 1 then some "Task" else none

theorem receiver_class_new :
    madeAs (Exec.write (fun _ => .object 0) ⟨"__t0"⟩ (.object 1) ⟨"__t0"⟩) = some "Task" := by
  have made : construction (fun _ => false) (.call (some ⟨"__t0"⟩) "new Task" none []) =
      some (⟨"__t0"⟩, "Task") := by decide +kernel
  have settled (var : Var) (name : String) (known : Settled (fun _ => false) newTask var name) :
      var = ⟨"__t0"⟩ ∧ name = "Task" := by
    obtain ⟨⟨op, mem, gives⟩, -⟩ := known
    rcases mem_pair.mp mem with rfl | rfl
    · simpa [Yields, made, eq_comm] using gives
    · simp [Yields, construction] at gives
  have start : Orderly (fun _ => false) newTask [] ⟨0, fun _ => .object 0⟩ := by
    intro op fetched var name known
    obtain ⟨rfl, rfl⟩ := settled var name known
    cases fetched
    exact ⟨fun _ => .inl made, by simp [Uses]⟩
  have moved : Exec.Step plainInterp newTask ⟨0, fun _ => .object 0⟩
      ⟨1, Exec.write (fun _ => .object 0) ⟨"__t0"⟩ (.object 1)⟩ := .define rfl rfl trivial
  have mapped : (allocatedTypes (fun _ => false) newTask.body).get ⟨"__t0"⟩ = some "Task" := by
    decide +kernel
  refine receiver_class (.step (.entry _) start moved ?_) ?_ rfl mapped
  · intro op fetched dst name gives
    cases fetched
    simpa [made, madeAs, Exec.write, eq_comm] using gives
  intro op fetched var name known
  obtain ⟨rfl, rfl⟩ := settled var name known
  cases fetched
  exact ⟨nofun, fun _ => mem_cons_self⟩

/-- A variable is used before a construction is assigned to it. -/
def startTask : IrFunction where
  params := [⟨"task"⟩]
  body := [.call none "start" (some (.var ⟨"task"⟩)) [], .call (some ⟨"__t0"⟩) "new Task" none [],
    .assign ⟨"task"⟩ (.var ⟨"__t0"⟩)]

/-- The call finds the object that was passed in. -/
theorem receiver_passed : ¬ ∀ (isClass : String → Bool) (interp : Exec.Interp)
    (classOf : Exec.Value → Option String) (func : IrFunction) (written : List Var) (config : Exec.Config)
    (dst : Option Var) (callee : String) (var : Var) (args : List Operand) (name : String),
    Run isClass interp classOf func (fun _ _ => True) written config →
    func.body[config.pc]? = some (.call dst callee (some (.var var)) args) →
    (allocatedTypes isClass func.body).get var = some name → classOf (config.env var) = some name := by
  intro always
  have found := always (fun _ => false) plainInterp (fun _ => some "Job") startTask [] ⟨0, fun _ => .object 0⟩
    none "start" ⟨"task"⟩ [] "Task" (.entry _) rfl (by decide +kernel)
  exact absurd found (by decide)

end Codegraph.AllocatedTypes
