import Mathlib.Data.List.Basic
import Mathlib.Tactic

namespace Codegraph.Nesting

/-- A failed statement changes nothing, or SQLite ends the whole transaction by itself. -/
inductive Fate where
  | ok
  | failed
  | rolledBack
deriving DecidableEq

/-- A savepoint outside of a transaction opens one that it also ends. -/
structure Conn (Content : Type) where
  content : Content
  begun : Option Content
  savepoints : List (Nat × Content)
  txnDepth : Nat
  fates : List Fate

namespace Conn

variable {Content : Type}

def InTransaction (conn : Conn Content) : Prop := conn.begun.isSome ∨ conn.savepoints ≠ []

instance (conn : Conn Content) : Decidable conn.InTransaction :=
  inferInstanceAs (Decidable (_ ∨ ¬_ = []))

/-- The open transaction is undone and ended. -/
def abort (conn : Conn Content) : Conn Content :=
  { conn with
    content := conn.begun.getD ((conn.savepoints.getLast?.map Prod.snd).getD conn.content)
    begun := none
    savepoints := [] }

/-- A statement meets the next fate. -/
def execute (statement : Conn Content → Bool × Conn Content) (conn : Conn Content) : Bool × Conn Content :=
  let next := { conn with fates := conn.fates.tail }
  match conn.fates.headD .ok with
  | .ok => statement next
  | .failed => (false, next)
  | .rolledBack => (false, next.abort)

def begin : Conn Content → Bool × Conn Content := execute fun conn =>
  if conn.InTransaction then (false, conn) else (true, { conn with begun := some conn.content })

def savepoint (name : Nat) : Conn Content → Bool × Conn Content := execute fun conn =>
  (true, { conn with savepoints := (name, conn.content) :: conn.savepoints })

def commit : Conn Content → Bool × Conn Content := execute fun conn =>
  if conn.InTransaction then (true, { conn with begun := none, savepoints := [] }) else (false, conn)

def rollback : Conn Content → Bool × Conn Content := execute fun conn =>
  if conn.InTransaction then (true, conn.abort) else (false, conn)

/-- The newest savepoint of the name and all later ones are dropped. -/
def dropSavepoint (name : Nat) (conn : Conn Content) : Bool × Conn Content :=
  match conn.savepoints.dropWhile fun saved => saved.1 ≠ name with
  | [] => (false, conn)
  | _ :: older => (true, { conn with savepoints := older })

def restoreSavepoint (name : Nat) (conn : Conn Content) : Bool × Conn Content :=
  match conn.savepoints.dropWhile fun saved => saved.1 ≠ name with
  | [] => (false, conn)
  | saved :: older => (true, { conn with content := saved.2, savepoints := saved :: older })

def release (name : Nat) : Conn Content → Bool × Conn Content := execute (dropSavepoint name)

def rollbackTo (name : Nat) : Conn Content → Bool × Conn Content := execute (restoreSavepoint name)

def enter (conn : Conn Content) : Bool × Conn Content :=
  if conn.txnDepth = 0 then begin conn else savepoint conn.txnDepth conn

/-- The statements of the end of a call, whose second one only runs after the first. -/
def leave (ok : Bool) (conn : Conn Content) : Bool × Conn Content :=
  if ok then if conn.txnDepth = 0 then commit conn else release conn.txnDepth conn
  else if conn.txnDepth = 0 then rollback conn
  else
    match rollbackTo conn.txnDepth conn with
    | (true, conn) => release conn.txnDepth conn
    | (false, conn) => (false, conn)

/-- What the closure leaves when its call returns to it. -/
def transaction (body : Conn Content → Bool × Conn Content) (conn : Conn Content) : Bool × Conn Content :=
  match conn.enter with
  | (false, conn) => (false, conn)
  | (true, entered) =>
    let (ok, ran) := body { entered with txnDepth := conn.txnDepth + 1 }
    let (left, after) := leave ok { ran with txnDepth := conn.txnDepth }
    (ok && left, after)

end Conn

/-- A closure reads and writes the content, calls transactions, and ends with a result. -/
inductive Closure (Content : Type) where
  | done (ok : Bool)
  | access (change : Content → Content) (next : Content → Closure Content)
  | nested (inner : Closure Content) (next : Bool → Closure Content)

namespace Closure

variable {Content : Type}

def run : Closure Content → Conn Content → Bool × Conn Content
  | .done ok, conn => (ok, conn)
  | .access change next, conn => (next conn.content).run { conn with content := change conn.content }
  | .nested inner next, conn =>
    let (ok, after) := conn.transaction inner.run
    (next ok).run after

/-- The connection in which the closure of a call runs. -/
def within (conn : Conn Content) : Conn Content := { conn.enter.2 with txnDepth := conn.txnDepth + 1 }

/-- All nested calls of a run meet the condition. -/
def EachCall (meets : Conn Content → Closure Content → (Bool → Closure Content) → Prop) :
    Closure Content → Conn Content → Prop
  | .done _, _ => True
  | .access change next, conn =>
    (next conn.content).EachCall meets { conn with content := change conn.content }
  | .nested inner next, conn =>
    meets conn inner next ∧ (conn.enter.1 = true → inner.EachCall meets (within conn)) ∧
      (next (conn.transaction inner.run).1).EachCall meets (conn.transaction inner.run).2

/-- The connection when a call takes its last statements. -/
def leaving (inner : Closure Content) (conn : Conn Content) : Conn Content :=
  { (inner.run (within conn)).2 with txnDepth := conn.txnDepth }

/-- The statements of the call take effect, or only its savepoint is refused. -/
def Clean (conn : Conn Content) (inner : Closure Content) : Prop :=
  if conn.enter.1 then ((leaving inner conn).leave (inner.run (within conn)).1).1 = true
  else conn.fates.head? = some .failed

/-- The caller of a call whose statements fail hands the error on. -/
def Handled (conn : Conn Content) (inner : Closure Content) (next : Bool → Closure Content) : Prop :=
  next false = .done false ∨ Clean conn inner

/-- An error that the caller does not hand on has undone the writes of its call. -/
def Undone (conn : Conn Content) (inner : Closure Content) (next : Bool → Closure Content) : Prop :=
  (conn.transaction inner.run).1 = false → next false ≠ .done false →
    (conn.transaction inner.run).2.content = conn.content

end Closure

namespace Conn

variable {Content : Type}

structure Idle (conn : Conn Content) : Prop where
  begun : conn.begun = none
  savepoints : conn.savepoints = []
  txnDepth : conn.txnDepth = 0

/-- The transaction is still open at a depth, above the savepoints of its callers. -/
structure Live (start : Content) (callers : List (Nat × Content)) (depth : Nat) (conn : Conn Content) : Prop where
  begun : conn.begun = some start
  txnDepth : conn.txnDepth = depth
  savepoints : ∃ own, conn.savepoints = own ++ callers ∧ ∀ saved ∈ own, depth ≤ saved.1

/-- A call at a depth is about to end, above its own savepoint. -/
structure Closing (start : Content) (callers : List (Nat × Content)) (depth : Nat) (saved : Content)
    (conn : Conn Content) : Prop where
  begun : conn.begun = some start
  txnDepth : conn.txnDepth = depth
  savepoints : ∃ own, conn.savepoints = own ++ (depth, saved) :: callers ∧ ∀ entry ∈ own, depth + 1 ≤ entry.1

/-- SQLite has undone the whole transaction. -/
structure Ended (start : Content) (depth : Nat) (conn : Conn Content) : Prop where
  begun : conn.begun = none
  savepoints : conn.savepoints = []
  txnDepth : conn.txnDepth = depth
  content : conn.content = start

section Statements

variable {start saved : Content} {callers : List (Nat × Content)} {depth : Nat} {conn : Conn Content}

theorem execute_cases (statement : Conn Content → Bool × Conn Content) (conn : Conn Content) :
    execute statement conn = statement { conn with fates := conn.fates.tail } ∨
      execute statement conn = (false, { conn with fates := conn.fates.tail }) ∨
      execute statement conn = (false, { conn with fates := conn.fates.tail }.abort) := by
  unfold execute
  cases conn.fates.headD .ok with
  | ok => exact .inl rfl
  | failed => exact .inr (.inl rfl)
  | rolledBack => exact .inr (.inr rfl)

theorem Live.closing (live : Live start ((depth, saved) :: callers) (depth + 1) conn) :
    Closing start callers depth saved { conn with txnDepth := depth } := ⟨live.begun, rfl, live.savepoints⟩

theorem Closing.next (closing : Closing start callers depth saved conn) (fates : List Fate) :
    Closing start callers depth saved { conn with fates := fates } :=
  ⟨closing.begun, closing.txnDepth, closing.savepoints⟩

theorem Closing.live (closing : Closing start callers depth saved conn) : Live start callers depth conn := by
  obtain ⟨own, savepoints, above⟩ := closing.savepoints
  refine ⟨closing.begun, closing.txnDepth, own ++ [(depth, saved)], by rw [savepoints]; simp, ?_⟩
  intro entry mem
  rcases List.mem_append.mp mem with mem | mem
  · exact Nat.le_of_succ_le (above entry mem)
  · rw [List.mem_singleton.mp mem]

theorem Live.of_savepoints {before : Conn Content} (live : Live start callers depth before)
    (later : Live start before.savepoints depth conn) : Live start callers depth conn := by
  obtain ⟨own, savepoints, above⟩ := live.savepoints
  obtain ⟨own', savepoints', above'⟩ := later.savepoints
  refine ⟨later.begun, later.txnDepth, own' ++ own, by rw [savepoints', savepoints, List.append_assoc], ?_⟩
  exact List.forall_mem_append.mpr ⟨above', above⟩

theorem Idle.abort (idle : conn.Idle) : conn.abort.Idle ∧ conn.abort.content = conn.content :=
  ⟨⟨rfl, rfl, idle.txnDepth⟩, by rw [Conn.abort, idle.begun, idle.savepoints]; rfl⟩

theorem Idle.closed (idle : conn.Idle) : ¬conn.InTransaction := by
  rintro (begun | savepoints)
  · rw [idle.begun] at begun
    cases begun
  · exact savepoints idle.savepoints

theorem head?_of_failed {fates : List Fate} (failed : fates.headD .ok = .failed) : fates.head? = some .failed := by
  cases fates with
  | nil => cases failed
  | cons fate rest => exact congrArg some failed

theorem Live.abort (live : Live start callers depth conn) : Ended start depth conn.abort :=
  ⟨rfl, rfl, live.txnDepth, by rw [Conn.abort, live.begun]; rfl⟩

theorem Ended.abort (ended : Ended start depth conn) : Ended start depth conn.abort :=
  ⟨rfl, rfl, ended.txnDepth, by rw [Conn.abort, ended.begun, ended.savepoints]; exact ended.content⟩

section

variable (closing : Closing start callers depth saved conn)
include closing

/-- The savepoint of the call is below those that its closure left. -/
theorem Closing.dropWhile :
    conn.savepoints.dropWhile (fun entry => entry.1 ≠ depth) = (depth, saved) :: callers := by
  obtain ⟨own, savepoints, above⟩ := closing.savepoints
  rw [savepoints, List.dropWhile_append_of_pos fun entry mem => by
    simpa using ne_of_gt (above entry mem)]
  exact List.dropWhile_cons_of_neg (by simp)

theorem Closing.execute (statement : Conn Content → Bool × Conn Content) :
    Conn.execute statement conn = statement { conn with fates := conn.fates.tail } ∨
      (Conn.execute statement conn).1 = false ∧ (Live start callers depth (Conn.execute statement conn).2 ∨
        Ended start depth (Conn.execute statement conn).2) := by
  rcases execute_cases statement conn with same | same | same
  · exact .inl same
  · rw [same]
    exact .inr ⟨rfl, .inl (closing.next _).live⟩
  · rw [same]
    exact .inr ⟨rfl, .inr (closing.next _).live.abort⟩

theorem Closing.release : ((conn.release depth).1 = true ∧ Live start callers depth (conn.release depth).2 ∧
        (conn.release depth).2.content = conn.content) ∨
      (conn.release depth).1 = false ∧
        (Live start callers depth (conn.release depth).2 ∨ Ended start depth (conn.release depth).2) := by
  refine (closing.execute (dropSavepoint depth)).imp_left fun same => ?_
  have dropped : dropSavepoint depth { conn with fates := conn.fates.tail } =
      (true, { conn with fates := conn.fates.tail, savepoints := callers }) := by
    rw [dropSavepoint, (closing.next conn.fates.tail).dropWhile]
  rw [Conn.release, same, dropped]
  exact ⟨rfl, ⟨closing.begun, closing.txnDepth, [], rfl, by simp⟩, rfl⟩

theorem Closing.leave (positive : depth ≠ 0) (ok : Bool) :
    ((conn.leave ok).1 = true ∧ Live start callers depth (conn.leave ok).2 ∧
        (ok = false → (conn.leave ok).2.content = saved)) ∨
      (conn.leave ok).1 = false ∧
        (Live start callers depth (conn.leave ok).2 ∨ Ended start depth (conn.leave ok).2) := by
  obtain rfl := closing.txnDepth
  rw [Conn.leave, if_neg positive, if_neg positive]
  cases ok with
  | true =>
    rw [if_pos rfl]
    exact closing.release.imp_left fun released => ⟨released.1, released.2.1, fun same => nomatch same⟩
  | false =>
    rw [if_neg Bool.false_ne_true]
    rcases closing.execute (restoreSavepoint conn.txnDepth) with same | ⟨failed, state⟩
    · have restored : restoreSavepoint conn.txnDepth { conn with fates := conn.fates.tail } =
          (true, { conn with fates := conn.fates.tail, content := saved, savepoints := (conn.txnDepth, saved) :: callers }) := by
        rw [restoreSavepoint, (closing.next conn.fates.tail).dropWhile]
      rw [rollbackTo, same, restored]
      have closing' : Closing start callers conn.txnDepth saved
          { conn with fates := conn.fates.tail, content := saved, savepoints := (conn.txnDepth, saved) :: callers } :=
        ⟨closing.begun, closing.txnDepth, [], rfl, by simp⟩
      refine Or.imp_left (fun released => ?_) closing'.release
      exact ⟨released.1, released.2.1, fun _ => released.2.2⟩
    rw [rollbackTo]
    cases result : Conn.execute (restoreSavepoint conn.txnDepth) conn with
    | mk worked after =>
      rw [result] at failed state
      cases failed
      exact .inr ⟨rfl, state⟩

end

theorem Ended.leave (ended : Ended start depth conn) (positive : depth ≠ 0) :
    (conn.leave false).1 = false ∧ Ended start depth (conn.leave false).2 := by
  rw [Conn.leave, ended.txnDepth, if_neg positive, if_neg Bool.false_ne_true, if_neg positive]
  have gone : restoreSavepoint depth { conn with fates := conn.fates.tail } =
      (false, { conn with fates := conn.fates.tail }) := by
    rw [restoreSavepoint, ended.savepoints]
    rfl
  have next : Ended start depth { conn with fates := conn.fates.tail } :=
    ⟨ended.begun, ended.savepoints, ended.txnDepth, ended.content⟩
  unfold rollbackTo
  rcases execute_cases (restoreSavepoint depth) conn with same | same | same
  · rw [same, gone]
    exact ⟨rfl, next⟩
  · rw [same]
    exact ⟨rfl, next⟩
  · rw [same]
    exact ⟨rfl, next.abort⟩

end Statements

end Conn

namespace Closure

open Conn List

variable {Content : Type} {start : Content} {callers : List (Nat × Content)} {depth : Nat} {conn : Conn Content}
  {inner : Closure Content}

/-- What a closure or a nested call leaves of the open transaction. -/
def Leaves (start : Content) (callers : List (Nat × Content)) (depth : Nat) (out : Bool × Conn Content) : Prop :=
  Live start callers depth out.2 ∨ out.1 = false ∧ Ended start depth out.2

theorem transaction_of_entered (entered : conn.enter.1 = true) : conn.transaction inner.run =
    ((inner.run (within conn)).1 && ((leaving inner conn).leave (inner.run (within conn)).1).1,
      ((leaving inner conn).leave (inner.run (within conn)).1).2) := by
  unfold Conn.transaction leaving within
  cases result : conn.enter with
  | mk began opened =>
    rw [result] at entered
    cases entered
    rfl

theorem transaction_of_refused (refused : conn.enter.1 = false) :
    conn.transaction inner.run = (false, conn.enter.2) := by
  unfold Conn.transaction
  cases result : conn.enter with
  | mk began opened =>
    rw [result] at refused
    cases refused
    rfl

theorem enter_cases (live : Live start callers depth conn) (positive : depth ≠ 0) :
    (conn.enter.1 = true ∧ Live start ((depth, conn.content) :: conn.savepoints) (depth + 1) (within conn)) ∨
      conn.enter.1 = false ∧ (Live start callers depth conn.enter.2 ∧ conn.enter.2.content = conn.content ∨
        Ended start depth conn.enter.2 ∧ conn.fates.head? ≠ some .failed) := by
  obtain ⟨own, savepoints, above⟩ := live.savepoints
  obtain rfl := live.txnDepth
  rw [within, Conn.enter, if_neg positive]
  unfold savepoint execute
  have next : Live start callers conn.txnDepth { conn with fates := conn.fates.tail } :=
    ⟨live.begun, rfl, own, savepoints, above⟩
  cases fate : conn.fates.headD .ok with
  | ok => exact .inl ⟨rfl, live.begun, rfl, [], rfl, by simp⟩
  | failed => exact .inr ⟨rfl, .inl ⟨next, rfl⟩⟩
  | rolledBack =>
    refine .inr ⟨rfl, .inr ⟨next.abort, fun failed => ?_⟩⟩
    rw [headD_eq_head?_getD, failed] at fate
    cases fate

/-- A nested call whose statements take effect restores the content when it fails. -/
theorem transaction_leaves (live : Live start callers depth conn) (positive : depth ≠ 0)
    (inside : conn.enter.1 = true → Live start ((depth, conn.content) :: conn.savepoints) (depth + 1) (within conn) →
      Leaves start ((depth, conn.content) :: conn.savepoints) (depth + 1) (inner.run (within conn))) :
    Leaves start callers depth (conn.transaction inner.run) ∧ (Clean conn inner →
      Live start callers depth (conn.transaction inner.run).2 ∧ ((conn.transaction inner.run).1 = false →
        (conn.transaction inner.run).2.content = conn.content)) := by
  unfold Clean
  rcases enter_cases live positive with ⟨entered, opened⟩ | ⟨refused, state⟩
  · rw [transaction_of_entered entered, if_pos entered]
    obtain rfl := live.txnDepth
    rcases inside entered opened with ran | ⟨failed, ended⟩
    · rcases ran.closing.leave positive (inner.run (within conn)).1 with ⟨worked, left, restored⟩ | ⟨broken, state⟩
      · refine ⟨.inl (live.of_savepoints left), fun _ => ⟨live.of_savepoints left, fun result => restored ?_⟩⟩
        have worked' : ((leaving inner conn).leave (inner.run (within conn)).1).1 = true := worked
        rwa [worked', Bool.and_true] at result
      have broken' : ((leaving inner conn).leave (inner.run (within conn)).1).1 = false := broken
      rw [broken', Bool.and_false]
      exact ⟨state.imp live.of_savepoints fun ended => ⟨rfl, ended⟩, fun clean => nomatch clean⟩
    have ended' : Ended start conn.txnDepth (leaving inner conn) :=
      ⟨ended.begun, ended.savepoints, rfl, ended.content⟩
    obtain ⟨broken, ended⟩ := ended'.leave positive
    rw [failed, Bool.false_and, broken]
    exact ⟨.inr ⟨rfl, ended⟩, fun clean => nomatch clean⟩
  rw [transaction_of_refused refused, if_neg (by rw [refused]; exact Bool.false_ne_true)]
  rcases state with ⟨left, content⟩ | ⟨ended, apart⟩
  · exact ⟨.inl left, fun _ => ⟨left, fun _ => content⟩⟩
  · exact ⟨.inr ⟨rfl, ended⟩, fun clean => absurd clean apart⟩

theorem run_leaves (positive : depth ≠ 0) (live : Live start callers depth conn) (closure : Closure Content)
    (handled : closure.EachCall Handled conn) :
    Leaves start callers depth (closure.run conn) ∧ closure.EachCall Undone conn := by
  induction closure generalizing conn callers depth with
  | done ok => exact ⟨.inl live, trivial⟩
  | access change next ih =>
    exact ih conn.content positive ⟨live.begun, live.txnDepth, live.savepoints⟩ handled
  | nested inner next inside after =>
    obtain ⟨meets, handled, later⟩ := handled
    have within' (entered : conn.enter.1 = true) (live : Live start ((depth, conn.content) :: conn.savepoints)
        (depth + 1) (within conn)) := inside (Nat.succ_ne_zero depth) live (handled entered)
    obtain ⟨leaves, clean⟩ := transaction_leaves live positive fun entered live => (within' entered live).1
    have undone (entered : conn.enter.1 = true) : inner.EachCall Undone (within conn) := by
      rcases enter_cases live positive with ⟨-, opened⟩ | ⟨refused, -⟩
      · exact (within' entered opened).2
      · rw [refused] at entered
        cases entered
    rcases meets with passes | clean'
    · have handsOn : Undone conn inner next := fun _ swallows => absurd passes swallows
      rcases leaves with left | ⟨failed, ended⟩
      · obtain ⟨leaves, rest⟩ := after _ positive left later
        exact ⟨leaves, handsOn, undone, rest⟩
      change Leaves start callers depth ((next (conn.transaction inner.run).1).run _) ∧
        Undone conn inner next ∧ _ ∧ (next (conn.transaction inner.run).1).EachCall Undone _
      rw [failed, passes]
      exact ⟨.inr ⟨rfl, ended⟩, handsOn, undone, trivial⟩
    obtain ⟨left, restored⟩ := clean clean'
    obtain ⟨leaves, rest⟩ := after _ positive left later
    exact ⟨leaves, fun failed _ => restored failed, undone, rest⟩

/-- No nested call loses an error of its statements, and the last statement of the outermost call
does not leave its transaction open. -/
def Sound (conn : Conn Content) (inner : Closure Content) : Prop :=
  conn.enter.1 = true → inner.EachCall Handled (within conn) ∧
    ((leaving inner conn).InTransaction → (leaving inner conn).fates.head? ≠ some .failed)

/-- An outermost call leaves no transaction open, and a failed one no write. -/
structure Kept (conn : Conn Content) (inner : Closure Content) : Prop where
  idle : Idle (conn.transaction inner.run).2
  restored : (conn.transaction inner.run).1 = false → (conn.transaction inner.run).2.content = conn.content
  undone : conn.enter.1 = true → inner.EachCall Undone (within conn)
  begins : (conn.transaction inner.run).2.fates.headD .ok = .ok → (conn.transaction inner.run).2.enter.1 = true

theorem Idle.enter (idle : conn.Idle) : (conn.enter.1 = true ∧ Live conn.content [] 1 (within conn)) ∨
    conn.enter.1 = false ∧ conn.fates.headD .ok ≠ .ok ∧ conn.enter.2.Idle ∧ conn.enter.2.content = conn.content := by
  rw [within, Conn.enter, if_pos idle.txnDepth]
  have next : { conn with fates := conn.fates.tail }.Idle := ⟨idle.begun, idle.savepoints, idle.txnDepth⟩
  have closed := next.closed
  unfold begin execute
  cases conn.fates.headD .ok with
  | ok =>
    dsimp only
    rw [if_neg closed]
    exact .inl ⟨rfl, rfl, congrArg Nat.succ idle.txnDepth, [], idle.savepoints, by simp⟩
  | failed => exact .inr ⟨rfl, nofun, next, rfl⟩
  | rolledBack => exact .inr ⟨rfl, nofun, next.abort⟩

/-- The last statement of an outermost call ends its transaction. -/
theorem Live.leave (live : Live start [] 1 conn) (ends : conn.fates.head? ≠ some .failed) (ok : Bool) :
    ({ conn with txnDepth := 0 }.leave ok).2.Idle ∧
      ((ok && ({ conn with txnDepth := 0 }.leave ok).1) = false →
        ({ conn with txnDepth := 0 }.leave ok).2.content = start) := by
  have open' : { conn with txnDepth := 0, fates := conn.fates.tail }.InTransaction :=
    .inl (by rw [live.begun]; rfl)
  have undone : { conn with txnDepth := 0, fates := conn.fates.tail }.abort.content = start := by
    rw [Conn.abort, live.begun]
    rfl
  unfold Conn.leave commit rollback execute
  cases fate : conn.fates.headD .ok with
  | ok =>
    dsimp only
    rw [if_pos open', if_pos open']
    cases ok with
    | true => exact ⟨⟨rfl, rfl, rfl⟩, fun failed => nomatch failed⟩
    | false => exact ⟨⟨rfl, rfl, rfl⟩, fun _ => undone⟩
  | failed => exact absurd (head?_of_failed fate) ends
  | rolledBack => cases ok <;> exact ⟨⟨rfl, rfl, rfl⟩, fun _ => undone⟩

theorem Ended.leave_outermost (ended : Ended start 1 conn) :
    ({ conn with txnDepth := 0 }.leave false).2.Idle ∧ ({ conn with txnDepth := 0 }.leave false).2.content = start := by
  have next : { conn with txnDepth := 0, fates := conn.fates.tail }.Idle := ⟨ended.begun, ended.savepoints, rfl⟩
  have closed := next.closed
  unfold Conn.leave rollback execute
  cases conn.fates.headD .ok with
  | ok =>
    dsimp only
    rw [if_neg closed]
    exact ⟨next, ended.content⟩
  | failed => exact ⟨next, ended.content⟩
  | rolledBack => exact ⟨next.abort.1, next.abort.2.trans ended.content⟩

theorem transaction_kept (idle : conn.Idle) (sound : Sound conn inner) : Kept conn inner := by
  have result : (conn.transaction inner.run).2.Idle ∧ ((conn.transaction inner.run).1 = false →
      (conn.transaction inner.run).2.content = conn.content) ∧
        (conn.enter.1 = true → inner.EachCall Undone (within conn)) := by
    rcases Idle.enter idle with ⟨entered, live⟩ | ⟨refused, -, idle, content⟩
    · obtain ⟨handled, ends⟩ := sound entered
      obtain ⟨leaves, undone⟩ := run_leaves Nat.one_ne_zero live inner handled
      rw [transaction_of_entered entered]
      unfold leaving at ends ⊢
      rw [idle.txnDepth] at ends ⊢
      rcases leaves with live | ⟨failed, ended⟩
      · obtain ⟨idle, restored⟩ := Live.leave live (ends (.inl (by rw [live.begun]; rfl))) (inner.run (within conn)).1
        exact ⟨idle, restored, fun _ => undone⟩
      · rw [failed]
        exact ⟨(Ended.leave_outermost ended).1, fun _ => (Ended.leave_outermost ended).2, fun _ => undone⟩
    · rw [transaction_of_refused refused, refused]
      exact ⟨idle, fun _ => content, fun entered => nomatch entered⟩
  refine ⟨result.1, result.2.1, result.2.2, fun fate => ?_⟩
  rcases Idle.enter result.1 with ⟨entered, -⟩ | ⟨-, apart, -⟩
  · exact entered
  · exact absurd fate apart

/-- The calls of a run one after another meet the condition. -/
def EachOutermost (meets : Conn Content → Closure Content → Prop) : List (Closure Content) → Conn Content → Prop
  | [], _ => True
  | inner :: rest, conn => meets conn inner ∧ EachOutermost meets rest (conn.transaction inner.run).2

/-- In every run whose calls are sound, each outermost call keeps the connection right. -/
theorem transactions_kept (content : Content) (fates : List Fate) (calls : List (Closure Content))
    (sound : EachOutermost Sound calls ⟨content, none, [], 0, fates⟩) :
    EachOutermost Kept calls ⟨content, none, [], 0, fates⟩ := by
  have run (calls : List (Closure Content)) (conn : Conn Content) (idle : conn.Idle)
      (sound : EachOutermost Sound calls conn) : EachOutermost Kept calls conn := by
    induction calls generalizing conn with
    | nil => trivial
    | cons inner rest ih =>
      have kept := transaction_kept idle sound.1
      exact ⟨kept, ih _ kept.idle sound.2⟩
  exact run calls _ ⟨rfl, rfl, rfl⟩ sound

end Closure

/-- One write in a nested call that fails, and one after it. -/
def swallowing : Closure Nat :=
  .nested (.access (· + 1) fun _ => .done false) fun _ => .access (· + 10) fun _ => .done true

theorem transactions_kept_swallowing : Closure.EachOutermost Closure.Kept [swallowing] ⟨0, none, [], 0, []⟩ :=
  Closure.transactions_kept 0 [] [swallowing]
    ⟨fun _ => ⟨⟨.inr rfl, fun _ => trivial, trivial⟩, fun _ => nofun⟩, trivial⟩

/-- A refused commit leaves its transaction open, so that the next call cannot begin. -/
theorem transaction_not_kept :
    ¬Closure.Kept (⟨0, none, [], 0, [.ok, .failed]⟩ : Conn Nat) (.access (· + 1) fun _ => .done true) := by
  intro kept
  have open' := kept.idle.begun
  cases open'

end Codegraph.Nesting
