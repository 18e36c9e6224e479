import Mathlib.Tactic

namespace Codegraph.Library

open List

variable {State Task : Type}

section Model

variable (relax : State → Task → Option State)

/-- The flag tells whether a task changed the state. -/
def attempt (current : State × Bool) (task : Task) : State × Bool :=
  match relax current.1 task with
  | none => current
  | some next => (next, true)

/-- The tasks run one after the other. -/
def launch (order : List Task) (state : State) : State × Bool :=
  order.foldl (attempt relax) (state, false)

/-- The launches end with the first one that changes nothing, and each has its own order. -/
def settle (orders : Nat → List Task) : Nat → Nat → State → Option State
  | 0, _, _ => none
  | fuel + 1, number, state =>
    let after := launch relax (orders number) state
    if after.2 then settle orders fuel (number + 1) after.1 else some after.1

end Model

section Launches

variable {relax : State → Task → Option State} {Inv : State → Prop} {cost : State → Nat}

theorem attempt_none {current : State × Bool} {task : Task} (idle : relax current.1 task = none) :
    attempt relax current task = current := by
  rw [attempt, idle]

theorem attempt_some {current : State × Bool} {task : Task} {next : State}
    (moved : relax current.1 task = some next) : attempt relax current task = (next, true) := by
  rw [attempt, moved]

section

variable (keeps : ∀ state task next, Inv state → relax state task = some next → Inv next)
include keeps

/-- A set flag stays set, and the cost has fallen since it was set. -/
theorem launch_changed
    (falls : ∀ state task next, Inv state → relax state task = some next → cost next < cost state)
    (order : List Task) (state : State) (valid : Inv state) :
    let after := order.foldl (attempt relax) (state, true)
    Inv after.1 ∧ after.2 = true ∧ cost after.1 ≤ cost state := by
  induction order generalizing state with
  | nil => exact ⟨valid, rfl, le_rfl⟩
  | cons task rest ih =>
    rw [foldl_cons]
    cases moved : relax state task with
    | none =>
      rw [attempt_none moved]
      exact ih state valid
    | some next =>
      rw [attempt_some moved]
      obtain ⟨valid', flag, lower⟩ := ih next (keeps state task next valid moved)
      exact ⟨valid', flag, lower.trans (falls state task next valid moved).le⟩

theorem launch_spec
    (falls : ∀ state task next, Inv state → relax state task = some next → cost next < cost state)
    (order : List Task) (state : State) (valid : Inv state) :
    ((launch relax order state).2 = true ∧ Inv (launch relax order state).1 ∧
        cost (launch relax order state).1 < cost state) ∨
      (launch relax order state = (state, false) ∧ ∀ task ∈ order, relax state task = none) := by
  unfold launch
  induction order with
  | nil => exact .inr ⟨rfl, fun task mem => absurd mem not_mem_nil⟩
  | cons task rest ih =>
    rw [foldl_cons]
    cases moved : relax state task with
    | none =>
      rw [attempt_none moved]
      rcases ih with changed | ⟨same, idle⟩
      · exact .inl changed
      refine .inr ⟨same, ?_⟩
      intro other mem
      rcases mem_cons.mp mem with rfl | mem
      · exact moved
      · exact idle other mem
    | some next =>
      rw [attempt_some moved]
      obtain ⟨valid', flag, lower⟩ :=
        launch_changed keeps falls rest next (keeps state task next valid moved)
      exact .inl ⟨flag, valid', lower.trans_lt (falls state task next valid moved)⟩

end

theorem settle_spec (relax : State → Task → Option State)
    (keeps : ∀ state task next, Inv state → relax state task = some next → Inv next)
    (falls : ∀ state task next, Inv state → relax state task = some next → cost next < cost state)
    {orders : Nat → List Task} {tasks : List Task} (complete : ∀ number, tasks ⊆ orders number)
    (fuel number : Nat) (state : State) (valid : Inv state) (enough : cost state < fuel) :
    ∃ final, settle relax orders fuel number state = some final ∧ Inv final ∧
      ∀ task ∈ tasks, relax final task = none := by
  induction fuel generalizing number state with
  | zero => exact absurd enough (Nat.not_lt_zero _)
  | succ fuel ih =>
    unfold settle
    rcases launch_spec keeps falls (orders number) state valid with
      ⟨changed, valid', lower⟩ | ⟨same, idle⟩
    · rw [if_pos changed]
      exact ih (number + 1) _ valid' (by omega)
    rw [same, if_neg Bool.false_ne_true]
    exact ⟨state, rfl, valid, fun task mem => idle task (complete number mem)⟩

end Launches

end Codegraph.Library
