import Mathlib.Tactic

namespace Codegraph.Library

section

variable {State : Type}

/-- The loop repeats its body and keeps the last state when the fuel ends. -/
def loop (step : State → Option State) : Nat → State → State
  | 0, state => state
  | fuel + 1, state =>
    match step state with
    | none => state
    | some next => loop step fuel next

/-- The loop ends in a state in which the body has nothing left to do. -/
inductive Halts (step : State → Option State) : State → State → Prop
  | done {state : State} (ended : step state = none) : Halts step state state
  | next {state middle final : State} (moved : step state = some middle)
      (rest : Halts step middle final) : Halts step state final

namespace Halts

variable {step : State → Option State} {state final : State}

theorem ended (halts : Halts step state final) : step final = none := by
  induction halts with
  | done ended => exact ended
  | next _ _ ih => exact ih

/-- A property that every iteration keeps holds when the loop ends. -/
theorem preserves {Inv : State → Prop}
    (keeps : ∀ before after, Inv before → step before = some after → Inv after)
    (halts : Halts step state final) (start : Inv state) : Inv final := by
  induction halts with
  | done => exact start
  | next moved _ ih => exact ih (keeps _ _ start moved)

/-- A loop has one result. -/
theorem unique {first second : State} (left : Halts step state first)
    (right : Halts step state second) : first = second := by
  induction left with
  | done ended =>
    cases right with
    | done => rfl
    | next moved => rw [ended] at moved; contradiction
  | next moved _ ih =>
    cases right with
    | done ended => rw [ended] at moved; contradiction
    | next moved' rest' =>
      rw [moved] at moved'
      cases moved'
      exact ih rest'

end Halts

theorem halts_loop {step : State → Option State} {Inv : State → Prop} {measure : State → Nat}
    (keeps : ∀ before after, Inv before → step before = some after → Inv after)
    (falls : ∀ before after, Inv before → step before = some after → measure after < measure before)
    (fuel : Nat) (state : State) (start : Inv state) (enough : measure state ≤ fuel) :
    Halts step state (loop step fuel state) := by
  induction fuel generalizing state with
  | zero =>
    refine Halts.done ?_
    cases moved : step state with
    | none => rfl
    | some after => have := falls state after start moved; omega
  | succ fuel ih =>
    rw [loop]
    cases moved : step state with
    | none => exact Halts.done moved
    | some after =>
      have smaller := falls state after start moved
      exact Halts.next moved (ih after (keeps state after start moved) (by omega))

/-- A worklist loop pays for queue growth with the capacity its state still has. -/
def worklistMeasure (tasks capacity queued : Nat) : Nat := capacity * (tasks + 1) + queued

/-- An iteration that changes nothing shortens the queue. -/
theorem worklistMeasure_idle {tasks capacity capacity' queued queued' : Nat}
    (capacitySame : capacity' ≤ capacity) (shorter : queued' < queued) :
    worklistMeasure tasks capacity' queued' < worklistMeasure tasks capacity queued := by
  have := Nat.mul_le_mul_right (tasks + 1) capacitySame
  simp only [worklistMeasure]
  omega

/-- An iteration that changes the state may queue every task again. -/
theorem worklistMeasure_productive {tasks capacity capacity' queued queued' : Nat}
    (spent : capacity' < capacity) (bounded : queued' ≤ queued + tasks) :
    worklistMeasure tasks capacity' queued' < worklistMeasure tasks capacity queued := by
  have := Nat.mul_le_mul_right (tasks + 1) (Nat.succ_le_of_lt spent)
  rw [Nat.succ_mul] at this
  simp only [worklistMeasure]
  omega

theorem sum_set_lt {Entry : Type} (size : Entry → Nat) (entries : List Entry) (position : Nat)
    (inside : position < entries.length) (entry : Entry)
    (smaller : size entry < size entries[position]) :
    ((entries.set position entry).map size).sum < (entries.map size).sum := by
  induction entries generalizing position with
  | nil => simp at inside
  | cons head rest ih =>
    cases position with
    | zero => simpa using smaller
    | succ position => simpa using ih position (by simpa using inside) (by simpa using smaller)

theorem sum_set_le {Entry : Type} (size : Entry → Nat) (entries : List Entry) (position : Nat)
    (inside : position < entries.length) (entry : Entry)
    (noLarger : size entry ≤ size entries[position]) :
    ((entries.set position entry).map size).sum ≤ (entries.map size).sum := by
  induction entries generalizing position with
  | nil => simp at inside
  | cons head rest ih =>
    cases position with
    | zero => simpa using noLarger
    | succ position => simpa using ih position (by simpa using inside) (by simpa using noLarger)

end

section

variable {State : Type}

/-- A round goes on with a state or leaves the loop with one. -/
inductive Round (State : Type) where
  | next (state : State)
  | done (state : State)

/-- The loop has no result when a round fails or the fuel ends. -/
def whileLoop (round : State → Option (Round State)) : Nat → State → Option State
  | 0, _ => none
  | fuel + 1, state =>
    match round state with
    | none => none
    | some (.next state) => whileLoop round fuel state
    | some (.done state) => some state

theorem whileLoop_spec {round : State → Option (Round State)} (cost : State → Nat) (Inv Post : State → Prop)
    (rounds : ∀ state, Inv state →
      (∃ next, round state = some (.next next) ∧ Inv next ∧ cost next < cost state) ∨
        ∃ last, round state = some (.done last) ∧ Post last)
    {fuel : Nat} {state : State} (start : Inv state) (enough : cost state < fuel) :
    ∃ last, whileLoop round fuel state = some last ∧ Post last := by
  induction fuel generalizing state with
  | zero => exact absurd enough (Nat.not_lt_zero _)
  | succ fuel ih =>
    unfold whileLoop
    rcases rounds state start with ⟨next, moved, kept, less⟩ | ⟨last, ended, post⟩
    · rw [moved]
      exact ih kept (by omega)
    · rw [ended]
      exact ⟨last, rfl, post⟩

end

end Codegraph.Library
