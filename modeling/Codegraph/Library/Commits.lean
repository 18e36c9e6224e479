import Mathlib.Tactic

namespace Codegraph.Library

open List

variable {State Task : Type}

/-- A run that commits nothing leaves the state as it was. -/
def lastOf (state : State) (commits : List State) : State := commits.foldl (fun _ next => next) state

/-- Each transaction starts from the state that the one before it committed. -/
def follow (state : State) : List (State → State) → List State
  | [] => []
  | first :: rest => first state :: follow (first state) rest

/-- Each task starts from the state that the one before it left. -/
def followAll (run : Task → State → List State) : List Task → State → List State
  | [], _ => []
  | task :: rest, state => run task state ++ followAll run rest (lastOf state (run task state))

@[simp] theorem lastOf_nil (state : State) : lastOf state [] = state := rfl

@[simp] theorem lastOf_append (state : State) (first second : List State) :
    lastOf state (first ++ second) = lastOf (lastOf state first) second :=
  foldl_append

@[simp] theorem lastOf_follow (state : State) (transactions : List (State → State)) :
    lastOf state (follow state transactions) =
      transactions.foldl (fun state transaction => transaction state) state := by
  induction transactions generalizing state with
  | nil => rfl
  | cons first rest ih => exact ih (first state)

theorem follow_append (state : State) (first second : List (State → State)) : follow state (first ++ second) =
      follow state first ++ follow (lastOf state (follow state first)) second := by
  induction first generalizing state with
  | nil => rfl
  | cons next first ih =>
    rw [cons_append, follow, follow, ih, cons_append]
    rfl

theorem followAll_append (run : Task → State → List State) (first second : List Task)
    (state : State) : followAll run (first ++ second) state = followAll run first state ++
        followAll run second (lastOf state (followAll run first state)) := by
  induction first generalizing state with
  | nil => rfl
  | cons task first ih => rw [cons_append, followAll, followAll, ih, append_assoc, lastOf_append]

theorem lastOf_cases (state : State) (commits : List State) :
    lastOf state commits = state ∨ lastOf state commits ∈ commits := by
  induction commits using List.reverseRecOn with
  | nil => exact .inl rfl
  | append_singleton before last _ =>
    rw [lastOf_append]
    exact .inr (by simp [lastOf])

variable {kept : State → Prop} {state : State}

theorem follow_keeps {transactions : List (State → State)}
    (keeps : ∀ transaction ∈ transactions, ∀ state, kept state → kept (transaction state))
    (before : kept state) : ∀ next ∈ follow state transactions, kept next := by
  induction transactions generalizing state with
  | nil => exact fun next mem => absurd mem not_mem_nil
  | cons first rest ih =>
    have after := keeps first mem_cons_self state before
    intro next mem
    rcases mem_cons.mp mem with rfl | later
    · exact after
    · exact ih (fun other listed => keeps other (mem_cons_of_mem _ listed)) after next later

theorem lastOf_keeps {commits : List State}
    (before : kept state) (all : ∀ next ∈ commits, kept next) : kept (lastOf state commits) := by
  rcases lastOf_cases state commits with same | mem
  · rwa [same]
  · exact all _ mem

variable {run : Task → State → List State}

theorem followAll_keeps {tasks : List Task}
    (keeps : ∀ task ∈ tasks, ∀ state, kept state → ∀ next ∈ run task state, kept next)
    (before : kept state) : ∀ next ∈ followAll run tasks state, kept next := by
  induction tasks generalizing state with
  | nil => exact fun next mem => absurd mem not_mem_nil
  | cons task rest ih =>
    have all := keeps task mem_cons_self state before
    intro next mem
    rcases mem_append.mp mem with first | later
    · exact all next first
    · exact ih (fun other listed => keeps other (mem_cons_of_mem _ listed))
        (lastOf_keeps before all) next later

/-- Each task meets a condition on the state that it starts from. -/
def Guarded (run : Task → State → List State) (guard : Task → State → Prop) : List Task → State → Prop
  | [], _ => True
  | task :: rest, state => guard task state ∧ Guarded run guard rest (lastOf state (run task state))

theorem Guarded.keeps {guard : Task → State → Prop} {tasks : List Task}
    (keeps : ∀ task ∈ tasks, ∀ state, kept state → guard task state → kept (lastOf state (run task state)))
    (before : kept state) (guarded : Guarded run guard tasks state) :
    kept (lastOf state (followAll run tasks state)) := by
  induction tasks generalizing state with
  | nil => exact before
  | cons task rest ih =>
    rw [followAll, lastOf_append]
    exact ih (fun other listed => keeps other (mem_cons_of_mem _ listed))
      (keeps task mem_cons_self state before guarded.1) guarded.2

theorem Guarded.append {guard : Task → State → Prop} {first second : List Task}
    (guarded : Guarded run guard (first ++ second) state) :
    Guarded run guard first state ∧
      Guarded run guard second (lastOf state (followAll run first state)) := by
  induction first generalizing state with
  | nil => exact ⟨trivial, guarded⟩
  | cons task first ih =>
    obtain ⟨early, late⟩ := ih guarded.2
    rw [followAll, lastOf_append]
    exact ⟨⟨guarded.1, early⟩, late⟩

theorem followAll_stages {good right : State → Prop} {tasks : List Task}
    (stages : ∀ task ∈ tasks, ∀ state, good state →
      (∀ next ∈ run task state, right next) ∧ good (lastOf state (run task state)))
    (before : good state) :
    (∀ next ∈ followAll run tasks state, right next) ∧ good (lastOf state (followAll run tasks state)) := by
  induction tasks generalizing state with
  | nil => exact ⟨fun next mem => absurd mem not_mem_nil, before⟩
  | cons task rest ih =>
    obtain ⟨all, after⟩ := stages task mem_cons_self state before
    obtain ⟨later, last⟩ := ih (fun other listed => stages other (mem_cons_of_mem _ listed))
      after
    rw [followAll, lastOf_append]
    refine ⟨?_, last⟩
    intro next mem
    rcases mem_append.mp mem with first | rest
    · exact all next first
    · exact later next rest

end Codegraph.Library
