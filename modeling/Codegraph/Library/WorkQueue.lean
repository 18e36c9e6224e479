import Mathlib.Tactic

namespace Codegraph.Library

open List

/-- The queue holds each pending task once and the flags mark what it holds. -/
structure WorkQueue where
  queue : List Nat
  pending : List Bool
  nodup : queue.Nodup
  marked : ∀ task, pending[task]? = some true ↔ task ∈ queue

namespace WorkQueue

/-- Every task of the range is pending, in ascending order. -/
def all (count : Nat) : WorkQueue where
  queue := List.range count
  pending := List.replicate count true
  nodup := nodup_range
  marked task := by simp [getElem?_replicate]

/-- No task of the range is pending. -/
def idle (count : Nat) : WorkQueue where
  queue := []
  pending := List.replicate count false
  nodup := nodup_nil
  marked task := by simp [getElem?_replicate]

/-- A task outside the range is never queued. -/
def push (work : WorkQueue) (task : Nat) : WorkQueue :=
  if fresh : work.pending[task]? = some false then
    { queue := work.queue ++ [task]
      pending := work.pending.set task true
      nodup := by
        have absent : task ∉ work.queue := by rw [← work.marked, fresh]; simp
        rw [nodup_append]
        exact ⟨work.nodup, nodup_singleton task, by
          intro first member second same
          rw [mem_singleton.mp same]
          rintro rfl
          exact absent member⟩
      marked := by
        intro other
        have inside : task < work.pending.length := (List.getElem?_eq_some_iff.mp fresh).1
        by_cases same : other = task
        · subst same; simp [inside]
        · rw [getElem?_set_ne (Ne.symm same), work.marked]
          simp [same] }
  else work

/-- The oldest pending task leaves the queue. -/
def pop (work : WorkQueue) : Option (Nat × WorkQueue) :=
  match queued : work.queue with
  | [] => none
  | task :: rest => some (task,
      { queue := rest
        pending := work.pending.set task false
        nodup := (nodup_cons.mp (queued ▸ work.nodup)).2
        marked := by
          intro other
          have distinct := (nodup_cons.mp (queued ▸ work.nodup)).1
          have marked := work.marked other
          rw [queued] at marked
          by_cases same : other = task
          · subst same
            simp only [getElem?_set, distinct, iff_false]
            split <;> simp_all
          · rw [getElem?_set_ne (Ne.symm same), marked]
            simp [same] })

/-- Several tasks are queued in order. -/
def pushAll (work : WorkQueue) (tasks : List Nat) : WorkQueue := tasks.foldl push work

@[simp] theorem all_queue (count : Nat) : (all count).queue = List.range count := rfl

@[simp] theorem all_pending_length (count : Nat) : (all count).pending.length = count := by
  simp [all]

@[simp] theorem idle_queue (count : Nat) : (idle count).queue = [] := rfl

@[simp] theorem idle_pending_length (count : Nat) : (idle count).pending.length = count := by
  simp [idle]

section

variable (work : WorkQueue)
include work

@[simp] theorem push_pending_length (task : Nat) : (work.push task).pending.length = work.pending.length := by
  unfold push
  split <;> simp

@[simp] theorem pushAll_pending_length (tasks : List Nat) :
    (work.pushAll tasks).pending.length = work.pending.length := by
  induction tasks generalizing work with
  | nil => rfl
  | cons task rest ih =>
    change ((work.push task).pushAll rest).pending.length = _
    rw [ih, push_pending_length]

theorem mem_lt {task : Nat} (mem : task ∈ work.queue) : task < work.pending.length :=
  (List.getElem?_eq_some_iff.mp ((work.marked task).mpr mem)).1

/-- A queue is never longer than its range. -/
theorem length_le : work.queue.length ≤ work.pending.length := by
  have inside : work.queue ⊆ List.range work.pending.length := by
    intro task mem
    exact List.mem_range.mpr (work.mem_lt mem)
  simpa using (subperm_of_subset work.nodup inside).length_le

theorem mem_push (task other : Nat) (inside : task < work.pending.length) :
    other ∈ (work.push task).queue ↔ other = task ∨ other ∈ work.queue := by
  unfold push
  split
  · simp [or_comm]
  rename_i stale
  have present : task ∈ work.queue := by
    rw [← work.marked, getElem?_eq_getElem inside]
    cases value : work.pending[task] with
    | true => rfl
    | false => rw [getElem?_eq_getElem inside, value] at stale; exact absurd rfl stale
  constructor
  · exact Or.inr
  rintro (rfl | mem)
  · exact present
  · exact mem

theorem mem_pushAll (tasks : List Nat) (other : Nat) (inside : ∀ task ∈ tasks, task < work.pending.length) :
    other ∈ (work.pushAll tasks).queue ↔ other ∈ tasks ∨ other ∈ work.queue := by
  induction tasks generalizing work with
  | nil => simp [pushAll]
  | cons task rest ih =>
    change other ∈ ((work.push task).pushAll rest).queue ↔ _
    rw [ih, mem_push work task other (inside task (by simp))]
    · simp [or_left_comm, or_assoc]
    · intro next mem
      rw [push_pending_length]
      exact inside next (by simp [mem])

/-- A task that is pending already stays pending. -/
theorem mem_pushAll_of_mem (tasks : List Nat) {other : Nat}
    (mem : other ∈ work.queue) : other ∈ (work.pushAll tasks).queue := by
  induction tasks generalizing work with
  | nil => exact mem
  | cons task rest ih =>
    apply ih
    unfold push
    split
    · simp [mem]
    · exact mem

end

theorem pop_none {work : WorkQueue} : work.pop = none ↔ work.queue = [] := by
  unfold pop
  split <;> simp_all

theorem pop_some {work rest : WorkQueue} {task : Nat} (popped : work.pop = some (task, rest)) :
    work.queue = task :: rest.queue ∧ rest.pending.length = work.pending.length := by
  unfold pop at popped
  split at popped
  · contradiction
  obtain ⟨rfl, rfl⟩ := popped
  exact ⟨by assumption, by simp⟩

end WorkQueue

end Codegraph.Library
