/-
This file searches candidate files with several workers that share three counters, and follows the
candidates and the bytes through every order of their steps.
-/

import Codegraph.Grep.Search
import Codegraph.Library.Interleaving
import Mathlib.Algebra.BigOperators.Group.Multiset.Basic

namespace Codegraph.Grep

open Library Relation List

abbrev U64 := Fin (2 ^ 64)

/-- A regular file that can be opened, with its size and the contents unless reading them fails. -/
structure OpenFile where
  size : U64
  content : Option Bytes
deriving DecidableEq

inductive StopReason where
  | deadline
  | bytes
  | cancelled
deriving DecidableEq

structure ScanLimits where
  maxBytes : U64
  maxFileBytes : U64

/-- The files are searched from the start to the end, or as far as the limits allow. -/
structure ScanRequest where
  candidates : List Candidate
  disk : String → Option OpenFile
  start : Nat
  stop : Option Nat
  query : Query
  limits : ScanLimits

structure ScanOutcome where
  files : List FileHits := []
  stop : Nat := 0
  stopped : Option StopReason := none
  tooLarge : Nat := 0
deriving DecidableEq

inductive Slot where
  | notReached (reason : StopReason)
  | tooLarge
  | nothing
  | matched (hits : FileHits)
deriving DecidableEq

namespace ScanRequest

variable (req : ScanRequest)

def last : Nat := min (req.stop.getD req.candidates.length) req.candidates.length

def first : Nat := min req.start req.last

def fileAt (index : Nat) : Option OpenFile :=
  req.candidates[index]?.bind fun candidate => req.disk candidate.path

/-- A file of an allowed size is read, and its size is added to the read bytes. -/
def sizeRead (index : Nat) : Option U64 :=
  (req.fileAt index).bind fun file =>
    if req.limits.maxFileBytes < file.size then none else some file.size

/-- What the search of a candidate finds when no limit stops it. -/
def found (index : Nat) : Slot :=
  match req.candidates[index]? with
  | none => .nothing
  | some candidate =>
    match req.disk candidate.path with
    | none => .nothing
    | some file =>
      if req.limits.maxFileBytes < file.size then .tooLarge
      else
        match file.content with
        | none => .nothing
        | some buf =>
          if looksBinary buf then .nothing
          else
            match searchFile req.query index candidate buf with
            | some hits => .matched hits
            | none => .nothing

end ScanRequest

/-- What a worker sees of the cancel flag and of the clock. -/
structure Weather where
  cancelled : Bool := false
  late : Bool := false
deriving DecidableEq

/-- The sum stops at the largest number. -/
def saturatingAdd (first second : U64) : Nat := min (first.val + second.val) (2 ^ 64 - 1)

/-- One candidate is searched. The first one of the range is exempt from the deadline and from the
byte budget. The size counts even when the file is rejected for it. -/
def scanOne (req : ScanRequest) (weather : Weather) (index : Nat) (bytes : U64) : Slot × U64 :=
  if weather.cancelled then (.notReached .cancelled, bytes)
  else if index ≠ req.start ∧ weather.late then (.notReached .deadline, bytes)
  else
    match req.sizeRead index with
    | none => (req.found index, bytes)
    | some size =>
      if index ≠ req.start ∧ req.limits.maxBytes.val < saturatingAdd bytes size then
        (.notReached .bytes, bytes + size)
      else (req.found index, bytes + size)

/-- The steps of a worker end at its accesses to the shared counters. -/
inductive Phase where
  | checking
  | claiming
  | scanning (index : Nat)
  | storing (index : Nat) (slot : Slot)
  | ended
deriving DecidableEq

structure Worker where
  phase : Phase := .checking
  slots : List (Nat × Slot) := []
deriving DecidableEq

/-- The counters that the workers share. -/
structure Shared where
  next : Nat
  bytes : U64 := 0
  stop : Bool := false
deriving DecidableEq

def isNotReached : Slot → Bool
  | .notReached _ => true
  | _ => false

/-- One step of a worker: it looks at the stop flag, claims a candidate, searches it, or keeps the
slot and raises the flag when the candidate was not reached. -/
def workerStep (req : ScanRequest) (weather : Weather) (shared : Shared) (worker : Worker) :
    Option (Shared × Worker) :=
  match worker.phase with
  | .checking => some (shared, { worker with phase := if shared.stop then .ended else .claiming })
  | .claiming =>
    some ({ shared with next := shared.next + 1 },
      { worker with phase := if req.last ≤ shared.next then .ended else .scanning shared.next })
  | .scanning index =>
    some ({ shared with bytes := (scanOne req weather index shared.bytes).2 },
      { worker with phase := .storing index (scanOne req weather index shared.bytes).1 })
  | .storing index slot =>
    some ({ shared with stop := shared.stop || isNotReached slot },
      { phase := .checking, slots := worker.slots ++ [(index, slot)] })
  | .ended => none

abbrev ScanState := Config Shared Worker

namespace ScanState

variable {threads : Nat}

def init (req : ScanRequest) : ScanState threads := ⟨{ next := req.first }, fun _ => {}⟩

/-- Every worker has left its loop. -/
def Finished (state : ScanState threads) : Prop := ∀ worker, (state.workers worker).phase = .ended

instance (state : ScanState threads) : Decidable (Finished state) :=
  inferInstanceAs (Decidable (∀ worker, (state.workers worker).phase = .ended))

/-- The slots of all workers in the order of the workers. -/
def slots (state : ScanState threads) : List (Nat × Slot) :=
  (List.ofFn state.workers).flatMap Worker.slots

end ScanState

/-- The workers of a search have moved in some order, under weathers that are allowed. -/
def Run (req : ScanRequest) (allowed : Weather → Prop) {threads : Nat} (final : ScanState threads) : Prop :=
  Relation.ReflTransGen (Moves (workerStep req) allowed) (ScanState.init req) final

/-- The slots are put in the order of the candidates. -/
def place (start : Nat) (slots : List (Option Slot)) (found : List (Nat × Slot)) : List (Option Slot) :=
  found.foldl (fun slots entry => slots.set (entry.1 - start) (some entry.2)) slots

/-- The outcome ends at the first candidate that was not reached. -/
def collect (stopReason : StopReason) (start : Nat) : Nat → List (Option Slot) → ScanOutcome → ScanOutcome
  | _, [], outcome => outcome
  | offset, none :: _, outcome => { outcome with stop := start + offset, stopped := some stopReason }
  | offset, some (.notReached reason) :: _, outcome =>
    { outcome with stop := start + offset, stopped := some reason }
  | offset, some .tooLarge :: slots, outcome =>
    collect stopReason start (offset + 1) slots { outcome with tooLarge := outcome.tooLarge + 1 }
  | offset, some .nothing :: slots, outcome => collect stopReason start (offset + 1) slots outcome
  | offset, some (.matched hits) :: slots, outcome =>
    collect stopReason start (offset + 1) slots { outcome with files := outcome.files ++ [hits] }

/-- The limit that is exhausted when the workers are done. -/
def stopReason (weather : Weather) : StopReason :=
  if weather.cancelled then .cancelled else if weather.late then .deadline else .bytes

/-- The outcome of a scan whose workers are done. -/
def scanOutcome (req : ScanRequest) (weather : Weather) {threads : Nat} (state : ScanState threads) :
    ScanOutcome :=
  collect (stopReason weather) req.first 0
    (place req.first (List.replicate (req.last - req.first) none) (ScanState.slots state))
    { stop := req.last }

/-- The results that a worker has, with the one it is about to store. -/
def Worker.held (worker : Worker) : List (Nat × Slot) :=
  match worker.phase with
  | .storing index slot => worker.slots ++ [(index, slot)]
  | _ => worker.slots

/-- The candidates that a worker has claimed. -/
def Worker.claimed (worker : Worker) : Multiset Nat :=
  match worker.phase with
  | .scanning index => ((worker.held.map Prod.fst : List Nat) : Multiset Nat) + {index}
  | _ => ((worker.held.map Prod.fst : List Nat) : Multiset Nat)

variable {req : ScanRequest} {allowed : Weather → Prop} {weather : Weather}
  {shared shared' : Shared} {worker worker' : Worker}

section

variable (moved : workerStep req weather shared worker = some (shared', worker'))
include moved

theorem workerStep_cases : (worker.phase = .checking ∧ shared' = shared ∧
      worker' = { worker with phase := if shared.stop then .ended else .claiming }) ∨
    (worker.phase = .claiming ∧ shared' = { shared with next := shared.next + 1 } ∧
      worker' = { worker with
        phase := if req.last ≤ shared.next then .ended else .scanning shared.next }) ∨
    (∃ index, worker.phase = .scanning index ∧
      shared' = { shared with bytes := (scanOne req weather index shared.bytes).2 } ∧
      worker' = { worker with
        phase := .storing index (scanOne req weather index shared.bytes).1 }) ∨
    (∃ index slot, worker.phase = .storing index slot ∧
      shared' = { shared with stop := shared.stop || isNotReached slot } ∧
      worker' = { phase := .checking, slots := worker.slots ++ [(index, slot)] }) := by
  unfold workerStep at moved
  cases phase : worker.phase with
  | checking =>
    rw [phase] at moved
    obtain ⟨rfl, rfl⟩ := Prod.mk.inj (Option.some.inj moved)
    exact .inl ⟨rfl, rfl, rfl⟩
  | claiming =>
    rw [phase] at moved
    obtain ⟨rfl, rfl⟩ := Prod.mk.inj (Option.some.inj moved)
    exact .inr (.inl ⟨rfl, rfl, rfl⟩)
  | scanning index =>
    rw [phase] at moved
    obtain ⟨rfl, rfl⟩ := Prod.mk.inj (Option.some.inj moved)
    exact .inr (.inr (.inl ⟨index, rfl, rfl, rfl⟩))
  | storing index slot =>
    rw [phase] at moved
    obtain ⟨rfl, rfl⟩ := Prod.mk.inj (Option.some.inj moved)
    exact .inr (.inr (.inr ⟨index, slot, rfl, rfl, rfl⟩))
  | ended =>
    rw [phase] at moved
    cases moved

theorem held_step : (worker'.held = worker.held ∧ shared'.bytes = shared.bytes) ∨
    ∃ index, worker.phase = .scanning index ∧
      worker'.held = worker.held ++ [(index, (scanOne req weather index shared.bytes).1)] ∧
      shared'.bytes = (scanOne req weather index shared.bytes).2 := by
  unfold Worker.held
  obtain ⟨phase, rfl, rfl⟩ | ⟨phase, rfl, rfl⟩ | ⟨index, phase, rfl, rfl⟩ |
    ⟨index, slot, phase, rfl, rfl⟩ := workerStep_cases moved
  · rw [phase]
    by_cases stop : shared'.stop <;> simp [stop]
  · rw [phase]
    by_cases past : req.last ≤ shared.next <;> simp [past]
  · rw [phase]
    exact .inr ⟨index, rfl, rfl, rfl⟩
  · rw [phase]
    exact .inl ⟨rfl, rfl⟩

theorem claimed_step : (worker'.claimed = worker.claimed ∧
      (shared'.next = shared.next ∨ shared'.next = shared.next + 1 ∧ req.last ≤ shared.next)) ∨
    (worker'.claimed = worker.claimed + {shared.next} ∧ shared'.next = shared.next + 1 ∧
      shared.next < req.last) := by
  unfold Worker.claimed Worker.held
  obtain ⟨phase, rfl, rfl⟩ | ⟨phase, rfl, rfl⟩ | ⟨index, phase, rfl, rfl⟩ |
    ⟨index, slot, phase, rfl, rfl⟩ := workerStep_cases moved
  · rw [phase]
    by_cases stop : shared'.stop <;> simp [stop]
  · rw [phase]
    by_cases past : req.last ≤ shared.next
    · simp [past]
    · simp [past, Nat.lt_of_not_le past]
  · rw [phase]
    exact .inl ⟨by simp [← Multiset.coe_add], .inl rfl⟩
  · rw [phase]
    exact .inl ⟨by simp, .inl rfl⟩

end

/-- A result is what the candidate holds, unless a limit was exhausted. The first candidate of the
range is left out only when the call is cancelled. -/
def Explained (req : ScanRequest) (allowed : Weather → Prop) (entry : Nat × Slot) : Prop :=
  entry.2 = req.found entry.1 ∨
    isNotReached entry.2 ∧ (entry.1 = req.start → ∃ weather, allowed weather ∧ weather.cancelled)

theorem explained_scanOne (fine : allowed weather) (index : Nat) (bytes : U64) :
    Explained req allowed (index, (scanOne req weather index bytes).1) := by
  unfold Explained scanOne
  by_cases cancelled : weather.cancelled
  · rw [if_pos cancelled]
    exact .inr ⟨rfl, fun _ => ⟨weather, fine, cancelled⟩⟩
  rw [if_neg cancelled]
  by_cases late : index ≠ req.start ∧ weather.late
  · rw [if_pos late]
    exact .inr ⟨rfl, fun first => absurd first late.1⟩
  rw [if_neg late]
  cases req.sizeRead index with
  | none => exact .inl rfl
  | some size =>
    dsimp only
    split
    · rename_i exhausted
      exact .inr ⟨rfl, fun first => absurd first exhausted.1⟩
    · exact .inl rfl

section

variable (moved : workerStep req weather shared worker = some (shared', worker'))
include moved

theorem slots_step : (∀ entry ∈ worker.slots, entry ∈ worker'.slots) ∧
      (shared'.stop = shared.stop ∨ ∃ entry ∈ worker'.slots, isNotReached entry.2) := by
  obtain ⟨_, rfl, rfl⟩ | ⟨_, rfl, rfl⟩ | ⟨_, _, rfl, rfl⟩ | ⟨index, slot, _, rfl, rfl⟩ :=
    workerStep_cases moved
  · exact ⟨fun _ => id, .inl rfl⟩
  · exact ⟨fun _ => id, .inl rfl⟩
  · exact ⟨fun _ => id, .inl rfl⟩
  · have kept : ∀ entry ∈ worker.slots, entry ∈ worker.slots ++ [(index, slot)] :=
      fun _ => mem_append_left _
    cases reached : isNotReached slot with
    | false => exact ⟨kept, .inl (by simp [reached])⟩
    | true => exact ⟨kept, .inr ⟨(index, slot), by simp, reached⟩⟩

/-- The flag stays raised and the next candidate does not fall. -/
theorem shared_step : (shared.stop = true → shared'.stop = true) ∧ shared.next ≤ shared'.next := by
  obtain ⟨_, rfl, rfl⟩ | ⟨_, rfl, rfl⟩ | ⟨_, _, rfl, rfl⟩ | ⟨_, _, _, rfl, rfl⟩ :=
    workerStep_cases moved
  · exact ⟨id, le_refl _⟩
  · exact ⟨id, Nat.le_succ _⟩
  · exact ⟨id, le_refl _⟩
  · exact ⟨fun raised => by simp [raised], le_refl _⟩

theorem ended_step (ended : worker'.phase = .ended) : shared'.stop = true ∨ req.last ≤ shared'.next := by
  obtain ⟨_, rfl, rfl⟩ | ⟨_, rfl, rfl⟩ | ⟨_, _, rfl, rfl⟩ | ⟨_, _, _, rfl, rfl⟩ :=
    workerStep_cases moved
  · cases raised : shared'.stop with
    | false => simp [raised] at ended
    | true => exact .inl rfl
  · by_cases past : req.last ≤ shared.next
    · exact .inr (Nat.le_succ_of_le past)
    · simp [past] at ended
  · cases ended
  · cases ended

/-- A worker searches the candidate that it has just claimed. -/
theorem scanning_step {index : Nat} (phase : worker'.phase = .scanning index) : index = shared.next := by
  obtain ⟨_, rfl, rfl⟩ | ⟨_, rfl, rfl⟩ | ⟨_, _, rfl, rfl⟩ | ⟨_, _, _, rfl, rfl⟩ :=
    workerStep_cases moved
  · cases raised : shared'.stop <;> simp [raised] at phase
  · by_cases past : req.last ≤ shared.next
    · simp [past] at phase
    · simpa [past, eq_comm] using phase
  · cases phase
  · cases phase

end

/-- The candidates up to the next one are claimed once each, and the results are explained. -/
structure Accounted (req : ScanRequest) (allowed : Weather → Prop) {threads : Nat}
    (state : ScanState threads) : Prop where
  claimed : state.total Worker.claimed =
    (List.range' req.first (min state.shared.next req.last - req.first) : Multiset Nat)
  started : req.first ≤ state.shared.next
  explained : ∀ worker, ∀ entry ∈ (state.workers worker).held, Explained req allowed entry
  raised : state.shared.stop = true → ∃ worker, ∃ entry ∈ (state.workers worker).slots, isNotReached entry.2
  left : ∀ worker, (state.workers worker).phase = .ended →
    state.shared.stop = true ∨ req.last ≤ state.shared.next

namespace Accounted

variable {threads : Nat}

theorem init : Accounted req allowed (ScanState.init req : ScanState threads) where
  claimed := by
    have first : min req.first req.last - req.first = 0 := by omega
    change ∑ _ : Fin threads, (0 : Multiset Nat) = _
    rw [Finset.sum_const_zero]
    change 0 = ((List.range' req.first (min req.first req.last - req.first) : List Nat) : Multiset Nat)
    rw [first]
    rfl
  started := le_refl _
  explained := fun _ _ held => by cases held
  raised := fun raised => by cases raised
  left := fun _ ended => by cases ended

theorem keeps (before after : ScanState threads) (accounted : Accounted req allowed before)
    (moves : Moves (workerStep req) allowed before after) : Accounted req allowed after := by
  obtain ⟨weather, worker, shared, moved, fine, stepped, rfl⟩ := moves.cases
  obtain ⟨keepsFlag, keepsNext⟩ := shared_step stepped
  obtain ⟨keepsSlots, flag⟩ := slots_step stepped
  have started := accounted.started
  have atFirst : req.first ≤ req.last := min_le_right _ _
  have others := before.set_cases worker shared moved
  refine ⟨?_, le_trans started keepsNext, ?_, ?_, ?_⟩
  · obtain ⟨rest, first, second⟩ := before.total_set Worker.claimed worker shared moved
    have claimed := accounted.claimed
    rw [second]
    rw [first] at claimed
    change _ = ((List.range' req.first (min shared.next req.last - req.first) : List Nat) : Multiset Nat)
    obtain ⟨same, next⟩ | ⟨more, next, room⟩ := claimed_step stepped
    · have count : min shared.next req.last = min before.shared.next req.last := by omega
      rw [same, count, claimed]
    have count : min shared.next req.last - req.first =
        (min before.shared.next req.last - req.first) + 1 := by omega
    have atNext : req.first + (min before.shared.next req.last - req.first) = before.shared.next := by omega
    rw [more, count, range'_concat, one_mul, atNext, ← Multiset.coe_add, ← claimed,
      Multiset.coe_singleton, add_right_comm]
  · intro other entry held
    obtain ⟨_, same⟩ | same := others other
    · rw [same] at held
      obtain ⟨kept, _⟩ | ⟨index, _, grown, _⟩ := held_step stepped
      · exact accounted.explained worker entry (kept ▸ held)
      rw [grown, mem_append, mem_singleton] at held
      obtain old | rfl := held
      · exact accounted.explained worker entry old
      · exact explained_scanOne fine _ _
    · exact accounted.explained other entry (same ▸ held)
  · intro raised
    obtain same | ⟨entry, stored, reached⟩ := flag
    · obtain ⟨other, entry, stored, reached⟩ := accounted.raised (same ▸ raised)
      refine ⟨other, entry, ?_, reached⟩
      obtain ⟨rfl, changed⟩ | kept := others other
      · rw [changed]
        exact keepsSlots entry stored
      · rwa [kept]
    · exact ⟨worker, entry, by rw [before.set_self]; exact stored, reached⟩
  · intro other ended
    obtain ⟨_, same⟩ | same := others other
    · exact ended_step stepped (same ▸ ended)
    obtain raised | past := accounted.left other (same ▸ ended)
    · exact .inl (keepsFlag raised)
    · exact .inr (le_trans past keepsNext)

theorem ofRun {final : ScanState threads} (run : Run req allowed final) : Accounted req allowed final :=
  run_preserves keeps run init

end Accounted

end Codegraph.Grep
