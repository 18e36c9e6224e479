/-
This file lets processes take, clear and release the pidfile of a daemon, and shows when the pidfile
lets at most one process hold the lock.
-/

import Codegraph.Library.Interleaving

namespace Codegraph.Daemon

open Library Relation Option Function

structure DaemonLockInfo where
  pid : Nat
  version : String
  socketPath : String
  startedAt : Int
deriving DecidableEq

/-- The pidfile holds a complete record, unless an earlier program left something else. -/
inductive Content where
  | record (info : DaemonLockInfo)
  | corrupt
deriving DecidableEq

def maxDaemonPid : Nat := 2 ^ 31 - 1

def pidInValidRange (pid : Nat) : Bool := 1 < pid && pid ≤ maxDaemonPid

def decodeLockInfo : Content → Option DaemonLockInfo
  | .record info => if pidInValidRange info.pid then some info else none
  | .corrupt => none

/-- The pidfile, and the processes of the system that run. -/
structure Shared where
  pidfile : Option Content
  running : Nat → Bool

def isProcessAlive (shared : Shared) (pid : Nat) : Bool := 1 < pid && shared.running pid

/-- Where a process stands between two accesses to the pidfile. -/
inductive Phase where
  | idle
  | readExisting
  | clearing (expected : Option Nat)
  | checking (seen : Content) (info : DaemonLockInfo)
  | unlinking (seen : Content)
  | cleaning
  | removing
deriving DecidableEq

/-- A process holds the lock from an acquired result until its release. -/
structure Process where
  pid : Nat
  phase : Phase := .idle
  holds : Bool := false
  started : Bool := false
deriving DecidableEq

/-- What a process does next. An operation that has begun goes on, or it fails at an access. -/
inductive Action where
  | tryAcquire (version socketPath : String) (startedAt : Int)
  | clearStale (expected : Option Nat)
  | start
  | stop
  | proceed
  | fail
  | crash
deriving DecidableEq

/-- The record is linked into place in one step unless the pidfile exists. -/
def link (shared : Shared) (process : Process) (info : DaemonLockInfo) : Shared × Process :=
  match shared.pidfile with
  | none => ({ shared with pidfile := some (.record info) }, { process with holds := true })
  | some _ => (shared, { process with phase := .readExisting })

/-- A stale record is read, its process is looked up, and the file is removed, in three steps. -/
def clearRead (shared : Shared) (process : Process) (expected : Option Nat) : Process :=
  match shared.pidfile with
  | none => { process with phase := .idle }
  | some seen =>
    match decodeLockInfo seen with
    | none => { process with phase := .unlinking seen }
    | some info =>
      if expected.any fun pid => info.pid ≠ pid then { process with phase := .idle }
      else { process with phase := .checking seen info }

/-- Only a record of the process itself is removed when its daemon stops. -/
def cleanupRead (shared : Shared) (process : Process) : Process :=
  if ((shared.pidfile.bind decodeLockInfo).map DaemonLockInfo.pid) = some process.pid then
    { process with phase := .removing }
  else { process with phase := .idle, holds := false, started := false }

def proceed (shared : Shared) (process : Process) : Option (Shared × Process) :=
  match process.phase with
  | .idle => none
  | .readExisting => some (shared, { process with phase := .idle })
  | .clearing expected => some (shared, clearRead shared process expected)
  | .checking seen info =>
    some (shared, { process with
      phase := if isProcessAlive shared info.pid then .idle else .unlinking seen })
  | .unlinking _ => some ({ shared with pidfile := none }, { process with phase := .idle })
  | .cleaning => some (shared, cleanupRead shared process)
  | .removing =>
    some ({ shared with pidfile := none },
      { process with phase := .idle, holds := false, started := false })

/-- One step of a process that runs. -/
def move (action : Action) (shared : Shared) (process : Process) : Option (Shared × Process) :=
  if shared.running process.pid then
    match action with
    | .crash => some ({ shared with running := Function.update shared.running process.pid false }, process)
    | .proceed => proceed shared process
    | .fail => if process.phase = .idle then none else some (shared, { process with phase := .idle })
    | .tryAcquire version socketPath startedAt =>
      if process.phase = .idle then
        some (link shared process ⟨process.pid, version, socketPath, startedAt⟩)
      else none
    | .clearStale expected =>
      if process.phase = .idle then some (shared, { process with phase := .clearing expected })
      else none
    | .start =>
      if process.phase = .idle ∧ process.holds then some (shared, { process with started := true })
      else none
    | .stop =>
      if process.phase = .idle then some (shared, { process with phase := .cleaning }) else none
  else none

/-- The candidates run, and the pidfile is missing or left over from an earlier process. -/
def init {count : Nat} (pids : Fin count → Nat) (pidfile : Option Content)
    (running : Nat → Bool) : Config Shared Process count :=
  ⟨⟨pidfile, fun pid => running pid || decide (∃ candidate, pids candidate = pid)⟩,
    fun candidate => { pid := pids candidate }⟩

/-- A stale lock is removed only while the pidfile still is what was read, or is gone. -/
def Steady (action : Action) (shared : Shared) (process : Process) : Prop :=
  action = .proceed → ∀ seen, process.phase = .unlinking seen →
    shared.pidfile = none ∨ shared.pidfile = some seen

variable {count : Nat} {pids : Fin count → Nat}

/-- Some process takes a step that is allowed where it stands. -/
def Moves (allowed : Action → Shared → Process → Prop) (before after : Config Shared Process count) : Prop :=
  ∃ action worker, allowed action before.shared (before.workers worker) ∧
    before.step move action worker = some after

/-- A live process holds the lock. -/
def Holder (state : Config Shared Process count) (worker : Fin count) : Prop :=
  (state.workers worker).holds ∧ state.shared.running (state.workers worker).pid

/-- The pidfile holds a record of a process. -/
def Names (state : Config Shared Process count) (pid : Nat) : Prop :=
  ∃ info, state.shared.pidfile = some (.record info) ∧ info.pid = pid

/-- Live holders are named by the pidfile, and what is about to be removed names no live process. -/
structure Excluded (pids : Fin count → Nat) (state : Config Shared Process count) : Prop where
  pid : ∀ worker, (state.workers worker).pid = pids worker
  named : ∀ worker, Holder state worker → Names state (pids worker)
  held : ∀ worker, Names state (pids worker) → state.shared.running (pids worker) →
    (state.workers worker).holds
  stale : ∀ worker info, (state.workers worker).phase = .unlinking (.record info) →
    ∀ other, info.pid = pids other → state.shared.running (pids other) = false
  checked : ∀ worker seen info, (state.workers worker).phase = .checking seen info →
    decodeLockInfo seen = some info
  removing : ∀ worker, (state.workers worker).phase = .removing →
    state.shared.running (pids worker) → (state.workers worker).holds

namespace Excluded

theorem init {pidfile : Option Content} {running : Nat → Bool}
    (leftover : ∀ info, pidfile = some (.record info) → ∀ worker, info.pid ≠ pids worker) :
    Excluded pids (init pids pidfile running) where
  pid := fun _ => rfl
  named := fun _ holder => by cases holder.1
  held := fun worker names _ => by
    obtain ⟨info, linked, same⟩ := names
    exact absurd same (leftover info linked worker)
  stale := fun _ _ phase => by cases phase
  checked := fun _ _ _ phase => by cases phase
  removing := fun _ phase => by cases phase

variable {state : Config Shared Process count} {worker : Fin count}

section

variable (excluded : Excluded pids state)
include excluded

/-- A step that leaves the pidfile and the other processes alone keeps the exclusion when the process
itself fits. -/
theorem keeps_shared {moved : Process} (samePid : moved.pid = (state.workers worker).pid)
    (sameHold : moved.holds = (state.workers worker).holds)
    (stale : ∀ info, moved.phase = .unlinking (.record info) →
      ∀ other, info.pid = pids other → state.shared.running (pids other) = false)
    (checked : ∀ seen info, moved.phase = .checking seen info → decodeLockInfo seen = some info)
    (removing : moved.phase = .removing → state.shared.running (pids worker) → moved.holds) :
    Excluded pids (state.set worker state.shared moved) := by
  have others := state.set_cases worker state.shared moved
  have pid : ∀ other, ((state.set worker state.shared moved).workers other).pid = pids other := by
    intro other
    obtain ⟨rfl, changed⟩ | kept := others other
    · rw [changed, samePid]
      exact excluded.pid other
    · rw [kept]
      exact excluded.pid other
  have holds : ∀ other, ((state.set worker state.shared moved).workers other).holds =
      (state.workers other).holds := by
    intro other
    obtain ⟨rfl, changed⟩ | kept := others other
    · rw [changed, sameHold]
    · rw [kept]
  refine ⟨pid, ?_, ?_, ?_, ?_, ?_⟩
  · intro other holder
    obtain ⟨held, runs⟩ := holder
    rw [holds] at held
    rw [pid] at runs
    exact excluded.named other ⟨held, by rw [excluded.pid]; exact runs⟩
  · intro other names runs
    rw [holds]
    exact excluded.held other names runs
  · intro other info phase
    obtain ⟨rfl, changed⟩ | kept := others other
    · exact stale info (changed ▸ phase)
    · exact excluded.stale other info (kept ▸ phase)
  · intro other seen info phase
    obtain ⟨rfl, changed⟩ | kept := others other
    · exact checked seen info (changed ▸ phase)
    · exact excluded.checked other seen info (kept ▸ phase)
  · intro other phase runs
    obtain ⟨rfl, changed⟩ | kept := others other
    · rw [changed]
      exact removing (changed ▸ phase) runs
    · rw [kept]
      exact excluded.removing other (kept ▸ phase) runs

/-- A crash leaves the pidfile and the operations of the others. -/
theorem keeps_crash (worker : Fin count) : Excluded pids (state.set worker
      { state.shared with
        running := update state.shared.running (state.workers worker).pid false }
      (state.workers worker)) := by
  have runs (pid : Nat) (running : update state.shared.running
      (state.workers worker).pid false pid) : state.shared.running pid := by
    by_cases same : pid = (state.workers worker).pid
    · rw [same, update_self] at running
      cases running
    · rwa [update_of_ne same] at running
  have same (other : Fin count) : (state.set worker { state.shared with
      running := update state.shared.running (state.workers worker).pid false }
      (state.workers worker)).workers other = state.workers other := by
    obtain ⟨rfl, changed⟩ | kept := state.set_cases worker { state.shared with
      running := update state.shared.running (state.workers worker).pid false }
      (state.workers worker) other
    · exact changed
    · exact kept
  refine ⟨fun other => ?_, fun other holder => ?_, fun other names running => ?_,
    fun other info phase third stillSame => ?_, fun other seen info phase => ?_,
    fun other phase running => ?_⟩
  · rw [same]
    exact excluded.pid other
  · obtain ⟨held, running⟩ := holder
    rw [same] at held running
    exact excluded.named other ⟨held, runs _ running⟩
  · rw [same]
    exact excluded.held other names (runs _ running)
  · rw [same] at phase
    have stopped := excluded.stale other info phase third stillSame
    rw [Bool.eq_false_iff]
    intro running
    rw [runs _ running] at stopped
    cases stopped
  · rw [same] at phase
    exact excluded.checked other seen info phase
  · rw [same] at phase ⊢
    exact excluded.removing other phase (runs _ running)

theorem keeps_link (distinct : Function.Injective pids) (missing : state.shared.pidfile = none)
    {info : DaemonLockInfo} (own : info.pid = pids worker)
    (idle : (state.workers worker).phase = .idle) :
    Excluded pids (state.set worker { state.shared with pidfile := some (.record info) }
      { state.workers worker with holds := true }) := by
  have others := state.set_cases worker { state.shared with pidfile := some (.record info) }
    { state.workers worker with holds := true }
  refine ⟨fun other => ?_, fun other holder => ?_, fun other names _ => ?_,
    fun other seen phase => ?_, fun other seen found phase => ?_, fun other phase runs => ?_⟩
  · obtain ⟨rfl, changed⟩ | kept := others other
    · rw [changed]
      exact excluded.pid other
    · rw [kept]
      exact excluded.pid other
  · obtain ⟨rfl, _⟩ | kept := others other
    · exact ⟨info, rfl, own⟩
    obtain ⟨held, runs⟩ := holder
    rw [kept] at held runs
    obtain ⟨before, linked, _⟩ := excluded.named other ⟨held, runs⟩
    rw [missing] at linked
    cases linked
  · obtain ⟨named, linked, same⟩ := names
    obtain rfl := Content.record.inj (some.inj linked)
    obtain rfl := distinct (own.symm.trans same)
    rw [state.set_self]
  · obtain ⟨rfl, changed⟩ | kept := others other
    · rw [changed] at phase
      exact absurd (idle.symm.trans phase) (by simp)
    · exact excluded.stale other seen (kept ▸ phase)
  · obtain ⟨rfl, changed⟩ | kept := others other
    · rw [changed] at phase
      exact absurd (idle.symm.trans phase) (by simp)
    · exact excluded.checked other seen found (kept ▸ phase)
  · obtain ⟨rfl, changed⟩ | kept := others other
    · rw [changed]
    · rw [kept] at phase ⊢
      exact excluded.removing other phase runs

theorem keeps_unlink {moved : Process} (samePid : moved.pid = (state.workers worker).pid)
    (idle : moved.phase = .idle) (free : ∀ other, Holder state other → other = worker)
    (released : moved.holds = true → ¬ Holder state worker ∧ (state.workers worker).holds) :
    Excluded pids (state.set worker { state.shared with pidfile := none } moved) := by
  have others := state.set_cases worker { state.shared with pidfile := none } moved
  refine ⟨fun other => ?_, fun other holder => ?_, fun other names _ => ?_,
    fun other seen phase => ?_, fun other seen found phase => ?_, fun other phase runs => ?_⟩
  · obtain ⟨rfl, changed⟩ | kept := others other
    · rw [changed, samePid]
      exact excluded.pid other
    · rw [kept]
      exact excluded.pid other
  · obtain ⟨held, runs⟩ := holder
    by_cases here : other = worker
    · subst here
      rw [state.set_self] at held runs
      rw [samePid] at runs
      obtain ⟨notHolder, holds⟩ := released held
      exact absurd ⟨holds, runs⟩ notHolder
    obtain ⟨same, _⟩ | kept := others other
    · exact absurd same here
    · rw [kept] at held runs
      exact absurd (free other ⟨held, runs⟩) here
  · obtain ⟨named, linked, _⟩ := names
    cases linked
  · obtain ⟨rfl, changed⟩ | kept := others other
    · rw [changed, idle] at phase
      cases phase
    · exact excluded.stale other seen (kept ▸ phase)
  · obtain ⟨rfl, changed⟩ | kept := others other
    · rw [changed, idle] at phase
      cases phase
    · exact excluded.checked other seen found (kept ▸ phase)
  · obtain ⟨rfl, changed⟩ | kept := others other
    · rw [changed, idle] at phase
      cases phase
    · rw [kept] at phase ⊢
      exact excluded.removing other phase runs

end

theorem decode_record {info : DaemonLockInfo} (valid : pidInValidRange info.pid) :
    decodeLockInfo (.record info) = some info := if_pos valid

theorem names_of_decoded {pid : Nat}
    (own : (state.shared.pidfile.bind decodeLockInfo).map DaemonLockInfo.pid = some pid) :
    Names state pid := by
  obtain ⟨info, decoded, same⟩ := map_eq_some_iff.mp own
  obtain ⟨content, linked, read⟩ := bind_eq_some_iff.mp decoded
  cases content with
  | corrupt => cases read
  | record found =>
    change (if pidInValidRange found.pid then some found else none) = _ at read
    split at read
    · obtain rfl := some.inj read
      exact ⟨found, linked, same⟩
    · cases read

/-- A process that the pidfile does not name may give up the lock. -/
theorem keeps_release (excluded : Excluded pids state)
    {moved : Process} (samePid : moved.pid = (state.workers worker).pid)
    (idle : moved.phase = .idle) (released : moved.holds = false)
    (other : ¬ Names state (pids worker)) :
    Excluded pids (state.set worker state.shared moved) := by
  have others := state.set_cases worker state.shared moved
  refine ⟨fun third => ?_, fun third holder => ?_, fun third names runs => ?_,
    fun third seen phase => ?_, fun third seen found phase => ?_, fun third phase runs => ?_⟩
  · obtain ⟨rfl, changed⟩ | kept := others third
    · rw [changed, samePid]
      exact excluded.pid third
    · rw [kept]
      exact excluded.pid third
  · obtain ⟨held, runs⟩ := holder
    obtain ⟨rfl, changed⟩ | kept := others third
    · rw [changed, released] at held
      cases held
    · rw [kept] at held runs
      exact excluded.named third ⟨held, runs⟩
  · obtain ⟨rfl, _⟩ | kept := others third
    · exact absurd names other
    · rw [kept]
      exact excluded.held third names runs
  · obtain ⟨rfl, changed⟩ | kept := others third
    · rw [changed, idle] at phase
      cases phase
    · exact excluded.stale third seen (kept ▸ phase)
  · obtain ⟨rfl, changed⟩ | kept := others third
    · rw [changed, idle] at phase
      cases phase
    · exact excluded.checked third seen found (kept ▸ phase)
  · obtain ⟨rfl, changed⟩ | kept := others third
    · rw [changed, idle] at phase
      cases phase
    · rw [kept] at phase ⊢
      exact excluded.removing third phase runs

theorem clearRead_cases (shared : Shared) (process : Process) (expected : Option Nat) :
    clearRead shared process expected = { process with phase := .idle } ∨
      (∃ seen, decodeLockInfo seen = none ∧
        clearRead shared process expected = { process with phase := .unlinking seen }) ∨
      ∃ seen info, decodeLockInfo seen = some info ∧
        clearRead shared process expected = { process with phase := .checking seen info } := by
  unfold clearRead
  cases shared.pidfile with
  | none => exact .inl rfl
  | some seen =>
    cases decoded : decodeLockInfo seen with
    | none => exact .inr (.inl ⟨seen, decoded, by simp [decoded]⟩)
    | some info =>
      by_cases other : expected.any fun pid => info.pid ≠ pid
      · exact .inl (by simp only [decoded, if_pos other])
      · exact .inr (.inr ⟨seen, info, decoded, by simp only [decoded, if_neg other]⟩)

/-- An operation that has begun keeps the exclusion, when it removes only what it has read. -/
theorem keeps_proceed (excluded : Excluded pids state)
    (distinct : Function.Injective pids) (valid : ∀ worker, pidInValidRange (pids worker))
    (runs : state.shared.running (state.workers worker).pid)
    (steady : Steady .proceed state.shared (state.workers worker)) {shared : Shared}
    {moved : Process}
    (stepped : proceed state.shared (state.workers worker) = some (shared, moved)) :
    Excluded pids (state.set worker shared moved) := by
  have ownPid := excluded.pid worker
  unfold proceed at stepped
  cases phase : (state.workers worker).phase with
  | idle =>
    rw [phase] at stepped
    cases stepped
  | readExisting =>
    rw [phase] at stepped
    obtain ⟨rfl, rfl⟩ := Prod.mk.inj (some.inj stepped)
    exact excluded.keeps_shared rfl rfl (fun _ same => by cases same)
      (fun _ _ same => by cases same) fun same => by cases same
  | clearing expected =>
    rw [phase] at stepped
    obtain ⟨rfl, rfl⟩ := Prod.mk.inj (some.inj stepped)
    obtain same | ⟨seen, decoded, same⟩ | ⟨seen, info, decoded, same⟩ :=
      clearRead_cases state.shared (state.workers worker) expected
    · rw [same]
      exact excluded.keeps_shared rfl rfl (fun _ same => by cases same)
        (fun _ _ same => by cases same) fun same => by cases same
    · rw [same]
      refine excluded.keeps_shared rfl rfl ?_ (fun _ _ same => by cases same)
        fun same => by cases same
      intro info same other names
      obtain rfl := Phase.unlinking.inj same
      rw [decode_record (names ▸ valid other)] at decoded
      cases decoded
    rw [same]
    refine excluded.keeps_shared rfl rfl (fun _ same => by cases same) ?_
      fun same => by cases same
    intro seen' info' same
    obtain ⟨rfl, rfl⟩ := Phase.checking.inj same
    exact decoded
  | checking seen info =>
    rw [phase] at stepped
    obtain ⟨rfl, rfl⟩ := Prod.mk.inj (some.inj stepped)
    cases alive : isProcessAlive state.shared info.pid with
    | true =>
      exact excluded.keeps_shared rfl rfl (fun _ same => by cases same)
        (fun _ _ same => by cases same) fun same => by cases same
    | false =>
      refine excluded.keeps_shared rfl rfl ?_ (fun _ _ same => by cases same)
        fun same => by cases same
      intro info' same other names
      obtain rfl := Phase.unlinking.inj same
      have decoded := excluded.checked worker _ _ phase
      rw [decode_record (names ▸ valid other)] at decoded
      obtain rfl := some.inj decoded
      have above : 1 < pids other := by
        have range := valid other
        exact of_decide_eq_true (Bool.and_eq_true_iff.mp range).1
      rwa [isProcessAlive, names, decide_eq_true above, Bool.true_and] at alive
  | unlinking seen =>
    rw [phase] at stepped
    obtain ⟨rfl, rfl⟩ := Prod.mk.inj (some.inj stepped)
    have none : ∀ other, ¬ Holder state other := by
      intro other holder
      obtain ⟨info, linked, same⟩ := excluded.named other holder
      obtain gone | unchanged := steady rfl seen phase
      · rw [gone] at linked
        cases linked
      rw [unchanged] at linked
      obtain rfl := some.inj linked
      have stopped := excluded.stale worker info phase other same
      have running := holder.2
      rw [excluded.pid other, stopped] at running
      cases running
    exact excluded.keeps_unlink rfl rfl (fun other holder => absurd holder (none other))
      fun held => ⟨none worker, held⟩
  | cleaning =>
    rw [phase] at stepped
    obtain ⟨rfl, rfl⟩ := Prod.mk.inj (some.inj stepped)
    unfold cleanupRead
    by_cases own : (state.shared.pidfile.bind decodeLockInfo).map DaemonLockInfo.pid =
        some (state.workers worker).pid
    · rw [if_pos own]
      refine excluded.keeps_shared rfl rfl (fun _ same => by cases same)
        (fun _ _ same => by cases same) fun _ running => ?_
      exact excluded.held worker (names_of_decoded (ownPid ▸ own)) running
    rw [if_neg own]
    refine excluded.keeps_release rfl rfl rfl fun names => own ?_
    obtain ⟨info, linked, same⟩ := names
    rw [linked, bind_some, decode_record (same ▸ valid worker), map_some, same, ownPid]
  | removing =>
    rw [phase] at stepped
    obtain ⟨rfl, rfl⟩ := Prod.mk.inj (some.inj stepped)
    have holds := excluded.removing worker phase (ownPid ▸ runs)
    obtain ⟨info, linked, own⟩ := excluded.named worker ⟨holds, runs⟩
    refine excluded.keeps_unlink rfl rfl ?_ fun held => by cases held
    intro other holder
    obtain ⟨info', linked', other'⟩ := excluded.named other holder
    rw [linked] at linked'
    obtain rfl := Content.record.inj (some.inj linked')
    exact distinct (other'.symm.trans own)

theorem keeps (distinct : Function.Injective pids) (valid : ∀ worker, pidInValidRange (pids worker))
    {before after : Config Shared Process count} (excluded : Excluded pids before)
    (moves : Moves Steady before after) : Excluded pids after := by
  obtain ⟨action, worker, steady, stepped⟩ := moves
  obtain ⟨⟨shared, moved⟩, done, rfl⟩ := map_eq_some_iff.mp stepped
  unfold move at done
  split at done
  · rename_i runs
    cases action with
    | crash =>
      obtain ⟨rfl, rfl⟩ := Prod.mk.inj (some.inj done)
      exact excluded.keeps_crash worker
    | proceed => exact excluded.keeps_proceed distinct valid runs steady done
    | fail =>
      dsimp only at done
      split at done
      · cases done
      obtain ⟨rfl, rfl⟩ := Prod.mk.inj (some.inj done)
      exact excluded.keeps_shared rfl rfl (fun _ same => by cases same)
        (fun _ _ same => by cases same) fun same => by cases same
    | tryAcquire version socketPath startedAt =>
      dsimp only at done
      split at done
      · rename_i idle
        have linked := some.inj done
        unfold link at linked
        cases file : before.shared.pidfile with
        | none =>
          rw [file] at linked
          obtain ⟨rfl, rfl⟩ := Prod.mk.inj linked
          exact excluded.keeps_link distinct file (excluded.pid worker) idle
        | some seen =>
          rw [file] at linked
          obtain ⟨rfl, rfl⟩ := Prod.mk.inj linked
          exact excluded.keeps_shared rfl rfl (fun _ same => by cases same)
            (fun _ _ same => by cases same) fun same => by cases same
      · cases done
    | clearStale expected =>
      dsimp only at done
      split at done
      · obtain ⟨rfl, rfl⟩ := Prod.mk.inj (some.inj done)
        exact excluded.keeps_shared rfl rfl (fun _ same => by cases same)
          (fun _ _ same => by cases same) fun same => by cases same
      · cases done
    | start =>
      dsimp only at done
      split at done
      · rename_i ready
        obtain ⟨rfl, rfl⟩ := Prod.mk.inj (some.inj done)
        have idle := ready.1
        exact excluded.keeps_shared rfl rfl (fun _ same => by cases idle.symm.trans same)
          (fun _ _ same => by cases idle.symm.trans same) fun same => by cases idle.symm.trans same
      · cases done
    | stop =>
      dsimp only at done
      split at done
      · obtain ⟨rfl, rfl⟩ := Prod.mk.inj (some.inj done)
        exact excluded.keeps_shared rfl rfl (fun _ same => by cases same)
          (fun _ _ same => by cases same) fun same => by cases same
      · cases done
  · cases done

end Excluded

/-- In every run that removes only what it has read, at most one live process holds the lock, and the
pidfile names it. -/
theorem lock_exclusive (count : Nat) (pids : Fin count → Nat)
    (distinct : Function.Injective pids) (valid : ∀ worker, pidInValidRange (pids worker))
    (pidfile : Option Content) (running : Nat → Bool)
    (leftover : ∀ info, pidfile = some (.record info) → ∀ worker, info.pid ≠ pids worker)
    (final : Config Shared Process count)
    (run : ReflTransGen (Moves Steady) (init pids pidfile running) final) :
    (∀ first second, Holder final first → Holder final second → first = second) ∧
      ∀ worker, Holder final worker → Names final (final.workers worker).pid := by
  have excluded : Excluded pids final := by
    induction run with
    | refl => exact Excluded.init leftover
    | tail _ moves ih => exact ih.keeps distinct valid moves
  refine ⟨fun first second holds others => ?_, fun worker holds => ?_⟩
  · obtain ⟨info, linked, own⟩ := excluded.named first holds
    obtain ⟨info', linked', own'⟩ := excluded.named second others
    rw [linked] at linked'
    obtain rfl := Content.record.inj (some.inj linked')
    exact distinct (own.symm.trans own')
  · rw [excluded.pid]
    exact excluded.named worker holds

/-- The processes of a schedule take their actions one after the other. -/
def follow : List (Fin count × Action) → Config Shared Process count → Option (Config Shared Process count)
  | [], state => some state
  | (worker, action) :: schedule, state => (state.step move action worker).bind (follow schedule)

theorem run_of_follow {schedule : List (Fin count × Action)}
    {start final : Config Shared Process count} (followed : follow schedule start = some final) :
    ReflTransGen (Moves fun _ _ _ => True) start final := by
  induction schedule generalizing start with
  | nil =>
    obtain rfl := some.inj followed
    exact .refl
  | cons entry schedule ih =>
    obtain ⟨moved, stepped, rest⟩ := bind_eq_some_iff.mp followed
    exact .head ⟨entry.2, entry.1, trivial, stepped⟩ (ih rest)

def threePids (candidate : Fin 3) : Nat := candidate + 10

/-- The record of a process that has crashed. -/
def crashedRecord : Content := .record ⟨9, "1.0.0", "daemon.sock", 0⟩

/-- The first process finds the record stale, the second one replaces it, and the first one then
removes the new record. -/
def racingClear : List (Fin 3 × Action) :=
  [(0, .clearStale (some 9)), (0, .proceed), (0, .proceed),
    (1, .clearStale (some 9)), (1, .proceed), (1, .proceed), (1, .proceed),
    (1, .tryAcquire "1.0.0" "daemon.sock" 1), (0, .proceed),
    (2, .tryAcquire "1.0.0" "daemon.sock" 2)]

/-- Two live processes hold the lock at once, and the pidfile does not name the first of them. -/
theorem lock_shared : ∃ final : Config Shared Process 3, ReflTransGen (Moves fun _ _ _ => True)
      (init threePids (some crashedRecord) fun _ => false) final ∧
    Holder final 1 ∧ Holder final 2 ∧ ¬ Names final 11 := by
  have followed : (follow racingClear
      (init threePids (some crashedRecord) fun _ => false)).any fun final =>
        (final.workers 1).holds && final.shared.running (final.workers 1).pid &&
        (final.workers 2).holds && final.shared.running (final.workers 2).pid &&
        final.shared.pidfile = some (.record ⟨12, "1.0.0", "daemon.sock", 2⟩) := by
    decide +kernel
  obtain ⟨final, ran, checked⟩ := (any_eq_true _ _).mp followed
  simp only [Bool.and_eq_true, decide_eq_true_eq] at checked
  obtain ⟨⟨⟨⟨first, firstRuns⟩, second⟩, secondRuns⟩, file⟩ := checked
  refine ⟨final, run_of_follow ran, ⟨first, firstRuns⟩, ⟨second, secondRuns⟩, ?_⟩
  rintro ⟨info, linked, same⟩
  rw [file] at linked
  obtain rfl := Content.record.inj (some.inj linked)
  cases same

/-- A process that takes the lock where no pidfile exists is named by the pidfile. -/
theorem lock_exclusive_first : ∃ final : Config Shared Process 3,
    Holder final 1 ∧ Names final (final.workers 1).pid := by
  have stepped : ((init threePids none fun _ => false).step move
      (.tryAcquire "1.0.0" "daemon.sock" 1) 1).isSome := by decide +kernel
  obtain ⟨final, moved⟩ := isSome_iff_exists.mp stepped
  have run : ReflTransGen (Moves Steady) (init threePids none fun _ => false) final :=
    .single ⟨.tryAcquire "1.0.0" "daemon.sock" 1, 1, fun same => Action.noConfusion same, moved⟩
  have holder : Holder final 1 := by
    have done : ((init threePids none fun _ => false).step move
        (.tryAcquire "1.0.0" "daemon.sock" 1) 1).all fun final =>
          (final.workers 1).holds && final.shared.running (final.workers 1).pid := by
      decide +kernel
    rw [moved] at done
    exact Bool.and_eq_true_iff.mp done
  have distinct : Function.Injective threePids := by decide
  obtain ⟨_, named⟩ := lock_exclusive 3 threePids distinct (by decide +kernel) none
    (fun _ => false) (fun _ missing => by cases missing) final run
  exact ⟨final, holder, named 1 holder⟩

end Codegraph.Daemon
