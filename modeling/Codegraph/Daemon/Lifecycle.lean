import Mathlib.Tactic

namespace Codegraph.Lifecycle

open Option

structure DaemonState where
  clients : List Nat := []
  idleDeadline : Option Nat := none
  stopping : Bool := false
  stopped : Bool := false
deriving DecidableEq

/-- The idle monitor looks at the state, waits for a notice, or waits until a deadline. -/
inductive Monitor where
  | awake
  | waiting
  | sleeping (deadline : Nat)
  | gone
deriving DecidableEq

/-- The state under the mutex, the sockets that are shut down, and where the threads are. -/
structure Daemon where
  state : DaemonState := {}
  now : Nat := 0
  nextClientId : Nat := 1
  shut : List Nat := []
  greeting : Option Nat := none
  sessions : List Nat := []
  leaving : List Nat := []
  monitor : Monitor := .awake
  finishing : Nat := 0
deriving DecidableEq

/-- A stop is a SIGINT or a call. -/
inductive Event where
  | accept (cloned : Bool)
  | hello (written : Bool)
  | sessionEnds (id : Nat)
  | dropClient (id : Nat)
  | tick (passed : Nat)
  | sigterm
  | stop
  | wake
  | idle
  | finishStop
deriving DecidableEq

section Sections

def armIdleDeadline (timeout now : Nat) (state : DaemonState) : DaemonState :=
  if state.idleDeadline.isSome ∨ state.stopping then state
  else if timeout = 0 then state
  else { state with idleDeadline := some (now + timeout) }

variable (timeout : Nat) (daemon : Daemon)

def notifyAll : Daemon := { daemon with monitor := if daemon.monitor = .gone then .gone else .awake }

/-- The thread that marks the daemon as stopping has to finish the stop. -/
def markStopping : Daemon :=
  notifyAll { daemon with
    state := { daemon.state with stopping := true, idleDeadline := none, clients := [] }
    shut := daemon.state.clients ++ daemon.shut
    finishing := daemon.finishing + 1 }

def handleConnection (cloned : Bool) : Daemon :=
  let id := daemon.nextClientId
  let counted := { daemon with nextClientId := id + 1 }
  if cloned = false then counted
  else if daemon.state.stopping then { counted with shut := id :: daemon.shut }
  else notifyAll { counted with
    state := { daemon.state with clients := id :: daemon.state.clients, idleDeadline := none }
    greeting := some id }

def dropClient (id : Nat) : Daemon :=
  if id ∉ daemon.state.clients then daemon
  else
    let state := { daemon.state with clients := daemon.state.clients.erase id }
    notifyAll { daemon with state :=
      if state.clients = [] ∧ state.stopping = false then armIdleDeadline timeout daemon.now state else state }

def handleSigterm : Daemon :=
  if daemon.state.stopping then daemon
  else if daemon.state.clients ≠ [] then daemon
  else markStopping daemon

def stop : Daemon := if daemon.state.stopping then daemon else markStopping daemon

/-- One round of the loop. -/
def idleLoop : Daemon :=
  if daemon.state.stopping then { daemon with monitor := .gone }
  else match daemon.state.idleDeadline with
    | none => { daemon with monitor := .waiting }
    | some deadline =>
      if daemon.now < deadline then { daemon with monitor := .sleeping deadline }
      else if daemon.state.clients ≠ [] then
        { daemon with state := armIdleDeadline timeout daemon.now { daemon.state with idleDeadline := none } }
      else { markStopping daemon with monitor := .gone }

/-- What a thread does next, where it can. No hello line gets through a socket that is shut down. -/
def step : Event → Option Daemon
  | .accept cloned => if daemon.greeting.isSome then none else some (handleConnection daemon cloned)
  | .hello written => daemon.greeting.bind fun id =>
    if written = false then some { daemon with greeting := none, leaving := id :: daemon.leaving }
    else if id ∈ daemon.shut then none
    else some { daemon with greeting := none, sessions := id :: daemon.sessions }
  | .sessionEnds id =>
    if id ∈ daemon.sessions then
      some { daemon with sessions := daemon.sessions.erase id, leaving := id :: daemon.leaving }
    else none
  | .dropClient id =>
    if id ∈ daemon.leaving then
      some (dropClient timeout { daemon with leaving := daemon.leaving.erase id } id)
    else none
  | .tick passed => some { daemon with now := daemon.now + passed }
  | .sigterm => some (handleSigterm daemon)
  | .stop => some (stop daemon)
  | .wake => some (notifyAll daemon)
  | .idle => if daemon.monitor = .awake then some (idleLoop timeout daemon) else none
  | .finishStop =>
    if daemon.finishing = 0 then none
    else some (notifyAll { daemon with
      state := { daemon.state with stopped := true }, finishing := daemon.finishing - 1 })

end Sections

/-- The timer is armed before the threads start. -/
def start (timeout : Nat) : Daemon := { state := armIdleDeadline timeout 0 {} }

def run (timeout : Nat) (events : List Event) : Option Daemon :=
  events.foldlM (step timeout) (start timeout)

/-- A client is registered before it is greeted, and a daemon without clients has a deadline. -/
structure Registered (daemon : Daemon) : Prop where
  armed : daemon.state.stopping = false → daemon.state.clients = [] → daemon.state.idleDeadline.isSome
  drained : daemon.state.stopping = true → daemon.state.clients = []
  greeted : ∀ id ∈ daemon.greeting, id < daemon.nextClientId ∧ id ∉ daemon.sessions ∧ id ∉ daemon.leaving ∧
    if daemon.state.stopping then id ∈ daemon.shut else id ∈ daemon.state.clients
  fresh : ∀ id, id ∈ daemon.sessions ∨ id ∈ daemon.leaving → id < daemon.nextClientId
  gone : daemon.monitor = .gone → daemon.state.stopping = true

/-- The idle monitor waits for the deadline of the state. -/
structure Consistent (daemon : Daemon) : Prop extends Registered daemon where
  waiting : daemon.monitor = .waiting → daemon.state.idleDeadline = none
  sleeping : ∀ deadline, daemon.monitor = .sleeping deadline → daemon.state.idleDeadline = some deadline

section Steps

variable {timeout : Nat} {daemon next : Daemon}

theorem armIdleDeadline_isSome (positive : 0 < timeout) {state : DaemonState} (running : state.stopping = false)
    (now : Nat) : (armIdleDeadline timeout now state).idleDeadline.isSome := by
  unfold armIdleDeadline
  grind

theorem armIdleDeadline_rest (timeout now : Nat) (state : DaemonState) :
    (armIdleDeadline timeout now state).clients = state.clients ∧
      (armIdleDeadline timeout now state).stopping = state.stopping := by
  unfold armIdleDeadline
  grind

/-- A notice wakes the monitor. -/
theorem Registered.notifyAll (registered : Registered daemon) : Consistent (notifyAll daemon) := by
  have awake : (Lifecycle.notifyAll daemon).monitor = if daemon.monitor = .gone then .gone else .awake := rfl
  exact { armed := registered.armed, drained := registered.drained, greeted := registered.greeted,
          fresh := registered.fresh, gone := by have := registered.gone; grind [Lifecycle.notifyAll],
          waiting := by grind, sleeping := by grind }

theorem Registered.markStopping (registered : Registered daemon) : Consistent (markStopping daemon) := by
  apply Registered.notifyAll
  refine ⟨nofun, fun _ => rfl, ?_, registered.fresh, fun _ => rfl⟩
  intro id waits
  have greeted := registered.greeted id waits
  grind

theorem Consistent.handleConnection (consistent : Consistent daemon) (free : daemon.greeting = none)
    (cloned : Bool) : Consistent (handleConnection daemon cloned) := by
  have fresh := consistent.fresh
  have later (id : Nat) (known : id ∈ daemon.sessions ∨ id ∈ daemon.leaving) :
      id < daemon.nextClientId + 1 := Nat.lt_succ_of_lt (fresh id known)
  unfold Lifecycle.handleConnection
  split
  · exact { consistent with greeted := by simp [free], fresh := later }
  split
  · exact { consistent with greeted := by simp [free], fresh := later }
  apply Registered.notifyAll
  refine ⟨nofun, by grind, ?_, later, consistent.gone⟩
  grind

theorem Consistent.dropClient (positive : 0 < timeout) (consistent : Consistent daemon) (client : Nat)
    (other : client ∉ daemon.greeting) : Consistent (dropClient timeout daemon client) := by
  have kept := armIdleDeadline_rest timeout daemon.now
    { daemon.state with clients := daemon.state.clients.erase client }
  unfold Lifecycle.dropClient
  split
  · exact consistent
  apply Registered.notifyAll
  have greeted (id : Nat) (waits : id ∈ daemon.greeting) (running : daemon.state.stopping = false) :
      id ∈ daemon.state.clients.erase client := by
    refine (List.mem_erase_of_ne ?_).mpr (by simpa [running] using (consistent.greeted id waits).2.2.2)
    rintro rfl
    exact other waits
  have drained := consistent.drained
  dsimp only
  split
  · rename_i last
    refine ⟨fun _ _ => armIdleDeadline_isSome positive (by exact last.2) _, ?_, ?_, consistent.fresh, ?_⟩
    · grind
    · intro id waits
      have old := consistent.greeted id waits
      dsimp only
      rw [kept.1, kept.2, if_neg (by simpa using last.2)]
      exact ⟨old.1, old.2.1, old.2.2.1, greeted id waits last.2⟩
    · grind [consistent.gone]
  refine ⟨by grind, fun stopped => ?_, ?_, consistent.fresh, consistent.gone⟩
  · rw [drained stopped]
    rfl
  intro id waits
  have old := consistent.greeted id waits
  have new := greeted id waits
  grind

theorem Consistent.idleLoop (consistent : Consistent daemon)
    (awake : daemon.monitor = .awake) : Consistent (idleLoop timeout daemon) := by
  have kept := armIdleDeadline_rest timeout daemon.now
    { daemon.state with idleDeadline := none }
  unfold Lifecycle.idleLoop
  split
  · exact { consistent with gone := by grind, waiting := nofun, sleeping := nofun }
  rename_i running
  split
  · exact { consistent with gone := nofun, waiting := by grind, sleeping := nofun }
  split
  · exact { consistent with gone := nofun, waiting := nofun, sleeping := by grind }
  split
  · rename_i busy
    refine ⟨⟨?_, ?_, ?_, consistent.fresh, by grind⟩, by grind, by grind⟩
    · exact fun _ none => absurd none (kept.1 ▸ busy)
    · grind
    intro id waits
    dsimp only
    rw [kept.1, kept.2]
    exact consistent.greeted id waits
  have stopped := consistent.markStopping
  exact { stopped with gone := fun _ => rfl, waiting := nofun, sleeping := nofun }

theorem Consistent.step (positive : 0 < timeout) (consistent : Consistent daemon) {event : Event}
    (taken : step timeout daemon event = some next) : Consistent next := by
  have ⟨⟨armed, drained, greeted, fresh, gone⟩, waiting, sleeping⟩ := consistent
  cases event with
  | accept cloned =>
    obtain ⟨free, rfl⟩ : daemon.greeting = none ∧ _ = next := by simpa [Lifecycle.step] using taken
    exact consistent.handleConnection free cloned
  | hello written =>
    simp only [Lifecycle.step, bind_eq_some_iff] at taken
    obtain ⟨id, waits, taken⟩ := taken
    have old := greeted id waits
    split_ifs at taken
    · cases taken
      exact { consistent with greeted := nofun, fresh := by grind }
    · cases taken
      exact { consistent with greeted := nofun, fresh := by grind }
  | sessionEnds id =>
    obtain ⟨known, rfl⟩ : id ∈ daemon.sessions ∧ _ = next := by simpa [Lifecycle.step] using taken
    refine { consistent with greeted := fun other waits => ?_, fresh := fun other => ?_ }
    · have old := greeted other waits
      have erased := List.mem_of_mem_erase (a := other) (b := id) (l := daemon.sessions)
      grind
    · have erased := List.mem_of_mem_erase (a := other) (b := id) (l := daemon.sessions)
      grind
  | dropClient id =>
    obtain ⟨known, rfl⟩ : id ∈ daemon.leaving ∧ _ = next := by simpa [Lifecycle.step] using taken
    refine Consistent.dropClient positive ?_ id fun waits => (greeted id waits).2.2.1 known
    have erased (other : Nat) := List.mem_of_mem_erase (a := other) (b := id) (l := daemon.leaving)
    exact { consistent with greeted := by grind, fresh := by grind }
  | tick passed =>
    cases taken
    exact { consistent with }
  | sigterm =>
    cases taken
    unfold handleSigterm
    split_ifs
    · exact consistent
    · exact consistent
    · exact consistent.markStopping
  | stop =>
    cases taken
    unfold Lifecycle.stop
    split_ifs
    · exact consistent
    · exact consistent.markStopping
  | wake =>
    cases taken
    exact consistent.notifyAll
  | idle =>
    obtain ⟨awake, rfl⟩ : daemon.monitor = .awake ∧ _ = next := by simpa [Lifecycle.step] using taken
    exact consistent.idleLoop awake
  | finishStop =>
    obtain ⟨-, rfl⟩ : daemon.finishing ≠ 0 ∧ _ = next := by simpa [Lifecycle.step] using taken
    apply Registered.notifyAll
    exact { consistent with }

/-- A stop begins once, and without clients unless it is asked for. -/
theorem step_stopping {event : Event} (taken : step timeout daemon event = some next) :
    daemon.state.stopping = false ∧ next.state.stopping = true ∧ event ≠ .finishStop ∧
        next.finishing = daemon.finishing + 1 ∧ (event = .stop ∨ daemon.state.clients = []) ∨
      next.state.stopping = daemon.state.stopping ∧
        daemon.finishing = next.finishing + if event = .finishStop then 1 else 0 := by
  have kept (state : DaemonState) := (armIdleDeadline_rest timeout daemon.now state).2
  cases event with
  | accept cloned => grind [step, handleConnection, notifyAll]
  | hello written =>
    simp only [step, bind_eq_some_iff] at taken
    grind
  | sessionEnds id => grind [step]
  | dropClient id => grind [step, dropClient, notifyAll]
  | tick passed => grind [step]
  | sigterm => grind [step, handleSigterm, markStopping, notifyAll]
  | stop => grind [step, stop, markStopping, notifyAll]
  | wake => grind [step, notifyAll]
  | idle => grind [step, idleLoop, markStopping, notifyAll]
  | finishStop => grind [step, notifyAll]

end Steps

theorem run_consistent {timeout : Nat} (positive : 0 < timeout) {events : List Event} {daemon : Daemon}
    (ran : run timeout events = some daemon) : Consistent daemon ∧
      events.count .finishStop + daemon.finishing = if daemon.state.stopping then 1 else 0 := by
  induction events using List.reverseRecOn generalizing daemon with
  | nil =>
    cases ran
    have armed : (armIdleDeadline timeout 0 {}).idleDeadline.isSome := armIdleDeadline_isSome positive rfl 0
    have rest := armIdleDeadline_rest timeout 0 {}
    refine ⟨⟨⟨fun _ _ => armed, fun _ => rest.1, nofun, by simp [start], nofun⟩, nofun, nofun⟩, ?_⟩
    simp [start, rest]
  | append_singleton events event ih =>
    rw [run, List.foldlM_append] at ran
    obtain ⟨before, first, last⟩ := bind_eq_some_iff.mp ran
    obtain ⟨consistent, count⟩ := ih first
    have taken : step timeout before event = some daemon := by simpa using last
    refine ⟨consistent.step positive taken, ?_⟩
    rw [List.count_append, List.count_singleton]
    rcases step_stopping taken with ⟨running, stopped, other, more, -⟩ | ⟨same, finishing⟩
    · rw [if_neg (by simpa using other)]
      rw [running] at count
      rw [stopped]
      grind
    rw [same, ← count, finishing]
    simp only [beq_iff_eq]
    omega

end Codegraph.Lifecycle
