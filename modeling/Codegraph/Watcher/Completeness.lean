/-
This file models the file watcher with its pending edits, debounce deadline and syncs, and shows that
no processed edit is lost while every step meets the condition.
-/

import Codegraph.Library.Dict
import Mathlib.Logic.Relation

namespace Codegraph.Watcher

open Library Option Function Dict

/-- The wall clock in milliseconds and the monotonic clock. -/
structure Clock where
  nowMs : Int
  instant : Nat

/-- The first and the last event of a file since its last sync. -/
structure PendingInfo where
  firstSeenMs : Int
  lastSeenMs : Int
deriving DecidableEq

/-- A started watcher and its worker share this state. -/
structure WatcherState (Path : Type) where
  ready : Bool := false
  syncing : Bool := false
  syncStartedMs : Int := 0
  deadline : Option Nat := none
  pendingFiles : Dict Path PendingInfo := ∅

namespace WatcherState

variable {Path : Type} [DecidableEq Path]

/-- An event of a watched file is recorded once the watcher is ready, and always sets the
deadline. -/
def handleChange (debounceMs : Nat) (now : Clock) (path : Path) (state : WatcherState Path) :
    WatcherState Path :=
  { state with
    pendingFiles :=
      if state.ready then
        state.pendingFiles.update path ⟨now.nowMs, now.nowMs⟩ fun entry =>
          { entry with lastSeenMs := now.nowMs }
      else state.pendingFiles
    deadline := some (now.instant + debounceMs) }

/-- The end of the start: the watch set is installed. -/
def start (state : WatcherState Path) : WatcherState Path :=
  { state with pendingFiles := ∅, ready := true }

def isDue (now : Clock) (state : WatcherState Path) : Bool :=
  state.deadline.any fun deadline => deadline ≤ now.instant

/-- The worker takes the deadline and flushes, unless a sync is running. -/
def flush (now : Clock) (state : WatcherState Path) : WatcherState Path :=
  if state.syncing then { state with deadline := none }
  else { state with deadline := none, syncStartedMs := now.nowMs, syncing := true }

/-- After a sync only the files with a later event stay pending. -/
def prune (state : WatcherState Path) : WatcherState Path :=
  { state with
    pendingFiles := state.pendingFiles.retain fun info => state.syncStartedMs < info.lastSeenMs }

/-- Another pass is scheduled when pending files remain. -/
def endFlush (debounceMs : Nat) (now : Clock) (state : WatcherState Path) : WatcherState Path :=
  { state with
    syncing := false
    deadline :=
      if state.pendingFiles.entries = [] then state.deadline else some (now.instant + debounceMs) }

end WatcherState

/-- The worker waits, runs a sync, or has its result. -/
inductive Phase where
  | waiting
  | syncing
  | ended (failed : Bool)
deriving DecidableEq

/-- The watcher among the files, the index and a sync. The last three fields only remember: the
newest version whose event was processed, whether that was after the start of the sync, and whether
an event was processed before the watcher was ready and no sync was successful since. -/
structure World (Path : Type) where
  watcher : WatcherState Path := {}
  phase : Phase := .waiting
  disk : Path → Nat
  indexed : Path → Nat
  reads : Path → Option Nat := fun _ => none
  processed : Path → Nat := fun _ => 0
  since : Path → Bool := fun _ => false
  unrecorded : Path → Bool := fun _ => false

/-- An event tells of a version that the file has or had. A sync reads files at any time and in any
order; a failed one, or one without the lock, leaves some of its reads in the index or none. -/
inductive Step (Path : Type) where
  | edit (path : Path)
  | event (now : Clock) (path : Path) (version : Nat)
  | start
  | flush (now : Clock)
  | read (path : Path)
  | succeed
  | fail (kept : Path → Bool)
  | endFlush (now : Clock)

namespace World

variable {Path : Type} [DecidableEq Path]

/-- A successful sync has read every file. -/
def Enabled (world : World Path) : Step Path → Prop
  | .edit _ => True
  | .event _ path version => version ≤ world.disk path
  | .start => world.watcher.ready = false
  | .flush now => world.phase = .waiting ∧ world.watcher.isDue now
  | .read _ => world.phase = .syncing
  | .succeed => world.phase = .syncing ∧ ∀ path, world.reads path ≠ none
  | .fail _ => world.phase = .syncing
  | .endFlush _ => ∃ failed, world.phase = .ended failed

def step (debounceMs : Nat) (world : World Path) : Step Path → World Path
  | .edit path => { world with disk := Function.update world.disk path (world.disk path + 1) }
  | .event now path version =>
    { world with
      watcher := world.watcher.handleChange debounceMs now path
      processed := Function.update world.processed path (max (world.processed path) version)
      since := Function.update world.since path true
      unrecorded :=
        Function.update world.unrecorded path (world.unrecorded path || !world.watcher.ready) }
  | .start => { world with watcher := world.watcher.start }
  | .flush now =>
    { world with
      watcher := world.watcher.flush now
      phase := .syncing
      reads := fun _ => none
      since := fun _ => false }
  | .read path => { world with reads := Function.update world.reads path (some (world.disk path)) }
  | .succeed =>
    { world with
      watcher := world.watcher.prune
      phase := .ended false
      indexed := fun path => (world.reads path).getD (world.indexed path)
      unrecorded := fun path => world.unrecorded path && world.since path }
  | .fail kept =>
    { world with
      phase := .ended true
      indexed := fun path =>
        if kept path then (world.reads path).getD (world.indexed path) else world.indexed path }
  | .endFlush now => { world with watcher := world.watcher.endFlush debounceMs now, phase := .waiting }

/-- A new watcher over files that are indexed in the version they have or an older one. -/
structure Fresh (world : World Path) : Prop where
  watcher : world.watcher = {}
  phase : world.phase = .waiting
  indexed : ∀ path, world.indexed path ≤ world.disk path
  reads : ∀ path, world.reads path = none
  processed : ∀ path, world.processed path = 0
  since : ∀ path, world.since path = false
  unrecorded : ∀ path, world.unrecorded path = false

/-- A file whose processed edit is not in the index is pending, or a deadline is set, or a sync runs
that was started after the event. -/
def Complete (world : World Path) : Prop :=
  ∀ path, world.indexed path < world.processed path →
    world.watcher.pendingFiles.get path ≠ none ∨ world.watcher.deadline ≠ none ∨
      (world.watcher.syncing = true ∧ world.since path = false)

/-- Without a running sync the next one is scheduled. -/
def Scheduled (world : World Path) : Prop :=
  world.watcher.syncing = false → ∀ path, world.indexed path < world.processed path →
    world.watcher.deadline ≠ none

/-- A file leaves the pending ones only with a successful sync that was started after its last
event. -/
def PrunesCovered (world : World Path) (step : Step Path) (next : World Path) : Prop :=
  ∀ path, world.watcher.pendingFiles.get path ≠ none → next.watcher.pendingFiles.get path = none →
      step = .succeed ∧ world.since path = false

/-- An event during a sync is stamped later than its start, and a failed sync does not end with no
file pending and no deadline while an event is not recorded. -/
def Meets (world : World Path) : Step Path → Prop
  | .event now _ _ => world.phase = .syncing → world.watcher.ready = true →
      world.watcher.syncStartedMs < now.nowMs
  | .endFlush _ => world.phase = .ended true → world.watcher.pendingFiles = ∅ →
      world.watcher.deadline = none → ∀ path, world.unrecorded path = false
  | _ => True

/-- One step that meets the condition. -/
def Moves (debounceMs : Nat) (world next : World Path) : Prop :=
  ∃ step, world.Enabled step ∧ world.Meets step ∧ next = world.step debounceMs step

end World

namespace World

variable {Path : Type} [DecidableEq Path] {world : World Path} {debounceMs : Nat}

/-- What holds between two steps of a watcher whose steps meet the condition. -/
structure Tracked (world : World Path) : Prop where
  processed : ∀ path, world.processed path ≤ world.disk path
  indexed : ∀ path, world.indexed path ≤ world.disk path
  reads : ∀ path version, world.reads path = some version →
    world.indexed path ≤ version ∧ version ≤ world.disk path
  covers : ∀ path version, world.phase = .syncing → world.since path = false →
    world.reads path = some version → world.processed path ≤ version
  notReady : world.watcher.ready = false → world.watcher.pendingFiles = ∅
  syncing : world.watcher.syncing = true ↔ world.phase ≠ .waiting
  known : ∀ path, world.indexed path < world.processed path →
    world.watcher.pendingFiles.get path ≠ none ∨ world.unrecorded path = true
  waits : ∀ path, world.unrecorded path = true → world.watcher.deadline ≠ none ∨
      (world.phase ≠ .waiting ∧ world.phase ≠ .ended false ∧ world.since path = false)
  later : ∀ path, world.phase ≠ .waiting → world.since path = true → world.watcher.deadline ≠ none
  stamped : ∀ path info, world.phase = .syncing → world.since path = true →
    world.watcher.pendingFiles.get path = some info → world.watcher.syncStartedMs < info.lastSeenMs
  pending : world.watcher.pendingFiles ≠ ∅ → world.watcher.deadline ≠ none ∨ world.phase ≠ .waiting

namespace Tracked

theorem fresh (fresh : world.Fresh) : world.Tracked where
  processed path := fresh.processed path ▸ Nat.zero_le _
  indexed := fresh.indexed
  reads path version found := by
    rw [fresh.reads] at found
    contradiction
  covers path version _ _ _ := fresh.processed path ▸ Nat.zero_le _
  notReady _ := by rw [fresh.watcher]
  syncing := by
    rw [fresh.watcher, fresh.phase]
    simp
  known path behind := by
    rw [fresh.processed] at behind
    omega
  waits path unrecorded := by
    rw [fresh.unrecorded] at unrecorded
    contradiction
  later path busy := absurd fresh.phase busy
  stamped path info syncing := by
    rw [fresh.phase] at syncing
    contradiction
  pending files := by
    rw [fresh.watcher] at files
    contradiction

section

variable (tracked : world.Tracked)
include tracked

theorem edit (path : Path) : (world.step debounceMs (.edit path)).Tracked := by
  have grows (other : Path) : world.disk other ≤
      update world.disk path (world.disk path + 1) other := by
    by_cases same : other = path
    · rw [same, update_self]
      exact Nat.le_succ _
    · rw [update_of_ne same]
  exact { tracked with
    processed := fun other => (tracked.processed other).trans (grows other)
    indexed := fun other => (tracked.indexed other).trans (grows other)
    reads := fun other version found =>
      ⟨(tracked.reads other version found).1, (tracked.reads other version found).2.trans (grows other)⟩ }

/-- The event is recorded or remembered, and the deadline is set. -/
theorem event {now : Clock} {path : Path} {version : Nat} (told : version ≤ world.disk path)
    (stamp : world.phase = .syncing → world.watcher.ready = true →
      world.watcher.syncStartedMs < now.nowMs) :
    (world.step debounceMs (.event now path version)).Tracked := by
  have scheduled : (world.step debounceMs (.event now path version)).watcher.deadline ≠ none := by
    simp [step, WatcherState.handleChange]
  have pendingFiles (other : Path) (ready : world.watcher.ready = true) :
      (world.step debounceMs (.event now path version)).watcher.pendingFiles.get other =
        if other = path then some ⟨(world.watcher.pendingFiles.getD path
          ⟨now.nowMs, now.nowMs⟩).firstSeenMs, now.nowMs⟩
        else world.watcher.pendingFiles.get other := by
    simp only [step, WatcherState.handleChange, ready, if_true, get_update]
  have untouched (ready : world.watcher.ready = false) :
      (world.step debounceMs (.event now path version)).watcher.pendingFiles =
        world.watcher.pendingFiles := by
    simp [step, WatcherState.handleChange, ready]
  refine { tracked with
    processed := ?_, covers := ?_, notReady := ?_, known := ?_, waits := fun _ _ => .inl scheduled,
    later := fun _ _ _ => scheduled, stamped := ?_, pending := fun _ => .inl scheduled }
  · intro other
    by_cases same : other = path
    · subst same
      simp only [step, update_self]
      exact max_le (tracked.processed other) told
    · simp only [step, update_of_ne same]
      exact tracked.processed other
  · intro other read syncing before found
    by_cases same : other = path
    · subst same
      simp [step] at before
    · simp only [step, update_of_ne same] at before ⊢
      exact tracked.covers other read syncing before found
  · intro ready
    rw [untouched ready]
    exact tracked.notReady ready
  · intro other behind
    cases ready : world.watcher.ready with
    | true =>
      rw [pendingFiles other ready]
      by_cases same : other = path
      · simp [same]
      · simp only [step, update_of_ne same, if_neg same] at behind ⊢
        exact tracked.known other behind
    | false =>
      rw [untouched ready]
      by_cases same : other = path
      · subst same
        right
        simp [step, ready]
      · simp only [step, update_of_ne same] at behind ⊢
        exact tracked.known other behind
  · intro other info syncing after found
    cases ready : world.watcher.ready with
    | true =>
      rw [pendingFiles other ready] at found
      by_cases same : other = path
      · rw [if_pos same] at found
        obtain rfl := some.inj found
        exact stamp syncing ready
      rw [if_neg same] at found
      simp only [step, update_of_ne same] at after
      exact tracked.stamped other info syncing after found
    | false =>
      rw [untouched ready, tracked.notReady ready, get_empty] at found
      contradiction

theorem start (notReady : world.watcher.ready = false) : (world.step debounceMs .start).Tracked := by
  have none := tracked.notReady notReady
  refine { tracked with
    notReady := fun _ => rfl, known := ?_, stamped := ?_, pending := fun files => absurd rfl files }
  · intro path behind
    have known := tracked.known path behind
    rwa [none] at known
  intro path info _ _ found
  change Dict.get ∅ path = some info at found
  rw [get_empty] at found
  contradiction

theorem flush {now : Clock} (waiting : world.phase = .waiting) :
    (world.step debounceMs (.flush now)).Tracked := by
  have idle : world.watcher.syncing = false := by
    have syncing := tracked.syncing
    rw [waiting] at syncing
    simpa using syncing
  have unchanged : (world.step debounceMs (.flush now)).watcher =
      { world.watcher with deadline := none, syncStartedMs := now.nowMs, syncing := true } := by
    simp [step, WatcherState.flush, idle]
  refine { tracked with
    reads := ?_, covers := ?_, notReady := ?_, syncing := ?_, known := ?_, waits := ?_, later := ?_,
    stamped := ?_, pending := ?_ }
  · exact fun path version found => by contradiction
  · exact fun path version _ _ found => by contradiction
  · rw [unchanged]
    exact tracked.notReady
  · rw [unchanged]
    simp [step]
  · rw [unchanged]
    exact tracked.known
  · exact fun path _ => .inr ⟨by simp [step], by simp [step], rfl⟩
  · exact fun path _ after => by contradiction
  · exact fun path info _ after => by contradiction
  · exact fun _ => .inr (by simp [step])

theorem read (path : Path) : (world.step debounceMs (.read path)).Tracked := by
  refine { tracked with reads := ?_, covers := ?_ }
  · intro other version found
    by_cases same : other = path
    · subst same
      simp only [step, update_self, some.injEq] at found
      exact found ▸ ⟨tracked.indexed other, le_refl _⟩
    · simp only [step, update_of_ne same] at found
      exact tracked.reads other version found
  intro other version syncing before found
  by_cases same : other = path
  · subst same
    simp only [step, update_self, some.injEq] at found
    exact found ▸ tracked.processed other
  · simp only [step, update_of_ne same] at found
    exact tracked.covers other version syncing before found

/-- A successful sync indexes every edit whose event it was started after, and keeps the files with
a later event. -/
theorem succeed (syncing : world.phase = .syncing)
    (all : ∀ path, world.reads path ≠ none) : (world.step debounceMs .succeed).Tracked := by
  have read (path : Path) : ∃ version, world.reads path = some version ∧
      (world.step debounceMs .succeed).indexed path = version := by
    obtain ⟨version, found⟩ := ne_none_iff_exists'.mp (all path)
    exact ⟨version, found, by simp [step, found]⟩
  have kept (path : Path) : (world.step debounceMs .succeed).watcher.pendingFiles.get path =
        (world.watcher.pendingFiles.get path).filter
          fun info => world.watcher.syncStartedMs < info.lastSeenMs :=
    get_retain _ _ _
  refine { tracked with
    indexed := ?_, reads := ?_, covers := ?_, notReady := ?_, syncing := ?_, known := ?_,
    waits := ?_, later := ?_, stamped := ?_, pending := ?_ }
  · intro path
    obtain ⟨version, found, same⟩ := read path
    rw [same]
    exact (tracked.reads path version found).2
  · intro path version found
    obtain ⟨version', found', same⟩ := read path
    have equal := some.inj (found'.symm.trans found)
    rw [same, equal]
    exact ⟨le_refl _, (tracked.reads path version found).2⟩
  · exact fun path version impossible => by simp [step] at impossible
  · intro ready
    rw [eq_empty_iff]
    intro path
    rw [kept, tracked.notReady ready, get_empty]
    rfl
  · have busy := tracked.syncing
    simp only [syncing] at busy
    simpa [step, WatcherState.prune] using busy
  · intro path behind
    obtain ⟨version, found, same⟩ := read path
    rw [same] at behind
    have older := (tracked.reads path version found).1.trans_lt behind
    have after : world.since path = true := by
      by_contra before
      have covered := tracked.covers path version syncing (by simpa using before) found
      exact absurd behind (Nat.not_lt_of_le covered)
    rcases tracked.known path older with pending | unrecorded
    · left
      obtain ⟨info, held⟩ := ne_none_iff_exists'.mp pending
      rw [kept, held, filter_some, if_pos]
      · simp
      · simpa using tracked.stamped path info syncing after held
    · right
      simp [step, unrecorded, after]
  · intro path unrecorded
    left
    simp only [step, Bool.and_eq_true] at unrecorded
    exact tracked.later path (by simp [syncing]) unrecorded.2
  · intro path _ after
    exact tracked.later path (by simp [syncing]) after
  · exact fun path info impossible => by simp [step] at impossible
  · exact fun _ => .inr (by simp [step])

theorem fail (syncing : world.phase = .syncing) (kept : Path → Bool) :
    (world.step debounceMs (.fail kept)).Tracked := by
  have between (path : Path) : world.indexed path ≤ (world.step debounceMs (.fail kept)).indexed path ∧
      (world.step debounceMs (.fail kept)).indexed path ≤ world.disk path := by
    have bounds := tracked.reads path
    simp only [step]
    split
    · cases found : world.reads path with
      | none => exact ⟨le_refl _, tracked.indexed path⟩
      | some version => exact bounds version found
    · exact ⟨le_refl _, tracked.indexed path⟩
  refine { tracked with
    indexed := fun path => (between path).2, reads := ?_, covers := ?_, syncing := ?_, known := ?_,
    waits := ?_, later := ?_, stamped := ?_, pending := ?_ }
  · intro path version found
    obtain ⟨low, high⟩ := tracked.reads path version found
    refine ⟨?_, high⟩
    have read : world.reads path = some version := found
    simp only [step, read, getD_some]
    split
    · exact le_refl _
    · exact low
  · exact fun path version impossible => by simp [step] at impossible
  · have busy := tracked.syncing
    simp only [syncing] at busy
    simpa [step] using busy
  · intro path behind
    exact tracked.known path ((between path).1.trans_lt behind)
  · intro path unrecorded
    rcases tracked.waits path unrecorded with scheduled | ⟨_, _, before⟩
    · exact .inl scheduled
    · exact .inr ⟨by simp [step], by simp [step], before⟩
  · intro path _ after
    exact tracked.later path (by simp [syncing]) after
  · exact fun path info impossible => by simp [step] at impossible
  · exact fun _ => .inr (by simp [step])

/-- A failed sync that leaves an event unrecorded is followed by another one. -/
theorem endFlush {now : Clock} {failed : Bool} (ended : world.phase = .ended failed)
    (recorded : world.phase = .ended true → world.watcher.pendingFiles = ∅ →
      world.watcher.deadline = none → ∀ path, world.unrecorded path = false) :
    (world.step debounceMs (.endFlush now)).Tracked := by
  have keeps (scheduled : world.watcher.deadline ≠ none) :
      (world.step debounceMs (.endFlush now)).watcher.deadline ≠ none := by
    simp only [step, WatcherState.endFlush]
    split
    · exact scheduled
    · simp
  have reschedules (files : world.watcher.pendingFiles ≠ ∅) :
      (world.step debounceMs (.endFlush now)).watcher.deadline ≠ none := by
    have entries : world.watcher.pendingFiles.entries ≠ [] := fun none => files (AList.ext none)
    simp [step, WatcherState.endFlush, entries]
  refine { tracked with
    covers := ?_, syncing := ?_, waits := ?_, later := ?_, stamped := ?_,
    pending := fun files => .inl (reschedules files) }
  · exact fun path version impossible => by simp [step] at impossible
  · simp [step, WatcherState.endFlush]
  · intro path unrecorded
    left
    have flagged : world.unrecorded path = true := unrecorded
    by_cases scheduled : world.watcher.deadline = none
    · rcases tracked.waits path flagged with impossible | ⟨_, unsuccessful, _⟩
      · exact absurd scheduled impossible
      by_cases files : world.watcher.pendingFiles = ∅
      · have lost : world.phase = .ended true := by
          cases failed with
          | true => exact ended
          | false => exact absurd ended unsuccessful
        rw [recorded lost files scheduled path] at flagged
        contradiction
      · exact reschedules files
    · exact keeps scheduled
  · exact fun path impossible => by simp [step] at impossible
  · exact fun path info impossible => by simp [step] at impossible

theorem step {move : Step Path} (enabled : world.Enabled move)
    (meets : world.Meets move) : (world.step debounceMs move).Tracked := by
  cases move with
  | edit path => exact tracked.edit path
  | event now path version => exact tracked.event enabled meets
  | start => exact tracked.start enabled
  | flush now => exact tracked.flush enabled.1
  | read path => exact tracked.read path
  | succeed => exact tracked.succeed enabled.1 enabled.2
  | fail kept => exact tracked.fail enabled kept
  | endFlush now =>
    obtain ⟨failed, ended⟩ := enabled
    exact tracked.endFlush ended meets

end

theorem run {first final : World Path} (fresh : first.Fresh)
    (run : Relation.ReflTransGen (Moves debounceMs) first final) : final.Tracked := by
  induction run with
  | refl => exact Tracked.fresh fresh
  | tail _ move tracked =>
    obtain ⟨step, enabled, meets, rfl⟩ := move
    exact tracked.step enabled meets

theorem complete (tracked : world.Tracked) : world.Complete := by
  intro path behind
  rcases tracked.known path behind with pending | unrecorded
  · exact .inl pending
  rcases tracked.waits path unrecorded with scheduled | ⟨busy, _, before⟩
  · exact .inr (.inl scheduled)
  · exact .inr (.inr ⟨tracked.syncing.mpr busy, before⟩)

theorem scheduled (tracked : world.Tracked) : world.Scheduled := by
  intro idle path behind
  have waiting : world.phase = .waiting := by
    by_contra busy
    rw [tracked.syncing.mpr busy] at idle
    contradiction
  rcases tracked.known path behind with pending | unrecorded
  · have files : world.watcher.pendingFiles ≠ ∅ := by
      intro none
      rw [none, get_empty] at pending
      contradiction
    exact (tracked.pending files).resolve_right (not_not_intro waiting)
  · exact (tracked.waits path unrecorded).resolve_right fun busy => busy.1 waiting

/-- Only the start and a successful sync remove pending files, and nothing is pending at the
start. -/
theorem prunes (tracked : world.Tracked) {move : Step Path} (enabled : world.Enabled move) :
    world.PrunesCovered move (world.step debounceMs move) := by
  intro path pending removed
  obtain ⟨info, held⟩ := ne_none_iff_exists'.mp pending
  cases move with
  | edit | read | fail | endFlush => exact absurd removed pending
  | event now other version =>
    simp only [World.step, WatcherState.handleChange] at removed
    split at removed
    · rw [get_update] at removed
      split at removed
      · contradiction
      · exact absurd removed pending
    · exact absurd removed pending
  | start =>
    rw [tracked.notReady enabled, get_empty] at pending
    contradiction
  | flush now =>
    simp only [World.step, WatcherState.flush] at removed
    split at removed <;> exact absurd removed pending
  | succeed =>
    refine ⟨rfl, ?_⟩
    by_contra after
    have late := tracked.stamped path info enabled.1 (by simpa using after) held
    change (world.watcher.pendingFiles.retain _).get path = none at removed
    rw [get_retain, held, filter_some, if_pos (by simpa using late)] at removed
    contradiction

end Tracked

/-- The steps are possible one after the other. -/
def Follows (debounceMs : Nat) : World Path → List (Step Path) → Prop
  | _, [] => True
  | world, move :: rest => world.Enabled move ∧ Follows debounceMs (world.step debounceMs move) rest

def after (debounceMs : Nat) (world : World Path) (moves : List (Step Path)) : World Path :=
  moves.foldl (step debounceMs) world

/-- In a run whose steps meet the condition every processed edit is in the index, pending, scheduled
or read by a running sync; without a sync one is scheduled, and no file is pruned early. -/
theorem watcher_complete (debounceMs : Nat) (first final : World Path) (fresh : first.Fresh)
    (run : Relation.ReflTransGen (Moves debounceMs) first final) :
    final.Complete ∧ final.Scheduled ∧
      ∀ move, final.Enabled move → final.PrunesCovered move (final.step debounceMs move) := by
  have tracked := Tracked.run fresh run
  exact ⟨tracked.complete, tracked.scheduled, fun _ enabled => tracked.prunes enabled⟩

/-- One file that is indexed in its first version. -/
def oneFile : World Unit := { disk := fun _ => 0, indexed := fun _ => 0 }

theorem oneFile_fresh : oneFile.Fresh := by
  constructor <;> first | rfl | exact fun _ => rfl | exact fun _ => le_refl _

/-- An edit after the start is pending. -/
theorem ready_edit_kept : (oneFile.after 2000 [.start, .edit (), .event ⟨5, 5⟩ () 1]).Complete := by
  refine (watcher_complete 2000 oneFile _ oneFile_fresh ?_).1
  refine ((Relation.ReflTransGen.refl.tail ⟨.start, rfl, trivial, rfl⟩).tail
    ⟨.edit (), trivial, trivial, rfl⟩).tail ⟨.event ⟨5, 5⟩ () 1, ?_, ?_, rfl⟩
  · exact le_refl 1
  · intro syncing
    contradiction

/-- An event is processed before the watcher is ready, and its sync does not get the lock. -/
def earlyEvent : List (Step Unit) :=
  [.edit (), .event ⟨5, 5⟩ () 1, .start, .flush ⟨2005, 2005⟩, .fail fun _ => false, .endFlush ⟨2006, 2006⟩]

/-- The edit is neither pending nor will another sync be run. -/
theorem earlyEvent_dropped : oneFile.Fresh ∧ Follows 2000 oneFile earlyEvent ∧
      ¬(oneFile.after 2000 earlyEvent).Complete ∧ ¬(oneFile.after 2000 earlyEvent).Scheduled := by
  refine ⟨oneFile_fresh, ?_, ?_, ?_⟩
  · exact ⟨trivial, le_refl 1, rfl, ⟨rfl, by decide⟩, rfl, ⟨true, rfl⟩, trivial⟩
  · intro complete
    rcases complete () (by decide) with pending | scheduled | ⟨syncing, _⟩
    · exact pending (by decide)
    · exact scheduled (by decide +kernel)
    · exact absurd syncing (by decide)
  · intro scheduled
    exact scheduled (by decide) () (by decide) (by decide +kernel)

end World

end Codegraph.Watcher
