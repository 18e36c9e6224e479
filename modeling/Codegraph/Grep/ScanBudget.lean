import Codegraph.Grep.ScanOutcomes

namespace Codegraph.Grep

open Library Relation List

/-- The call is not cancelled, and the deadline is not reached. -/
def Calm (weather : Weather) : Prop := weather.cancelled = false ∧ weather.late = false

namespace ScanRequest

variable (req : ScanRequest)

/-- The bytes that the search of a candidate adds. -/
def size (index : Nat) : Nat := (req.sizeRead index).elim 0 Fin.val

/-- The whole range fits the byte budget, or no order of the files can exhaust it: the budget is
the largest number, or no file is read after the first candidate, which is exempt. -/
def FitsBudget : Prop :=
  ((List.range' req.first (req.last - req.first)).map req.size).sum ≤ req.limits.maxBytes.val ∨
    req.limits.maxBytes.val = 2 ^ 64 - 1 ∨
    ∀ index, req.first < index → index < req.last → req.sizeRead index = none

/-- The same search of a range that ends at a given candidate. -/
def upTo (stop : Nat) : ScanRequest := { req with stop := some stop }

end ScanRequest

variable {req : ScanRequest} {weather : Weather}

theorem start_of_range {index : Nat} (atLeast : req.first ≤ index) (below : index < req.last) :
    req.first = req.start := by
  unfold ScanRequest.first at atLeast ⊢
  omega

theorem scanOne_bytes (calm : Calm weather) (index : Nat) (bytes : U64) :
    (scanOne req weather index bytes).2.val = (bytes.val + req.size index) % 2 ^ 64 := by
  rw [scanOne, ScanRequest.size, if_neg (by simp [calm.1]), if_neg (by simp [calm.2])]
  cases req.sizeRead index with
  | none => exact (Nat.mod_eq_of_lt bytes.isLt).symm
  | some size =>
    dsimp only
    split <;> exact Fin.val_add bytes size

/-- Only the byte budget can reject a candidate, and it rejects no first candidate. -/
theorem scanOne_missed (calm : Calm weather) (index : Nat) (bytes : U64) :
    isNotReached (scanOne req weather index bytes).1 ↔ index ≠ req.start ∧ req.sizeRead index ≠ none ∧
        req.limits.maxBytes.val < min (bytes.val + req.size index) (2 ^ 64 - 1) := by
  rw [scanOne, ScanRequest.size, if_neg (by simp [calm.1]), if_neg (by simp [calm.2])]
  cases req.sizeRead index with
  | none => simp [isNotReached_found]
  | some size =>
    dsimp only
    by_cases exhausted : index ≠ req.start ∧ req.limits.maxBytes.val < saturatingAdd bytes size
    · rw [if_pos exhausted]
      exact iff_of_true rfl ⟨exhausted.1, Option.some_ne_none _, exhausted.2⟩
    rw [if_neg exhausted]
    refine iff_of_false (by simp [isNotReached_found]) fun missed => ?_
    exact exhausted ⟨missed.1, missed.2.2⟩

/-- The bytes of the results that a worker has. -/
def Worker.added (req : ScanRequest) (worker : Worker) : Nat :=
  (worker.held.map fun entry => req.size entry.1).sum

variable {threads : Nat}

theorem added_le_claimed (worker : Worker) : worker.added req ≤ (worker.claimed.map req.size).sum := by
  have same : ((((worker.held.map Prod.fst : List Nat) : Multiset Nat)).map req.size).sum =
      worker.added req := by
    rw [Multiset.map_coe, Multiset.sum_coe, List.map_map]
    rfl
  unfold Worker.claimed
  split
  · rw [Multiset.map_add, Multiset.sum_add, same]
    exact Nat.le_add_right _ _
  · rw [same]

theorem total_claimed_size (state : ScanState threads) :
    (state.total fun worker => (worker.claimed.map req.size).sum) =
      ((state.total Worker.claimed).map req.size).sum := by
  unfold Config.total
  induction (Finset.univ : Finset (Fin threads)) using Finset.induction_on with
  | empty => rfl
  | insert worker rest fresh ih =>
    rw [Finset.sum_insert fresh, Finset.sum_insert fresh, Multiset.map_add, Multiset.sum_add, ih]

/-- The added bytes are at most those of the whole range. -/
theorem added_le {allowed : Weather → Prop} {state : ScanState threads}
    (accounted : Accounted req allowed state) : state.total (Worker.added req) ≤
      ((List.range' req.first (req.last - req.first)).map req.size).sum := by
  have claimed : state.total (Worker.added req) ≤
      ((List.range' req.first (min state.shared.next req.last - req.first)).map req.size).sum := by
    calc state.total (Worker.added req)
        ≤ state.total fun worker => (worker.claimed.map req.size).sum :=
          Finset.sum_le_sum fun worker _ => added_le_claimed _
      _ = ((state.total Worker.claimed).map req.size).sum := total_claimed_size state
      _ = _ := by rw [accounted.claimed, Multiset.map_coe, Multiset.sum_coe]
  refine le_trans claimed ?_
  have parts : req.last - req.first = (min state.shared.next req.last - req.first) +
      (req.last - max req.first (min state.shared.next req.last)) := by omega
  rw [parts, ← range'_append_1, map_append, sum_append]
  exact Nat.le_add_right _ _

theorem added_finished {allowed : Weather → Prop} {final : ScanState threads}
    (accounted : Accounted req allowed final) (finished : ScanState.Finished final)
    (past : req.last ≤ final.shared.next) : final.total (Worker.added req) =
      ((List.range' req.first (req.last - req.first)).map req.size).sum := by
  have each : final.total (Worker.added req) =
      final.total fun worker => (worker.claimed.map req.size).sum := by
    refine Finset.sum_congr rfl fun worker _ => ?_
    change _ = ((final.workers worker).claimed.map req.size).sum
    rw [claimed_of_ended (finished worker), Multiset.map_coe, Multiset.sum_coe, List.map_map]
    rw [Worker.added, held_of_ended (finished worker)]
    rfl
  have whole : min final.shared.next req.last = req.last := by omega
  rw [each, total_claimed_size, accounted.claimed, whole, Multiset.map_coe, Multiset.sum_coe]

theorem added_step {before : ScanState threads} {worker : Fin threads} {shared : Shared}
    {moved : Worker} (calm : Calm weather)
    (stepped : workerStep req weather before.shared (before.workers worker) = some (shared, moved)) :
    (moved.held = (before.workers worker).held ∧ shared.bytes = before.shared.bytes ∧
      (before.set worker shared moved).total (Worker.added req) = before.total (Worker.added req)) ∨
    ∃ index, (before.workers worker).phase = .scanning index ∧ moved.held = (before.workers worker).held ++
        [(index, (scanOne req weather index before.shared.bytes).1)] ∧
      shared.bytes.val = (before.shared.bytes.val + req.size index) % 2 ^ 64 ∧
      (before.set worker shared moved).total (Worker.added req) =
        before.total (Worker.added req) + req.size index := by
  obtain ⟨rest, first, second⟩ := before.total_set (Worker.added req) worker shared moved
  obtain ⟨same, bytes⟩ | ⟨index, phase, grown, bytes⟩ := held_step stepped
  · have added : moved.added req = (before.workers worker).added req := by
      unfold Worker.added
      rw [same]
    exact .inl ⟨same, bytes, by rw [second, first, added]⟩
  have added : moved.added req = (before.workers worker).added req + req.size index := by
    unfold Worker.added
    rw [grown, map_append, sum_append]
    simp
  refine .inr ⟨index, phase, grown, by rw [bytes, scanOne_bytes calm], ?_⟩
  rw [second, first, added]
  omega

/-- No result is left out, and the shared counter holds the added bytes when they fit. -/
structure Unhurried (state : ScanState threads) (req : ScanRequest) : Prop where
  accounted : Accounted req Calm state
  reached : ∀ worker, ∀ entry ∈ (state.workers worker).held, isNotReached entry.2 = false
  bytes : ((List.range' req.first (req.last - req.first)).map req.size).sum ≤
    req.limits.maxBytes.val → state.shared.bytes.val = state.total (Worker.added req)

/-- A worker searches a candidate of the range. -/
theorem scanning_bounds {allowed : Weather → Prop} {state : ScanState threads}
    (accounted : Accounted req allowed state) {worker : Fin threads} {index : Nat}
    (phase : (state.workers worker).phase = .scanning index) :
    req.first ≤ index ∧ index < req.last := by
  have claimed : index ∈ (state.workers worker).claimed := by
    rw [Worker.claimed, phase]
    simp
  have listed : index ∈ state.total Worker.claimed :=
    Multiset.mem_of_le (Finset.single_le_sum (fun _ _ => Multiset.zero_le _)
      (Finset.mem_univ worker)) claimed
  rw [accounted.claimed, Multiset.mem_coe, mem_range'_1] at listed
  omega

namespace Unhurried

theorem init : Unhurried (ScanState.init req : ScanState threads) req where
  accounted := Accounted.init
  reached := fun _ _ held => by cases held
  bytes := fun _ => by
    change 0 = ∑ _ : Fin threads, 0
    rw [Finset.sum_const_zero]

theorem keeps (fits : req.FitsBudget) (before after : ScanState threads)
    (unhurried : Unhurried before req) (moves : Moves (workerStep req) Calm before after) :
    Unhurried after req := by
  have accounted := Accounted.keeps before after unhurried.accounted moves
  obtain ⟨weather, worker, shared, moved, calm, stepped, rfl⟩ := moves.cases
  have others := before.set_cases worker shared moved
  obtain ⟨same, bytes, total⟩ | ⟨index, phase, grown, bytes, total⟩ := added_step calm stepped
  · refine ⟨accounted, ?_, fun small => ?_⟩
    · intro other entry held
      obtain ⟨_, changed⟩ | kept := others other
      · rw [changed, same] at held
        exact unhurried.reached worker entry held
      · exact unhurried.reached other entry (kept ▸ held)
    · rw [total, ← unhurried.bytes small]
      exact congrArg Fin.val bytes
  obtain ⟨atLeast, below⟩ := scanning_bounds unhurried.accounted phase
  have atStart := start_of_range atLeast below
  have within := added_le accounted
  have counted (small : ((List.range' req.first (req.last - req.first)).map req.size).sum ≤
      req.limits.maxBytes.val) : before.shared.bytes.val + req.size index ≤ req.limits.maxBytes.val := by
    have counter := unhurried.bytes small
    omega
  have reached : isNotReached (scanOne req weather index before.shared.bytes).1 = false := by
    rw [Bool.eq_false_iff]
    intro missed
    obtain ⟨later, read, exceeds⟩ := (scanOne_missed calm index _).mp missed
    obtain small | largest | unread := fits
    · have room := counted small
      omega
    · omega
    · exact read (unread index (by omega) below)
  refine ⟨accounted, ?_, fun small => ?_⟩
  · intro other entry held
    obtain ⟨_, changed⟩ | kept := others other
    · rw [changed, grown, mem_append, mem_singleton] at held
      obtain old | rfl := held
      · exact unhurried.reached worker entry old
      · exact reached
    · exact unhurried.reached other entry (kept ▸ held)
  have room := counted small
  have limit := req.limits.maxBytes.isLt
  have noWrap : shared.bytes.val = before.shared.bytes.val + req.size index := by
    rw [bytes, Nat.mod_eq_of_lt (by omega)]
  change shared.bytes.val = _
  rw [noWrap, total, unhurried.bytes small]

end Unhurried

/-- A range that fits the budget is searched completely in every order of the steps. -/
theorem completes_of_fits (fits : req.FitsBudget) {final : ScanState threads}
    (run : Run req Calm final) (finished : ScanState.Finished final) (worker : Fin threads)
    (weather : Weather) : (scanOutcome req weather final).stopped = none := by
  have unhurried := run_preserves (Unhurried.keeps fits) run Unhurried.init
  obtain ⟨_, stopped, outcome, _, _, _, complete, _⟩ :=
    scanOutcome_eq unhurried.accounted finished worker weather
  rw [outcome]
  change stopped = none
  rw [complete]
  intro entry held
  obtain ⟨other, stored⟩ := mem_slots.mp held
  exact unhurried.reached other entry (by rw [held_of_ended (finished other)]; exact stored)

/-- The first candidate was counted before all others. A later candidate that did not fit the budget
on top of those before it was left out. -/
structure FirstCounted (state : ScanState threads) (req : ScanRequest) : Prop where
  accounted : Accounted req Calm state
  begun : req.start < state.shared.next
  later : ∀ worker index, (state.workers worker).phase = .scanning index → index ≠ req.start
  budget : (∃ worker, ∃ entry ∈ (state.workers worker).held, isNotReached entry.2) ∨
    state.shared.bytes.val = state.total (Worker.added req) ∧
      (state.total (Worker.added req) ≤ req.limits.maxBytes.val ∨
        ∀ worker, ∀ entry ∈ (state.workers worker).held, entry.1 ≠ req.start → req.sizeRead entry.1 = none)

namespace FirstCounted

theorem keeps (limited : req.limits.maxBytes.val < 2 ^ 64 - 1) (before after : ScanState threads)
    (counted : FirstCounted before req) (moves : Moves (workerStep req) Calm before after) :
    FirstCounted after req := by
  have accounted := Accounted.keeps before after counted.accounted moves
  obtain ⟨weather, worker, shared, moved, calm, stepped, rfl⟩ := moves.cases
  have others := before.set_cases worker shared moved
  refine ⟨accounted, Nat.lt_of_lt_of_le counted.begun (shared_step stepped).2, ?_, ?_⟩
  · intro other index phase
    obtain ⟨_, changed⟩ | kept := others other
    · have next := scanning_step stepped (changed ▸ phase)
      have begun := counted.begun
      omega
    · exact counted.later other index (kept ▸ phase)
  obtain ⟨same, bytes, total⟩ | ⟨index, phase, grown, bytes, total⟩ := added_step calm stepped
  · have held (other : Fin threads) : ((before.set worker shared moved).workers other).held =
        (before.workers other).held := by
      obtain ⟨rfl, changed⟩ | kept := others other
      · rw [changed, same]
      · rw [kept]
    simp only [held, total]
    change _ ∨ shared.bytes.val = _ ∧ _
    rw [bytes]
    exact counted.budget
  have keepsHeld (other : Fin threads) : ∀ entry ∈ (before.workers other).held,
      entry ∈ ((before.set worker shared moved).workers other).held := by
    intro entry held
    obtain ⟨rfl, changed⟩ | kept := others other
    · rw [changed, grown]
      exact mem_append_left _ held
    · exact kept ▸ held
  obtain ⟨other, entry, held, missed⟩ | ⟨counter, room⟩ := counted.budget
  · exact .inl ⟨other, entry, keepsHeld other entry held, missed⟩
  by_cases missed : isNotReached (scanOne req weather index before.shared.bytes).1 = true
  · refine .inl ⟨worker, (index, (scanOne req weather index before.shared.bytes).1), ?_, missed⟩
    rw [before.set_self, grown]
    exact mem_append_right _ (mem_singleton_self _)
  have notFirst := counted.later worker index phase
  rw [scanOne_missed calm, not_and, not_and] at missed
  refine .inr ?_
  change shared.bytes.val = _ ∧ _
  by_cases read : req.sizeRead index = none
  · have nothing : req.size index = 0 := by
      rw [ScanRequest.size, read]
      rfl
    rw [bytes, total, nothing, add_zero, add_zero, Nat.mod_eq_of_lt before.shared.bytes.isLt]
    refine ⟨counter, room.imp_right fun unread other entry held later => ?_⟩
    obtain ⟨rfl, changed⟩ | kept := others other
    · rw [changed, grown, mem_append, mem_singleton] at held
      obtain old | rfl := held
      · exact unread other entry old later
      · exact read
    · exact unread other entry (kept ▸ held) later
  have fits := missed notFirst read
  rw [bytes, total, Nat.mod_eq_of_lt (by omega), counter]
  exact ⟨rfl, .inl (by omega)⟩

/-- The first worker can claim and search the first candidate before the others move. -/
theorem exists_start (nonempty : req.first < req.last) (worker : Fin threads) :
    ∃ state : ScanState threads, Run req Calm state ∧ FirstCounted state req := by
  have atStart := start_of_range (le_refl _) nonempty
  have calm : Calm {} := ⟨rfl, rfl⟩
  have moves (shared shared' : Shared) (waiting moved : Worker)
      (stepped : workerStep req {} shared waiting = some (shared', moved)) :
      Moves (workerStep req) Calm ((ScanState.init req).set worker shared waiting)
        ((ScanState.init req).set worker shared' moved) := by
    refine ⟨{}, worker, calm, Option.map_eq_some_iff.mpr ⟨(shared', moved), ?_, ?_⟩⟩
    · rwa [Config.set_self]
    · exact Config.set_set _ _ _ _ _ _
  have checked : Moves (workerStep req) Calm (ScanState.init req)
      ((ScanState.init req).set worker ⟨req.first, 0, false⟩ ⟨.claiming, []⟩) :=
    ⟨{}, worker, calm, rfl⟩
  have claimed := moves ⟨req.first, 0, false⟩ ⟨req.first + 1, 0, false⟩ ⟨.claiming, []⟩
    ⟨.scanning req.first, []⟩ (by simp [workerStep, nonempty])
  have searched := moves ⟨req.first + 1, 0, false⟩
    ⟨req.first + 1, (scanOne req {} req.first 0).2, false⟩ ⟨.scanning req.first, []⟩
    ⟨.storing req.first (scanOne req {} req.first 0).1, []⟩ rfl
  have run := ((ReflTransGen.single checked).tail claimed).tail searched
  refine ⟨_, run, Accounted.ofRun run, ?_, ?_, .inr ⟨?_, .inr ?_⟩⟩
  · change req.start < req.first + 1
    omega
  · intro other index phase
    obtain ⟨_, changed⟩ | kept := (ScanState.init req).set_cases worker _ _ other
    · rw [changed] at phase
      cases phase
    · rw [kept] at phase
      cases phase
  · obtain ⟨rest, first, second⟩ := (ScanState.init req).total_set (Worker.added req) worker
      ⟨req.first + 1, (scanOne req {} req.first 0).2, false⟩
      ⟨.storing req.first (scanOne req {} req.first 0).1, []⟩
    have before : (ScanState.init req : ScanState threads).total (Worker.added req) = 0 := by
      change ∑ _ : Fin threads, 0 = 0
      rw [Finset.sum_const_zero]
    have after : Worker.added req ⟨.storing req.first (scanOne req {} req.first 0).1, []⟩ =
        req.size req.first := add_zero _
    have small : req.size req.first < 2 ^ 64 := by
      unfold ScanRequest.size
      cases req.sizeRead req.first with
      | none => decide
      | some size => exact size.isLt
    rw [second, after]
    change (scanOne req {} req.first 0).2.val = _
    rw [scanOne_bytes calm]
    change (0 + _) % _ = _
    rw [Nat.zero_add, Nat.mod_eq_of_lt small]
    omega
  · intro other entry held later
    obtain ⟨_, changed⟩ | kept := (ScanState.init req).set_cases worker _ _ other
    · rw [changed] at held
      obtain rfl := mem_singleton.mp held
      exact absurd atStart later
    · rw [kept] at held
      cases held

end FirstCounted

/-- The steps that a worker has left before it claims again. -/
def Worker.weight (worker : Worker) : Nat :=
  match worker.phase with
  | .ended => 0
  | .claiming => 1
  | .checking => 2
  | .storing _ _ => 3
  | .scanning _ => 4

theorem workerStep_falls (weather : Weather) (shared : Shared) (worker : Worker) (shared' : Shared)
    (worker' : Worker) (moved : workerStep req weather shared worker = some (shared', worker')) :
    4 * (req.last - shared'.next) + worker'.weight < 4 * (req.last - shared.next) + worker.weight := by
  unfold Worker.weight
  obtain ⟨phase, rfl, rfl⟩ | ⟨phase, rfl, rfl⟩ | ⟨index, phase, rfl, rfl⟩ |
    ⟨index, slot, phase, rfl, rfl⟩ := workerStep_cases moved
  · cases raised : shared'.stop <;> simp [phase, raised]
  · by_cases past : req.last ≤ shared.next
    · simp [phase, past]
      omega
    · simp [phase, past]
      omega
  · simp [phase]
  · simp [phase]

theorem fits_of_completes (worker : Fin threads)
    (completes : ∀ final : ScanState threads, Run req Calm final → ScanState.Finished final →
      (scanOutcome req {} final).stopped = none) : req.FitsBudget := by
  by_cases limited : req.limits.maxBytes.val < 2 ^ 64 - 1
  · by_cases nonempty : req.first < req.last
    · obtain ⟨start, begun, counted⟩ := FirstCounted.exists_start nonempty worker
      have moves (shared : Shared) (worker : Worker) (running : worker.phase ≠ .ended) :
          (workerStep req {} shared worker).isSome := by
        unfold workerStep
        cases phase : worker.phase with
        | ended => exact absurd phase running
        | checking => rfl
        | claiming => rfl
        | scanning index => rfl
        | storing index slot => rfl
      have calm : Calm {} := ⟨rfl, rfl⟩
      obtain ⟨final, rest, finished⟩ : ∃ final, ReflTransGen (Moves (workerStep req) Calm) start
          final ∧ ScanState.Finished final := run_finishes workerStep_falls calm moves start
      have run := begun.trans rest
      have last := run_preserves (FirstCounted.keeps limited) rest counted
      obtain ⟨_, stopped, outcome, _, _, _, complete, _⟩ :=
        scanOutcome_eq last.accounted finished worker {}
      have reached := complete.mp (by
        have none := completes final run finished
        rw [outcome] at none
        exact none)
      have past : req.last ≤ final.shared.next := by
        obtain past | ⟨entry, held, missed⟩ := claimed_all last.accounted finished worker
        · exact past
        · rw [reached entry held] at missed
          cases missed
      have inSlots (other : Fin threads) (entry : Nat × Slot)
          (held : entry ∈ (final.workers other).held) : entry ∈ ScanState.slots final := by
        rw [held_of_ended (finished other)] at held
        exact mem_slots.mpr ⟨other, held⟩
      obtain ⟨other, entry, held, missed⟩ | ⟨_, small | unread⟩ := last.budget
      · rw [reached entry (inSlots other entry held)] at missed
        cases missed
      · rw [added_finished last.accounted finished past] at small
        exact .inl small
      refine .inr (.inr fun index after before => ?_)
      have key : index ∈ (ScanState.slots final).map Prod.fst := by
        rw [(keys_perm last.accounted finished).mem_iff, mem_range'_1]
        omega
      obtain ⟨entry, held, rfl⟩ := mem_map.mp key
      obtain ⟨other, stored⟩ := mem_slots.mp held
      have atStart := start_of_range (le_refl _) nonempty
      exact unread other entry (by rw [held_of_ended (finished other)]; exact stored) (by omega)
    · have empty : req.last - req.first = 0 := by omega
      exact .inl (by rw [empty]; exact Nat.zero_le _)
  · exact .inr (.inl (by omega))

/-- In every order of the steps the outcome is the search of a prefix of the range, and the prefix is
not empty unless the call is cancelled. Every search of the range up to a candidate completes exactly
when that range fits the budget. -/
theorem scan_interleavings (req : ScanRequest) (threads : Nat) (some_worker : 0 < threads) :
    (∀ (allowed : Weather → Prop) (final : ScanState threads) (weather : Weather),
      Run req allowed final → ScanState.Finished final →
        ∃ stop stopped, scanOutcome req weather final = req.covered stop stopped ∧
          req.first ≤ stop ∧ stop ≤ req.last ∧ (stopped = none ↔ stop = req.last) ∧
          (req.first < req.last → (∀ weather, allowed weather → weather.cancelled = false) →
            req.first < stop)) ∧
    ∀ stop, (∀ final : ScanState threads, Run (req.upTo stop) Calm final →
        ScanState.Finished final → (scanOutcome (req.upTo stop) {} final).stopped = none) ↔
      (req.upTo stop).FitsBudget := by
  refine ⟨?_, fun stop => ⟨?_, ?_⟩⟩
  · intro allowed final weather run finished
    obtain ⟨stop, stopped, outcome, atLeast, atMost, complete, _, progress⟩ :=
      scanOutcome_eq (Accounted.ofRun run) finished ⟨0, some_worker⟩ weather
    exact ⟨stop, stopped, outcome, atLeast, atMost, complete, progress⟩
  · exact fits_of_completes ⟨0, some_worker⟩
  · intro fits final run finished
    exact completes_of_fits fits run finished ⟨0, some_worker⟩ {}

/-- Three files of ten bytes, of which one fits the budget after the first. -/
def threeFiles : ScanRequest where
  candidates := [⟨"a", {}⟩, ⟨"b", {}⟩, ⟨"c", {}⟩]
  disk := fun _ => some ⟨⟨10, by decide⟩, some (List.replicate 10 97)⟩
  start := 0
  stop := none
  query := {
    regex := ⟨fun _ _ => none⟩
    lossy := fun _ => []
    fingerprint := fun _ => ""
    maxPerFile := 5
    sent := {} }
  limits := { maxBytes := ⟨15, by decide⟩, maxFileBytes := ⟨100, by decide⟩ }

/-- The second worker counts the second file before the first worker counts the first one. -/
def crossedOrder : List (Fin 2) := [0, 0, 1, 1, 1, 0, 0, 1, 0, 0, 0, 0, 0, 1]

theorem scan_crossedOrder : ∃ opened : ScanState 2, Run threeFiles Calm opened ∧ ScanState.Finished opened ∧
    scanOutcome threeFiles {} opened = threeFiles.covered 2 (some .bytes) := by
  have calm : Calm {} := ⟨rfl, rfl⟩
  have followed : (Config.follow (workerStep threeFiles) {} crossedOrder
      (ScanState.init threeFiles)).any fun opened => decide (ScanState.Finished opened ∧
        scanOutcome threeFiles {} opened = threeFiles.covered 2 (some .bytes)) := by
    decide +kernel
  obtain ⟨opened, run, checked⟩ := exists_run calm followed
  exact ⟨opened, run, of_decide_eq_true checked⟩

/-- The first page covers two files, and the search of exactly these two runs out of bytes. -/
theorem scan_threeFiles_stops :
    (∃ opened : ScanState 2, Run threeFiles Calm opened ∧ ScanState.Finished opened ∧
      scanOutcome threeFiles {} opened = threeFiles.covered 2 (some .bytes)) ∧
    ∃ closed : ScanState 1, Run (threeFiles.upTo 2) Calm closed ∧ ScanState.Finished closed ∧
      (scanOutcome (threeFiles.upTo 2) {} closed).stopped = some .bytes := by
  refine ⟨scan_crossedOrder, ?_⟩
  have calm : Calm {} := ⟨rfl, rfl⟩
  have followed : (Config.follow (workerStep (threeFiles.upTo 2)) {} (List.replicate 9 0)
      (ScanState.init (threeFiles.upTo 2))).any fun closed : ScanState 1 =>
        decide (ScanState.Finished closed ∧
          (scanOutcome (threeFiles.upTo 2) {} closed).stopped = some .bytes) := by
    decide +kernel
  obtain ⟨closed, run, checked⟩ := exists_run calm followed
  exact ⟨closed, run, of_decide_eq_true checked⟩

/-- The first page of the three files has a prefix, and the range of two of them can stop. -/
theorem scan_interleavings_threeFiles : (∃ final : ScanState 2, ∃ stop stopped,
      scanOutcome threeFiles {} final = threeFiles.covered stop stopped ∧ 0 < stop) ∧
    ¬ ∀ final : ScanState 2, Run (threeFiles.upTo 2) Calm final → ScanState.Finished final →
      (scanOutcome (threeFiles.upTo 2) {} final).stopped = none := by
  obtain ⟨covers, completes⟩ := scan_interleavings threeFiles 2 (by decide)
  refine ⟨?_, ?_⟩
  · obtain ⟨final, run, finished, _⟩ := scan_crossedOrder
    obtain ⟨stop, stopped, outcome, _, _, _, progress⟩ := covers Calm final {} run finished
    exact ⟨final, stop, stopped, outcome, progress (by decide) fun _ calm => calm.1⟩
  rw [completes 2]
  intro fits
  obtain small | largest | unread := fits
  · revert small
    decide +kernel
  · revert largest
    decide +kernel
  · exact absurd (unread 1 (by decide) (by decide)) (by decide +kernel)

end Codegraph.Grep
