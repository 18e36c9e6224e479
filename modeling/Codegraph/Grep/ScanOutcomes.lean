import Codegraph.Grep.Scan
import Mathlib.Data.List.TakeWhile

namespace Codegraph.Grep

open Library Relation List Option

def Slot.hits? : Slot → Option FileHits
  | .matched hits => some hits
  | _ => none

namespace ScanRequest

variable (req : ScanRequest)

/-- The matches of consecutive candidates, in their order. -/
def matchesIn (start count : Nat) : List FileHits :=
  (List.range' start count).filterMap fun index => (req.found index).hits?

def tooLargeIn (start count : Nat) : Nat :=
  (List.range' start count).countP fun index => req.found index = .tooLarge

/-- The outcome of a search of the range up to the stop, in full and in the order of the
candidates. -/
def covered (stop : Nat) (stopped : Option StopReason) : ScanOutcome where
  files := req.matchesIn req.first (stop - req.first)
  stop := stop
  stopped := stopped
  tooLarge := req.tooLargeIn req.first (stop - req.first)

theorem matchesIn_succ (start count : Nat) : req.matchesIn start (count + 1) =
    (req.found start).hits?.toList ++ req.matchesIn (start + 1) count := by
  rw [matchesIn, range'_succ, filterMap_cons]
  cases (req.found start).hits? <;> rfl

theorem tooLargeIn_succ (start count : Nat) : req.tooLargeIn start (count + 1) =
    (if req.found start = .tooLarge then 1 else 0) + req.tooLargeIn (start + 1) count := by
  unfold tooLargeIn
  rw [range'_succ, countP_cons, add_comm]
  simp

end ScanRequest

theorem isNotReached_found (req : ScanRequest) (index : Nat) : isNotReached (req.found index) = false := by
  unfold ScanRequest.found
  repeat' split
  all_goals rfl

/-- A slot that was filled, and not because a limit was exhausted. -/
def isReached : Option Slot → Bool
  | some slot => !isNotReached slot
  | none => false

variable {req : ScanRequest} {start : Nat}

theorem length_place (slots : List (Option Slot)) (found : List (Nat × Slot)) :
    (place start slots found).length = slots.length := by
  induction found generalizing slots with
  | nil => rfl
  | cons entry found ih =>
    change (place start (slots.set _ _) found).length = _
    rw [ih, length_set]

theorem place_of_notMem (slots : List (Option Slot)) (found : List (Nat × Slot))
    (above : ∀ entry ∈ found, start ≤ entry.1) (offset : Nat)
    (missing : start + offset ∉ found.map Prod.fst) :
    (place start slots found)[offset]? = slots[offset]? := by
  induction found generalizing slots with
  | nil => rfl
  | cons entry found ih =>
    rw [map_cons, mem_cons, not_or] at missing
    change (place start (slots.set _ _) found)[offset]? = _
    have atLeast := above entry (by simp)
    rw [ih _ (fun other held => above other (by simp [held])) missing.2, getElem?_set_ne (by omega)]

theorem place_of_mem (slots : List (Option Slot)) (found : List (Nat × Slot))
    (above : ∀ entry ∈ found, start ≤ entry.1) (distinct : (found.map Prod.fst).Nodup)
    {entry : Nat × Slot} (held : entry ∈ found) (room : entry.1 - start < slots.length) :
    (place start slots found)[entry.1 - start]? = some (some entry.2) := by
  induction found generalizing slots with
  | nil => cases held
  | cons other found ih =>
    rw [map_cons, nodup_cons] at distinct
    change (place start (slots.set _ _) found)[entry.1 - start]? = _
    have rest : ∀ entry ∈ found, start ≤ entry.1 := fun entry held => above entry (by simp [held])
    obtain rfl | later := mem_cons.mp held
    · have atLeast := above entry (by simp)
      rw [place_of_notMem _ found rest _ (by rw [Nat.add_sub_cancel' atLeast]; exact distinct.1),
        getElem?_set_self room]
    · exact ih _ rest distinct.2 later (by rw [length_set]; exact room)

variable (reason : StopReason)

theorem collect_unreached (start offset : Nat) {slot : Option Slot}
    (slots : List (Option Slot)) (outcome : ScanOutcome) (unreached : isReached slot = false) :
    ∃ why, collect reason start offset (slot :: slots) outcome =
      { outcome with stop := start + offset, stopped := some why } := by
  cases slot with
  | none => exact ⟨reason, rfl⟩
  | some slot =>
    cases slot with
    | notReached why => exact ⟨why, rfl⟩
    | tooLarge => cases unreached
    | nothing => cases unreached
    | matched hits => cases unreached

theorem collect_reached (offset : Nat) {slot : Slot}
    (slots : List (Option Slot)) (outcome : ScanOutcome) (reached : isNotReached slot = false) :
    collect reason start offset (some slot :: slots) outcome = collect reason start (offset + 1) slots
        { outcome with
          files := outcome.files ++ slot.hits?.toList
          tooLarge := outcome.tooLarge + if slot = .tooLarge then 1 else 0 } := by
  cases slot with
  | notReached why => cases reached
  | tooLarge => simp [collect, Slot.hits?]
  | nothing => simp [collect, Slot.hits?]
  | matched hits => simp [collect, Slot.hits?]

theorem collect_eq (offset : Nat) (slots : List (Option Slot))
    (outcome : ScanOutcome) (running : outcome.stopped = none)
    (searched : ∀ place slot, slots[place]? = some (some slot) →
      isNotReached slot ∨ slot = req.found (start + offset + place)) :
    ∃ stopped, (stopped = none ↔ (slots.takeWhile isReached).length = slots.length) ∧
      collect reason start offset slots outcome =
        { files := outcome.files ++
            req.matchesIn (start + offset) (slots.takeWhile isReached).length
          stop := if (slots.takeWhile isReached).length = slots.length then outcome.stop
            else start + offset + (slots.takeWhile isReached).length
          stopped := stopped
          tooLarge := outcome.tooLarge +
            req.tooLargeIn (start + offset) (slots.takeWhile isReached).length } := by
  induction slots generalizing offset outcome with
  | nil =>
    exact ⟨none, by simp, by simp [collect, ScanRequest.matchesIn, ScanRequest.tooLargeIn, ← running]⟩
  | cons slot slots ih =>
    have later : ∀ place slot, slots[place]? = some (some slot) →
        isNotReached slot ∨ slot = req.found (start + (offset + 1) + place) := by
      intro place slot present
      have shifted : start + (offset + 1) + place = start + offset + (place + 1) := by omega
      rw [shifted]
      exact searched (place + 1) slot (by simpa using present)
    cases reached : isReached slot with
    | false =>
      obtain ⟨why, collected⟩ := collect_unreached reason start offset slots outcome reached
      rw [takeWhile_cons_of_neg (by simp [reached])]
      exact ⟨some why, by simp, by simp [collected, ScanRequest.matchesIn, ScanRequest.tooLargeIn]⟩
    | true =>
      obtain ⟨slot, rfl⟩ : ∃ inner, slot = some inner := by
        cases slot with
        | none => cases reached
        | some inner => exact ⟨inner, rfl⟩
      have missed : isNotReached slot = false := by simpa [isReached] using reached
      have here : slot = req.found (start + offset) := by
        obtain limit | same := searched 0 slot rfl
        · rw [missed] at limit
          cases limit
        · exact same
      obtain ⟨stopped, complete, collected⟩ := ih (offset + 1) { outcome with
        files := outcome.files ++ slot.hits?.toList
        tooLarge := outcome.tooLarge + if slot = .tooLarge then 1 else 0 } running later
      rw [collect_reached reason offset slots outcome missed, collected,
        takeWhile_cons_of_pos reached, length_cons, length_cons,
        req.matchesIn_succ, req.tooLargeIn_succ, ← here]
      refine ⟨stopped, by rw [complete]; omega, ?_⟩
      simp only [ScanOutcome.mk.injEq]
      refine ⟨?_, ?_, trivial, ?_⟩
      · rw [append_assoc, add_assoc start]
      · simp only [Nat.add_right_cancel_iff]
        split
        · rfl
        · omega
      · rw [add_assoc outcome.tooLarge, add_assoc start]

/-- The slots of a finished search before the outcome is collected. -/
def placed (req : ScanRequest) {threads : Nat} (state : ScanState threads) : List (Option Slot) :=
  place req.first (List.replicate (req.last - req.first) none) (ScanState.slots state)

section Finished

variable {allowed : Weather → Prop} {threads : Nat} {final : ScanState threads}

theorem held_of_ended {worker : Worker} (ended : worker.phase = .ended) : worker.held = worker.slots := by
  rw [Worker.held, ended]

theorem claimed_of_ended {worker : Worker} (ended : worker.phase = .ended) :
    worker.claimed = ((worker.slots.map Prod.fst : List Nat) : Multiset Nat) := by
  rw [Worker.claimed, ended, held_of_ended ended]

theorem mem_slots {entry : Nat × Slot} : entry ∈ ScanState.slots final ↔
    ∃ worker, entry ∈ (final.workers worker).slots := by
  simp [ScanState.slots, mem_flatMap, mem_ofFn]

theorem keys_total (finished : ScanState.Finished final) :
    (((ScanState.slots final).map Prod.fst : List Nat) : Multiset Nat) = final.total Worker.claimed := by
  have each : final.total Worker.claimed =
      ∑ worker, (((final.workers worker).slots.map Prod.fst : List Nat) : Multiset Nat) :=
    Finset.sum_congr rfl fun worker _ => claimed_of_ended (finished worker)
  have joined (workers : List Worker) :
      (((workers.flatMap Worker.slots).map Prod.fst : List Nat) : Multiset Nat) =
        (workers.map fun worker => ((worker.slots.map Prod.fst : List Nat) : Multiset Nat)).sum := by
    induction workers with
    | nil => rfl
    | cons worker workers ih =>
      rw [flatMap_cons, map_append, ← Multiset.coe_add, ih, map_cons, sum_cons]
  rw [each]
  rw [ScanState.slots, joined, map_ofFn, sum_ofFn]
  rfl

section

variable (accounted : Accounted req allowed final)
include accounted

/-- The results are those of the claimed candidates, once each. -/
theorem keys_perm (finished : ScanState.Finished final) : ((ScanState.slots final).map Prod.fst).Perm
      (List.range' req.first (min final.shared.next req.last - req.first)) :=
  Multiset.coe_eq_coe.mp ((keys_total finished).trans accounted.claimed)

theorem keys_distinct (finished : ScanState.Finished final) : ((ScanState.slots final).map Prod.fst).Nodup :=
  (keys_perm accounted finished).nodup_iff.mpr nodup_range'

theorem key_bounds (finished : ScanState.Finished final) {entry : Nat × Slot}
    (held : entry ∈ ScanState.slots final) : req.first ≤ entry.1 ∧ entry.1 < req.last := by
  have listed := (keys_perm accounted finished).mem_iff.mp (mem_map_of_mem held)
  rw [mem_range'_1] at listed
  omega

end

theorem length_placed (state : ScanState threads) : (placed req state).length = req.last - req.first := by
  rw [placed, length_place, length_replicate]

section

variable (accounted : Accounted req allowed final)
include accounted

theorem placed_of_mem (finished : ScanState.Finished final) {entry : Nat × Slot}
    (held : entry ∈ ScanState.slots final) :
    (placed req final)[entry.1 - req.first]? = some (some entry.2) := by
  have bounds := key_bounds accounted finished held
  exact place_of_mem _ _ (fun _ held => (key_bounds accounted finished held).1)
    (keys_distinct accounted finished) held (by rw [length_replicate]; omega)

/-- A filled place holds the result of its candidate. -/
theorem mem_of_placed (finished : ScanState.Finished final) {offset : Nat} {slot : Slot}
    (filled : (placed req final)[offset]? = some (some slot)) :
    (req.first + offset, slot) ∈ ScanState.slots final := by
  by_cases missing : req.first + offset ∈ (ScanState.slots final).map Prod.fst
  · obtain ⟨entry, held, same⟩ := mem_map.mp missing
    have atOffset : entry.1 - req.first = offset := by omega
    have present := placed_of_mem accounted finished held
    rw [atOffset, filled] at present
    rwa [← same, some.inj (some.inj present)]
  rw [placed, place_of_notMem _ _ (fun _ held => (key_bounds accounted finished held).1) _ missing,
    getElem?_replicate] at filled
  split at filled
  · cases some.inj filled
  · cases filled

theorem explained_slots (finished : ScanState.Finished final) {entry : Nat × Slot}
    (held : entry ∈ ScanState.slots final) : Explained req allowed entry := by
  obtain ⟨worker, stored⟩ := mem_slots.mp held
  exact accounted.explained worker entry (by rw [held_of_ended (finished worker)]; exact stored)

/-- A result is missing only when a limit was exhausted. -/
theorem claimed_all (finished : ScanState.Finished final) (worker : Fin threads) :
    req.last ≤ final.shared.next ∨ ∃ entry ∈ ScanState.slots final, isNotReached entry.2 := by
  obtain raised | past := accounted.left worker (finished worker)
  · obtain ⟨other, entry, stored, missed⟩ := accounted.raised raised
    exact .inr ⟨entry, mem_slots.mpr ⟨other, stored⟩, missed⟩
  · exact .inl past

/-- Every place is reached when all results are. -/
theorem reached_all_iff (finished : ScanState.Finished final) (worker : Fin threads) :
    ((placed req final).takeWhile isReached).length = (placed req final).length ↔
      ∀ entry ∈ ScanState.slots final, isNotReached entry.2 = false := by
  have whole : ((placed req final).takeWhile isReached).length = (placed req final).length ↔
      ∀ slot ∈ placed req final, isReached slot := by
    rw [← takeWhile_eq_self_iff]
    exact ⟨fun same => ( takeWhile_prefix _).eq_of_length same, fun same => by rw [same]⟩
  rw [whole]
  constructor
  · intro reached entry held
    have filled := reached _ (mem_of_getElem? (placed_of_mem accounted finished held))
    simpa [isReached] using filled
  intro reached slot filled
  obtain ⟨offset, within, rfl⟩ := mem_iff_getElem.mp filled
  have room := within
  have past : req.last ≤ final.shared.next := by
    obtain past | ⟨entry, held, missed⟩ := claimed_all accounted finished worker
    · exact past
    · rw [reached entry held] at missed
      cases missed
  rw [length_placed] at room
  have key : req.first + offset ∈ (ScanState.slots final).map Prod.fst := by
    rw [(keys_perm accounted finished).mem_iff, mem_range'_1]
    omega
  obtain ⟨entry, held, same⟩ := mem_map.mp key
  have present := placed_of_mem accounted finished held
  have atOffset : entry.1 - req.first = offset := by omega
  rw [atOffset, getElem?_eq_getElem within] at present
  rw [some.inj present]
  simp [isReached, reached entry held]

theorem reached_first
    (finished : ScanState.Finished final) (worker : Fin threads) (nonempty : req.first < req.last)
    (kept : ∀ weather, allowed weather → weather.cancelled = false) :
    0 < ((placed req final).takeWhile isReached).length := by
  have atStart : req.first = req.start := by
    unfold ScanRequest.first at nonempty ⊢
    omega
  have claimed : req.first < final.shared.next := by
    obtain past | ⟨entry, held, _⟩ := claimed_all accounted finished worker
    · omega
    have listed := (keys_perm accounted finished).mem_iff.mp (mem_map_of_mem held)
    rw [mem_range'_1] at listed
    omega
  have key : req.first ∈ (ScanState.slots final).map Prod.fst := by
    rw [(keys_perm accounted finished).mem_iff, mem_range'_1]
    omega
  obtain ⟨entry, held, same⟩ := mem_map.mp key
  have present := placed_of_mem accounted finished held
  rw [same, Nat.sub_self] at present
  have reached : isNotReached entry.2 = false := by
    obtain found | ⟨_, cancelled⟩ := explained_slots accounted finished held
    · rw [found]
      exact isNotReached_found req entry.1
    obtain ⟨weather, fine, stopped⟩ := cancelled (same.trans atStart)
    rw [kept weather fine] at stopped
    cases stopped
  cases slots : placed req final with
  | nil =>
    rw [slots] at present
    cases present
  | cons slot slots' =>
    rw [slots] at present
    have first := some.inj present
    rw [takeWhile_cons_of_pos (by simp [first, isReached, reached])]
    exact Nat.succ_pos _

/-- The outcome is the search of a prefix of the range. The prefix is the whole range when no
result is left out, and it is not empty unless the call is cancelled. -/
theorem scanOutcome_eq (finished : ScanState.Finished final) (worker : Fin threads) (weather : Weather) :
    ∃ stop stopped, scanOutcome req weather final = req.covered stop stopped ∧
      req.first ≤ stop ∧ stop ≤ req.last ∧ (stopped = none ↔ stop = req.last) ∧
      (stopped = none ↔ ∀ entry ∈ ScanState.slots final, isNotReached entry.2 = false) ∧
      (req.first < req.last → (∀ weather, allowed weather → weather.cancelled = false) →
        req.first < stop) := by
  have searched : ∀ place slot, (placed req final)[place]? = some (some slot) →
      isNotReached slot ∨ slot = req.found (req.first + 0 + place) := by
    intro place slot filled
    obtain found | ⟨missed, _⟩ :=
      explained_slots accounted finished (mem_of_placed accounted finished filled)
    · exact .inr found
    · exact .inl missed
  obtain ⟨stopped, complete, collected⟩ :=
    collect_eq (stopReason weather) 0 (placed req final) { stop := req.last } rfl searched
  have short : ((placed req final).takeWhile isReached).length ≤ req.last - req.first := by
    rw [← length_placed final]
    exact ( takeWhile_prefix _).length_le
  have ordered : req.first ≤ req.last := min_le_right _ _
  refine ⟨req.first + ((placed req final).takeWhile isReached).length, stopped, ?_, by omega,
    by omega, ?_, ?_, ?_⟩
  · refine collected.trans ?_
    rw [ScanRequest.covered, length_placed, Nat.add_sub_cancel_left]
    simp only [ScanOutcome.mk.injEq, nil_append, Nat.zero_add, add_zero]
    refine ⟨trivial, ?_, trivial, trivial⟩
    split
    · omega
    · rfl
  · rw [complete, length_placed]
    omega
  · rw [complete]
    exact reached_all_iff accounted finished worker
  · intro nonempty kept
    have first := reached_first accounted finished worker nonempty kept
    omega

end

end Finished

end Codegraph.Grep
