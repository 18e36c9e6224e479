import Codegraph.Graph.Nodes
import Mathlib.Logic.Relation

namespace Codegraph

open Library Relation List

abbrev EventId := Nat

/-- A wall clock in milliseconds, which may be set back. -/
abbrev Timestamp := Nat

/-- The caller names the parent, and nothing checks that it exists. -/
structure EditReason where
  description : String
  originalContext : String
  parentEventId : Option EventId
  cascadeDepth : UInt8

structure EventEntry where
  id : EventId
  timestamp : Timestamp
  event : GraphEvent
  reason : Option EditReason

def EventEntry.parent (entry : EventEntry) : Option EventId :=
  entry.reason.bind EditReason.parentEventId

structure EventLog where
  entries : List EventEntry
  nextId : EventId

/-- A binary search finds where a property of the entries ends. It may stop anywhere when the entries
with the property are not a prefix. -/
structure PartitionPoint where
  point : (EventEntry → Bool) → List EventEntry → Nat
  split : ∀ holds first rest, (∀ entry ∈ first, holds entry = true) →
    (∀ entry ∈ rest, holds entry = false) → point holds (first ++ rest) = first.length

/-- The search looks at the entries in turn. -/
def PartitionPoint.linear : PartitionPoint where
  point holds entries := (entries.takeWhile holds).length
  split holds first rest early late := by
    rw [takeWhile_append_of_pos early]
    cases rest with
    | nil => rw [takeWhile_nil, append_nil]
    | cons head rest => rw [takeWhile_cons_of_neg (by simp [late head mem_cons_self]), append_nil]

namespace EventLog

def new : EventLog := ⟨[], 1⟩

/-- The clock is read once, and the id of the new entry is returned. -/
def append (now : Timestamp) (event : GraphEvent) (reason : Option EditReason) (log : EventLog) :
    EventLog × EventId :=
  (⟨log.entries ++ [⟨log.nextId, now, event, reason⟩], log.nextId + 1⟩, log.nextId)

/-- The ids of removed entries are not given out again. -/
def undo (log : EventLog) : EventLog × Option EventEntry :=
  (⟨log.entries.dropLast, log.nextId⟩, log.entries.getLast?)

def eventsSince (search : PartitionPoint) (log : EventLog) (timestamp : Timestamp) : List EventEntry :=
  log.entries.drop (search.point (fun entry => decide (entry.timestamp < timestamp)) log.entries)

def getEvent (log : EventLog) (id : EventId) : Option EventEntry :=
  log.entries.find? fun entry => entry.id = id

/-- The rounds of the loop, which has no result when the fuel ends. -/
def traceFrom (log : EventLog) : Nat → Option EventId → Option (List EventEntry)
  | 0, _ => none
  | _ + 1, none => some []
  | fuel + 1, some id =>
    match log.getEvent id with
    | none => some []
    | some entry => (traceFrom log fuel entry.parent).map (entry :: ·)

def traceCascade (fuel : Nat) (log : EventLog) (id : EventId) : Option (List EventEntry) :=
  log.traceFrom fuel (some id)

/-- The entry of an event names another event as its parent. -/
def Links (log : EventLog) (id parent : EventId) : Prop :=
  ∃ entry, log.getEvent id = some entry ∧ entry.parent = some parent

/-- The chain starts at the event and follows the parents until one has no entry. -/
structure IsCascade (log : EventLog) (id : EventId) (chain : List EventEntry) : Prop where
  starts : chain.head? = log.getEvent id
  stored : ∀ entry ∈ chain, entry ∈ log.entries
  linked : chain.IsChain fun entry parent => entry.parent = some parent.id
  ends : ∀ last ∈ chain.getLast?, ∀ parent, last.parent = some parent → log.getEvent parent = none

/-- Every cascade is traced to its end with no entry twice, and the entries since a time are those with
a timestamp that is not earlier. -/
structure Answers (search : PartitionPoint) (log : EventLog) : Prop where
  traced : ∀ id, ∃ fuel chain, log.traceCascade fuel id = some chain ∧ chain.Nodup ∧ log.IsCascade id chain
  since : ∀ timestamp, log.eventsSince search timestamp =
    log.entries.filter fun entry => timestamp ≤ entry.timestamp

end EventLog

/-- What a caller does with the log, at a reading of the clock. -/
inductive LogAction where
  | append (now : Timestamp) (event : GraphEvent) (reason : Option EditReason)
  | undo

namespace EventLog

def act (log : EventLog) : LogAction → EventLog
  | .append now event reason => (log.append now event reason).1
  | .undo => log.undo.1

def run (actions : List LogAction) : EventLog := actions.foldl act new

/-- The clock is not behind the entries, and the parents of the named parent do not lead to the id that
the entry gets. -/
def Admits (log : EventLog) : LogAction → Prop
  | .append now _ reason => (∀ entry ∈ log.entries, entry.timestamp ≤ now) ∧
      ∀ parent, reason.bind EditReason.parentEventId = some parent →
        ¬ReflTransGen log.Links parent log.nextId
  | .undo => True

/-- The ids of the entries are distinct and were given out. -/
structure Numbered (log : EventLog) : Prop where
  distinct : (log.entries.map EventEntry.id).Nodup
  given : ∀ entry ∈ log.entries, entry.id < log.nextId

theorem Numbered.act {log : EventLog} (numbered : log.Numbered) (action : LogAction) :
    (log.act action).Numbered := by
  cases action with
  | append now event reason =>
    refine ⟨?_, ?_⟩
    · change ((log.entries ++ [_]).map EventEntry.id).Nodup
      rw [map_append, nodup_append]
      refine ⟨numbered.distinct, nodup_singleton _, ?_⟩
      intro first mem second single
      obtain ⟨entry, stored, rfl⟩ := mem_map.mp mem
      rw [map_singleton, mem_singleton] at single
      rw [single]
      exact ne_of_lt (numbered.given entry stored)
    intro entry mem
    rcases mem_append.mp mem with old | new
    · exact Nat.lt_succ_of_lt (numbered.given entry old)
    · rw [mem_singleton.mp new]
      exact Nat.lt_succ_self _
  | undo =>
    refine ⟨?_, fun entry mem => numbered.given entry (mem_of_mem_dropLast mem)⟩
    exact numbered.distinct.sublist ((dropLast_sublist _).map _)

theorem numbered_run (actions : List LogAction) : (run actions).Numbered := by
  induction actions using List.reverseRecOn with
  | nil => exact ⟨nodup_nil, fun _ mem => absurd mem not_mem_nil⟩
  | append_singleton actions action ih =>
    rw [run, foldl_append]
    exact ih.act action

theorem getEvent_eq_some {log : EventLog} (numbered : log.Numbered) (id : EventId)
    (entry : EventEntry) : log.getEvent id = some entry ↔ entry ∈ log.entries ∧ entry.id = id := by
  unfold getEvent
  constructor
  · intro found
    exact ⟨mem_of_find?_eq_some found, of_decide_eq_true
      (find?_some (p := fun entry : EventEntry => decide (entry.id = id)) found)⟩
  intro ⟨stored, named⟩
  cases found : log.entries.find? fun entry => entry.id = id with
  | none =>
    have absent := find?_eq_none.mp found entry stored
    rw [decide_eq_true named] at absent
    exact absurd rfl absent
  | some other =>
    have listed := mem_of_find?_eq_some found
    have same : other.id = entry.id := by
      have kept := find?_some found
      rw [named]
      exact of_decide_eq_true kept
    rw [inj_on_of_nodup_map numbered.distinct listed stored same]

end EventLog

end Codegraph
