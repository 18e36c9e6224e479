import Codegraph.EventLog.Log
import Mathlib.Data.List.TakeWhile

namespace Codegraph.EventLog

open Library Relation List Option

variable {log : EventLog}

section Order

/-- No entry is earlier than one before it. -/
def Ordered (log : EventLog) : Prop :=
  log.entries.Pairwise fun first second => first.timestamp ≤ second.timestamp

theorem eventsSince_of_ordered (search : PartitionPoint) (ordered : log.Ordered)
    (timestamp : Timestamp) : log.eventsSince search timestamp =
      log.entries.filter fun entry => timestamp ≤ entry.timestamp := by
  have early : ∀ entry ∈ log.entries.takeWhile fun entry => decide (entry.timestamp < timestamp),
      decide (entry.timestamp < timestamp) = true :=
    fun _ mem => mem_takeWhile_imp
      (p := fun entry : EventEntry => decide (entry.timestamp < timestamp)) mem
  have late : ∀ entry ∈ log.entries.dropWhile fun entry => decide (entry.timestamp < timestamp),
      decide (entry.timestamp < timestamp) = false := by
    unfold Ordered at ordered
    generalize log.entries = entries at ordered
    induction entries with
    | nil => exact fun entry mem => absurd mem not_mem_nil
    | cons head entries ih =>
      obtain ⟨first, rest⟩ := pairwise_cons.mp ordered
      intro entry mem
      rw [dropWhile_cons] at mem
      split at mem
      · exact ih rest entry mem
      rename_i reached
      rw [decide_eq_true_eq, not_lt] at reached
      rw [decide_eq_false_iff_not, not_lt]
      rcases mem_cons.mp mem with same | later
      · rwa [same]
      · exact reached.trans (first entry later)
  have parts := takeWhile_append_dropWhile
    (p := fun entry : EventEntry => decide (entry.timestamp < timestamp)) (l := log.entries)
  unfold eventsSince
  generalize log.entries.takeWhile _ = first at early parts
  generalize log.entries.dropWhile _ = rest at late parts
  rw [← parts, search.split _ first rest early late, drop_left, filter_append]
  have none_early : first.filter (fun entry => decide (timestamp ≤ entry.timestamp)) = [] := by
    rw [filter_eq_nil_iff]
    intro entry mem
    have before := early entry mem
    rw [decide_eq_true_eq] at before ⊢
    exact not_le.mpr before
  have all_late : rest.filter (fun entry => decide (timestamp ≤ entry.timestamp)) = rest := by
    rw [filter_eq_self]
    intro entry mem
    have after := late entry mem
    rw [decide_eq_false_iff_not, not_lt] at after
    exact decide_eq_true after
  rw [none_early, all_late, nil_append]

/-- Whatever the search does, the entries that it returns are the last ones, so no earlier entry may
follow one of them. -/
theorem ordered_of_eventsSince {search : PartitionPoint}
    (since : ∀ timestamp, log.eventsSince search timestamp =
      log.entries.filter fun entry => timestamp ≤ entry.timestamp) : log.Ordered := by
  rw [Ordered, pairwise_iff_forall_sublist]
  intro first second both
  by_contra earlier
  rw [not_le] at earlier
  have found := since first.timestamp
  unfold eventsSince at found
  generalize search.point _ _ = start at found
  have kept : ∀ entry ∈ log.entries.drop start, first.timestamp ≤ entry.timestamp := by
    intro entry mem
    rw [found] at mem
    exact of_decide_eq_true (mem_filter.mp mem).2
  have left : ∀ entry ∈ log.entries.take start, entry.timestamp < first.timestamp := by
    have parts : (log.entries.take start ++ log.entries.drop start).filter
        (fun entry => decide (first.timestamp ≤ entry.timestamp)) = log.entries.drop start := by
      rw [take_append_drop, found]
    rw [filter_append, filter_eq_self.mpr fun entry mem => decide_eq_true (kept entry mem),
      append_left_eq_self, filter_eq_nil_iff] at parts
    intro entry mem
    have dropped := parts entry mem
    rwa [decide_eq_true_eq, not_le] at dropped
  rw [← take_append_drop start log.entries, sublist_append_iff] at both
  obtain ⟨front, back, same, inFront, inBack⟩ := both
  cases front with
  | nil =>
    rw [nil_append] at same
    have late := kept second (inBack.subset (same ▸ mem_cons_of_mem first mem_cons_self))
    exact absurd late (not_le.mpr earlier)
  | cons head front =>
    rw [cons_append, List.cons.injEq] at same
    have early := left head (inFront.subset mem_cons_self)
    rw [← same.1] at early
    exact absurd early (lt_irrefl _)

end Order

section Cascades

/-- No event leads back to itself along the parents. -/
def Acyclic (log : EventLog) : Prop := ∀ id, ¬TransGen log.Links id id

theorem traceFrom_of_links (fuel : Nat) {id parent : EventId} (links : log.Links id parent) :
    ∃ entry, log.traceFrom (fuel + 1) (some id) = (log.traceFrom fuel (some parent)).map (entry :: ·) := by
  obtain ⟨entry, found, named⟩ := links
  refine ⟨entry, ?_⟩
  rw [traceFrom]
  simp only [found, named]

/-- The loop never leaves a cycle. -/
theorem traceFrom_of_cycle (fuel : Nat) {id : EventId} (cycle : TransGen log.Links id id) :
    log.traceFrom fuel (some id) = none := by
  induction fuel generalizing id with
  | zero => rfl
  | succ fuel ih =>
    obtain ⟨parent, links, back⟩ := TransGen.head'_iff.mp cycle
    obtain ⟨entry, round⟩ := traceFrom_of_links fuel links
    rw [round, ih (TransGen.tail' back links)]
    rfl

theorem traceFrom_spec (numbered : log.Numbered) (acyclic : log.Acyclic) (fuel : Nat) (id : EventId)
    (passed : List EventEntry) (distinct : passed.Nodup) (stored : passed ⊆ log.entries)
    (leads : ∀ entry ∈ passed, TransGen log.Links entry.id id)
    (enough : log.entries.length + 1 < passed.length + fuel) :
    ∃ chain, log.traceFrom fuel (some id) = some chain ∧ log.IsCascade id chain ∧ chain.Nodup ∧
      ∀ entry ∈ chain, ReflTransGen log.Links id entry.id := by
  induction fuel generalizing id passed with
  | zero =>
    have bound := (distinct.subperm stored).length_le
    omega
  | succ fuel ih =>
    rw [traceFrom]
    cases found : log.getEvent id with
    | none => refine ⟨[], rfl, ⟨found.symm, ?_, isChain_nil, ?_⟩, nodup_nil, ?_⟩ <;> simp
    | some entry =>
      obtain ⟨listed, named⟩ := (getEvent_eq_some numbered id entry).mp found
      have fresh : entry ∉ passed := by
        intro mem
        have loops := leads entry mem
        rw [named] at loops
        exact acyclic id loops
      have more := nodup_cons.mpr ⟨fresh, distinct⟩
      have inside := cons_subset.mpr ⟨listed, stored⟩
      have bound := (more.subperm inside).length_le
      rw [length_cons] at bound
      cases parented : entry.parent with
      | none =>
        obtain ⟨fuel, rfl⟩ := Nat.exists_eq_succ_of_ne_zero (by omega : fuel ≠ 0)
        simp only [parented]
        refine ⟨[entry], rfl, ⟨found.symm, ?_, isChain_singleton entry, ?_⟩, nodup_singleton entry, ?_⟩
        · intro other mem
          rwa [mem_singleton.mp mem]
        · intro last isLast parent named'
          rw [getLast?_singleton, mem_some_iff] at isLast
          rw [← isLast, parented] at named'
          contradiction
        · intro other mem
          rw [mem_singleton.mp mem, named]
      | some parent =>
        have links : log.Links id parent := ⟨entry, found, parented⟩
        obtain ⟨chain, traced, cascade, apart, reached⟩ := ih parent (entry :: passed) more inside
          (by
            intro other mem
            rcases mem_cons.mp mem with same | old
            · rw [same, named]
              exact TransGen.single links
            · exact (leads other old).tail links)
          (by
            rw [length_cons]
            omega)
        refine ⟨entry :: chain, ?_, ⟨found.symm, ?_, ?_, ?_⟩, ?_, ?_⟩
        · simp only [parented, traced]
          rfl
        · exact fun other mem => (mem_cons.mp mem).elim
            (fun same => same ▸ listed) (cascade.stored other)
        · rw [isChain_cons]
          refine ⟨?_, cascade.linked⟩
          intro next isNext
          rw [cascade.starts, mem_def, getEvent_eq_some numbered] at isNext
          rw [parented, isNext.2]
        · intro last isLast grand named'
          cases chain with
          | nil =>
            rw [getLast?_singleton, mem_some_iff] at isLast
            rw [← isLast, parented, some.injEq] at named'
            rw [← named']
            exact cascade.starts.symm
          | cons next chain =>
            rw [getLast?_cons_cons] at isLast
            exact cascade.ends last isLast grand named'
        · rw [nodup_cons]
          refine ⟨fun mem => ?_, apart⟩
          have back := reached entry mem
          rw [named] at back
          exact acyclic id (TransGen.head' links back)
        · intro other mem
          rcases mem_cons.mp mem with same | later
          · rw [same, named]
          · exact ReflTransGen.head links (reached other later)

theorem answers_iff (search : PartitionPoint) (numbered : log.Numbered) :
    log.Answers search ↔ log.Ordered ∧ log.Acyclic := by
  constructor
  · intro answers
    refine ⟨ordered_of_eventsSince answers.since, fun id cycle => ?_⟩
    obtain ⟨fuel, chain, traced, -⟩ := answers.traced id
    rw [traceCascade, traceFrom_of_cycle fuel cycle] at traced
    contradiction
  intro ⟨ordered, acyclic⟩
  refine ⟨fun id => ?_, eventsSince_of_ordered search ordered⟩
  obtain ⟨chain, traced, cascade, distinct, -⟩ := traceFrom_spec numbered acyclic
    (log.entries.length + 2) id [] nodup_nil (nil_subset _)
    (fun _ mem => absurd mem not_mem_nil) (by simp)
  exact ⟨_, chain, traced, distinct, cascade⟩

end Cascades

section Runs

theorem getEvent_append (numbered : log.Numbered) (now : Timestamp) (event : GraphEvent)
    (reason : Option EditReason) (id : EventId) :
    (log.append now event reason).1.getEvent id =
      if id = log.nextId then some ⟨log.nextId, now, event, reason⟩ else log.getEvent id := by
  unfold getEvent append
  rw [find?_append]
  by_cases same : id = log.nextId
  · have absent : (log.entries.find? fun entry => entry.id = id) = none := by
      rw [find?_eq_none]
      intro entry mem named
      exact absurd (same ▸ of_decide_eq_true named) (ne_of_lt (numbered.given entry mem))
    rw [absent, none_or, if_pos same, find?_singleton, if_pos (decide_eq_true same.symm)]
  · have apart : decide (log.nextId = id) = false := decide_eq_false fun named => same named.symm
    rw [if_neg same, find?_singleton, apart, if_neg Bool.false_ne_true, or_none]

/-- The new entry adds one link. -/
theorem links_append (numbered : log.Numbered) (now : Timestamp) (event : GraphEvent)
    (reason : Option EditReason) (id parent : EventId) :
    (log.append now event reason).1.Links id parent ↔ log.Links id parent ∨
      (id = log.nextId ∧ reason.bind EditReason.parentEventId = some parent) := by
  rw [Links, getEvent_append numbered]
  split
  · rename_i same
    constructor
    · rintro ⟨entry, found, named⟩
      obtain rfl := some.inj found
      exact .inr ⟨same, named⟩
    rintro (⟨entry, found, -⟩ | ⟨-, named⟩)
    · obtain ⟨stored, given⟩ := (getEvent_eq_some numbered id entry).mp found
      exact absurd (given.trans same) (ne_of_lt (numbered.given entry stored))
    · exact ⟨_, rfl, named⟩
  rename_i other
  constructor
  · exact .inl
  rintro (old | ⟨same, -⟩)
  · exact old
  · exact absurd same other

/-- A walk over one more link is a walk without it or passes its ends. -/
theorem transGen_of_added {relation added : EventId → EventId → Prop} {source target : EventId}
    (split : ∀ first second, added first second → relation first second ∨
      (first = source ∧ second = target)) (apart : ¬ReflTransGen relation target source)
    {first last : EventId} (walk : TransGen added first last) :
    TransGen relation first last ∨
      (ReflTransGen relation first source ∧ ReflTransGen relation target last) := by
  induction walk with
  | single step =>
    rcases split _ _ step with old | ⟨rfl, rfl⟩
    · exact .inl (TransGen.single old)
    · exact .inr ⟨.refl, .refl⟩
  | tail _ step ih =>
    rcases ih with before | ⟨reaches, beyond⟩
    · rcases split _ _ step with old | ⟨rfl, rfl⟩
      · exact .inl (before.tail old)
      · exact .inr ⟨before.to_reflTransGen, .refl⟩
    rcases split _ _ step with old | ⟨rfl, rfl⟩
    · exact .inr ⟨reaches, beyond.tail old⟩
    · exact absurd beyond apart

theorem acyclic_append_iff (numbered : log.Numbered) (acyclic : log.Acyclic) (now : Timestamp)
    (event : GraphEvent) (reason : Option EditReason) :
    (log.append now event reason).1.Acyclic ↔ ∀ parent, reason.bind EditReason.parentEventId = some parent →
        ¬ReflTransGen log.Links parent log.nextId := by
  have links := links_append numbered now event reason
  constructor
  · intro kept parent named back
    refine kept log.nextId (TransGen.head' ((links _ _).mpr (.inr ⟨rfl, named⟩)) ?_)
    exact ReflTransGen.mono (fun first second old => (links first second).mpr (.inl old)) _ _ back
  intro apart id cycle
  cases named : reason.bind EditReason.parentEventId with
  | none =>
    refine acyclic id (TransGen.mono (fun first second step => ?_) _ _ cycle)
    rcases (links first second).mp step with old | ⟨-, named'⟩
    · exact old
    · rw [named] at named'
      contradiction
  | some parent =>
    have away := apart parent named
    have split (first second : EventId)
        (step : (log.append now event reason).1.Links first second) :
        log.Links first second ∨ (first = log.nextId ∧ second = parent) := by
      rcases (links first second).mp step with old | ⟨same, named'⟩
      · exact .inl old
      · rw [named] at named'
        exact .inr ⟨same, (some.inj named').symm⟩
    rcases transGen_of_added split away cycle with old | ⟨reaches, beyond⟩
    · exact acyclic id old
    · exact away (beyond.trans reaches)

theorem ordered_append_iff (ordered : log.Ordered) (now : Timestamp) (event : GraphEvent)
    (reason : Option EditReason) : (log.append now event reason).1.Ordered ↔
      ∀ entry ∈ log.entries, entry.timestamp ≤ now := by
  rw [Ordered, append, pairwise_append]
  constructor
  · intro ⟨_, _, between⟩ entry mem
    exact between entry mem _ mem_cons_self
  intro late
  refine ⟨ordered, pairwise_singleton _ _, fun entry mem last single => ?_⟩
  rw [mem_singleton.mp single]
  exact late entry mem

theorem links_undo (numbered : log.Numbered) {id parent : EventId} (links : log.undo.1.Links id parent) :
    log.Links id parent := by
  obtain ⟨entry, found, named⟩ := links
  obtain ⟨mem, given⟩ := (getEvent_eq_some (numbered.act .undo) id entry).mp found
  exact ⟨entry, (getEvent_eq_some numbered id entry).mpr ⟨mem_of_mem_dropLast mem, given⟩, named⟩

theorem act_keeps_iff (numbered : log.Numbered) (ordered : log.Ordered) (acyclic : log.Acyclic)
    (action : LogAction) :
    ((log.act action).Ordered ∧ (log.act action).Acyclic) ↔ log.Admits action := by
  cases action with
  | append now event reason =>
    exact and_congr (ordered_append_iff ordered now event reason)
      (acyclic_append_iff numbered acyclic now event reason)
  | undo =>
    refine iff_of_true ⟨ordered.sublist (dropLast_sublist _), fun id cycle => ?_⟩ trivial
    exact acyclic id (TransGen.mono (fun _ _ links => links_undo numbered links) _ _ cycle)

theorem run_concat (actions : List LogAction) (action : LogAction) :
    run (actions ++ [action]) = (run actions).act action := by
  rw [run, foldl_append]
  rfl

/-- The log answers in every state of a run exactly when each step was admitted. -/
theorem run_answers_iff (search : PartitionPoint) (actions : List LogAction) :
    (∀ before, before <+: actions → (run before).Answers search) ↔
      ∀ before action, before ++ [action] <+: actions → (run before).Admits action := by
  constructor
  · intro answers before action start
    have first := (answers_iff search (numbered_run before)).mp
      (answers before ((prefix_append before [action]).trans start))
    have second := (answers_iff search (numbered_run _)).mp (answers _ start)
    rw [run_concat] at second
    exact (act_keeps_iff (numbered_run before) first.1 first.2 action).mp second
  intro admitted before
  induction before using List.reverseRecOn with
  | nil =>
    intro _
    refine (answers_iff search (numbered_run [])).mpr ⟨List.Pairwise.nil, fun id cycle => ?_⟩
    obtain ⟨parent, ⟨entry, found, -⟩, -⟩ := TransGen.head'_iff.mp cycle
    exact absurd found (by simp [run, new, getEvent])
  | append_singleton before action ih =>
    intro start
    have first := (answers_iff search (numbered_run before)).mp
      (ih ((prefix_append before [action]).trans start))
    rw [answers_iff search (numbered_run _), run_concat]
    exact (act_keeps_iff (numbered_run before) first.1 first.2 action).mpr
      (admitted before action start)

/-- An entry that names the id it gets as its parent is followed without end, and an entry with an
earlier timestamp is returned with those before it. -/
theorem run_not_answers :
    ¬(run [.append 0 (.fileReindexed "a.rs") (some ⟨"", "", some 1, 0⟩)]).Answers .linear ∧
      ¬(run [.append 2 (.fileReindexed "a.rs") none, .append 1 (.fileReindexed "a.rs") none]).Answers
        .linear := by
  constructor
  · intro answers
    have acyclic := ((answers_iff _ (numbered_run _)).mp answers).2
    exact acyclic 1 (TransGen.single ⟨_, rfl, rfl⟩)
  intro answers
  have ordered := ((answers_iff _ (numbered_run _)).mp answers).1
  exact absurd ordered (by unfold Ordered; decide)

end Runs

end Codegraph.EventLog
