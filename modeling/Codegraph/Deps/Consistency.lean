import Codegraph.Deps.Store

namespace Codegraph.Deps

open Library Relation Option Function Config Registry

variable {Key Dir Root : Type} [DecidableEq Key] [DecidableEq Dir] [DecidableEq Root]
variable {shardDir : Key → Dir} {threads : Nat}

abbrev System (Key Dir Root : Type) (threads : Nat) := Config (Shared Key Dir Root) (Worker Key) threads

/-- A shard is in its place, or a build has moved it aside. -/
def Available (shardDir : Key → Dir) (system : System Key Dir Root threads) (dir : Dir) : Prop :=
  (system.shared.disk dir).isSome = true ∨
    ∃ worker key, (system.workers worker).aside = some key ∧ shardDir key = dir

/-- A move that neither takes a shard from its reader nor records one that is gone. -/
def Careful (shardDir : Key → Dir) (system : System Key Dir Root threads) (worker : Fin threads) :
    Event Key Dir → Prop
  | .ordinary => True
  | .crash => (system.workers worker).aside = none ∧
      ∀ key, (system.workers worker).erasing = some key → system.shared.registry.lists key = false
  | .record metadata => Available shardDir system (shardDir metadata.key)
  | .erase dir forgotten => ∀ key, system.shared.registry.lists key = true → shardDir key = dir →
      forgotten = some key
  | .lose => False

/-- Some worker moves. -/
def Moves (shardDir : Key → Dir) (allowed : System Key Dir Root threads → Fin threads → Event Key Dir → Prop)
    (before after : System Key Dir Root threads) : Prop :=
  ∃ worker event shared moved, allowed before worker event ∧
    Move shardDir event before.shared (before.workers worker) shared moved ∧
      after = before.set worker shared moved

/-- A store without shards, where nothing runs. -/
def System.empty : System Key Dir Root threads :=
  ⟨⟨fun _ => none, fun _ => false, .empty, fun _ => false⟩, fun _ => .idle⟩

variable {shared shared' : Shared Key Dir Root} {worker worker' : Worker Key} {event : Event Key Dir}

/-- A move leaves the locks as they are, or takes or drops one. -/
theorem Move.lock_cases (move : Move shardDir event shared worker shared' worker') :
    (shared'.held = shared.held ∧ worker'.holds = worker.holds) ∨
    (∃ key, worker'.holds = some key ∧ shared.held (shardDir key) = false ∧
      shared'.held = Function.update shared.held (shardDir key) true) ∨
    ∃ key, worker.holds = some key ∧ worker'.holds = none ∧
      shared'.held = Function.update shared.held (shardDir key) false := by
  cases move with
  | lock free => exact .inr (.inl ⟨_, rfl, free, rfl⟩)
  | lockDoomed free => exact .inr (.inl ⟨_, rfl, free, rfl⟩)
  | lockOrphan free => exact .inr (.inl ⟨_, rfl, free, rfl⟩)
  | unlock => exact .inr (.inr ⟨_, rfl, rfl, rfl⟩)
  | unlockDoomed => exact .inr (.inr ⟨_, rfl, rfl, rfl⟩)
  | unlockOrphan => exact .inr (.inr ⟨_, rfl, rfl, rfl⟩)
  | orphanVanished absent => exact .inr (.inr ⟨_, rfl, rfl, rfl⟩)
  | crashFree free => exact .inl ⟨rfl, free.symm⟩
  | crashLocked holds => exact .inr (.inr ⟨_, holds, rfl, rfl⟩)
  | _ => exact .inl ⟨rfl, rfl⟩

/-- What a move does to the directories and to a shard that was moved aside. -/
inductive DiskEffect (shardDir : Key → Dir) (event : Event Key Dir)
    (shared : Shared Key Dir Root) (worker : Worker Key) (shared' : Shared Key Dir Root)
    (worker' : Worker Key) : Prop where
  | quiet (disk : shared'.disk = shared.disk) (published : shared'.published = shared.published)
      (aside : worker'.aside = worker.aside)
      (old : ∀ shard, worker'.old = some shard → worker.old = some shard)
  | fill (key : Key) (shard : Shard Key) (holds : worker.holds = some key)
      (absent : shared.disk (shardDir key) = none)
      (disk : shared'.disk = Function.update shared.disk (shardDir key) (some shard))
      (published : ∀ dir, shared'.published dir = true → dir = shardDir key ∨ shared.published dir = true)
      (aside : worker'.aside = none)
      (before : ∀ other, worker.aside = some other → other = key)
      (whole : shard.whole = true ∧ shard.metadata.key = key ∨
        worker.aside = some key ∧ worker.old = some shard)
  | moveAside (key : Key) (shard : Shard Key) (holds : worker.holds = some key)
      (stored : shared.disk (shardDir key) = some shard)
      (disk : shared'.disk = Function.update shared.disk (shardDir key) none)
      (published : shared'.published = shared.published) (before : worker.aside = none)
      (aside : worker'.aside = some key) (old : worker'.old = some shard)
  | erase (key : Key) (forgotten : Option Key) (erased : event = .erase (shardDir key) forgotten)
      (holds : worker.holds = some key)
      (disk : shared'.disk = Function.update shared.disk (shardDir key) none)
      (published : shared'.published = Function.update shared.published (shardDir key) false)
      (before : worker.aside = none) (aside : worker'.aside = none)
  | lose (lost : event = .lose)
  | crash (crashed : event = .crash) (disk : shared'.disk = shared.disk)
      (published : shared'.published = shared.published) (aside : worker'.aside = none)

theorem Move.disk_cases (prepared : worker.Prepared)
    (move : Move shardDir event shared worker shared' worker') :
    DiskEffect shardDir event shared worker shared' worker' := by
  have filled : ∀ (dir other : Dir), update shared.published dir true other = true →
      other = dir ∨ shared.published other = true := by
    intro dir other listed
    by_cases same : other = dir
    · exact .inl same
    · rw [update_of_ne same] at listed
      exact .inr listed
  cases move with
  | publish absent =>
    exact .fill _ _ rfl absent rfl (filled _) rfl (fun _ other => nomatch other)
      (.inl ⟨prepared, rfl⟩)
  | swap absent =>
    exact .fill _ _ rfl absent rfl (filled _) rfl (fun _ same => (some.inj same).symm)
      (.inl ⟨prepared, rfl⟩)
  | restore error absent =>
    exact .fill _ _ rfl absent rfl (fun _ => .inr) rfl
      (fun _ same => (some.inj same).symm) (.inr ⟨rfl, rfl⟩)
  | moveAside stored => exact .moveAside _ _ rfl stored rfl rfl rfl rfl rfl
  | removeShard stored => exact .erase _ _ rfl rfl rfl rfl rfl rfl
  | removeOrphan stored => exact .erase _ _ rfl rfl rfl rfl rfl rfl
  | restoreFailed error => exact .lose rfl
  | crashFree free => exact .crash rfl rfl rfl rfl
  | crashLocked holds => exact .crash rfl rfl rfl rfl
  | _ => exact .quiet rfl rfl rfl (fun shard same => by first | exact same | nomatch same)

theorem Move.prepared (prepared : worker.Prepared)
    (move : Move shardDir event shared worker shared' worker') : worker'.Prepared := by
  cases move with
  | writeMeta => exact rfl
  | @moveAside _ _ tmp _ stored =>
    cases tmp with
    | none => exact trivial
    | some whole => exact prepared
  | @sweepSwapped _ _ tmp _ =>
    cases tmp with
    | none => exact trivial
    | some whole => exact prepared
  | _ => exact trivial

section

variable (move : Move shardDir event shared worker shared' worker')
include move

theorem Move.row_cases {key : Key} (listed : shared'.registry.lists key = true) :
    shared.registry.lists key = true ∨ ∃ metadata, event = .record metadata ∧ key = metadata.key := by
  cases move with
  | recordProject root deps => exact .inl (lists_recordProject listed)
  | sourceGone => exact .inl (lists_markMissing listed).2
  | markBuilding => exact .inl (lists_markBuilding listed)
  | markReplaced => exact (lists_markBuilt listed).symm.imp_right fun same => ⟨_, rfl, same⟩
  | markBuilt => exact (lists_markBuilt listed).symm.imp_right fun same => ⟨_, rfl, same⟩
  | markUpToDate => exact (lists_markBuilt listed).symm.imp_right fun same => ⟨_, rfl, same⟩
  | markAdopted => exact (lists_markBuilt listed).symm.imp_right fun same => ⟨_, rfl, same⟩
  | markNoSources => exact .inl (lists_markNoSources listed)
  | markFailed => exact .inl (lists_markFailed listed)
  | deleteProject root => exact .inl (lists_deleteProject listed)
  | markAbsent absent => exact .inl (lists_markMissing listed).2
  | markRemoved => exact .inl (lists_markMissing listed).2
  | deleteUnused => exact .inl (lists_deleteUnusedPackages listed)
  | _ => exact .inl listed

/-- A removed shard is forgotten by the collection that removed it. -/
theorem Move.erasing_cases {key : Key} (erasing : worker.erasing = some key) :
    event = .crash ∨ shared'.registry.lists key = false := by
  cases move with
  | markRemoved =>
    cases erasing
    refine .inr ?_
    by_contra listed
    exact (lists_markMissing (eq_true_of_ne_false listed)).1 rfl
  | crashFree free => exact .inl rfl
  | crashLocked holds => exact .inl rfl
  | _ => cases erasing

theorem Move.erases {dir : Dir} {key : Key} (erased : event = .erase dir (some key)) :
    worker'.erasing = some key := by
  cases move with
  | removeShard stored =>
    cases erased
    rfl
  | _ => cases erased

end

/-- Only the holder of a lock moves a shard aside. -/
theorem Worker.holds_of_aside {worker : Worker Key} {key : Key}
    (aside : worker.aside = some key) : worker.holds = some key := by
  cases worker with
  | swapping metadata tmp old => exact aside
  | restoring metadata old => exact aside
  | _ => cases aside

/-- The locks, the directories and the rows agree with each other and with the workers. -/
structure Consistent (shardDir : Key → Dir) (system : System Key Dir Root threads) : Prop where
  locked : ∀ worker key, (system.workers worker).holds = some key → system.shared.held (shardDir key) = true
  exclusive : ∀ first second key other, (system.workers first).holds = some key →
    (system.workers second).holds = some other → shardDir key = shardDir other → first = second
  prepared : ∀ worker, (system.workers worker).Prepared
  complete : ∀ dir shard, system.shared.disk dir = some shard →
    shard.whole = true ∧ shardDir shard.metadata.key = dir
  absent : ∀ worker key, (system.workers worker).aside = some key → system.shared.disk (shardDir key) = none
  kept : ∀ worker key shard, (system.workers worker).aside = some key →
    (system.workers worker).old = some shard →
      shard.whole = true ∧ shardDir shard.metadata.key = shardDir key
  published : ∀ dir, system.shared.published dir = true → Available shardDir system dir
  rows : ∀ key, system.shared.registry.lists key = true → Available shardDir system (shardDir key) ∨
      ∃ worker, (system.workers worker).erasing = some key

theorem Consistent.empty : Consistent shardDir (System.empty : System Key Dir Root threads) where
  locked _ _ holds := nomatch holds
  exclusive _ _ _ _ holds := nomatch holds
  prepared _ := trivial
  complete _ _ stored := nomatch stored
  absent _ _ aside := nomatch aside
  kept _ _ _ aside := nomatch aside
  published _ published := nomatch published
  rows _ listed := nomatch listed

section Keeps

variable {system : System Key Dir Root threads} {worker : Fin threads} {event : Event Key Dir}
  {shared : Shared Key Dir Root} {moved : Worker Key}

section

variable (consistent : Consistent shardDir system)
include consistent

theorem Consistent.apart {other : Fin threads} (distinct : other ≠ worker) {key held : Key}
    (holds : (system.workers worker).holds = some key)
    (others : (system.workers other).holds = some held) : shardDir held ≠ shardDir key :=
  fun same => distinct (consistent.exclusive other worker held key others holds same)

theorem Consistent.keeps_locked
    (move : Move shardDir event system.shared (system.workers worker) shared moved)
    (any : Fin threads) (key : Key)
    (holds : ((system.set worker shared moved).workers any).holds = some key) :
    shared.held (shardDir key) = true := by
  by_cases same : any = worker
  · subst same
    rw [set_self] at holds
    rcases move.lock_cases with ⟨held, keeps⟩ | ⟨taken, takes, -, held⟩ | ⟨dropped, -, drops, -⟩
    · rw [held]
      exact consistent.locked any key (keeps.symm.trans holds)
    · obtain rfl : taken = key := some.inj (takes.symm.trans holds)
      rw [held, update_self]
    · rw [drops] at holds
      cases holds
  rw [set_of_ne _ same] at holds
  have before := consistent.locked any key holds
  rcases move.lock_cases with ⟨held, -⟩ | ⟨taken, -, -, held⟩ | ⟨dropped, drops, -, held⟩
  · rwa [held]
  · rw [held]
    by_cases dir : shardDir key = shardDir taken
    · rw [dir, update_self]
    · rwa [update_of_ne dir]
  · rwa [held, update_of_ne (consistent.apart same drops holds)]

theorem Consistent.keeps_exclusive
    (move : Move shardDir event system.shared (system.workers worker) shared moved)
    {other : Fin threads} (distinct : other ≠ worker) {key held : Key}
    (holds : moved.holds = some key) (others : (system.workers other).holds = some held) :
    shardDir held ≠ shardDir key := by
  rcases move.lock_cases with ⟨-, keeps⟩ | ⟨taken, takes, free, -⟩ | ⟨-, -, drops, -⟩
  · exact consistent.apart distinct (keeps.symm.trans holds) others
  · obtain rfl : taken = key := some.inj (takes.symm.trans holds)
    intro same
    have locked := consistent.locked other held others
    rw [same, free] at locked
    cases locked
  · rw [drops] at holds
    cases holds

theorem Consistent.keeps_complete
    (effect : DiskEffect shardDir event system.shared (system.workers worker) shared moved)
    (kept : event ≠ .lose) (dir : Dir) (shard : Shard Key) (stored : shared.disk dir = some shard) :
    shard.whole = true ∧ shardDir shard.metadata.key = dir := by
  have removed : ∀ key, shared.disk = update system.shared.disk (shardDir key) none →
      shard.whole = true ∧ shardDir shard.metadata.key = dir := by
    intro key disk
    rw [disk] at stored
    by_cases same : dir = shardDir key
    · rw [same, update_self] at stored
      cases stored
    · rw [update_of_ne same] at stored
      exact consistent.complete dir shard stored
  cases effect with
  | quiet disk =>
    rw [disk] at stored
    exact consistent.complete dir shard stored
  | fill key filled holds absent disk published aside before whole =>
    rw [disk] at stored
    by_cases same : dir = shardDir key
    · subst same
      rw [update_self] at stored
      obtain rfl := some.inj stored
      rcases whole with ⟨whole, own⟩ | ⟨aside, old⟩
      · exact ⟨whole, congrArg shardDir own⟩
      · exact consistent.kept worker key filled aside old
    · rw [update_of_ne same] at stored
      exact consistent.complete dir shard stored
  | moveAside key shard holds stored disk => exact removed key disk
  | erase key forgotten erased holds disk => exact removed key disk
  | lose lost => exact absurd lost kept
  | crash crashed disk =>
    rw [disk] at stored
    exact consistent.complete dir shard stored

theorem Consistent.keeps_absent
    (effect : DiskEffect shardDir event system.shared (system.workers worker) shared moved)
    (kept : event ≠ .lose) (any : Fin threads) (key : Key)
    (aside : ((system.set worker shared moved).workers any).aside = some key) :
    shared.disk (shardDir key) = none := by
  have removed : ∀ taken, system.shared.disk (shardDir key) = none →
      shared.disk = update system.shared.disk (shardDir taken) none →
        shared.disk (shardDir key) = none := by
    intro taken absent disk
    rw [disk]
    by_cases same : shardDir key = shardDir taken
    · rw [same, update_self]
    · rwa [update_of_ne same]
  by_cases same : any = worker
  · subst same
    rw [set_self] at aside
    cases effect with
    | quiet disk published keeps =>
      rw [disk]
      exact consistent.absent any key (keeps.symm.trans aside)
    | moveAside taken shard holds stored disk published before takes =>
      obtain rfl : taken = key := some.inj (takes.symm.trans aside)
      rw [disk, update_self]
    | lose lost => exact absurd lost kept
    | fill taken shard holds absent disk published none =>
      rw [none] at aside
      cases aside
    | erase taken forgotten erased holds disk published before none =>
      rw [none] at aside
      cases aside
    | crash crashed disk published none =>
      rw [none] at aside
      cases aside
  rw [set_of_ne _ same] at aside
  have absent := consistent.absent any key aside
  cases effect with
  | quiet disk => rwa [disk]
  | fill taken shard holds free disk =>
    rwa [disk, update_of_ne (consistent.apart same holds (Worker.holds_of_aside aside))]
  | moveAside taken shard holds stored disk => exact removed taken absent disk
  | erase taken forgotten erased holds disk => exact removed taken absent disk
  | lose lost => exact absurd lost kept
  | crash crashed disk => rwa [disk]

theorem Consistent.keeps_kept
    (effect : DiskEffect shardDir event system.shared (system.workers worker) shared moved)
    (kept : event ≠ .lose) (key : Key) (shard : Shard Key) (aside : moved.aside = some key)
    (old : moved.old = some shard) :
    shard.whole = true ∧ shardDir shard.metadata.key = shardDir key := by
  cases effect with
  | quiet disk published keeps same =>
    exact consistent.kept worker key shard (keeps.symm.trans aside) (same shard old)
  | moveAside taken stored holds found disk published before takes same =>
    obtain rfl : taken = key := some.inj (takes.symm.trans aside)
    obtain rfl : stored = shard := some.inj (same.symm.trans old)
    exact consistent.complete _ stored found
  | lose lost => exact absurd lost kept
  | fill taken stored holds absent disk published none =>
    rw [none] at aside
    cases aside
  | erase taken forgotten erased holds disk published before none =>
    rw [none] at aside
    cases aside
  | crash crashed disk published none =>
    rw [none] at aside
    cases aside

end

theorem Available.set {dir : Dir} (available : Available shardDir system dir)
    (stays : (system.shared.disk dir).isSome = true → (shared.disk dir).isSome = true ∨
      ∃ key, moved.aside = some key ∧ shardDir key = dir)
    (moves : ∀ key, (system.workers worker).aside = some key → shardDir key = dir →
      (shared.disk dir).isSome = true ∨ ∃ key, moved.aside = some key ∧ shardDir key = dir) :
    Available shardDir (system.set worker shared moved) dir := by
  have own : (shared.disk dir).isSome = true ∨ (∃ key, moved.aside = some key ∧ shardDir key = dir) →
        Available shardDir (system.set worker shared moved) dir := by
    rintro (stored | ⟨key, aside, same⟩)
    · exact .inl stored
    · exact .inr ⟨worker, key, (congrArg Worker.aside (set_self ..)).trans aside, same⟩
  rcases available with stored | ⟨other, key, aside, same⟩
  · exact own (stays stored)
  by_cases mover : other = worker
  · subst mover
    exact own (moves key aside same)
  · exact .inr ⟨other, key, (congrArg Worker.aside (set_of_ne _ mover)).trans aside, same⟩

section

variable (consistent : Consistent shardDir system)
include consistent

/-- Only a collection ends that a directory is available. -/
theorem Consistent.keeps_available
    (effect : DiskEffect shardDir event system.shared (system.workers worker) shared moved)
    (careful : Careful shardDir system worker event) {dir : Dir}
    (available : Available shardDir system dir)
    (stays : (∀ forgotten, event ≠ .erase dir forgotten) ∨ shared.published dir = true) :
    Available shardDir (system.set worker shared moved) dir := by
  cases effect with
  | quiet disk published aside =>
    refine available.set (fun stored => .inl (disk ▸ stored)) fun key before same => ?_
    exact .inr ⟨key, aside.trans before, same⟩
  | fill key shard holds absent disk published aside before whole =>
    by_cases same : dir = shardDir key
    · refine .inl ?_
      change (shared.disk dir).isSome = true
      rw [disk, same, update_self]
      rfl
    refine available.set (fun stored => .inl ?_) fun other moves own => ?_
    · rwa [disk, update_of_ne same]
    · rw [before other moves] at own
      exact absurd own.symm same
  | moveAside key shard holds stored disk published before aside =>
    refine available.set (fun stored => ?_) fun other moves => ?_
    · by_cases same : dir = shardDir key
      · exact .inr ⟨key, aside, same.symm⟩
      · rw [disk, update_of_ne same]
        exact .inl stored
    · rw [before] at moves
      cases moves
  | erase key forgotten erased holds disk published before aside =>
    have same : dir ≠ shardDir key := by
      rintro rfl
      rcases stays with stays | stays
      · exact stays forgotten erased
      · rw [published, update_self] at stays
        cases stays
    refine available.set (fun stored => .inl ?_) fun other moves => ?_
    · rwa [disk, update_of_ne same]
    · rw [before] at moves
      cases moves
  | lose lost =>
    subst lost
    exact careful.elim
  | crash crashed disk published aside =>
    subst crashed
    refine available.set (fun stored => .inl (disk ▸ stored)) fun key moves => ?_
    rw [careful.1] at moves
    cases moves

theorem Consistent.keeps_published
    (effect : DiskEffect shardDir event system.shared (system.workers worker) shared moved)
    (careful : Careful shardDir system worker event) (dir : Dir)
    (published : shared.published dir = true) :
    Available shardDir (system.set worker shared moved) dir := by
  have before : system.shared.published dir = true ∨ (shared.disk dir).isSome = true := by
    cases effect with
    | quiet disk keeps => exact .inl (keeps ▸ published)
    | fill key shard holds absent disk keeps =>
      rcases keeps dir published with rfl | before
      · rw [disk, update_self]
        exact .inr rfl
      · exact .inl before
    | moveAside key shard holds stored disk keeps => exact .inl (keeps ▸ published)
    | erase key forgotten erased holds disk gone =>
      rw [gone] at published
      by_cases same : dir = shardDir key
      · rw [same, update_self] at published
        cases published
      · rw [update_of_ne same] at published
        exact .inl published
    | lose lost =>
      subst lost
      exact careful.elim
    | crash crashed disk keeps => exact .inl (keeps ▸ published)
  rcases before with before | stored
  · exact consistent.keeps_available effect careful (consistent.published dir before)
      (.inr published)
  · exact .inl stored

theorem Consistent.keeps_rows (move : Move shardDir event system.shared (system.workers worker) shared moved)
    (careful : Careful shardDir system worker event) (key : Key)
    (listed : shared.registry.lists key = true) :
    Available shardDir (system.set worker shared moved) (shardDir key) ∨
      ∃ any, ((system.set worker shared moved).workers any).erasing = some key := by
  have effect := move.disk_cases (consistent.prepared worker)
  rcases move.row_cases listed with before | ⟨metadata, rfl, rfl⟩
  · rcases consistent.rows key before with available | ⟨any, erasing⟩
    · by_cases erases : ∃ forgotten, event = .erase (shardDir key) forgotten
      · obtain ⟨forgotten, rfl⟩ := erases
        obtain rfl := careful key before rfl
        exact .inr ⟨worker, (congrArg Worker.erasing (set_self ..)).trans
          (move.erases rfl)⟩
      · refine .inl (consistent.keeps_available effect careful available (.inl ?_))
        exact not_exists.mp erases
    by_cases same : any = worker
    · subst same
      rcases move.erasing_cases erasing with rfl | gone
      · rw [careful.2 key erasing] at before
        cases before
      · rw [gone] at listed
        cases listed
    · exact .inr ⟨any, (congrArg Worker.erasing (set_of_ne _ same)).trans erasing⟩
  · exact .inl (consistent.keeps_available effect careful careful (.inl fun _ => nofun))

theorem Consistent.keeps (move : Move shardDir event system.shared (system.workers worker) shared moved)
    (careful : Careful shardDir system worker event) :
    Consistent shardDir (system.set worker shared moved) := by
  have effect := move.disk_cases (consistent.prepared worker)
  have kept : event ≠ .lose := by
    rintro rfl
    exact careful
  constructor
  case locked => exact consistent.keeps_locked move
  case exclusive =>
    intro first second key other holds others same
    by_cases one : first = worker <;> by_cases two : second = worker
    · exact one.trans two.symm
    · subst one
      rw [set_self] at holds
      rw [set_of_ne _ two] at others
      exact absurd same.symm (consistent.keeps_exclusive move two holds others)
    · subst two
      rw [set_self] at others
      rw [set_of_ne _ one] at holds
      exact absurd same (consistent.keeps_exclusive move one others holds)
    · rw [set_of_ne _ one] at holds
      rw [set_of_ne _ two] at others
      exact consistent.exclusive first second key other holds others same
  case prepared =>
    intro any
    by_cases same : any = worker
    · subst same
      rw [set_self]
      exact move.prepared (consistent.prepared any)
    · rw [set_of_ne _ same]
      exact consistent.prepared any
  case complete => exact consistent.keeps_complete effect kept
  case absent => exact consistent.keeps_absent effect kept
  case kept =>
    intro any key shard aside old
    by_cases same : any = worker
    · subst same
      rw [set_self] at aside old
      exact consistent.keeps_kept effect kept key shard aside old
    · rw [set_of_ne _ same] at aside old
      exact consistent.kept any key shard aside old
  case published => exact consistent.keeps_published effect careful
  case rows => exact consistent.keeps_rows move careful

end

end Keeps

theorem Consistent.run {before after : System Key Dir Root threads}
    (run : ReflTransGen (Moves shardDir (Careful shardDir)) before after)
    (consistent : Consistent shardDir before) : Consistent shardDir after := by
  induction run with
  | refl => exact consistent
  | tail _ moves ih =>
    obtain ⟨worker, event, shared, moved, careful, move, rfl⟩ := moves
    exact ih.keeps move careful

/-- A reader of the directory finds a shard of its version that a build finished. -/
def Opens (shardDir : Key → Dir) (system : System Key Dir Root threads) (dir : Dir) : Prop :=
  ∃ shard, system.shared.disk dir = some shard ∧ shard.whole = true ∧ shardDir shard.metadata.key = dir

/-- A build has moved the shard of this directory aside and not put another in its place. -/
def Replacing (shardDir : Key → Dir) (system : System Key Dir Root threads) (dir : Dir) : Prop :=
  ∃ worker key, (system.workers worker).aside = some key ∧ shardDir key = dir

/-- Every row that is ready or partial has a directory with a meta file. -/
def Rooted (shardDir : Key → Dir) (system : System Key Dir Root threads) : Prop :=
  ∀ key, system.shared.registry.lists key = true → (system.shared.disk (shardDir key)).isSome = true

/-- After a careful run a reader finds the old or the new shard of a published directory unless a
build is replacing it, and the rows have their shards once nothing runs. -/
theorem careful_runs_keep_shards {system : System Key Dir Root threads}
    (run : ReflTransGen (Moves shardDir (Careful shardDir)) System.empty system) :
    (∀ dir, system.shared.published dir = true →
      (Opens shardDir system dir ↔ ¬Replacing shardDir system dir)) ∧
    ((∀ worker, system.workers worker = .idle) → Rooted shardDir system) := by
  have consistent := Consistent.empty.run run
  constructor
  · intro dir published
    constructor
    · rintro ⟨shard, stored, -⟩ ⟨worker, key, aside, rfl⟩
      rw [consistent.absent worker key aside] at stored
      cases stored
    intro settled
    rcases consistent.published dir published with present | replacing
    · obtain ⟨shard, stored⟩ := isSome_iff_exists.mp present
      exact ⟨shard, stored, consistent.complete dir shard stored⟩
    · exact absurd replacing settled
  intro idle key listed
  rcases consistent.rows key listed with (present | ⟨worker, other, aside, -⟩) | ⟨worker, erasing⟩
  · exact present
  · rw [idle worker] at aside
    cases aside
  · rw [idle worker] at erasing
    cases erasing

/-- One allowed move of a worker that is alone. -/
def Alone (shardDir : Key → Dir) (allowed : System Key Dir Root 1 → Fin 1 → Event Key Dir → Prop)
    (before after : Shared Key Dir Root × Worker Key) : Prop :=
  ∃ event, allowed ⟨before.1, fun _ => before.2⟩ 0 event ∧
    Move shardDir event before.1 before.2 after.1 after.2

theorem run_of_alone {allowed : System Key Dir Root 1 → Fin 1 → Event Key Dir → Prop}
    {before after : Shared Key Dir Root × Worker Key}
    (run : ReflTransGen (Alone shardDir allowed) before after) :
    ReflTransGen (Moves shardDir allowed) ⟨before.1, fun _ => before.2⟩
      ⟨after.1, fun _ => after.2⟩ := by
  induction run with
  | refl => exact .refl
  | @tail between after _ moves ih =>
    obtain ⟨event, fine, move⟩ := moves
    refine ih.tail ⟨0, event, after.1, after.2, fine, move, ?_⟩
    congr 1
    funext worker
    rw [Subsingleton.elim worker 0, update_self]

theorem Alone.head {allowed : System Key Dir Root 1 → Fin 1 → Event Key Dir → Prop}
    {final : Shared Key Dir Root × Worker Key} (fine : allowed ⟨shared, fun _ => worker⟩ 0 event)
    (move : Move shardDir event shared worker shared' worker')
    (rest : ReflTransGen (Alone shardDir allowed) (shared', worker') final) :
    ReflTransGen (Alone shardDir allowed) (shared, worker) final :=
  .head ⟨event, fine, move⟩ rest

section Runs

/-- The store of one project that uses one version. -/
private abbrev Single := Shared Unit Unit Unit × Worker Unit

private def vacant : Single := ((System.empty : System Unit Unit Unit 1).shared, .idle)

private def recorded : Single := (vacant.1.record (·.recordProject () [⟨(), false, true⟩]), .idle)

private def built : Single :=
  ((((recorded.1.record (·.markBuilding ())).acquire ()).publish () ⟨⟨(), false⟩, true⟩).release (),
    .reporting () (.built ⟨(), false⟩))

private theorem builds {allowed : System Unit Unit Unit 1 → Fin 1 → Event Unit Unit → Prop}
    (fine : ∀ system worker, allowed system worker .ordinary) :
    ReflTransGen (Alone id allowed) vacant built := by
  refine Alone.head (fine _ _) (.recordProject () [⟨(), false, true⟩]) ?_
  refine Alone.head (fine _ _) (.build () ⟨false, .missing, none⟩ true rfl ⟨rfl, rfl⟩) ?_
  refine Alone.head (fine _ _) .markBuilding ?_
  refine Alone.head (fine _ _) (.lock rfl) ?_
  refine Alone.head (fine _ _) (.create false) ?_
  refine Alone.head (fine _ _) .writeMeta ?_
  refine Alone.head (fine _ _) (.publish rfl) ?_
  exact Alone.head (fine _ _) .unlock .refl

private def ready : Single := (built.1.record (·.markBuilt ⟨(), false⟩), .idle)

private theorem records {allowed : System Unit Unit Unit 1 → Fin 1 → Event Unit Unit → Prop}
    (fine : ∀ system worker, allowed system worker .ordinary)
    (known : allowed ⟨built.1, fun _ => built.2⟩ 0 (.record ⟨(), false⟩)) :
    ReflTransGen (Alone id allowed) vacant ready :=
  (builds fine).tail ⟨_, known, .markBuilt⟩

end Runs

theorem careful_runs_keep_shards_ready : ∃ system : System Unit Unit Unit 1,
      ReflTransGen (Moves id (Careful id)) System.empty system ∧
      system.shared.published () = true ∧ system.shared.registry.lists () = true ∧
      (∀ dir, system.shared.published dir = true → (Opens id system dir ↔ ¬Replacing id system dir)) ∧
      ((∀ worker, system.workers worker = .idle) → Rooted id system) := by
  have start : ReflTransGen (Alone id (Careful id)) vacant ready :=
    records (fun _ _ => trivial) (.inl rfl)
  have run := run_of_alone start
  exact ⟨_, run, rfl, rfl, careful_runs_keep_shards run⟩

/-- A reader finds nothing between the two renames, and a collection that crashes after it removed a
shard leaves a row without one. -/
theorem replacement_hides_shard : (∃ system : System Unit Unit Unit 1,
      ReflTransGen (Moves id fun _ _ _ => True) System.empty system ∧
      ∃ dir, system.shared.published dir = true ∧ ¬Opens id system dir) ∧
    ∃ system : System Unit Unit Unit 1, ReflTransGen (Moves id fun _ _ _ => True) System.empty system ∧
      (∀ worker, system.workers worker = .idle) ∧ ¬Rooted id system := by
  have start : ReflTransGen (Alone id fun _ _ _ => True) vacant ready :=
    records (fun _ _ => trivial) trivial
  constructor
  · have aside : ReflTransGen (Alone id fun _ _ _ => True) ready
        (((ready.1.record (·.markBuilding ())).acquire ()).put () none,
          .swapping ⟨(), false⟩ (some true) (some ⟨⟨(), false⟩, true⟩)) := by
      refine Alone.head trivial (.build () ⟨false, .ready, none⟩ true rfl ⟨rfl, rfl⟩) ?_
      refine Alone.head trivial .markBuilding ?_
      refine Alone.head trivial (.lock rfl) ?_
      refine Alone.head trivial (.create false) ?_
      refine Alone.head trivial .writeMeta ?_
      exact Alone.head trivial (.moveAside rfl) .refl
    refine ⟨_, run_of_alone (start.trans aside), (), rfl, ?_⟩
    rintro ⟨shard, stored, -⟩
    cases stored
  have lost : ReflTransGen (Alone id fun _ _ _ => True) ready
      (((ready.1.acquire ()).erase ()).release (), .idle) := by
    refine Alone.head trivial .collect ?_
    refine Alone.head trivial (.listShards [()] (fun _ _ => rfl)) ?_
    refine Alone.head trivial (.lockDoomed rfl) ?_
    refine Alone.head trivial (.removeShard rfl) ?_
    exact Alone.head trivial (.crashLocked rfl) .refl
  refine ⟨_, run_of_alone (start.trans lost), fun _ => rfl, fun rooted => ?_⟩
  cases rooted () rfl

end Codegraph.Deps
