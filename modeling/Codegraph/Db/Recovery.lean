import Codegraph.Db.Schema

namespace Codegraph.Db

open Library List Option Catalog

/-- What is stored for a path. A whole run is one that is interrupted after all of its actions. -/
inductive Reached (careful : Option Database → Nat → Prop) : Option Database → Prop where
  | absent : Reached careful none
  | earlier {db : Database} (version : Nat) (first : 1 ≤ version)
      (last : version ≤ currentSchemaVersion) (shape : Shape version db)
      (founded : 1 ∈ db.versions.map SchemaVersion.version) : Reached careful (some db)
  | initialized {file : Option Database} (before : Reached careful file) (cut : Nat)
      (guarded : careful file cut) :
      Reached careful (some (cutAfter cut initializeActions (file.getD .empty)))
  | opened {db : Database} (before : Reached careful (some db)) (cut : Nat) :
      Reached careful (some (cutAfter cut (openActions db) db))

/-- A new file is initialized at least until it records the current version. -/
def RecordsVersion (file : Option Database) (cut : Nat) : Prop := file = none → schemaSql.length < cut

theorem runAll_append (first second : List Action) (db : Database) :
    runAll (first ++ second) db = (runAll first db).bind (runAll second) := by
  induction first generalizing db with
  | nil => rfl
  | cons action first ih =>
    rw [cons_append, runAll, runAll, bind_assoc]
    congr 1
    funext next
    exact ih next

theorem cutAfter_append {first : List Action} {db middle : Database} (second : List Action)
    (ran : runAll first db = some middle) (n : Nat) :
    cutAfter (first.length + n) (first ++ second) db = cutAfter n second middle := by
  induction first generalizing db with
  | nil =>
    cases ran
    simp
  | cons action first ih =>
    obtain ⟨next, one, later⟩ := bind_eq_some_iff.mp ran
    rw [length_cons, add_right_comm, cons_append, cutAfter, one]
    exact ih later

theorem cutAfter_within {first : List Action} {n : Nat} (within : n ≤ first.length)
    (second : List Action) (db : Database) :
    cutAfter n (first ++ second) db = cutAfter n first db := by
  induction first generalizing n db with
  | nil =>
    obtain rfl : n = 0 := Nat.le_zero.mp within
    rw [cutAfter, cutAfter]
  | cons action first ih =>
    cases n with
    | zero => rw [cutAfter, cutAfter]
    | succ n =>
      rw [cons_append, cutAfter, cutAfter]
      cases action.exec db with
      | none => rfl
      | some next => exact ih (Nat.le_of_succ_le_succ within) next

/-- A prefix of steps leaves what the prefix leaves as one transaction. -/
theorem cutAfter_steps {steps : List (Step SchemaObject)} {db : Database}
    {after : Catalog SchemaObject} {n : Nat} (ran : db.catalog.run (steps.take n) = some after) :
    cutAfter n (steps.map .step) db = { db with catalog := after } := by
  induction steps generalizing db n with
  | nil =>
    simp only [take_nil, Catalog.run, some.injEq] at ran
    subst ran
    cases n <;> rfl
  | cons step steps ih =>
    cases n with
    | zero =>
      simp only [take_zero, Catalog.run, some.injEq] at ran
      subst ran
      rfl
    | succ n =>
      obtain ⟨half, one, later⟩ := bind_eq_some_iff.mp ran
      have executed : Action.exec db (.step step) = some { db with catalog := half } := by
        rw [Action.exec, one]
        rfl
      rw [map_cons, cutAfter, executed]
      exact @ih { db with catalog := half } n later

theorem runAll_steps {steps : List (Step SchemaObject)} {db : Database}
    {after : Catalog SchemaObject} (ran : db.catalog.run steps = some after) :
    runAll (steps.map .step) db = some { db with catalog := after } := by
  induction steps generalizing db with
  | nil =>
    cases ran
    rfl
  | cons step steps ih =>
    obtain ⟨half, one, later⟩ := bind_eq_some_iff.mp ran
    have executed : Action.exec db (.step step) = some { db with catalog := half } := by
      rw [Action.exec, one]
      rfl
    rw [map_cons, runAll, executed]
    exact @ih { db with catalog := half } later

section Versions

theorem le_foldl_max (versions : List Nat) : ∀ version ∈ versions, version ≤ versions.foldl max 0 := by
  induction versions using List.reverseRecOn with
  | nil => exact fun version mem => absurd mem not_mem_nil
  | append_singleton before last ih =>
    intro version mem
    rw [foldl_append]
    rcases mem_append.mp mem with early | late
    · exact le_trans (ih version early) (le_max_left _ _)
    · rw [mem_singleton.mp late]
      exact le_max_right _ _

theorem versionObjects_known : ∀ version ≤ currentSchemaVersion,
    [.table .schemaVersions, .column .schemaVersions .version,
      .column .schemaVersions .appliedAt, .column .schemaVersions .description] ⊆
        (shapeOf version).present := by
  decide +kernel

theorem getCurrentVersion_eq {version : Nat} {db : Database}
    (objects : (shapeOf version).Of db.catalog) (known : version ≤ currentSchemaVersion) :
    db.getCurrentVersion = (db.versions.map SchemaVersion.version).foldl max 0 :=
  if_pos (objects.present _ (versionObjects_known version known (by simp)))

theorem insertVersion_later {version : Nat} {db : Database} (objects : (shapeOf version).Of db.catalog)
    (known : version ≤ currentSchemaVersion) {row : SchemaVersion}
    (later : db.getCurrentVersion < row.version) :
    ∃ next, db.insertVersion row = some next ∧ next.catalog = db.catalog ∧
      next.versions = db.versions ++ [row] ∧ next.getCurrentVersion = row.version := by
  have stored : [.table .schemaVersions, .column .schemaVersions .version,
      .column .schemaVersions .appliedAt, .column .schemaVersions .description] ⊆
        db.catalog.objects :=
    fun object mem => objects.present object (versionObjects_known version known mem)
  rw [getCurrentVersion_eq objects known] at later
  have fresh : row.version ∉ db.versions.map SchemaVersion.version := fun mem =>
    absurd (le_foldl_max _ _ mem) (Nat.not_le.mpr later)
  refine ⟨_, if_pos ⟨stored, fresh⟩, rfl, rfl, ?_⟩
  rw [@getCurrentVersion_eq version { db with versions := db.versions ++ [row] } objects known,
    map_append, foldl_append]
  exact max_eq_right (Nat.le_of_lt later)

end Versions

section Migrations

/-- The objects that the migrations and the repair need or bring. -/
def migratedObjects : List SchemaObject :=
  [.table .unresolvedRefs, .table .edges, .table .nodes, .table .files, .column .nodes .name,
    .column .edges .id, .column .files .path] ++ edgeIdentity.map (.column .edges) ++
    (migrations.flatMap Migration.up).flatMap Step.brought

/-- What the migrations and the repair rely on in a shape. -/
def reliedOn (version : Nat) : Known SchemaObject :=
  { shapeOf version with
    present := migratedObjects.filter (· ∉ (lackedSteps version).flatMap Step.brought) }

theorem migratedObjects_current : migratedObjects ⊆ currentObjects := by decide +kernel

theorem reliedOn_weaker (version : Nat) : (reliedOn version).Weaker (shapeOf version) where
  present object mem := by
    obtain ⟨migrated, kept⟩ := mem_filter.mp mem
    exact mem_filter.mpr ⟨migratedObjects_current migrated, kept⟩
  absent := List.Subset.refl _
  ready := List.Subset.refl _
  whole := List.Subset.refl _

/-- What is known of each shape is enough for its migration, and what is known afterwards is enough
for the next shape. -/
theorem migrations_known : ∀ migration ∈ migrations, ((reliedOn (migration.version - 1)).run migration.up).any
      (fun known => { reliedOn migration.version with
        present := migration.up.flatMap Step.brought : Known SchemaObject }.Weaker known) = true := by
  decide +kernel

theorem repair_known : Known.keeps { reliedOn currentSchemaVersion with present := [] }
    repairSharedSchemaV9 (reliedOn currentSchemaVersion) = true := by
  decide +kernel

theorem repair_brings : ((reliedOn currentSchemaVersion).run repairSharedSchemaV9).any
    (fun known => repairSharedSchemaV9.flatMap Step.brought ⊆ known.present) = true := by
  decide +kernel

theorem dropped_not_current : ∀ object ∈ (migrations.flatMap Migration.up).flatMap Step.dropped,
    object ∉ currentObjects := by
  decide +kernel

theorem repair_drops_nothing : repairSharedSchemaV9.flatMap Step.dropped = [] := by
  decide +kernel

theorem migrations_bounded : ∀ migration ∈ migrations,
    2 ≤ migration.version ∧ migration.version ≤ currentSchemaVersion := by
  decide

theorem runMigrations_succ : ∀ version, 1 ≤ version → version < currentSchemaVersion →
    ∃ migration ∈ migrations, migration.version = version + 1 ∧
      runMigrations version = .migrate migration :: runMigrations (version + 1) ∧
      lackedSteps version = migration.up ++ lackedSteps (version + 1) ∧
      (version = 8 → migration.up = repairSharedSchemaV9) := by
  intro version first last
  unfold currentSchemaVersion at last
  have listed : ∀ index : Nat, ∀ inside : index < migrations.length,
      migrations[index] ∈ migrations := fun index inside => getElem_mem inside
  interval_cases version
  · exact ⟨_, listed 0 (by decide), rfl, rfl, rfl, fun same => absurd same (by decide)⟩
  · exact ⟨_, listed 1 (by decide), rfl, rfl, rfl, fun same => absurd same (by decide)⟩
  · exact ⟨_, listed 2 (by decide), rfl, rfl, rfl, fun same => absurd same (by decide)⟩
  · exact ⟨_, listed 3 (by decide), rfl, rfl, rfl, fun same => absurd same (by decide)⟩
  · exact ⟨_, listed 4 (by decide), rfl, rfl, rfl, fun same => absurd same (by decide)⟩
  · exact ⟨_, listed 5 (by decide), rfl, rfl, rfl, fun same => absurd same (by decide)⟩
  · exact ⟨_, listed 6 (by decide), rfl, rfl, rfl, fun same => absurd same (by decide)⟩
  · exact ⟨_, listed 7 (by decide), rfl, rfl, rfl, fun _ => rfl⟩
  · exact ⟨_, listed 8 (by decide), rfl, rfl, rfl, fun same => absurd same (by decide)⟩
  · exact ⟨_, listed 9 (by decide), rfl, rfl, rfl, fun same => absurd same (by decide)⟩

theorem mem_dropped_of_migration {migration : Migration} (listed : migration ∈ migrations)
    {object : SchemaObject} (dropped : object ∈ migration.up.flatMap Step.dropped) :
    object ∉ currentObjects := by
  obtain ⟨step, inside, drops⟩ := mem_flatMap.mp dropped
  exact dropped_not_current object
    (mem_flatMap.mpr ⟨step, mem_flatMap.mpr ⟨migration, listed, inside⟩, drops⟩)

theorem Shape.migrate {version : Nat} {db : Database} (shape : Shape version db)
    {migration : Migration} (listed : migration ∈ migrations)
    (next : migration.version = version + 1)
    (lacked : lackedSteps version = migration.up ++ lackedSteps (version + 1)) :
    ∃ after, Action.exec db (.migrate migration) = some after ∧ Shape (version + 1) after ∧
      (∀ row ∈ db.versions, row ∈ after.versions) ∧
      (∀ object ∈ currentObjects, object ∈ db.catalog.objects → object ∈ after.catalog.objects) ∧
      migration.up.flatMap Step.brought ⊆ after.catalog.objects := by
  have known := migrations_known migration listed
  rw [next, Nat.add_sub_cancel] at known
  obtain ⟨middle, ran, enough⟩ := (any_eq_true _ _).mp known
  obtain ⟨catalog, executed, ofCatalog⟩ := (shape.objects.weaken (reliedOn_weaker version)).run ran
  have learned := ofCatalog.weaken (of_decide_eq_true enough)
  have kept : ∀ object ∈ currentObjects, object ∈ db.catalog.objects → object ∈ catalog.objects := by
    intro object current old
    exact run_keeps executed old fun dropped => mem_dropped_of_migration listed dropped current
  have objects : (shapeOf (version + 1)).Of catalog := by
    refine ⟨?_, learned.absent, learned.ready, learned.whole⟩
    intro object mem
    obtain ⟨current, notLacked⟩ := mem_filter.mp mem
    have notLacked := of_decide_eq_true notLacked
    by_cases brought : object ∈ migration.up.flatMap Step.brought
    · exact learned.present object brought
    refine kept object current (shape.objects.present object ?_)
    refine mem_filter.mpr ⟨current, decide_eq_true ?_⟩
    rw [lacked, flatMap_append, mem_append]
    exact fun either => either.elim brought notLacked
  have bounded := (migrations_bounded migration listed).2
  rw [next] at bounded
  have later : Database.getCurrentVersion { db with catalog := catalog } < migration.version := by
    rw [@getCurrentVersion_eq _ { db with catalog := catalog } objects bounded,
      ← getCurrentVersion_eq shape.objects (by omega), shape.version]
    omega
  obtain ⟨after, recorded, sameCatalog, rows, current⟩ :=
    @insertVersion_later _ { db with catalog := catalog } objects bounded
      ⟨migration.version, migration.description⟩ later
  refine ⟨after, ?_, ⟨?_, current.trans next⟩, ?_, ?_, ?_⟩
  · rwa [Action.exec, executed]
  · rwa [sameCatalog]
  · intro row old
    rw [rows]
    exact mem_append_left _ old
  · rwa [sameCatalog]
  · rw [sameCatalog]
    exact learned.present

theorem repair_current : repairSharedSchemaV9.flatMap Step.brought ⊆ currentObjects := by
  decide +kernel

theorem Shape.runMigrations {version gap : Nat} {db : Database} (shape : Shape version db)
    (first : 1 ≤ version) (last : version + gap = currentSchemaVersion) :
    ∃ after, runAll (Db.runMigrations version) db = some after ∧
      Shape currentSchemaVersion after ∧ ((9 ≤ version → Repaired db) → Repaired after) := by
  induction gap generalizing version db with
  | zero =>
    rw [add_zero] at last
    subst last
    exact ⟨db, rfl, shape, fun repaired => repaired (by decide)⟩
  | succ gap ih =>
    obtain ⟨migration, listed, next, actions, lacked, eighth⟩ :=
      runMigrations_succ version first (by omega)
    obtain ⟨middle, executed, nextShape, -, kept, brings⟩ := shape.migrate listed next lacked
    have nextRepaired : (9 ≤ version → Repaired db) → 9 ≤ version + 1 → Repaired middle := by
      intro repaired late
      by_cases repairs : version = 8
      · rwa [eighth repairs] at brings
      · have before := repaired (by omega)
        exact fun object mem => kept object (repair_current mem) (before mem)
    obtain ⟨after, finished, lastShape, lastRepaired⟩ := ih nextShape (by omega) (by omega)
    refine ⟨after, ?_, lastShape, fun repaired => lastRepaired (nextRepaired repaired)⟩
    rwa [actions, runAll, executed]

end Migrations

section Openable

/-- A database that can be opened. -/
structure Openable (db : Database) : Prop where
  shaped : ∃ version, 1 ≤ version ∧ version ≤ currentSchemaVersion ∧ Shape version db
  founded : 1 ∈ db.versions.map SchemaVersion.version

theorem Shape.current {db : Database} (shape : Shape currentSchemaVersion db)
    (repaired : Repaired db) : Current db where
  objects object mem := by
    by_cases brought : object ∈ (lackedSteps currentSchemaVersion).flatMap Step.brought
    · exact repaired brought
    · exact shape.objects.present object
        (mem_filter.mpr ⟨mem, decide_eq_true brought⟩)
  version := shape.version

theorem Shape.repair {db : Database} (shape : Shape currentSchemaVersion db) (n : Nat) :
    Shape currentSchemaVersion (cutAfter n repairActions db) ∧
      (cutAfter n repairActions db).versions = db.versions := by
  obtain ⟨after, ran, of⟩ :=
    (shape.objects.weaken (reliedOn_weaker currentSchemaVersion)).keeps repair_known n
  have objects : (shapeOf currentSchemaVersion).Of after := by
    refine ⟨?_, of.absent, of.ready, of.whole⟩
    intro object mem
    refine run_keeps ran (shape.objects.present object mem) ?_
    intro dropped
    obtain ⟨step, inside, drops⟩ := mem_flatMap.mp dropped
    have listed := mem_flatMap.mpr ⟨step, mem_of_mem_take inside, drops⟩
    rw [repair_drops_nothing] at listed
    cases listed
  rw [repairActions, cutAfter_steps ran]
  refine ⟨⟨objects, ?_⟩, rfl⟩
  rw [@getCurrentVersion_eq _ { db with catalog := after } objects le_rfl,
    ← getCurrentVersion_eq shape.objects le_rfl, shape.version]

theorem Shape.cut {version gap : Nat} {db : Database} (shape : Shape version db)
    (founded : 1 ∈ db.versions.map SchemaVersion.version) (first : 1 ≤ version)
    (last : version + gap = currentSchemaVersion) (n : Nat) :
    Openable (cutAfter n (Db.runMigrations version ++ repairActions) db) := by
  induction gap generalizing version db n with
  | zero =>
    rw [add_zero] at last
    subst last
    obtain ⟨repaired, rows⟩ := shape.repair n
    exact ⟨⟨currentSchemaVersion, first, le_rfl, repaired⟩, rows ▸ founded⟩
  | succ gap ih =>
    cases n with
    | zero => exact ⟨⟨version, first, by omega, shape⟩, founded⟩
    | succ n =>
      obtain ⟨migration, listed, next, actions, lacked, -⟩ :=
        runMigrations_succ version first (by omega)
      obtain ⟨middle, executed, nextShape, rows, -⟩ := shape.migrate listed next lacked
      have nextFounded : 1 ∈ middle.versions.map SchemaVersion.version := by
        obtain ⟨row, old, one⟩ := mem_map.mp founded
        exact mem_map.mpr ⟨row, rows row old, one⟩
      rw [actions, cons_append, cutAfter, executed]
      exact ih nextShape nextFounded (by omega) (by omega) n

theorem openActions_eq {version : Nat} {db : Database} (shape : Shape version db)
    (last : version ≤ currentSchemaVersion) :
    openActions db = Db.runMigrations version ++ repairActions := by
  rw [openActions, shape.version]
  split
  · rfl
  rename_i current
  obtain rfl : version = currentSchemaVersion := by omega
  rfl

theorem Openable.opened {db : Database} (openable : Openable db) (n : Nat) :
    Openable (cutAfter n (openActions db) db) := by
  obtain ⟨⟨version, first, last, shape⟩, founded⟩ := openable
  rw [openActions_eq shape last]
  exact @Shape.cut version (currentSchemaVersion - version) db shape founded first (by omega) n

/-- An initialization finds the first version recorded and ends. -/
theorem Openable.initialized {db : Database} (openable : Openable db) (n : Nat) :
    cutAfter n initializeActions db = db := by
  obtain ⟨⟨version, first, last, shape⟩, founded⟩ := openable
  have created : Action.exec db (.step (.run schemaVersionsTable)) = some db := by
    have listed := shape.objects.present _ (versionObjects_known version last mem_cons_self)
    have executed : db.catalog.step (.run schemaVersionsTable) = some db.catalog := if_pos listed
    rw [Action.exec, executed]
    rfl
  have refused : Action.exec db (.insertVersion ⟨1, "Initial schema"⟩) = none :=
    if_neg fun fresh => fresh.2 founded
  match n with
  | 0 => rfl
  | 1 =>
    rw [initializeActions, schemaSql, cons_append, cons_append, cutAfter, created]
    rfl
  | n + 2 =>
    rw [initializeActions, schemaSql, cons_append, cons_append, cutAfter, created]
    dsimp only [cons_append, cutAfter]
    rw [refused]

end Openable

section Fresh

theorem recorded_shape : (runAll (schemaSql ++ [.recordCurrent]) .empty).any (fun db =>
    (shapeOf currentSchemaVersion).Of db.catalog ∧ db.getCurrentVersion = currentSchemaVersion ∧
        1 ∈ db.versions.map SchemaVersion.version) = true := by
  decide +kernel

theorem recorded_spec : ∃ db, runAll (schemaSql ++ [.recordCurrent]) .empty = some db ∧
    Shape currentSchemaVersion db ∧ 1 ∈ db.versions.map SchemaVersion.version := by
  obtain ⟨db, ran, known⟩ := (any_eq_true _ _).mp recorded_shape
  obtain ⟨objects, version, founded⟩ := of_decide_eq_true known
  exact ⟨db, ran, ⟨objects, version⟩, founded⟩

theorem initialized_openable {cut : Nat} (recorded : schemaSql.length < cut) :
    Openable (cutAfter cut initializeActions .empty) := by
  obtain ⟨db, ran, shape, founded⟩ := recorded_spec
  obtain ⟨more, rfl⟩ := Nat.exists_eq_add_of_lt recorded
  obtain ⟨kept, rows⟩ := shape.repair more
  have length : schemaSql.length + more + 1 = (schemaSql ++ [Action.recordCurrent]).length + more := by
    rw [length_append, length_singleton, add_right_comm]
  rw [initializeActions, length, cutAfter_append repairActions ran]
  exact ⟨⟨currentSchemaVersion, by decide, le_rfl, kept⟩, rows ▸ founded⟩

theorem Shape.repaired {db : Database} (shape : Shape currentSchemaVersion db) :
    ∃ after, runAll repairActions db = some after ∧ Current after := by
  obtain ⟨known, ran, enough⟩ := (any_eq_true _ _).mp repair_brings
  obtain ⟨catalog, executed, of⟩ :=
    (shape.objects.weaken (reliedOn_weaker currentSchemaVersion)).run ran
  have kept := (shape.repair repairSharedSchemaV9.length).1
  rw [repairActions, cutAfter_steps (by rw [take_length]; exact executed)] at kept
  have repaired : Repaired { db with catalog := catalog } := fun object mem =>
    of.present object (of_decide_eq_true enough mem)
  exact ⟨_, runAll_steps executed, kept.current repaired⟩

theorem initialize_fresh : Recovers none := by
  obtain ⟨db, ran, shape, -⟩ := recorded_spec
  obtain ⟨after, repaired, current⟩ := shape.repaired
  refine ⟨after, ?_, current⟩
  rwa [initializeActions, runAll_append, ran, bind_some]

theorem Shape.recovers {version : Nat} {db : Database} (shape : Shape version db)
    (first : 1 ≤ version) (last : version ≤ currentSchemaVersion) : Recovers (some db) := by
  obtain ⟨middle, migrated, lastShape, -⟩ :=
    @Shape.runMigrations version (currentSchemaVersion - version) db shape first (by omega)
  obtain ⟨after, repaired, current⟩ := lastShape.repaired
  refine ⟨after, ?_, current⟩
  rwa [openActions_eq shape last, runAll_append, migrated, bind_some]

/-- A database whose next migration adds a column that it has. -/
structure Stuck (db : Database) : Prop where
  rows : ∀ row ∈ db.versions, row.version ≤ 1
  whole : .table .unresolvedRefs ∈ db.catalog.objects →
    .column .unresolvedRefs .filePath ∈ db.catalog.objects

theorem schema_together : ∀ statement ∈ schemaVersionsTable :: schemaTables,
    (.table .unresolvedRefs ∈ statement.created → .column .unresolvedRefs .filePath ∈ statement.created) ∧
        statement ≠ .drop (.column .unresolvedRefs .filePath) := by
  decide +kernel

theorem Stuck.step {db next : Database} (stuck : Stuck db) {action : Action}
    (listed : action ∈ schemaSql) (executed : action.exec db = some next) : Stuck next := by
  have created : ∀ statement ∈ schemaVersionsTable :: schemaTables,
      Action.exec db (.step (.run statement)) = some next → Stuck next := by
    intro statement mem ran
    obtain ⟨catalog, done, rfl⟩ := map_eq_some_iff.mp ran
    obtain ⟨together, kept⟩ := schema_together statement mem
    exact ⟨stuck.rows, exec_whole done stuck.whole together kept⟩
  rcases mem_cons.mp listed with rfl | later
  · exact created _ mem_cons_self executed
  rcases mem_cons.mp later with rfl | table
  · dsimp only [Action.exec, Database.insertVersion] at executed
    split at executed
    · cases executed
      refine ⟨?_, stuck.whole⟩
      intro row mem
      rcases mem_append.mp mem with old | new
      · exact stuck.rows row old
      · rw [mem_singleton.mp new]
    · cases executed
  · obtain ⟨statement, mem, rfl⟩ := mem_map.mp table
    exact created statement (mem_cons_of_mem _ mem) executed

theorem Stuck.cut {actions : List Action} (listed : actions ⊆ schemaSql) {db : Database}
    (stuck : Stuck db) (n : Nat) : Stuck (cutAfter n actions db) := by
  induction n generalizing actions db with
  | zero => exact stuck
  | succ n ih =>
    cases actions with
    | nil => exact stuck
    | cons action rest =>
      rw [cutAfter]
      split
      · exact stuck
      rename_i next executed
      exact ih (subset_of_cons_subset listed)
        (stuck.step (listed mem_cons_self) executed)

/-- The migration to the second version fails. -/
theorem Stuck.fails {db : Database} (stuck : Stuck db) : runAll (openActions db) db = none := by
  have version : db.getCurrentVersion ≤ 1 := by
    unfold Database.getCurrentVersion
    split
    · have bounded : ∀ versions : List Nat, (∀ version ∈ versions, version ≤ 1) →
          versions.foldl max 0 ≤ 1 := by
        intro versions all
        induction versions using List.reverseRecOn with
        | nil => exact Nat.zero_le 1
        | append_singleton before last ih =>
          rw [foldl_append]
          exact max_le (ih fun version mem => all version (mem_append_left _ mem))
            (all last (by simp))
      refine bounded _ fun version mem => ?_
      obtain ⟨row, listed, rfl⟩ := mem_map.mp mem
      exact stuck.rows row listed
    · exact Nat.zero_le 1
  have pending : runMigrations db.getCurrentVersion = .migrate migrations[0] :: runMigrations 2 := by
    generalize db.getCurrentVersion = current at version
    interval_cases current
    · rfl
    · rfl
  have fails : Action.exec db (.migrate migrations[0]) = none := by
    have up : migrations[0].up = .run projectMetadataTable ::
        .run (addColumn .unresolvedRefs .filePath) :: migrations[0].up.drop 2 := rfl
    rw [Action.exec, up, Catalog.run]
    cases created : db.catalog.step (.run projectMetadataTable) with
    | none => rfl
    | some catalog =>
      have whole := exec_whole created stuck.whole (by decide) (by decide)
      have refused : catalog.step (.run (addColumn .unresolvedRefs .filePath)) = none :=
        if_neg fun both => both.1 (whole (both.2 mem_cons_self))
      rw [bind_some, Catalog.run, refused]
      rfl
  rw [openActions, if_pos (lt_of_le_of_lt version (by decide)), pending, cons_append, runAll, fails]
  rfl

/-- A new file whose initialization is interrupted can be opened exactly if the current version was
recorded. -/
theorem fresh_recovers_iff (cut : Nat) :
    Recovers (some (cutAfter cut initializeActions .empty)) ↔ schemaSql.length < cut := by
  constructor
  · rintro ⟨after, ran, -⟩
    by_contra early
    have inSchema : cutAfter cut initializeActions .empty = cutAfter cut schemaSql .empty := by
      rw [initializeActions, append_assoc]
      exact cutAfter_within (not_lt.mp early) _ _
    have stuck : Stuck (cutAfter cut schemaSql .empty) := by
      refine Stuck.cut (List.Subset.refl _) ⟨?_, ?_⟩ cut
      · exact fun row mem => absurd mem not_mem_nil
      · exact fun listed => absurd listed not_mem_nil
    rw [inSchema, stuck.fails] at ran
    cases ran
  intro recorded
  obtain ⟨⟨version, first, last, shape⟩, -⟩ := initialized_openable recorded
  exact shape.recovers first last

end Fresh

/-- Databases of both lineages and new files are openable throughout careful runs. -/
theorem Reached.openable {file : Option Database} (reached : Reached RecordsVersion file) :
    ∀ db, file = some db → Openable db := by
  induction reached with
  | absent =>
    intro db same
    cases same
  | earlier version first last shape founded =>
    intro db same
    cases same
    exact ⟨⟨version, first, last, shape⟩, founded⟩
  | @initialized file before cut guarded ih =>
    intro db same
    cases same
    cases file with
    | none => exact initialized_openable (guarded rfl)
    | some old =>
      rw [getD_some, (ih old rfl).initialized cut]
      exact ih old rfl
  | @opened old before cut ih =>
    intro db same
    cases same
    exact (ih old rfl).opened cut

/-- A database of the first version with duplicate edges. -/
def firstVersion : Database := ⟨⟨(shapeOf 1).present, [.index .edgesIdentity]⟩, [⟨1, "Initial schema"⟩]⟩

theorem firstVersion_shape : Shape 1 firstVersion where
  objects := by decide +kernel
  version := by decide +kernel

end Codegraph.Db
