import Codegraph.Library.Catalog

namespace Codegraph.Db

open Library

inductive Table where
  | schemaVersions
  | nodes
  | edges
  | files
  | unresolvedRefs
  | nodesFts
  | nameSegmentVocab
  | externalEdges
  | compilerSymbols
  | projectMetadata
deriving DecidableEq

inductive Column where
  | version | appliedAt | description
  | id | kind | name | qualifiedName | filePath | language
  | startLine | endLine | startColumn | endColumn | startByte | endByte | address | size
  | docstring | signature | returnType | visibility
  | isExported | isAsync | isStatic | isAbstract | decorators | typeParameters | updatedAt
  | source | target | metadata | line | col | provenance
  | path | contentHash | modifiedAt | indexedAt | nodeCount | errors | generated
  | fromNodeId | referenceName | referenceKind | candidates | status | nameTail
  | segment
  | targetGraphKind | targetGraphKey | targetNodeId | targetName | targetQualifiedName | targetKind
  | targetFilePath | targetLine | confidence | resolvedBy | createdAt
  | nodeId | symbol
  | key | value
deriving DecidableEq

inductive Index where
  | nodesKind | nodesName | nodesQualifiedName | nodesFilePath | nodesLanguage | nodesFileLine
  | nodesLowerName
  | edgesSource | edgesTarget
  | edgesKind | edgesSourceKind | edgesTargetKind | edgesIdentity | edgesProvenance
  | filesLanguage | filesModifiedAt | filesGenerated
  | unresolvedFromNode | unresolvedName | unresolvedFilePath | unresolvedFromName
  | unresolvedStatus | unresolvedFailedTail
  | externalEdgesIdentity | externalEdgesSource | externalEdgesTarget
  | compilerSymbolsSymbol | compilerSymbolsGenerated
deriving DecidableEq

inductive Trigger where
  | nodesAi
  | nodesAd
  | nodesAu
deriving DecidableEq

inductive SchemaObject where
  | table (table : Table)
  | column (table : Table) (column : Column)
  | index (index : Index)
  | trigger (trigger : Trigger)
deriving DecidableEq

abbrev Ddl := Statement SchemaObject

/-- The statements say `IF NOT EXISTS`. -/
def createTable (table : Table) (columns : List Column) : Ddl :=
  .create (.table table) [] (columns.map (.column table))

/-- An index is on columns of one table, its condition included. -/
def createIndex (index : Index) (table : Table) (columns : List Column) : Ddl :=
  .create (.index index) (.table table :: columns.map (.column table)) []

def createUniqueIndex (index : Index) (table : Table) (columns : List Column) : Ddl :=
  .createUnique (.index index) (.table table :: columns.map (.column table))

def createTrigger (trigger : Trigger) (table : Table) : Ddl :=
  .create (.trigger trigger) [.table table] []

def addColumn (table : Table) (column : Column) : Ddl := .add (.column table column) [.table table]

def dropIndex (index : Index) : Ddl := .drop (.index index)

def addColumnIfMissing (table : Table) (column : Column) : Step SchemaObject :=
  .ifMissing (.column table column) (.run (addColumn table column))

def edgeIdentity : List Column := [.source, .target, .kind, .line, .col]

def schemaVersionsTable : Ddl := createTable .schemaVersions [.version, .appliedAt, .description]

def nodeColumns : List Column :=
  [.id, .kind, .name, .qualifiedName, .filePath, .language, .startLine, .endLine, .startColumn,
    .endColumn, .startByte, .endByte, .address, .size, .docstring, .signature, .returnType,
    .visibility, .isExported, .isAsync, .isStatic, .isAbstract, .decorators, .typeParameters,
    .updatedAt]

def edgeColumns : List Column := [.id, .source, .target, .kind, .metadata, .line, .col, .provenance]

def fileColumns : List Column :=
  [.path, .contentHash, .language, .size, .modifiedAt, .indexedAt, .nodeCount, .errors, .generated]

def unresolvedColumns : List Column :=
  [.id, .fromNodeId, .referenceName, .referenceKind, .line, .col, .candidates, .metadata, .filePath,
    .language, .status, .nameTail]

def nameSegmentVocabTable : Ddl := createTable .nameSegmentVocab [.segment, .name]

def projectMetadataTable : Ddl := createTable .projectMetadata [.key, .value, .updatedAt]

def filesGeneratedIndex : Ddl := createIndex .filesGenerated .files [.path, .generated]

def unresolvedStatusIndex : Ddl := createIndex .unresolvedStatus .unresolvedRefs [.status]

def unresolvedFailedTailIndex : Ddl :=
  createIndex .unresolvedFailedTail .unresolvedRefs [.nameTail, .status]

def edgesIdentityIndex : Ddl := createUniqueIndex .edgesIdentity .edges edgeIdentity

def externalEdgesDdl : List Ddl :=
  [createTable .externalEdges [.id, .source, .kind, .targetGraphKind, .targetGraphKey,
      .targetNodeId, .targetName, .targetQualifiedName, .targetKind, .targetFilePath, .targetLine,
      .referenceName, .line, .col, .confidence, .resolvedBy, .metadata, .createdAt],
    createUniqueIndex .externalEdgesIdentity .externalEdges
      [.source, .kind, .targetGraphKey, .targetNodeId, .line, .col],
    createIndex .externalEdgesSource .externalEdges [.source, .kind],
    createIndex .externalEdgesTarget .externalEdges [.targetGraphKey, .targetNodeId]]

def compilerSymbolsDdl : List Ddl :=
  [createTable .compilerSymbols [.nodeId, .symbol, .generated],
    createIndex .compilerSymbolsSymbol .compilerSymbols [.symbol],
    createIndex .compilerSymbolsGenerated .compilerSymbols [.nodeId, .generated]]

/-- The statements of the schema after the first version is recorded. -/
def schemaTables : List Ddl :=
  [createTable .nodes nodeColumns, createTable .edges edgeColumns, createTable .files fileColumns,
    createTable .unresolvedRefs unresolvedColumns,
    createIndex .nodesKind .nodes [.kind], createIndex .nodesName .nodes [.name],
    createIndex .nodesQualifiedName .nodes [.qualifiedName],
    createIndex .nodesFilePath .nodes [.filePath], createIndex .nodesLanguage .nodes [.language],
    createIndex .nodesFileLine .nodes [.filePath, .startLine],
    createIndex .nodesLowerName .nodes [.name],
    createTable .nodesFts [.id, .name, .qualifiedName, .docstring, .signature],
    createTrigger .nodesAi .nodes, createTrigger .nodesAd .nodes, createTrigger .nodesAu .nodes,
    nameSegmentVocabTable,
    createIndex .edgesKind .edges [.kind], createIndex .edgesSourceKind .edges [.source, .kind],
    createIndex .edgesTargetKind .edges [.target, .kind], edgesIdentityIndex,
    createIndex .filesLanguage .files [.language],
    createIndex .filesModifiedAt .files [.modifiedAt], filesGeneratedIndex,
    createIndex .unresolvedFromNode .unresolvedRefs [.fromNodeId],
    createIndex .unresolvedName .unresolvedRefs [.referenceName],
    createIndex .unresolvedFilePath .unresolvedRefs [.filePath],
    createIndex .unresolvedFromName .unresolvedRefs [.fromNodeId, .referenceName],
    unresolvedStatusIndex, unresolvedFailedTailIndex,
    createIndex .edgesProvenance .edges [.provenance]] ++
    externalEdgesDdl ++ compilerSymbolsDdl ++ [projectMetadataTable]

/-- The duplicates of edges are deleted unless the index of their identity rules them out. -/
def migrateUnifiedSchemaV8 : List (Step SchemaObject) :=
  [addColumnIfMissing .nodes .startByte, addColumnIfMissing .nodes .endByte,
    addColumnIfMissing .nodes .address, addColumnIfMissing .nodes .size,
    addColumnIfMissing .nodes .returnType, addColumnIfMissing .unresolvedRefs .metadata,
    .ifMissing (.index .edgesIdentity) (.run (.settle (.index .edgesIdentity)
      (.table .edges :: (Column.id :: edgeIdentity).map (.column .edges)))),
    .ifMissing (.index .edgesIdentity) (.run edgesIdentityIndex),
    .run nameSegmentVocabTable]

def repairSharedSchemaV9 : List (Step SchemaObject) :=
  migrateUnifiedSchemaV8 ++
    [addColumnIfMissing .unresolvedRefs .status, addColumnIfMissing .unresolvedRefs .nameTail,
      .ifPresent (.table .files) (addColumnIfMissing .files .generated),
      .ifPresent (.table .files) (.run filesGeneratedIndex),
      .run unresolvedStatusIndex, .run unresolvedFailedTailIndex]

structure Migration where
  version : Nat
  description : String
  up : List (Step SchemaObject)

def currentSchemaVersion : Nat := 11

def migrations : List Migration :=
  [⟨2, "Add project metadata, provenance tracking, and unresolved ref context",
      [.run projectMetadataTable, .run (addColumn .unresolvedRefs .filePath),
        .run (addColumn .unresolvedRefs .language), .run (addColumn .edges .provenance),
        .run (createIndex .unresolvedFilePath .unresolvedRefs [.filePath]),
        .run (createIndex .edgesProvenance .edges [.provenance])]⟩,
    ⟨3, "Add lower(name) expression index for memory-efficient case-insensitive lookups",
      [.run (createIndex .nodesLowerName .nodes [.name])]⟩,
    ⟨4, "Drop redundant idx_edges_source / idx_edges_target (covered by source_kind / " ++
        "target_kind composites)",
      [.run (dropIndex .edgesSource), .run (dropIndex .edgesTarget)]⟩,
    ⟨5, "Add nullable start_byte / end_byte byte offsets to nodes (tree-sitter byte ranges; " ++
        "backfill NULL, populated on re-index)",
      [.run (addColumn .nodes .startByte), .run (addColumn .nodes .endByte)]⟩,
    ⟨6, "Add nullable address / size to nodes (binary virtual address + size for decompiled " ++
        "IDA/Hex-Rays output; backfill NULL, populated on re-index)",
      [.run (addColumn .nodes .address), .run (addColumn .nodes .size)]⟩,
    ⟨7, "Add nullable metadata to unresolved_refs (copied onto resolved edges; backfill NULL, " ++
        "populated on re-index)",
      [.run (addColumn .unresolvedRefs .metadata)]⟩,
    ⟨8, "Unify Rust and TypeScript schema-7 lineages, deduplicate edges, and add prompt vocabulary",
      migrateUnifiedSchemaV8⟩,
    ⟨9, "Reconcile Rust and TypeScript v9 store columns and indexes", repairSharedSchemaV9⟩,
    ⟨10, "Add external_edges: references resolved into dependency shards and linked projects",
      externalEdgesDdl.map .run⟩,
    ⟨11, "Add compiler_symbols: SCIP symbols of nodes and the nodes macros generate",
      compilerSymbolsDdl.map .run⟩]

structure SchemaVersion where
  version : Nat
  description : String
deriving DecidableEq

/-- A database without its rows, except those of the schema versions. -/
structure Database where
  catalog : Catalog SchemaObject
  versions : List SchemaVersion
deriving DecidableEq

namespace Database

def empty : Database := ⟨⟨[], []⟩, []⟩

/-- A database without versions has version zero. -/
def getCurrentVersion (db : Database) : Nat :=
  if .column .schemaVersions .version ∈ db.catalog.objects then
    (db.versions.map SchemaVersion.version).foldl max 0
  else 0

/-- The version is the primary key. -/
def insertVersion (db : Database) (row : SchemaVersion) : Option Database :=
  if [.table .schemaVersions, .column .schemaVersions .version,
      .column .schemaVersions .appliedAt, .column .schemaVersions .description] ⊆
        db.catalog.objects ∧ row.version ∉ db.versions.map SchemaVersion.version then
    some { db with versions := db.versions ++ [row] }
  else none

def insertOrIgnoreVersion (db : Database) (row : SchemaVersion) : Option Database :=
  if row.version ∈ db.versions.map SchemaVersion.version then some db else db.insertVersion row

end Database

/-- What takes effect at once. -/
inductive Action where
  | step (one : Step SchemaObject)
  | insertVersion (row : SchemaVersion)
  | recordCurrent
  | migrate (migration : Migration)

namespace Action

/-- A migration and its record are one transaction. -/
def exec (db : Database) : Action → Option Database
  | .step one => (db.catalog.step one).map fun catalog => { db with catalog := catalog }
  | .insertVersion row => db.insertVersion row
  | .recordCurrent =>
    if db.getCurrentVersion < currentSchemaVersion then
      db.insertOrIgnoreVersion ⟨currentSchemaVersion, "Initial schema includes all migrations"⟩
    else some db
  | .migrate migration =>
    (db.catalog.run migration.up).bind fun catalog =>
      Database.insertVersion { db with catalog := catalog }
        ⟨migration.version, migration.description⟩

end Action

/-- The actions end with the first error. -/
def runAll : List Action → Database → Option Database
  | [], db => some db
  | action :: rest, db => (action.exec db).bind (runAll rest)

/-- What is stored when a run ends with an error or is interrupted after some of its actions. -/
def cutAfter : Nat → List Action → Database → Database
  | 0, _, db => db
  | _ + 1, [], db => db
  | n + 1, action :: rest, db =>
    match action.exec db with
    | none => db
    | some next => cutAfter n rest next

/-- The schema records its first version before its tables are created. -/
def schemaSql : List Action :=
  .step (.run schemaVersionsTable) :: .insertVersion ⟨1, "Initial schema"⟩ ::
    schemaTables.map fun statement => .step (.run statement)

def repairActions : List Action := repairSharedSchemaV9.map .step

def initializeActions : List Action := schemaSql ++ [.recordCurrent] ++ repairActions

/-- The migrations are listed in the order of their versions. -/
def runMigrations (fromVersion : Nat) : List Action :=
  (migrations.filter (fromVersion < ·.version)).map .migrate

def openActions (db : Database) : List Action :=
  (if db.getCurrentVersion < currentSchemaVersion then runMigrations db.getCurrentVersion else []) ++
    repairActions

/-- Everything that the current schema creates. -/
def currentObjects : List SchemaObject := (schemaVersionsTable :: schemaTables).flatMap Statement.created

/-- A database has the current schema and records its version. -/
structure Current (db : Database) : Prop where
  objects : currentObjects ⊆ db.catalog.objects
  version : db.getCurrentVersion = currentSchemaVersion

/-- An absent file can be initialized, and a database can be opened. -/
def Recovers : Option Database → Prop
  | none => ∃ after, runAll initializeActions .empty = some after ∧ Current after
  | some db => ∃ after, runAll (openActions db) db = some after ∧ Current after

/-- What a database may still lack. A database of the other lineage may lack everything that is
repaired, whatever its version is. -/
def lackedSteps (version : Nat) : List (Step SchemaObject) :=
  (migrations.filter (version < ·.version)).flatMap Migration.up ++ repairSharedSchemaV9

/-- A database has what no lacked step brings, and lacks the columns that are added without looking
for them. Only edges may have rows that their index does not admit. -/
def shapeOf (version : Nat) : Known SchemaObject where
  present := currentObjects.filter (· ∉ (lackedSteps version).flatMap Step.brought)
  absent := (lackedSteps version).flatMap Step.forced
  ready := [.index .externalEdgesIdentity]
  whole := (lackedSteps version).flatMap Step.composed

/-- A database that some earlier version of either lineage has left. -/
structure Shape (version : Nat) (db : Database) : Prop where
  objects : (shapeOf version).Of db.catalog
  version : db.getCurrentVersion = version

/-- A database has what the repair brings. -/
def Repaired (db : Database) : Prop := repairSharedSchemaV9.flatMap Step.brought ⊆ db.catalog.objects

end Codegraph.Db
