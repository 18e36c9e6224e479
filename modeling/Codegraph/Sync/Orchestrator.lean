import Codegraph.Library.Commits
import Codegraph.Sync.Tables

namespace Codegraph.Sync

open Library

structure ExtractionResult where
  nodes : List Node
  edges : List Edge
  unresolvedReferences : List UnresolvedReference
  errors : List String
deriving DecidableEq

/-- A file is stored unless it has errors and no nodes. -/
def ExtractionResult.stored (result : ExtractionResult) : Prop := result.nodes ≠ [] ∨ result.errors = []

instance (result : ExtractionResult) : Decidable result.stored := inferInstanceAs (Decidable (_ ∨ _))

/-- Every node that is extracted from a file has the path of the file. -/
structure Extractor where
  hashContent : Content → Hash
  detectLanguage : Path → Content → Language
  extractFromSource : Path → Content → ExtractionResult
  maxFileSize : Nat
  owned : ∀ path content, ∀ node ∈ (extractFromSource path content).nodes, node.filePath = path

/-- A file without content cannot be read. -/
structure DiskFile where
  size : Nat
  modifiedAt : Int
  regular : Bool
  content : Option Content
deriving DecidableEq

/-- The scan lists each path once. A blocked path leads out of the root. -/
structure Tree where
  scanned : List Path
  distinct : scanned.Nodup
  disk : Path → Option DiskFile
  blocked : Path → Bool

inductive Change where
  | added
  | modified
  | metadataOnly (record : FileRecord)
deriving DecidableEq

/-- A file whose size and modification time are recorded is not read. -/
def change (extractor : Extractor) (tree : Tree) (tracked : Option FileRecord) (path : Path) :
    Option Change :=
  match tracked with
  | some record =>
    match tree.disk path with
    | none => none
    | some file =>
      if file.size = record.size ∧ file.modifiedAt = record.modifiedAt then none
      else
        match file.content with
        | none => none
        | some content =>
          if record.contentHash ≠ extractor.hashContent content then some .modified
          else some (.metadataOnly
            { record with size := file.size, modifiedAt := file.modifiedAt })
  | none =>
    match (tree.disk path).bind (·.content) with
    | none => none
    | some _ => some .added

/-- What is done about a path, with the record that it had before its file was replaced. -/
inductive Task where
  | refresh (record : FileRecord)
  | remove (path : Path)
  | index (path : Path) (before : Option FileRecord)

def removedFiles (tree : Tree) (store : Store) : List Path :=
  (store.files.map FileRecord.path).filter fun path => path ∉ tree.scanned ∨ (tree.disk path).isNone

def metadataOnlyFiles (extractor : Extractor) (tree : Tree) (store : Store) : List FileRecord :=
  tree.scanned.filterMap fun path =>
    match change extractor tree (store.getFileByPath path) path with
    | some (.metadataOnly record) => some record
    | _ => none

/-- The added files come before the modified ones. -/
def filesToIndex (extractor : Extractor) (tree : Tree) (store : Store) : List Path :=
  (tree.scanned.filter fun path =>
      change extractor tree (store.getFileByPath path) path = some .added) ++
    tree.scanned.filter fun path =>
      change extractor tree (store.getFileByPath path) path = some .modified

/-- A worker cannot read a file, finds it too large, or reads it. -/
inductive Reading where
  | failed
  | tooLarge (size : Nat) (modifiedAt : Int)
  | read (content : Content) (size : Nat) (modifiedAt : Int)
deriving DecidableEq

/-- What a worker reads while the tree is as it is. -/
def Tree.read (tree : Tree) (extractor : Extractor) (path : Path) : Reading :=
  if tree.blocked path then .failed
  else
    match tree.disk path with
    | none => .failed
    | some file =>
      if !file.regular then .failed
      else if 0 < extractor.maxFileSize ∧ extractor.maxFileSize < file.size then
        .tooLarge file.size file.modifiedAt
      else
        match file.content with
        | none => .failed
        | some content => .read content file.size file.modifiedAt

def fileRecord (extractor : Extractor) (path : Path) (content : Content) (size : Nat)
    (modifiedAt : Int) (result : ExtractionResult) : FileRecord :=
  ⟨path, extractor.hashContent content, extractor.detectLanguage path content, size, modifiedAt,
    result.nodes.length, result.errors⟩

def validNodes (result : ExtractionResult) : List Node := result.nodes.filter Store.required

def validIds (result : ExtractionResult) : List NodeId := (validNodes result).map Node.id

def validEdges (result : ExtractionResult) : List Edge :=
  result.edges.filter fun edge => edge.source ∈ validIds result ∧ edge.target ∈ validIds result

/-- A reference is kept with its node, and it has the path and language of its file. -/
def refsWithContext (extractor : Extractor) (path : Path) (content : Content)
    (result : ExtractionResult) : List UnresolvedReference :=
  (result.unresolvedReferences.filter (·.fromNodeId ∈ validIds result)).map fun reference =>
    { reference with
      filePath := some (reference.filePath.getD path)
      language := some (reference.language.getD (extractor.detectLanguage path content)) }

/-- The nodes, edges, references and record of a file are written one after another. -/
def writeTransactions (extractor : Extractor) (path : Path) (content : Content) (size : Nat)
    (modifiedAt : Int) (result : ExtractionResult) : List (Store → Store) :=
  [(·.insertNodes (validNodes result)), (·.insertEdges (validEdges result)),
    (·.insertUnresolvedRefsBatch (refsWithContext extractor path content result)),
    (·.upsertFile (fileRecord extractor path content size modifiedAt result))]

/-- The references into a file are restored before its nodes are deleted. -/
def deleteTransactions (path : Path) : List (Store → Store) :=
  [Store.restoreUnresolvedRefsForRemovedTargets path, (·.deleteFile path)]

/-- A record with the hash of the content leaves everything as it is. -/
def storeExtractionResult (extractor : Extractor) (path : Path) (content : Content) (size : Nat)
    (modifiedAt : Int) (result : ExtractionResult) (store : Store) : List Store :=
  match store.getFileByPath path with
  | some existing =>
    if existing.contentHash = extractor.hashContent content then []
    else follow store (deleteTransactions path ++
      writeTransactions extractor path content size modifiedAt result)
  | none => follow store (writeTransactions extractor path content size modifiedAt result)

def tooLargeResult (extractor : Extractor) (size : Nat) : ExtractionResult :=
  ⟨[], [], [], ["File exceeds max size (" ++ toString size ++ " > " ++
    toString extractor.maxFileSize ++ ")"]⟩

def persist (extractor : Extractor) (path : Path) (content : Content) (size : Nat)
    (modifiedAt : Int) (result : ExtractionResult) (store : Store) : List Store :=
  if result.stored then storeExtractionResult extractor path content size modifiedAt result store
  else []

def persistBatchItem (extractor : Extractor) (path : Path) (reading : Reading) (store : Store) : List Store :=
  match reading with
  | .failed => []
  | .tooLarge size modifiedAt =>
    persist extractor path "" size modifiedAt (tooLargeResult extractor size) store
  | .read content size modifiedAt =>
    persist extractor path content size modifiedAt (extractor.extractFromSource path content)
      store

/-- A record that indexing left as it was is of a file that can no longer be indexed. -/
def dropStale (path : Path) (before : Option FileRecord) (store : Store) : List Store :=
  match before, store.getFileByPath path with
  | some before, some after =>
    if after.contentHash = before.contentHash then [store.deleteFile path] else []
  | _, _ => []

def indexChanged (extractor : Extractor) (path : Path) (before : Option FileRecord)
    (reading : Reading) (store : Store) : List Store :=
  persistBatchItem extractor path reading store ++
    dropStale path before (lastOf store (persistBatchItem extractor path reading store))

def Task.run (extractor : Extractor) (read : Path → Reading) : Task → Store → List Store
  | .refresh record, store => [store.upsertFile record]
  | .remove path, store => follow store (deleteTransactions path)
  | .index path before, store => indexChanged extractor path before (read path) store

/-- The records are refreshed and the missing files removed first. -/
def cleanupTasks (extractor : Extractor) (tree : Tree) (store : Store) : List Task :=
  (metadataOnlyFiles extractor tree store).map Task.refresh ++ (removedFiles tree store).map Task.remove

/-- The records of the changed files are taken before the first of them is replaced. -/
def indexTasks (paths : List Path) (store : Store) : List Task :=
  paths.map fun path => .index path (store.getFileByPath path)

/-- The states that a sync commits, where the workers read what they find. -/
def sync (extractor : Extractor) (tree : Tree) (read : Path → Reading) (store : Store) : List Store :=
  followAll (Task.run extractor read) (cleanupTasks extractor tree store) store ++
    followAll (Task.run extractor read)
      (indexTasks (filesToIndex extractor tree store) (lastOf store
        (followAll (Task.run extractor read) (cleanupTasks extractor tree store) store)))
      (lastOf store (followAll (Task.run extractor read) (cleanupTasks extractor tree store) store))

/-- The states that indexing some files commits. -/
def indexFiles (extractor : Extractor) (paths : List Path) (read : Path → Reading)
    (store : Store) : List Store :=
  followAll (fun path => persistBatchItem extractor path (read path)) paths store

end Codegraph.Sync
