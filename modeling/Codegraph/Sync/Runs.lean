import Codegraph.Sync.Convergence

namespace Codegraph.Sync

open Library List Store

/-- The tables after runs over any trees, each of them whole or cut at one of its commits. -/
inductive Reached (extractor : Extractor) : Store → Prop where
  | empty : Reached extractor .empty
  | sync {store next : Store} (before : Reached extractor store) (tree : Tree)
      (read : Path → Reading) (cut : next ∈ sync extractor tree read store) :
      Reached extractor next
  | indexFiles {store next : Store} (before : Reached extractor store) (paths : List Path)
      (read : Path → Reading) (cut : next ∈ indexFiles extractor paths read store) :
      Reached extractor next

theorem Reached.keyed {extractor : Extractor} {store : Store} (reached : Reached extractor store) :
    store.Keyed := by
  induction reached with
  | empty => exact keyed_empty
  | sync _ tree read cut ih => exact sync_keyed ih _ cut
  | indexFiles _ paths read cut ih => exact indexFiles_keyed ih _ cut

/-- Every node has the record of its file. -/
def Settled (store : Store) : Prop := ∀ node ∈ store.nodes, store.hashOf node.filePath ≠ none

/-- No run is cut between the nodes of a file and its record. -/
inductive SettledRun (extractor : Extractor) : Store → Prop where
  | empty : SettledRun extractor .empty
  | sync {store next : Store} (before : SettledRun extractor store) (tree : Tree)
      (read : Path → Reading) (cut : next ∈ sync extractor tree read store)
      (settled : Settled next) : SettledRun extractor next
  | indexFiles {store next : Store} (before : SettledRun extractor store) (paths : List Path)
      (read : Path → Reading) (cut : next ∈ indexFiles extractor paths read store)
      (settled : Settled next) : SettledRun extractor next

/-- No two paths yield a node of one id. -/
def Apart (extractor : Extractor) : Prop :=
  ∀ first second content other, ∀ node ∈ yields extractor first content,
    node.id ∈ validIds (extractor.extractFromSource second other) → first = second

/-- The nodes of a recorded file are those of a content with the recorded hash. -/
def Exact (extractor : Extractor) (store : Store) : Prop :=
  ∀ path hash, store.hashOf path = some hash → ∃ content,
    hash = extractor.hashContent content ∧ (extractor.extractFromSource path content).stored ∧
      ∀ node, node.filePath = path → (node ∈ store.nodes ↔ node ∈ yields extractor path content)

variable {extractor : Extractor}

theorem Exact.congr {first second : Store} (exact : Exact extractor first)
    (same : SameView second first) : Exact extractor second := by
  intro path hash recorded
  rw [same.2] at recorded
  rw [same.1]
  exact exact path hash recorded

theorem Settled.congr {first second : Store} (settled : Settled first)
    (same : SameView second first) : Settled second := by
  intro node row
  rw [same.1] at row
  rw [same.2]
  exact settled node row

theorem sameView_restore (path : Path) (store : Store) :
    SameView (store.restoreUnresolvedRefsForRemovedTargets path) store :=
  ⟨rfl, fun _ => rfl⟩

theorem sameView_insertEdges (store : Store) (edges : List Edge) : SameView (store.insertEdges edges) store :=
  ⟨(insertEdges_nodes_files edges).1, hashOf_congr (insertEdges_nodes_files edges).2⟩

theorem sameView_insertRefs (store : Store) (references : List UnresolvedReference) :
    SameView (store.insertUnresolvedRefsBatch references) store :=
  ⟨rfl, fun _ => rfl⟩

theorem Exact.deleteFile {store : Store} (exact : Exact extractor store) (path : Path) :
    Exact extractor (store.deleteFile path) := by
  intro other hash recorded
  rw [hashOf_deleteFile] at recorded
  split at recorded
  · cases recorded
  rename_i different
  obtain ⟨content, hashed, stored, nodes⟩ := exact other hash recorded
  refine ⟨content, hashed, stored, ?_⟩
  intro node same
  rw [mem_deleteFile_nodes, nodes node same]
  exact and_iff_left (same ▸ different)

theorem Settled.deleteFile {store : Store} (settled : Settled store) (path : Path) :
    Settled (store.deleteFile path) := by
  intro node row
  obtain ⟨old, different⟩ := mem_deleteFile_nodes.mp row
  rw [hashOf_deleteFile, if_neg different]
  exact settled node old

/-- The nodes of a file without a record do not touch the nodes of the others. -/
theorem Exact.insertNodes {store : Store} (apart : Apart extractor) (exact : Exact extractor store)
    {path : Path} (content : Content) (unrecorded : store.hashOf path = none) :
    Exact extractor (store.insertNodes
      (validNodes (extractor.extractFromSource path content))) := by
  intro other hash recorded
  rw [hashOf_congr (insertNodes_files _)] at recorded
  have different : other ≠ path := by
    rintro rfl
    rw [unrecorded] at recorded
    cases recorded
  obtain ⟨stored, hashed, kept, nodes⟩ := exact other hash recorded
  refine ⟨stored, hashed, kept, ?_⟩
  intro node same
  rw [mem_insertNodes_nodes (validNodes_required _), nodes node same]
  constructor
  · rintro (inserted | ⟨old, -⟩)
    · have inPath := yields_filePath inserted
      exact absurd (same.symm.trans inPath) different
    · exact old
  · intro yielded
    exact .inr ⟨yielded, fun inside => different (apart other path stored content node yielded inside)⟩

theorem write_settled {path : Path} {content : Content} (size : Nat) (modifiedAt : Int)
    {store : Store} (settled : Settled store) :
    Settled (lastOf store (follow store (writeTransactions extractor path content size modifiedAt
      (extractor.extractFromSource path content)))) := by
  obtain ⟨lastNodes, lastHashes⟩ := lastOf_write extractor path content size modifiedAt
    (extractor.extractFromSource path content) store
  intro node row
  rw [lastNodes, mem_insertNodes_nodes (validNodes_required _)] at row
  rw [lastHashes]
  split
  · simp
  rename_i different
  rcases row with yielded | ⟨old, -⟩
  · have inPath := yields_filePath yielded
    exact absurd inPath different
  · exact settled node old

theorem write_stages (apart : Apart extractor) {path : Path} {content : Content} (size : Nat)
    (modifiedAt : Int) (stored : (extractor.extractFromSource path content).stored) {store : Store}
    (exact : Exact extractor store) (settled : Settled store)
    (unrecorded : store.hashOf path = none) :
    (∀ next ∈ follow store (writeTransactions extractor path content size modifiedAt
        (extractor.extractFromSource path content)), Exact extractor next) ∧
      Settled (lastOf store (follow store (writeTransactions extractor path content size modifiedAt
        (extractor.extractFromSource path content)))) := by
  obtain ⟨lastNodes, lastHashes⟩ := lastOf_write extractor path content size modifiedAt
    (extractor.extractFromSource path content) store
  have inserted := exact.insertNodes apart content unrecorded
  have afterEdges := inserted.congr (sameView_insertEdges _
    (validEdges (extractor.extractFromSource path content)))
  have afterRefs := afterEdges.congr (sameView_insertRefs _
    (refsWithContext extractor path content (extractor.extractFromSource path content)))
  have whole : Exact extractor (lastOf store (follow store (writeTransactions extractor path content
      size modifiedAt (extractor.extractFromSource path content)))) := by
    intro other hash recorded
    rw [lastHashes] at recorded
    rw [lastNodes]
    split at recorded
    · rename_i same
      cases recorded
      refine ⟨content, rfl, same ▸ stored, ?_⟩
      intro node inPath
      rw [mem_insertNodes_nodes (validNodes_required _), same]
      refine or_iff_left ?_
      rintro ⟨old, -⟩
      have recorded := settled node old
      rw [inPath, same] at recorded
      exact recorded unrecorded
    · exact inserted other hash ((hashOf_congr (insertNodes_files _) other).trans recorded)
  constructor
  · intro next mem
    simp only [follow, writeTransactions, mem_cons, not_mem_nil, or_false] at mem
    rcases mem with rfl | rfl | rfl | rfl
    · exact inserted
    · exact afterEdges
    · exact afterRefs
    · exact whole
  · exact write_settled size modifiedAt settled

/-- A state in which every recorded file has its nodes and every node has a record. -/
def Sound (extractor : Extractor) (store : Store) : Prop := Exact extractor store ∧ Settled store

theorem delete_stages {path : Path} {store : Store} (sound : Sound extractor store) :
    (∀ next ∈ follow store (deleteTransactions path), Exact extractor next) ∧
      Sound extractor (lastOf store (follow store (deleteTransactions path))) := by
  obtain ⟨exact, settled⟩ := sound
  have restored := exact.congr (sameView_restore path store)
  have deleted := restored.deleteFile path
  constructor
  · intro next mem
    simp only [follow, deleteTransactions, mem_cons, not_mem_nil, or_false] at mem
    rcases mem with rfl | rfl
    · exact restored
    · exact deleted
  · exact ⟨deleted, (settled.congr (sameView_restore path store)).deleteFile path⟩

theorem store_stages (apart : Apart extractor) {path : Path} {content : Content} (size : Nat)
    (modifiedAt : Int) (stored : (extractor.extractFromSource path content).stored) {store : Store}
    (sound : Sound extractor store) :
    (∀ next ∈ storeExtractionResult extractor path content size modifiedAt
        (extractor.extractFromSource path content) store, Exact extractor next) ∧
      Sound extractor (lastOf store (storeExtractionResult extractor path content size modifiedAt
        (extractor.extractFromSource path content) store)) := by
  have none_stages : ∀ {store : Store}, Sound extractor store → store.hashOf path = none →
      (∀ next ∈ follow store (writeTransactions extractor path content size modifiedAt
        (extractor.extractFromSource path content)), Exact extractor next) ∧
      Sound extractor (lastOf store (follow store (writeTransactions extractor path content size
        modifiedAt (extractor.extractFromSource path content)))) := by
    intro store sound unrecorded
    obtain ⟨all, settled⟩ := write_stages apart size modifiedAt stored sound.1 sound.2 unrecorded
    exact ⟨all, lastOf_keeps sound.1 all, settled⟩
  unfold storeExtractionResult
  split
  · split
    · exact ⟨fun next mem => absurd mem not_mem_nil, sound⟩
    obtain ⟨deletedAll, deleted⟩ := @delete_stages extractor path store sound
    have unrecorded : (lastOf store (follow store (deleteTransactions path))).hashOf path = none := by
      rw [lastOf_delete, hashOf_deleteFile, if_pos rfl]
    obtain ⟨writtenAll, written⟩ := none_stages deleted unrecorded
    rw [follow_append, lastOf_append]
    refine ⟨?_, written⟩
    intro next mem
    rcases mem_append.mp mem with first | later
    · exact deletedAll next first
    · exact writtenAll next later
  · rename_i absent
    exact none_stages sound (by rw [Store.hashOf, absent]; rfl)

theorem persist_stages (apart : Apart extractor) (path : Path) (reading : Reading) {store : Store}
    (sound : Sound extractor store) :
    (∀ next ∈ persistBatchItem extractor path reading store, Exact extractor next) ∧
      Sound extractor (lastOf store (persistBatchItem extractor path reading store)) := by
  have unchanged : (∀ next ∈ ([] : List Store), Exact extractor next) ∧ Sound extractor (lastOf store []) :=
    ⟨fun next mem => absurd mem not_mem_nil, sound⟩
  cases reading with
  | failed => exact unchanged
  | tooLarge size modifiedAt =>
    have unstored : ¬(tooLargeResult extractor size).stored := by
      simp [ExtractionResult.stored, tooLargeResult]
    dsimp only [persistBatchItem, persist]
    rwa [if_neg unstored]
  | read content size modifiedAt =>
    dsimp only [persistBatchItem, persist]
    split
    · rename_i stored
      exact store_stages apart size modifiedAt stored sound
    · exact unchanged

theorem index_stages (apart : Apart extractor) (path : Path) (before : Option FileRecord)
    (reading : Reading) {store : Store} (sound : Sound extractor store) :
    (∀ next ∈ indexChanged extractor path before reading store, Exact extractor next) ∧
      Sound extractor (lastOf store (indexChanged extractor path before reading store)) := by
  obtain ⟨persistedAll, exact, settled⟩ := persist_stages apart path reading sound
  have dropped : ∀ next ∈ dropStale path before
      (lastOf store (persistBatchItem extractor path reading store)),
        next = (lastOf store (persistBatchItem extractor path reading store)).deleteFile path := by
    intro next mem
    unfold dropStale at mem
    split at mem
    · split at mem
      · exact mem_singleton.mp mem
      · cases mem
    · cases mem
  rw [indexChanged, lastOf_append]
  constructor
  · intro next mem
    rcases mem_append.mp mem with first | later
    · exact persistedAll next first
    · rw [dropped next later]
      exact exact.deleteFile path
  rcases lastOf_cases (lastOf store (persistBatchItem extractor path reading store))
    (dropStale path before (lastOf store (persistBatchItem extractor path reading store)))
    with same | mem
  · rw [same]
    exact ⟨exact, settled⟩
  · rw [dropped _ mem]
    exact ⟨exact.deleteFile path, settled.deleteFile path⟩

theorem cleanup_stages {tree : Tree} {read : Path → Reading} {store : Store}
    (keyed : store.Keyed) (sound : Sound extractor store) :
    (∀ next ∈ followAll (Task.run extractor read) (cleanupTasks extractor tree store) store,
        Exact extractor next) ∧
      Sound extractor (lastOf store
        (followAll (Task.run extractor read) (cleanupTasks extractor tree store) store)) := by
  have refreshed : ∀ next ∈ followAll (Task.run extractor read)
      ((metadataOnlyFiles extractor tree store).map Task.refresh) store, SameView next store :=
    refresh_sameView extractor read (metadataOnly_known keyed)
  have view := lastOf_keeps ⟨rfl, fun _ => rfl⟩ refreshed
  have start : Sound extractor (lastOf store (followAll (Task.run extractor read)
      ((metadataOnlyFiles extractor tree store).map Task.refresh) store)) :=
    ⟨sound.1.congr view, sound.2.congr view⟩
  have stages : ∀ task ∈ (removedFiles tree store).map Task.remove, ∀ state,
      Sound extractor state → (∀ next ∈ Task.run extractor read task state, Exact extractor next) ∧
        Sound extractor (lastOf state (Task.run extractor read task state)) := by
    intro task listed state sound
    obtain ⟨path, -, rfl⟩ := mem_map.mp listed
    exact delete_stages sound
  obtain ⟨removedAll, removed⟩ := followAll_stages stages start
  rw [cleanupTasks, followAll_append, lastOf_append]
  refine ⟨?_, removed⟩
  intro next mem
  rcases mem_append.mp mem with first | later
  · exact sound.1.congr (refreshed next first)
  · exact removedAll next later

theorem sync_stages (apart : Apart extractor) {tree : Tree} {read : Path → Reading} {store : Store}
    (keyed : store.Keyed) (sound : Sound extractor store) :
    ∀ next ∈ sync extractor tree read store, Exact extractor next := by
  obtain ⟨cleanedAll, cleaned⟩ := @cleanup_stages extractor tree read store keyed sound
  have stages : ∀ (paths : List Path) (start : Store), ∀ task ∈ indexTasks paths start, ∀ state,
      Sound extractor state → (∀ next ∈ Task.run extractor read task state, Exact extractor next) ∧
        Sound extractor (lastOf state (Task.run extractor read task state)) := by
    intro paths start task listed state sound
    obtain ⟨path, -, rfl⟩ := mem_map.mp listed
    exact index_stages apart path _ (read path) sound
  intro next mem
  rcases mem_append.mp mem with first | later
  · exact cleanedAll next first
  · exact (followAll_stages (stages _ _) cleaned).1 next later

/-- Runs that are cut outside of a store keep the nodes of every recorded file. -/
theorem SettledRun.sound (apart : Apart extractor) {store : Store}
    (run : SettledRun extractor store) : store.Keyed ∧ Sound extractor store := by
  induction run with
  | empty =>
    refine ⟨keyed_empty, ?_, fun node row => absurd row not_mem_nil⟩
    intro path hash recorded
    simp [Store.hashOf, Store.getFileByPath, Store.empty] at recorded
  | sync _ tree read cut settled ih =>
    exact ⟨sync_keyed ih.1 _ cut, sync_stages apart ih.1 ih.2 _ cut, settled⟩
  | indexFiles _ paths read cut settled ih =>
    refine ⟨indexFiles_keyed ih.1 _ cut, ?_, settled⟩
    exact (followAll_stages (fun path _ _ sound => persist_stages apart path (read path) sound)
      ih.2).1 _ cut

/-- The workers find each file that the diff leaves alone as its record says. -/
def AsRecorded (extractor : Extractor) (tree : Tree) (store : Store) : Prop :=
  ∀ path, LeftAlone extractor tree store path → ∃ content size modifiedAt,
    tree.read extractor path = .read content size modifiedAt ∧
      store.hashOf path = some (extractor.hashContent content)

theorem SettledRun.repairable (apart : Apart extractor)
    (collisionFree : Function.Injective extractor.hashContent) {store : Store}
    (run : SettledRun extractor store) {tree : Tree} (recorded : AsRecorded extractor tree store) :
    Repairable extractor tree store := by
  obtain ⟨keyed, exact, settled⟩ := run.sound apart
  have current : ∀ path, LeftAlone extractor tree store path → ∃ content,
      indexed extractor tree path = some content ∧
        store.hashOf path = some (extractor.hashContent content) ∧
        ∀ node, node.filePath = path → (node ∈ store.nodes ↔ node ∈ yields extractor path content) := by
    intro path left
    obtain ⟨content, size, modifiedAt, reading, hash⟩ := recorded path left
    obtain ⟨old, sameHash, stored, nodes⟩ := exact path _ hash
    obtain rfl := collisionFree sameHash
    refine ⟨content, ?_, hash, nodes⟩
    rw [indexed, reading]
    exact if_pos stored
  constructor
  · intro path left
    obtain ⟨content, read, hash, -⟩ := current path left
    exact ⟨content, read, hash⟩
  · intro path left content read node yielded
    obtain ⟨other, readOther, -, nodes⟩ := current path left
    rw [read] at readOther
    cases readOther
    exact (nodes node (yields_filePath yielded)).mpr yielded
  · intro node row unclaimed
    rcases unclaimed with untracked | left
    · exact absurd untracked (settled node row)
    obtain ⟨content, read, -, nodes⟩ := current _ left
    refine ⟨node.filePath, left.scanned keyed, content, read, ?_⟩
    exact mem_validIds_iff.mpr ⟨node, (nodes node rfl).mp row, rfl⟩
  · intro first _ second _ content other _ _ node yielded inside
    exact apart first second content other node yielded inside

/-- One whole sync of an unchanged tree repairs what earlier runs left behind exactly when the
records that it leaves alone are current and have their nodes, the nodes that it leaves without a
record are replaced, and no two files yield a node of one id. Runs that are never cut between the
nodes of a file and its record leave nothing else behind. -/
theorem sync_converges (extractor : Extractor) : (∀ store, Reached extractor store → ∀ tree,
      Converged extractor tree (synced extractor tree store) ↔ Repairable extractor tree store) ∧
    (Apart extractor → Function.Injective extractor.hashContent →
      ∀ store, SettledRun extractor store → ∀ tree, AsRecorded extractor tree store →
        Converged extractor tree (synced extractor tree store)) := by
  constructor
  · intro store reached tree
    exact ⟨repairable_of_converged reached.keyed, converged_of_repairable reached.keyed⟩
  · intro apart collisionFree store run tree recorded
    exact converged_of_repairable (run.sound apart).1 (run.repairable apart collisionFree recorded)

/-- Each file is one function whose name is the content. -/
def oneFunction : Extractor where
  hashContent := id
  detectLanguage _ _ := "rust"
  extractFromSource path content :=
    ⟨[⟨"function:" ++ path, content, content, path, "rust", 1, 0⟩], [], [], []⟩
  maxFileSize := 0
  owned path content node member := by rw [mem_singleton.mp member]

theorem oneFunction_apart : Apart oneFunction := by
  have named : ∀ path content, ∀ id ∈ validIds (oneFunction.extractFromSource path content),
      id = "function:" ++ path := by
    intro path content id mem
    obtain ⟨node, listed, rfl⟩ := mem_map.mp mem
    rw [mem_singleton.mp (mem_filter.mp listed).1]
  intro first second content other node yielded inside
  have firstId := named first content node.id (mem_validIds_iff.mpr ⟨node, yielded, rfl⟩)
  have secondId := named second other node.id inside
  exact (String.append_right_inj _).mp (firstId.symm.trans secondId)

def noFiles : Tree := ⟨[], nodup_nil, fun _ => none, fun _ => false⟩

/-- The only file was edited since it was indexed. -/
def editedFile : Tree where
  scanned := ["a.rs"]
  distinct := nodup_singleton _
  disk path := if path = "a.rs" then some ⟨1, 2, true, some "g"⟩ else none
  blocked _ := false

/-- The states that indexing the only file commits. -/
def indexedOnce : List Store := indexFiles oneFunction ["a.rs"] (fun _ => .read "f" 1 1) .empty

/-- Indexing is cut after the nodes of a file are inserted, and the file is then removed. -/
theorem interrupted_store_keeps_nodes : ∃ store, Reached oneFunction store ∧
    ¬Converged oneFunction noFiles (synced oneFunction noFiles store) := by
  have cut : Store.insertNodes .empty [⟨"function:a.rs", "f", "f", "a.rs", "rust", 1, 0⟩] ∈
      indexedOnce := by decide +kernel
  refine ⟨_, .indexFiles .empty ["a.rs"] _ cut, ?_⟩
  intro converged
  have kept : ⟨"function:a.rs", "f", "f", "a.rs", "rust", 1, 0⟩ ∈
      (synced oneFunction noFiles (Store.insertNodes .empty
        [⟨"function:a.rs", "f", "f", "a.rs", "rust", 1, 0⟩])).nodes := by decide +kernel
  obtain ⟨path, scanned, -⟩ := (converged.nodes _).mp kept
  exact absurd scanned not_mem_nil

/-- A whole run followed by an edit is repaired. -/
theorem sync_converges_editedFile : Converged oneFunction editedFile
      (synced oneFunction editedFile (lastOf .empty indexedOnce)) := by
  have cut : lastOf .empty indexedOnce ∈ indexedOnce := by decide +kernel
  have settled : Settled (lastOf .empty indexedOnce) := by
    unfold Settled
    decide +kernel
  refine (sync_converges oneFunction).2 oneFunction_apart Function.injective_id _
    (.indexFiles .empty ["a.rs"] _ cut settled) editedFile ?_
  rintro path ⟨recorded, -, kept⟩
  by_cases same : path = "a.rs"
  · refine absurd ?_ kept
    rw [same]
    decide +kernel
  have files : (lastOf .empty indexedOnce).files = [⟨"a.rs", "f", "rust", 1, 1, 1, []⟩] := by
    decide +kernel
  refine absurd ?_ recorded
  rw [Store.hashOf, Store.getFileByPath, files]
  simp [Ne.symm same]

end Codegraph.Sync
