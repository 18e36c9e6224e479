import Codegraph.Sync.Effects

namespace Codegraph.Sync

open Library List Store

variable {extractor : Extractor} {tree : Tree}

/-- The content of a file that is read and stored. -/
def indexed (extractor : Extractor) (tree : Tree) (path : Path) : Option Content :=
  match tree.read extractor path with
  | .read content _ _ =>
    if (extractor.extractFromSource path content).stored then some content else none
  | _ => none

/-- The nodes and records are those of the files on disk that are indexed. -/
structure Converged (extractor : Extractor) (tree : Tree) (store : Store) : Prop where
  files : ∀ path hash, (∃ record ∈ store.files, record.path = path ∧ record.contentHash = hash) ↔
    path ∈ tree.scanned ∧ ∃ content, indexed extractor tree path = some content ∧
      hash = extractor.hashContent content
  nodes : ∀ node, node ∈ store.nodes ↔ ∃ path ∈ tree.scanned, ∃ content,
    indexed extractor tree path = some content ∧ node ∈ yields extractor path content

theorem lastOf_write (extractor : Extractor) (path : Path) (content : Content) (size : Nat) (modifiedAt : Int)
    (result : ExtractionResult) (store : Store) :
    (lastOf store (follow store (writeTransactions extractor path content size modifiedAt
        result))).nodes = (store.insertNodes (validNodes result)).nodes ∧
      ∀ other, (lastOf store (follow store (writeTransactions extractor path content size
        modifiedAt result))).hashOf other =
          if other = path then some (extractor.hashContent content) else store.hashOf other := by
  rw [lastOf_follow]
  simp only [writeTransactions, foldl_cons, foldl_nil]
  obtain ⟨sameNodes, sameFiles⟩ :=
    @insertEdges_nodes_files (store.insertNodes (validNodes result)) (validEdges result)
  constructor
  · rw [← sameNodes]
    unfold Store.upsertFile
    split <;> rfl
  intro other
  rw [hashOf_upsertFile]
  refine if_congr Iff.rfl rfl ?_
  exact hashOf_congr (sameFiles.trans (insertNodes_files _)) other

theorem lastOf_delete (path : Path) (store : Store) : lastOf store (follow store (deleteTransactions path)) =
      (store.restoreUnresolvedRefsForRemovedTargets path).deleteFile path :=
  lastOf_follow store (deleteTransactions path)

variable {path : Path}

theorem lastOf_store {content : Content} (size : Nat) (modifiedAt : Int)
    {store : Store} (changed : store.hashOf path ≠ some (extractor.hashContent content)) :
    (∀ node, node ∈ (lastOf store (storeExtractionResult extractor path content size modifiedAt
        (extractor.extractFromSource path content) store)).nodes ↔
      node ∈ yields extractor path content ∨
        node ∈ store.nodes ∧ (store.hashOf path ≠ none → node.filePath ≠ path) ∧
          node.id ∉ validIds (extractor.extractFromSource path content)) ∧
      ∀ other, (lastOf store (storeExtractionResult extractor path content size modifiedAt
        (extractor.extractFromSource path content) store)).hashOf other =
          if other = path then some (extractor.hashContent content) else store.hashOf other := by
  unfold storeExtractionResult
  split
  · rename_i existing found
    have recorded : store.hashOf path = some existing.contentHash := by
      rw [Store.hashOf, found]
      rfl
    rw [if_neg fun same => changed (recorded.trans (congrArg some same)), follow_append,
      lastOf_append, lastOf_delete]
    obtain ⟨nodes, hashes⟩ := lastOf_write extractor path content size modifiedAt
      (extractor.extractFromSource path content) ((store.restoreUnresolvedRefsForRemovedTargets path).deleteFile path)
    constructor
    · intro node
      rw [nodes, mem_insertNodes_nodes (validNodes_required _), mem_deleteFile_nodes, recorded]
      simp only [ne_eq, reduceCtorEq, not_false_eq_true, forall_const, and_assoc]
      rfl
    intro other
    rw [hashes]
    split
    · rfl
    rename_i different
    rw [hashOf_deleteFile, if_neg different]
    rfl
  · rename_i absent
    have unrecorded : store.hashOf path = none := by
      rw [Store.hashOf, absent]
      rfl
    obtain ⟨nodes, hashes⟩ := lastOf_write extractor path content size modifiedAt
      (extractor.extractFromSource path content) store
    refine ⟨?_, hashes⟩
    intro node
    rw [nodes, mem_insertNodes_nodes (validNodes_required _), unrecorded]
    simp only [ne_eq, not_true_eq_false, false_imp_iff, true_and]
    rfl

theorem persistBatchItem_eq (path : Path) (store : Store) :
    persistBatchItem extractor path (tree.read extractor path) store =
        [] ∧ indexed extractor tree path = none ∨
      ∃ content size modifiedAt, indexed extractor tree path = some content ∧
        persistBatchItem extractor path (tree.read extractor path) store =
          storeExtractionResult extractor path content size modifiedAt
            (extractor.extractFromSource path content) store := by
  unfold indexed persistBatchItem
  cases tree.read extractor path with
  | failed => exact .inl ⟨rfl, rfl⟩
  | tooLarge size modifiedAt =>
    have unstored : ¬(tooLargeResult extractor size).stored := by
      simp [ExtractionResult.stored, tooLargeResult]
    exact .inl ⟨if_neg unstored, rfl⟩
  | read content size modifiedAt =>
    by_cases stored : (extractor.extractFromSource path content).stored
    · exact .inr ⟨content, size, modifiedAt, if_pos stored, if_pos stored⟩
    · exact .inl ⟨if_neg stored, if_neg stored⟩

theorem lastOf_dropStale {before : Option FileRecord} {store : Store} :
    lastOf store (dropStale path before store) =
      if store.hashOf path ≠ none ∧ before.map FileRecord.contentHash = store.hashOf path then
        store.deleteFile path
      else store := by
  unfold dropStale Store.hashOf
  cases before with
  | none =>
    cases store.getFileByPath path with
    | none => rfl
    | some after => rfl
  | some before =>
    cases store.getFileByPath path with
    | none => rfl
    | some after =>
      by_cases same : after.contentHash = before.contentHash
      · simp [same, lastOf]
      · simp [same, Ne.symm same]

theorem lastOf_index {before : Option FileRecord} {store : Store}
    (recorded : before.map FileRecord.contentHash = store.hashOf path)
    (changed : ∀ content, indexed extractor tree path = some content →
      store.hashOf path ≠ some (extractor.hashContent content)) :
    (∀ node, node ∈ (lastOf store (indexChanged extractor path before (tree.read extractor path)
        store)).nodes ↔
      (∃ content, indexed extractor tree path = some content ∧ node ∈ yields extractor path content) ∨
        node ∈ store.nodes ∧ (store.hashOf path ≠ none → node.filePath ≠ path) ∧
          ∀ content, indexed extractor tree path = some content →
            node.id ∉ validIds (extractor.extractFromSource path content)) ∧
      ∀ other, (lastOf store (indexChanged extractor path before (tree.read extractor path)
        store)).hashOf other = if other = path then (indexed extractor tree path).map extractor.hashContent
          else store.hashOf other := by
  rw [indexChanged, lastOf_append]
  rcases persistBatchItem_eq path store with ⟨skipped, unread⟩ | ⟨content, size, modifiedAt, read, ran⟩
  · rw [skipped, lastOf_nil, lastOf_dropStale, recorded, unread]
    simp only [reduceCtorEq, false_and, exists_false, false_or, false_imp_iff, implies_true,
      and_true, Option.map_none]
    by_cases tracked : store.hashOf path = none
    · rw [if_neg (by simp [tracked])]
      refine ⟨by simp [tracked], ?_⟩
      intro other
      split
      · rename_i same
        rw [same, tracked]
      · rfl
    rw [if_pos tracked]
    refine ⟨fun node => by simp [mem_deleteFile_nodes, tracked], ?_⟩
    exact hashOf_deleteFile path
  obtain ⟨nodes, hashes⟩ := lastOf_store size modifiedAt (changed content read)
  have kept : before.map FileRecord.contentHash ≠ (lastOf store (storeExtractionResult extractor
      path content size modifiedAt (extractor.extractFromSource path content) store)).hashOf
        path := by
    rw [recorded, hashes, if_pos rfl]
    exact changed content read
  rw [ran, lastOf_dropStale, if_neg fun both => kept both.2, read]
  simp only [Option.some.injEq, exists_eq_left', forall_eq', Option.map_some]
  exact ⟨nodes, hashes⟩

theorem lastOf_indexAll (extractor : Extractor) (tree : Tree) {paths : List Path} (distinct : paths.Nodup)
    (before : Path → Option FileRecord) {store : Store}
    (recorded : ∀ path ∈ paths, (before path).map FileRecord.contentHash = store.hashOf path)
    (changed : ∀ path ∈ paths, ∀ content, indexed extractor tree path = some content →
      store.hashOf path ≠ some (extractor.hashContent content)) :
    (∀ path, (lastOf store (followAll (Task.run extractor (tree.read extractor))
        (paths.map fun path => .index path (before path)) store)).hashOf path =
      if path ∈ paths then (indexed extractor tree path).map extractor.hashContent
      else store.hashOf path) ∧
    ((∀ first ∈ paths, ∀ second ∈ paths, ∀ content other,
      indexed extractor tree first = some content → indexed extractor tree second = some other →
        ∀ node ∈ yields extractor first content,
          node.id ∈ validIds (extractor.extractFromSource second other) → first = second) →
      ∀ node, node ∈ (lastOf store (followAll (Task.run extractor (tree.read extractor))
          (paths.map fun path => .index path (before path)) store)).nodes ↔
        (∃ path ∈ paths, ∃ content, indexed extractor tree path = some content ∧
          node ∈ yields extractor path content) ∨
        node ∈ store.nodes ∧ ∀ path ∈ paths, (store.hashOf path ≠ none → node.filePath ≠ path) ∧
          ∀ content, indexed extractor tree path = some content →
            node.id ∉ validIds (extractor.extractFromSource path content)) := by
  induction paths generalizing store with
  | nil => exact ⟨fun path => by simp [followAll], fun _ node => by simp [followAll]⟩
  | cons first rest ih =>
    obtain ⟨fresh, distinct⟩ := nodup_cons.mp distinct
    obtain ⟨nodes, hashes⟩ := lastOf_index (recorded first mem_cons_self)
      (changed first mem_cons_self)
    have others : ∀ path ∈ rest, (lastOf store (indexChanged extractor first (before first)
        (tree.read extractor first) store)).hashOf path = store.hashOf path := by
      intro path mem
      rw [hashes, if_neg]
      exact fun same => fresh (same ▸ mem)
    obtain ⟨restHashes, restNodes⟩ := ih distinct
      (fun path mem => (recorded path (mem_cons_of_mem _ mem)).trans
        (others path mem).symm)
      (fun path mem content read => by
        rw [others path mem]
        exact changed path (mem_cons_of_mem _ mem) content read)
    rw [map_cons, followAll, lastOf_append]
    constructor
    · intro path
      refine (restHashes path).trans ?_
      by_cases inRest : path ∈ rest
      · rw [if_pos inRest, if_pos (mem_cons_of_mem _ inRest)]
      rw [if_neg inRest]
      refine (hashes path).trans ?_
      by_cases same : path = first
      · rw [if_pos same, if_pos (same ▸ mem_cons_self), same]
      · rw [if_neg same, if_neg (by simp [same, inRest])]
    intro apart node
    refine (restNodes (fun one oneMember two twoMember => apart one
      (mem_cons_of_mem _ oneMember) two (mem_cons_of_mem _ twoMember)) node).trans ?_
    have firstNode : ∀ content, indexed extractor tree first = some content →
        node ∈ yields extractor first content → ∀ path ∈ rest,
          ((lastOf store (indexChanged extractor first (before first)
            (tree.read extractor first) store)).hashOf path ≠ none → node.filePath ≠ path) ∧
          ∀ other, indexed extractor tree path = some other →
            node.id ∉ validIds (extractor.extractFromSource path other) := by
      intro content read yielded path mem
      have different : first ≠ path := fun same => fresh (same ▸ mem)
      refine ⟨fun _ => by rwa [yields_filePath yielded], ?_⟩
      intro other readOther inside
      exact different (apart first mem_cons_self path (mem_cons_of_mem _ mem)
        content other read readOther node yielded inside)
    constructor
    · rintro (⟨path, mem, read⟩ | ⟨row, kept⟩)
      · exact .inl ⟨path, mem_cons_of_mem _ mem, read⟩
      · rcases (nodes node).mp row with ⟨content, read, yielded⟩ | ⟨old, unlessFirst⟩
        · exact .inl ⟨first, mem_cons_self, content, read, yielded⟩
        refine .inr ⟨old, ?_⟩
        intro path mem
        rcases mem_cons.mp mem with rfl | later
        · exact unlessFirst
        · have spared := kept path later
          rwa [others path later] at spared
    rintro (⟨path, mem, content, read, yielded⟩ | ⟨old, kept⟩)
    · rcases mem_cons.mp mem with rfl | later
      · exact .inr ⟨(nodes node).mpr (.inl ⟨content, read, yielded⟩), firstNode content read yielded⟩
      · exact .inl ⟨path, later, content, read, yielded⟩
    · refine .inr ⟨(nodes node).mpr (.inr ⟨old, kept first mem_cons_self⟩), ?_⟩
      intro path later
      rw [others path later]
      exact kept path (mem_cons_of_mem _ later)

theorem refresh_sameView (extractor : Extractor) {records : List FileRecord}
    (read : Path → Reading) {store : Store}
    (known : ∀ record ∈ records, store.hashOf record.path = some record.contentHash) :
    ∀ next ∈ followAll (Task.run extractor read) (records.map Task.refresh) store, SameView next store := by
  refine followAll_keeps ?_ (⟨rfl, fun _ => rfl⟩ : SameView store store)
  intro task listed state view next mem
  obtain ⟨record, recorded, rfl⟩ := mem_map.mp listed
  rw [mem_singleton.mp mem]
  constructor
  · rw [← view.1]
    unfold Store.upsertFile
    split <;> rfl
  intro path
  rw [hashOf_upsertFile]
  split
  · rename_i same
    rw [same, known record recorded]
  · exact view.2 path

theorem lastOf_remove (extractor : Extractor) (paths : List Path) (read : Path → Reading) (store : Store) :
    (∀ node, node ∈ (lastOf store (followAll (Task.run extractor read) (paths.map Task.remove)
        store)).nodes ↔ node ∈ store.nodes ∧ node.filePath ∉ paths) ∧
      ∀ path, (lastOf store (followAll (Task.run extractor read) (paths.map Task.remove)
        store)).hashOf path = if path ∈ paths then none else store.hashOf path := by
  induction paths generalizing store with
  | nil => exact ⟨fun node => by simp [followAll], fun path => by simp [followAll]⟩
  | cons first rest ih =>
    rw [map_cons, followAll, lastOf_append]
    have ran : lastOf store (Task.run extractor read (.remove first) store) =
        (store.restoreUnresolvedRefsForRemovedTargets first).deleteFile first :=
      lastOf_delete first store
    rw [ran]
    obtain ⟨nodes, hashes⟩ := ih ((store.restoreUnresolvedRefsForRemovedTargets first).deleteFile first)
    constructor
    · intro node
      rw [nodes, mem_deleteFile_nodes, mem_cons, not_or, and_assoc]
      rfl
    intro path
    rw [hashes, hashOf_deleteFile]
    by_cases inRest : path ∈ rest
    · simp [inRest]
    by_cases same : path = first
    · simp [same]
    · simp only [inRest, same, mem_cons, or_self, if_false]
      rfl

theorem disk_of_indexed {content : Content} (read : indexed extractor tree path = some content) :
    ∃ file, tree.disk path = some file ∧ file.content = some content := by
  unfold indexed Tree.read at read
  split at read
  · rename_i reading
    split at read
    · cases read
      split at reading
      · cases reading
      split at reading
      · cases reading
      rename_i file found
      split at reading
      · cases reading
      split at reading
      · cases reading
      split at reading
      · cases reading
      rename_i same
      cases reading
      exact ⟨file, found, same⟩
    · cases read
  · cases read

/-- What the diff says about a record it finds. -/
theorem change_modified {tracked : Option FileRecord}
    (modified : change extractor tree tracked path = some .modified) :
    ∃ record file content, tracked = some record ∧ tree.disk path = some file ∧
      file.content = some content ∧ record.contentHash ≠ extractor.hashContent content := by
  unfold change at modified
  split at modified
  · rename_i record
    split at modified
    · cases modified
    rename_i file found
    split at modified
    · cases modified
    split at modified
    · cases modified
    rename_i content read
    split at modified
    · rename_i different
      exact ⟨record, file, content, rfl, found, read, different⟩
    · cases modified
  split at modified
  · cases modified
  · cases modified

theorem change_added {tracked : Option FileRecord} : change extractor tree tracked path = some .added ↔
      tracked = none ∧ ((tree.disk path).bind (·.content)).isSome := by
  unfold change
  cases tracked with
  | none => cases (tree.disk path).bind (·.content) <;> simp
  | some record =>
    cases tree.disk path with
    | none => simp
    | some file =>
      simp only [reduceCtorEq, false_and, iff_false]
      split
      · simp
      cases file.content with
      | none => simp
      | some content =>
        dsimp only
        split <;> simp

theorem change_metadataOnly {tracked : Option FileRecord} {record : FileRecord}
    (refreshed : change extractor tree tracked path = some (.metadataOnly record)) :
    ∃ old, tracked = some old ∧ record.path = old.path ∧ record.contentHash = old.contentHash := by
  unfold change at refreshed
  split at refreshed
  · rename_i old
    split at refreshed
    · cases refreshed
    split at refreshed
    · cases refreshed
    split at refreshed
    · cases refreshed
    split at refreshed
    · cases refreshed
    · cases refreshed
      exact ⟨old, rfl, rfl, rfl⟩
  split at refreshed
  · cases refreshed
  · cases refreshed

section Diff

variable {store : Store}

theorem mem_filesToIndex {path : Path} : path ∈ filesToIndex extractor tree store ↔ path ∈ tree.scanned ∧
      (change extractor tree (store.getFileByPath path) path = some .added ∨
        change extractor tree (store.getFileByPath path) path = some .modified) := by
  simp [filesToIndex, and_or_left]

theorem filesToIndex_nodup : (filesToIndex extractor tree store).Nodup := by
  rw [filesToIndex, nodup_append]
  refine ⟨tree.distinct.filter _, tree.distinct.filter _, ?_⟩
  intro first added second modified same
  have isAdded := (mem_filter.mp added).2
  have isModified := (mem_filter.mp modified).2
  simp only [decide_eq_true_eq] at isAdded isModified
  rw [same, isModified] at isAdded
  cases isAdded

theorem mem_removedFiles (keyed : store.Keyed) {path : Path} :
    path ∈ removedFiles tree store ↔ store.hashOf path ≠ none ∧
      (path ∉ tree.scanned ∨ tree.disk path = none) := by
  have tracked : path ∈ store.files.map FileRecord.path ↔ store.hashOf path ≠ none := by
    rw [Option.ne_none_iff_exists', mem_map]
    simp only [hashOf_eq_some keyed]
    constructor
    · rintro ⟨record, mem, same⟩
      exact ⟨_, record, mem, same, rfl⟩
    · rintro ⟨hash, record, mem, same, -⟩
      exact ⟨record, mem, same⟩
  rw [removedFiles, mem_filter, tracked]
  simp

theorem not_removed_of_toIndex (keyed : store.Keyed) {path : Path}
    (changed : path ∈ filesToIndex extractor tree store) : path ∉ removedFiles tree store := by
  obtain ⟨scanned, how⟩ := mem_filesToIndex.mp changed
  rw [mem_removedFiles keyed]
  rintro ⟨recorded, missing⟩
  rcases how with added | modified
  · exact recorded (by rw [Store.hashOf, (change_added.mp added).1]; rfl)
  obtain ⟨record, file, content, -, found, -⟩ := change_modified modified
  rcases missing with unscanned | gone
  · exact unscanned scanned
  · rw [found] at gone
    cases gone

theorem changed_of_toIndex {path : Path} (changed : path ∈ filesToIndex extractor tree store)
    {content : Content} (read : indexed extractor tree path = some content) :
    store.hashOf path ≠ some (extractor.hashContent content) := by
  obtain ⟨file, found, readable⟩ := disk_of_indexed read
  rcases (mem_filesToIndex.mp changed).2 with added | modified
  · rw [Store.hashOf, (change_added.mp added).1]
    simp
  obtain ⟨record, other, content, tracked, same, readToo, different⟩ := change_modified modified
  rw [found] at same
  cases same
  rw [readable] at readToo
  cases readToo
  rw [Store.hashOf, tracked]
  exact fun equal => different (Option.some.inj equal)

theorem toIndex_of_untracked {path : Path} (scanned : path ∈ tree.scanned)
    (untracked : store.hashOf path = none) {content : Content}
    (read : indexed extractor tree path = some content) :
    path ∈ filesToIndex extractor tree store := by
  obtain ⟨file, found, readable⟩ := disk_of_indexed read
  refine mem_filesToIndex.mpr ⟨scanned, .inl (change_added.mpr ⟨?_, ?_⟩)⟩
  · exact Option.map_eq_none_iff.mp untracked
  · simp [found, readable]

theorem metadataOnly_known (keyed : store.Keyed) : ∀ record ∈ metadataOnlyFiles extractor tree store,
      store.hashOf record.path = some record.contentHash := by
  intro record mem
  obtain ⟨path, -, refreshed⟩ := mem_filterMap.mp mem
  split at refreshed
  · rename_i other changed
    cases refreshed
    obtain ⟨old, tracked, samePath, sameHash⟩ := change_metadataOnly changed
    obtain ⟨row, rowPath⟩ := (getFileByPath_eq_some keyed).mp tracked
    rw [samePath, sameHash, rowPath, Store.hashOf, tracked]
    rfl
  · cases refreshed

/-- The tables after the records are refreshed and the missing files removed. -/
theorem lastOf_cleanup (extractor : Extractor) (tree : Tree) (read : Path → Reading) (keyed : store.Keyed) :
    (∀ node, node ∈ (lastOf store (followAll (Task.run extractor read)
        (cleanupTasks extractor tree store) store)).nodes ↔
      node ∈ store.nodes ∧ node.filePath ∉ removedFiles tree store) ∧
      ∀ path, (lastOf store (followAll (Task.run extractor read)
        (cleanupTasks extractor tree store) store)).hashOf path =
          if path ∈ removedFiles tree store then none else store.hashOf path := by
  have view : SameView (lastOf store (followAll (Task.run extractor read)
      ((metadataOnlyFiles extractor tree store).map Task.refresh) store)) store :=
    lastOf_keeps ⟨rfl, fun _ => rfl⟩ (refresh_sameView extractor read (metadataOnly_known keyed))
  rw [cleanupTasks, followAll_append, lastOf_append]
  obtain ⟨nodes, hashes⟩ := lastOf_remove extractor (removedFiles tree store) read (lastOf store
    (followAll (Task.run extractor read) ((metadataOnlyFiles extractor tree store).map Task.refresh)
      store))
  constructor
  · intro node
    rw [nodes, view.1]
  · intro path
    rw [hashes, view.2]

end Diff

/-- A record that the diff finds to be current. -/
def LeftAlone (extractor : Extractor) (tree : Tree) (store : Store) (path : Path) : Prop :=
  store.hashOf path ≠ none ∧ path ∉ removedFiles tree store ∧ path ∉ filesToIndex extractor tree store

/-- What one whole sync can repair: the records it leaves alone are current and have their nodes,
every node it leaves without a record is replaced, and no two files yield a node of one id. -/
structure Repairable (extractor : Extractor) (tree : Tree) (store : Store) : Prop where
  records : ∀ path, LeftAlone extractor tree store path → ∃ content,
    indexed extractor tree path = some content ∧ store.hashOf path = some (extractor.hashContent content)
  present : ∀ path, LeftAlone extractor tree store path → ∀ content,
    indexed extractor tree path = some content → ∀ node ∈ yields extractor path content, node ∈ store.nodes
  leftovers : ∀ node ∈ store.nodes, store.hashOf node.filePath = none ∨
    LeftAlone extractor tree store node.filePath → ∃ path ∈ tree.scanned, ∃ content,
      indexed extractor tree path = some content ∧
        node.id ∈ validIds (extractor.extractFromSource path content)
  apart : ∀ first ∈ tree.scanned, ∀ second ∈ tree.scanned, ∀ content other,
    indexed extractor tree first = some content → indexed extractor tree second = some other →
      ∀ node ∈ yields extractor first content,
        node.id ∈ validIds (extractor.extractFromSource second other) → first = second

/-- The tables after a whole sync of an unchanged tree. -/
def synced (extractor : Extractor) (tree : Tree) (store : Store) : Store :=
  lastOf store (sync extractor tree (tree.read extractor) store)

section Synced

variable {store : Store}

theorem synced_spec (extractor : Extractor) (tree : Tree) (keyed : store.Keyed) :
    (∀ path, (synced extractor tree store).hashOf path =
      if path ∈ filesToIndex extractor tree store then
        (indexed extractor tree path).map extractor.hashContent
      else if path ∈ removedFiles tree store then none else store.hashOf path) ∧
    ((∀ first ∈ tree.scanned, ∀ second ∈ tree.scanned, ∀ content other,
      indexed extractor tree first = some content → indexed extractor tree second = some other →
        ∀ node ∈ yields extractor first content,
          node.id ∈ validIds (extractor.extractFromSource second other) → first = second) →
      ∀ node, node ∈ (synced extractor tree store).nodes ↔
        (∃ path ∈ filesToIndex extractor tree store, ∃ content,
          indexed extractor tree path = some content ∧ node ∈ yields extractor path content) ∨
        (node ∈ store.nodes ∧ node.filePath ∉ removedFiles tree store) ∧
          ∀ path ∈ filesToIndex extractor tree store, (store.hashOf path ≠ none → node.filePath ≠ path) ∧
              ∀ content, indexed extractor tree path = some content →
                node.id ∉ validIds (extractor.extractFromSource path content)) := by
  obtain ⟨cleanNodes, cleanHashes⟩ := lastOf_cleanup extractor tree (tree.read extractor) keyed
  have kept : ∀ path ∈ filesToIndex extractor tree store, (lastOf store (followAll
      (Task.run extractor (tree.read extractor)) (cleanupTasks extractor tree store)
        store)).hashOf path = store.hashOf path := by
    intro path changed
    rw [cleanHashes, if_neg (not_removed_of_toIndex keyed changed)]
  obtain ⟨hashes, nodes⟩ := lastOf_indexAll extractor tree
    filesToIndex_nodup (Store.getFileByPath (lastOf store (followAll
      (Task.run extractor (tree.read extractor)) (cleanupTasks extractor tree store) store)))
    (fun path _ => rfl) (fun path changed content read => by
      rw [kept path changed]
      exact changed_of_toIndex changed read)
  rw [synced, sync, lastOf_append]
  constructor
  · intro path
    refine (hashes path).trans ?_
    rw [cleanHashes]
  intro apart node
  refine (nodes (fun first firstMember second secondMember => apart first
    (mem_filesToIndex.mp firstMember).1 second (mem_filesToIndex.mp secondMember).1) node).trans ?_
  rw [cleanNodes]
  refine or_congr Iff.rfl (and_congr Iff.rfl (forall₂_congr fun path changed => ?_))
  rw [kept path changed]

section

variable (keyed : store.Keyed)
include keyed

theorem synced_keyed : (synced extractor tree store).Keyed := lastOf_keeps keyed (sync_keyed keyed)

theorem toIndex_or_leftAlone {path : Path} (scanned : path ∈ tree.scanned)
    {content : Content} (read : indexed extractor tree path = some content) :
    path ∈ filesToIndex extractor tree store ∨ LeftAlone extractor tree store path := by
  by_cases changed : path ∈ filesToIndex extractor tree store
  · exact .inl changed
  refine .inr ⟨?_, ?_, changed⟩
  · exact fun untracked => changed (toIndex_of_untracked scanned untracked read)
  rw [mem_removedFiles keyed]
  rintro ⟨-, unscanned | gone⟩
  · exact unscanned scanned
  · obtain ⟨file, found, -⟩ := disk_of_indexed read
    rw [gone] at found
    cases found

theorem LeftAlone.scanned {path : Path}
    (left : LeftAlone extractor tree store path) : path ∈ tree.scanned := by
  by_contra unscanned
  exact left.2.1 ((mem_removedFiles keyed).mpr ⟨left.1, .inl unscanned⟩)

theorem converged_of_repairable (repairable : Repairable extractor tree store) :
    Converged extractor tree (synced extractor tree store) := by
  obtain ⟨hashes, nodes⟩ := synced_spec extractor tree keyed
  replace nodes := nodes repairable.apart
  constructor
  · intro path hash
    rw [← hashOf_eq_some (synced_keyed keyed), hashes]
    by_cases changed : path ∈ filesToIndex extractor tree store
    · rw [if_pos changed, Option.map_eq_some_iff]
      simp only [(mem_filesToIndex.mp changed).1, true_and, eq_comm]
    rw [if_neg changed]
    by_cases left : LeftAlone extractor tree store path
    · obtain ⟨content, read, recorded⟩ := repairable.records path left
      rw [if_neg left.2.1, recorded, Option.some.injEq, read]
      simp [left.scanned keyed, eq_comm]
    have unrecorded : (if path ∈ removedFiles tree store then none
        else store.hashOf path) = none := by
      split
      · rfl
      rename_i kept
      by_contra tracked
      exact left ⟨tracked, kept, changed⟩
    rw [unrecorded]
    refine iff_of_false (by simp) ?_
    rintro ⟨scanned, content, read, -⟩
    exact (toIndex_or_leftAlone keyed scanned read).elim changed left
  · intro node
    rw [nodes]
    constructor
    · rintro (⟨path, changed, read⟩ | ⟨⟨row, kept⟩, spared⟩)
      · exact ⟨path, (mem_filesToIndex.mp changed).1, read⟩
      · have unclaimed : store.hashOf node.filePath = none ∨
            LeftAlone extractor tree store node.filePath := by
          by_cases untracked : store.hashOf node.filePath = none
          · exact .inl untracked
          · exact .inr ⟨untracked, kept, fun changed => (spared _ changed).1 untracked rfl⟩
        obtain ⟨path, scanned, content, read, inside⟩ := repairable.leftovers node row unclaimed
        rcases toIndex_or_leftAlone keyed scanned read with changed | left
        · exact absurd inside ((spared path changed).2 content read)
        obtain ⟨other, yielded, same⟩ := mem_validIds_iff.mp inside
        have otherRow := repairable.present path left content read other yielded
        rw [← keyed.node_eq otherRow row same]
        exact ⟨path, scanned, content, read, yielded⟩
    rintro ⟨path, scanned, content, read, yielded⟩
    rcases toIndex_or_leftAlone keyed scanned read with changed | left
    · exact .inl ⟨path, changed, content, read, yielded⟩
    have row := repairable.present path left content read node yielded
    refine .inr ⟨⟨row, ?_⟩, ?_⟩
    · rw [yields_filePath yielded]
      exact left.2.1
    intro other changed
    refine ⟨fun _ same => left.2.2 ?_, ?_⟩
    · rwa [← yields_filePath yielded, same]
    intro otherContent otherRead inside
    have same := repairable.apart path scanned other (mem_filesToIndex.mp changed).1
      content otherContent read otherRead node yielded inside
    exact left.2.2 (same ▸ changed)

theorem repairable_of_converged (converged : Converged extractor tree (synced extractor tree store)) :
    Repairable extractor tree store := by
  have apart : ∀ first ∈ tree.scanned, ∀ second ∈ tree.scanned, ∀ content other,
      indexed extractor tree first = some content → indexed extractor tree second = some other →
        ∀ node ∈ yields extractor first content,
          node.id ∈ validIds (extractor.extractFromSource second other) → first = second := by
    intro first firstScanned second secondScanned content other read readOther node yielded inside
    obtain ⟨twin, twinYielded, same⟩ := mem_validIds_iff.mp inside
    have row := (converged.nodes node).mpr ⟨first, firstScanned, content, read, yielded⟩
    have twinRow := (converged.nodes twin).mpr ⟨second, secondScanned, other, readOther, twinYielded⟩
    have equal := (synced_keyed keyed).node_eq twinRow row same
    rw [← yields_filePath yielded, ← equal, yields_filePath twinYielded]
  obtain ⟨hashes, nodes⟩ := synced_spec extractor tree keyed
  replace nodes := nodes apart
  have keptHash : ∀ path, LeftAlone extractor tree store path →
      (synced extractor tree store).hashOf path = store.hashOf path := by
    intro path left
    rw [hashes, if_neg left.2.2, if_neg left.2.1]
  constructor
  · intro path left
    obtain ⟨hash, recorded⟩ := Option.ne_none_iff_exists'.mp left.1
    have current := (converged.files path hash).mp
      ((hashOf_eq_some (synced_keyed keyed)).mp ((keptHash path left).trans recorded))
    obtain ⟨-, content, read, rfl⟩ := current
    exact ⟨content, read, recorded⟩
  · intro path left content read node yielded
    have row := (converged.nodes node).mpr ⟨path, left.scanned keyed, content, read, yielded⟩
    rcases (nodes node).mp row with ⟨other, changed, otherContent, -, otherYielded⟩ | ⟨⟨old, -⟩, -⟩
    · have same := (yields_filePath otherYielded).symm.trans (yields_filePath yielded)
      exact absurd (same ▸ changed) left.2.2
    · exact old
  · intro node row unclaimed
    by_cases replaced : ∃ path ∈ filesToIndex extractor tree store, ∃ content,
        indexed extractor tree path = some content ∧
          node.id ∈ validIds (extractor.extractFromSource path content)
    · obtain ⟨path, changed, read⟩ := replaced
      exact ⟨path, (mem_filesToIndex.mp changed).1, read⟩
    have kept : node.filePath ∉ removedFiles tree store := by
      rcases unclaimed with untracked | left
      · rw [mem_removedFiles keyed]
        exact fun removed => removed.1 untracked
      · exact left.2.1
    have survives : node ∈ (synced extractor tree store).nodes := by
      refine (nodes node).mpr (.inr ⟨⟨row, kept⟩, ?_⟩)
      intro path changed
      refine ⟨?_, fun content read inside => replaced ⟨path, changed, content, read, inside⟩⟩
      rintro tracked rfl
      rcases unclaimed with untracked | left
      · exact tracked untracked
      · exact left.2.2 changed
    obtain ⟨path, scanned, content, read, yielded⟩ := (converged.nodes node).mp survives
    exact ⟨path, scanned, content, read, mem_validIds_iff.mpr ⟨node, yielded, rfl⟩⟩
  · exact apart

end

end Synced

end Codegraph.Sync
