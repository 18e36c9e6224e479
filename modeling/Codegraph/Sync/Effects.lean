import Codegraph.Sync.Orchestrator

namespace Codegraph.Sync

open Library List Store

namespace Store

variable {store : Store}

/-- The ids of the nodes and the paths of the records are primary keys. -/
structure Keyed (store : Store) : Prop where
  nodes : (store.nodes.map Node.id).Nodup
  files : (store.files.map FileRecord.path).Nodup

theorem keyed_empty : empty.Keyed := ⟨nodup_nil, nodup_nil⟩

theorem Keyed.node_eq (keyed : store.Keyed) {first second : Node} (firstRow : first ∈ store.nodes)
    (secondRow : second ∈ store.nodes) (same : first.id = second.id) : first = second :=
  inj_on_of_nodup_map keyed.nodes firstRow secondRow same

theorem getFileByPath_eq_some (keyed : store.Keyed) {path : Path} {record : FileRecord} :
    store.getFileByPath path = some record ↔ record ∈ store.files ∧ record.path = path := by
  unfold getFileByPath
  constructor
  · intro found
    exact ⟨mem_of_find?_eq_some found, by simpa using find?_some found⟩
  rintro ⟨mem, same⟩
  cases found : store.files.find? (·.path = path) with
  | none =>
    have := find?_eq_none.mp found record mem
    simp [same] at this
  | some other =>
    have samePath : other.path = record.path := by
      rw [same]
      simpa using find?_some found
    rw [inj_on_of_nodup_map keyed.files (mem_of_find?_eq_some found) mem samePath]

/-- The hash that is recorded for a path. -/
def hashOf (store : Store) (path : Path) : Option Hash :=
  (store.getFileByPath path).map FileRecord.contentHash

theorem hashOf_eq_some (keyed : store.Keyed) {path : Path} {hash : Hash} : store.hashOf path = some hash ↔
      ∃ record ∈ store.files, record.path = path ∧ record.contentHash = hash := by
  simp only [hashOf, Option.map_eq_some_iff, getFileByPath_eq_some keyed, and_assoc]

theorem hashOf_congr {first second : Store} (same : first.files = second.files) (path : Path) :
    first.hashOf path = second.hashOf path := by
  rw [hashOf, hashOf, getFileByPath, getFileByPath, same]

theorem deleteNodes_keyed (keyed : store.Keyed) (doomed : Node → Bool) : (store.deleteNodes doomed).Keyed :=
  ⟨keyed.nodes.sublist (filter_sublist.map _), keyed.files⟩

theorem mem_deleteFile_nodes {path : Path} {node : Node} :
    node ∈ (store.deleteFile path).nodes ↔ node ∈ store.nodes ∧ node.filePath ≠ path := by
  simp [deleteFile, deleteNodesByFile, deleteNodes]

theorem deleteFile_keyed (keyed : store.Keyed) (path : Path) : (store.deleteFile path).Keyed :=
  ⟨(deleteNodes_keyed keyed _).nodes, keyed.files.sublist (filter_sublist.map _)⟩

theorem getFileByPath_deleteFile (path other : Path) : (store.deleteFile path).getFileByPath other =
      if other = path then none else store.getFileByPath other := by
  rw [getFileByPath, deleteFile, find?_filter]
  split
  · rename_i same
    rw [find?_eq_none]
    intro record _
    simp [same]
  rename_i different
  congr 1
  funext record
  by_cases same : record.path = other
  · simp [same, different]
  · simp [same]

theorem hashOf_deleteFile (path other : Path) :
    (store.deleteFile path).hashOf other = if other = path then none else store.hashOf other := by
  rw [hashOf, getFileByPath_deleteFile]
  split <;> rfl

theorem mem_insertNode_nodes {node other : Node} (complete : required node = true) :
    other ∈ (store.insertNode node).nodes ↔
      other = rowOf node ∨ other ∈ store.nodes ∧ other.id ≠ node.id := by
  rw [insertNode, if_pos complete]
  simp only [deleteNodes, mem_append, mem_filter, mem_singleton]
  rw [or_comm]
  simp

theorem insertNode_keyed (keyed : store.Keyed) (node : Node) : (store.insertNode node).Keyed := by
  unfold insertNode
  split
  · refine ⟨?_, keyed.files⟩
    have rest := (deleteNodes_keyed keyed (·.id = node.id)).nodes
    rw [map_append, nodup_append]
    refine ⟨rest, by simp, ?_⟩
    intro first mem second last
    obtain ⟨row, listed, rfl⟩ := mem_map.mp mem
    obtain rfl : second = (rowOf node).id := by simpa using last
    simpa [deleteNodes, rowOf] using (mem_filter.mp listed).2
  · exact keyed

theorem insertNode_files (node : Node) : (store.insertNode node).files = store.files := by
  unfold insertNode
  split <;> rfl

theorem insertNodes_files (nodes : List Node) : (store.insertNodes nodes).files = store.files := by
  induction nodes generalizing store with
  | nil => rfl
  | cons node nodes ih => exact ih.trans (insertNode_files node)

theorem insertNodes_keyed (keyed : store.Keyed) (nodes : List Node) : (store.insertNodes nodes).Keyed := by
  induction nodes generalizing store with
  | nil => exact keyed
  | cons node nodes ih => exact ih (insertNode_keyed keyed node)

theorem insertNodes_concat (nodes : List Node) (last : Node) :
    store.insertNodes (nodes ++ [last]) = (store.insertNodes nodes).insertNode last :=
  foldl_append

/-- The rows of inserted nodes replace those with their ids. -/
theorem mem_insertNodes_nodes {nodes : List Node} (complete : ∀ node ∈ nodes, required node = true)
    {other : Node} : other ∈ (store.insertNodes nodes).nodes ↔ other ∈ (empty.insertNodes nodes).nodes ∨
        other ∈ store.nodes ∧ other.id ∉ nodes.map Node.id := by
  induction nodes using List.reverseRecOn with
  | nil => simp [insertNodes, empty]
  | append_singleton nodes last ih =>
    have before := ih fun node mem => complete node (mem_append_left _ mem)
    have lastComplete := complete last (by simp)
    rw [insertNodes_concat, insertNodes_concat, mem_insertNode_nodes lastComplete,
      mem_insertNode_nodes lastComplete, before, map_append, mem_append]
    simp only [map_cons, map_nil, mem_singleton, not_or]
    tauto

theorem insertNodes_ids {nodes : List Node} (complete : ∀ node ∈ nodes, required node = true) (id : NodeId) :
    id ∈ (empty.insertNodes nodes).nodes.map Node.id ↔ id ∈ nodes.map Node.id := by
  induction nodes using List.reverseRecOn with
  | nil => simp [insertNodes, empty]
  | append_singleton nodes last ih =>
    have before := ih fun node mem => complete node (mem_append_left _ mem)
    have lastComplete := complete last (by simp)
    simp only [mem_map, insertNodes_concat, mem_insertNode_nodes lastComplete] at before ⊢
    constructor
    · rintro ⟨node, rfl | ⟨mem, -⟩, rfl⟩
      · exact ⟨last, by simp, rfl⟩
      · obtain ⟨other, listed, same⟩ := before.mp ⟨node, mem, rfl⟩
        exact ⟨other, mem_append_left _ listed, same⟩
    rintro ⟨node, mem, rfl⟩
    by_cases same : node.id = last.id
    · exact ⟨rowOf last, .inl rfl, same.symm⟩
    have listed : node ∈ nodes := by
      rcases mem_append.mp mem with early | late
      · exact early
      · exact absurd (congrArg Node.id (mem_singleton.mp late)) same
    obtain ⟨other, row, sameId⟩ := before.mpr ⟨node, listed, rfl⟩
    exact ⟨other, .inr ⟨row, sameId ▸ same⟩, sameId⟩

theorem insertNodes_paths {nodes : List Node} {path : Path} (owned : ∀ node ∈ nodes, node.filePath = path) :
    ∀ node ∈ (empty.insertNodes nodes).nodes, node.filePath = path := by
  induction nodes using List.reverseRecOn with
  | nil => simp [insertNodes, empty]
  | append_singleton nodes last ih =>
    have before := ih fun node mem => owned node (mem_append_left _ mem)
    intro node mem
    rw [insertNodes_concat] at mem
    by_cases complete : required last = true
    · rcases (mem_insertNode_nodes complete).mp mem with rfl | ⟨row, -⟩
      · exact owned last (by simp)
      · exact before node row
    · rw [insertNode, if_neg complete] at mem
      exact before node mem

theorem insertEdge_nodes (edge : Edge) : (store.insertEdge edge).nodes = store.nodes := by
  unfold insertEdge
  split <;> rfl

theorem insertEdge_files (edge : Edge) : (store.insertEdge edge).files = store.files := by
  unfold insertEdge
  split <;> rfl

theorem insertEdges_nodes_files (edges : List Edge) :
    (store.insertEdges edges).nodes = store.nodes ∧ (store.insertEdges edges).files = store.files := by
  unfold insertEdges
  generalize edges.filter _ = kept
  induction kept generalizing store with
  | nil => exact ⟨rfl, rfl⟩
  | cons edge kept ih =>
    rw [foldl_cons, ih.1, ih.2, insertEdge_nodes, insertEdge_files]
    exact ⟨rfl, rfl⟩

theorem getFileByPath_upsertFile (record : FileRecord) (path : Path) :
    (store.upsertFile record).getFileByPath path =
      if path = record.path then some record else store.getFileByPath path := by
  unfold upsertFile getFileByPath
  split
  · rename_i known
    rw [find?_map]
    have samePath : ((fun other : FileRecord => decide (other.path = path)) ∘ fun other =>
        if other.path = record.path then record else other) = fun other => decide (other.path = path) := by
      funext other
      by_cases same : other.path = record.path
      · simp [same]
      · simp [same]
    rw [samePath]
    split
    · rename_i same
      obtain ⟨other, mem, otherPath⟩ := any_eq_true.mp known
      cases found : store.files.find? (·.path = path) with
      | none =>
        have := find?_eq_none.mp found other mem
        simp_all
      | some first =>
        have firstPath : first.path = path := by simpa using find?_some found
        simp [firstPath, same]
    rename_i different
    cases found : store.files.find? (·.path = path) with
    | none => rfl
    | some first =>
      have firstPath : first.path = path := by simpa using find?_some found
      simp [firstPath, different]
  rename_i unknown
  rw [find?_append]
  split
  · rename_i same
    have absent : store.files.find? (·.path = path) = none := by
      rw [find?_eq_none]
      intro other mem otherPath
      exact unknown (any_eq_true.mpr ⟨other, mem, by simpa [same] using otherPath⟩)
    rw [absent]
    simp [same]
  · rename_i different
    simp [Ne.symm different]

theorem upsertFile_keyed (keyed : store.Keyed) (record : FileRecord) : (store.upsertFile record).Keyed := by
  unfold upsertFile
  split
  · refine ⟨keyed.nodes, ?_⟩
    have samePaths : (store.files.map fun other =>
        if other.path = record.path then record else other).map FileRecord.path =
          store.files.map FileRecord.path := by
      rw [map_map]
      refine map_congr_left fun other _ => ?_
      by_cases same : other.path = record.path
      · simp [same]
      · simp [same]
    rw [samePaths]
    exact keyed.files
  rename_i unknown
  refine ⟨keyed.nodes, ?_⟩
  rw [map_append, nodup_append]
  refine ⟨keyed.files, by simp, ?_⟩
  intro first mem second last same
  obtain ⟨other, listed, rfl⟩ := mem_map.mp mem
  obtain rfl : second = record.path := by simpa using last
  exact unknown (any_eq_true.mpr ⟨other, listed, by simpa using same⟩)

theorem hashOf_upsertFile (record : FileRecord) (path : Path) : (store.upsertFile record).hashOf path =
      if path = record.path then some record.contentHash else store.hashOf path := by
  rw [hashOf, getFileByPath_upsertFile]
  split <;> rfl

theorem insertEdges_keyed (keyed : store.Keyed) (edges : List Edge) : (store.insertEdges edges).Keyed := by
  obtain ⟨nodes, files⟩ := @insertEdges_nodes_files store edges
  exact ⟨by rw [nodes]; exact keyed.nodes, by rw [files]; exact keyed.files⟩

end Store

/-- Two stores have the same nodes and the same recorded hashes. -/
def SameView (first second : Store) : Prop :=
  first.nodes = second.nodes ∧ ∀ path, first.hashOf path = second.hashOf path

variable {extractor : Extractor}

/-- The rows of the nodes that a content yields. -/
def yields (extractor : Extractor) (path : Path) (content : Content) : List Node :=
  (Store.empty.insertNodes (validNodes (extractor.extractFromSource path content))).nodes

theorem validNodes_required (result : ExtractionResult) :
    ∀ node ∈ validNodes result, Store.required node = true :=
  fun _ mem => (mem_filter.mp mem).2

variable {content : Content} {path : Path}

theorem yields_filePath {node : Node}
    (yielded : node ∈ yields extractor path content) : node.filePath = path :=
  insertNodes_paths
    (fun node mem => extractor.owned path content node (mem_filter.mp mem).1)
    node yielded

theorem mem_validIds_iff {id : NodeId} : id ∈ validIds (extractor.extractFromSource path content) ↔
      ∃ node ∈ yields extractor path content, node.id = id := by
  rw [validIds, ← insertNodes_ids (validNodes_required _), mem_map]
  rfl

theorem writeTransactions_keyed {size : Nat} {modifiedAt : Int} {result : ExtractionResult} : ∀ transaction ∈
      writeTransactions extractor path content size modifiedAt result,
      ∀ store : Store, store.Keyed → (transaction store).Keyed := by
  intro transaction mem store keyed
  simp only [writeTransactions, mem_cons, not_mem_nil, or_false] at mem
  rcases mem with rfl | rfl | rfl | rfl
  · exact insertNodes_keyed keyed _
  · exact insertEdges_keyed keyed _
  · exact ⟨keyed.nodes, keyed.files⟩
  · exact upsertFile_keyed keyed _

theorem deleteTransactions_keyed : ∀ transaction ∈ deleteTransactions path,
    ∀ store : Store, store.Keyed → (transaction store).Keyed := by
  intro transaction mem store keyed
  simp only [deleteTransactions, mem_cons, not_mem_nil, or_false] at mem
  rcases mem with rfl | rfl
  · exact ⟨keyed.nodes, keyed.files⟩
  · exact deleteFile_keyed keyed path

variable {store : Store}

theorem storeExtractionResult_keyed {size : Nat}
    {modifiedAt : Int} {result : ExtractionResult} (keyed : store.Keyed) :
    ∀ next ∈ storeExtractionResult extractor path content size modifiedAt result store, next.Keyed := by
  unfold storeExtractionResult
  split
  · split
    · exact fun next mem => absurd mem not_mem_nil
    refine follow_keeps ?_ keyed
    intro transaction mem
    rcases mem_append.mp mem with first | later
    · exact deleteTransactions_keyed transaction first
    · exact writeTransactions_keyed transaction later
  · exact follow_keeps writeTransactions_keyed keyed

theorem persist_keyed {size : Nat} {modifiedAt : Int} {result : ExtractionResult} (keyed : store.Keyed) :
    ∀ next ∈ persist extractor path content size modifiedAt result store, next.Keyed := by
  unfold persist
  split
  · exact storeExtractionResult_keyed keyed
  · exact fun next mem => absurd mem not_mem_nil

theorem persistBatchItem_keyed {reading : Reading}
    (keyed : store.Keyed) : ∀ next ∈ persistBatchItem extractor path reading store, next.Keyed := by
  cases reading with
  | failed => exact fun next mem => absurd mem not_mem_nil
  | tooLarge size modifiedAt => exact persist_keyed keyed
  | read content size modifiedAt => exact persist_keyed keyed

theorem Task.run_keyed {read : Path → Reading} (task : Task)
    (keyed : store.Keyed) : ∀ next ∈ task.run extractor read store, next.Keyed := by
  cases task with
  | refresh record =>
    intro next mem
    rw [mem_singleton.mp mem]
    exact upsertFile_keyed keyed record
  | remove path => exact follow_keeps deleteTransactions_keyed keyed
  | index path before =>
    intro next mem
    rcases mem_append.mp mem with stored | dropped
    · exact persistBatchItem_keyed keyed next stored
    have after : (lastOf store (persistBatchItem extractor path (read path) store)).Keyed :=
    lastOf_keeps keyed (persistBatchItem_keyed keyed)
    unfold dropStale at dropped
    split at dropped
    · split at dropped
      · rw [mem_singleton.mp dropped]
        exact deleteFile_keyed after path
      · cases dropped
    · cases dropped

/-- The tables keep their primary keys wherever a sync is cut. -/
theorem sync_keyed {tree : Tree} {read : Path → Reading} (keyed : store.Keyed) :
    ∀ next ∈ sync extractor tree read store, next.Keyed := by
  have cleaned : ∀ next ∈ followAll (Task.run extractor read) (cleanupTasks extractor tree store)
      store, next.Keyed := followAll_keeps (fun task _ _ => task.run_keyed) keyed
  intro next mem
  rcases mem_append.mp mem with first | later
  · exact cleaned next first
  · exact followAll_keeps (fun task _ _ => task.run_keyed) (lastOf_keeps keyed cleaned) next later

theorem indexFiles_keyed {paths : List Path} {read : Path → Reading}
    (keyed : store.Keyed) : ∀ next ∈ indexFiles extractor paths read store, next.Keyed :=
  followAll_keeps (fun _ _ _ => persistBatchItem_keyed) keyed

end Codegraph.Sync
