import Codegraph.Sync.Runs

namespace Codegraph.Sync

open Library List Store

variable {extractor : Extractor}

/-- A reference is unresolved, or its node has an edge at its position. -/
def Present (store : Store) (reference : UnresolvedReference) : Prop :=
  (∃ row ∈ store.unresolvedRefs, row.fromNodeId = reference.fromNodeId ∧
    row.referenceName = reference.referenceName ∧ row.line = reference.line ∧
      row.column = reference.column) ∨
  ∃ edge ∈ store.edges, edge.source = reference.fromNodeId ∧ edge.line = some reference.line ∧
    edge.column = some reference.column

/-- The references that the recorded content of a file yields from a stored node are present. -/
def Kept (extractor : Extractor) (store : Store) : Prop :=
  ∀ record ∈ store.files, ∃ content, extractor.hashContent content = record.contentHash ∧
    ∀ reference ∈ (extractor.extractFromSource record.path content).unresolvedReferences,
      (∃ node ∈ store.nodes, node.id = reference.fromNodeId ∧ node.filePath = record.path) →
        Present store reference

/-- A resolved reference keeps its kind, or its target makes the kind more precise. -/
def ResolvedKind (written resolved : EdgeKind) : Prop :=
  resolved = written ∨ written = .extends ∧ resolved = .implements ∨
    written = .calls ∧ resolved = .instantiates

/-- An edge of a reference to a stored node records the name that was written. -/
structure Resolves (store : Store) (reference : UnresolvedReference) (edge : Edge) : Prop where
  unresolved : reference ∈ store.unresolvedRefs
  source : edge.source = reference.fromNodeId
  target : edge.target ∈ store.nodes.map Node.id
  kind : ResolvedKind reference.referenceKind edge.kind
  line : edge.line = some reference.line
  column : edge.column = some reference.column
  named : edge.metadata.bind (·.get "referenceName") = some (.string reference.referenceName)
  bySource : isCompilerOnly edge.metadata = false

inductive Event where
  | sync (tree : Tree) (read : Path → Reading)
  | resolve (reference : UnresolvedReference) (edge : Edge)

/-- The edge of a reference is inserted before the reference is deleted. -/
def Event.apply (extractor : Extractor) (event : Event) (store : Store) : Store :=
  match event with
  | .sync tree read => lastOf store (Sync.sync extractor tree read store)
  | .resolve reference edge => (store.insertEdges [edge]).deleteSpecificResolvedReference reference

def Event.Valid (store : Store) : Event → Prop
  | .sync _ _ => True
  | .resolve reference edge => Resolves store reference edge

/-- The tables after events that each meet a condition. -/
inductive Run (extractor : Extractor) (guard : Event → Store → Prop) : Store → Prop where
  | empty : Run extractor guard .empty
  | step {store : Store} (before : Run extractor guard store) (event : Event)
      (valid : event.Valid store) (guarded : guard event store) :
      Run extractor guard (event.apply extractor store)

/-- A reference behind an edge that can be restored under the name that was written. -/
def Written (edge : Edge) (name : String) : Prop :=
  writtenName edge.metadata = some name ∧ edge.kind ≠ .contains ∧ isCompilerOnly edge.metadata = false

/-- Two edges that are restored as one reference were written alike. -/
def RestoresAlike (path : Path) (store : Store) : Prop :=
  ∀ first ∈ store.edges, ∀ second ∈ store.edges, ∀ key firstRef secondRef,
    store.restored path first = some (key, firstRef) → store.restored path second = some (key, secondRef) →
        firstRef.referenceName = secondRef.referenceName

/-- A file that is stored brings ids of its own. -/
def BringsOwnIds (extractor : Extractor) (path : Path) (content : Content) (store : Store) : Prop :=
  ∀ node ∈ store.nodes, node.id ∈ validIds (extractor.extractFromSource path content) → node.filePath = path

/-- No other file refers to a file whose nodes are dropped as stale. -/
def DropsNothing (path : Path) (before : Option FileRecord) (store : Store) : Prop :=
  dropStale path before store ≠ [] → ∀ edge ∈ store.edges, store.restored path edge = none

/-- The references into a file survive what is done about it. -/
def Careful (extractor : Extractor) (read : Path → Reading) (task : Task) (store : Store) : Prop :=
  match task with
  | .refresh _ => True
  | .remove path => RestoresAlike path store
  | .index path before =>
    (∀ content size modifiedAt, read path = .read content size modifiedAt →
      persistBatchItem extractor path (read path) store ≠ [] →
        RestoresAlike path store ∧ BringsOwnIds extractor path content store) ∧
    DropsNothing path before (lastOf store (persistBatchItem extractor path (read path) store))

/-- The edge of a reference is not taken for that of another, and it can be restored. -/
def CarefulResolution (reference : UnresolvedReference) (edge : Edge) (store : Store) : Prop :=
  reference.referenceName ≠ "" ∧ reference.referenceKind ≠ .contains ∧
    ∀ other ∈ store.edges, Store.identity other = Store.identity edge →
      Written other reference.referenceName

def CarefulEvent (extractor : Extractor) (event : Event) (store : Store) : Prop :=
  match event with
  | .sync tree read =>
    Guarded (Task.run extractor read) (Careful extractor read)
        (cleanupTasks extractor tree store) store ∧
      Guarded (Task.run extractor read) (Careful extractor read)
        (indexTasks (filesToIndex extractor tree store) (lastOf store
          (followAll (Task.run extractor read) (cleanupTasks extractor tree store) store)))
        (lastOf store
          (followAll (Task.run extractor read) (cleanupTasks extractor tree store) store))
  | .resolve reference edge => CarefulResolution reference edge store

/-- A reference is unresolved or behind an edge that can be restored under its name. -/
def Held (store : Store) (reference : UnresolvedReference) : Prop :=
  (∃ row ∈ store.unresolvedRefs, row.fromNodeId = reference.fromNodeId ∧
    row.referenceName = reference.referenceName ∧ row.line = reference.line ∧
      row.column = reference.column) ∨
  ∃ edge ∈ store.edges, edge.source = reference.fromNodeId ∧ edge.line = some reference.line ∧
    edge.column = some reference.column ∧ Written edge reference.referenceName

theorem Held.present {store : Store} {reference : UnresolvedReference}
    (held : Held store reference) : Present store reference :=
  held.imp id fun ⟨edge, row, source, line, column, _⟩ => ⟨edge, row, source, line, column⟩

/-- Edges and references name stored nodes. -/
structure Linked (store : Store) : Prop where
  sources : ∀ edge ∈ store.edges, edge.source ∈ store.nodes.map Node.id
  targets : ∀ edge ∈ store.edges, edge.target ∈ store.nodes.map Node.id
  references : ∀ row ∈ store.unresolvedRefs, row.fromNodeId ∈ store.nodes.map Node.id

/-- The references of each recorded file are held. -/
def HeldRefs (extractor : Extractor) (store : Store) : Prop :=
  ∀ path hash, store.hashOf path = some hash → ∃ content, hash = extractor.hashContent content ∧
    ∀ reference ∈ (extractor.extractFromSource path content).unresolvedReferences,
      (∃ node ∈ store.nodes, node.id = reference.fromNodeId ∧ node.filePath = path) → Held store reference

structure Holding (extractor : Extractor) (store : Store) : Prop where
  keyed : store.Keyed
  settled : Settled store
  linked : Linked store
  refs : HeldRefs extractor store

theorem holding_empty : Holding extractor .empty where
  keyed := keyed_empty
  settled node row := absurd row not_mem_nil
  linked :=
    { sources := fun edge row => absurd row not_mem_nil
      targets := fun edge row => absurd row not_mem_nil
      references := fun row listed => absurd listed not_mem_nil }
  refs path hash recorded := by simp [Store.hashOf, Store.getFileByPath, Store.empty] at recorded

theorem Holding.kept {store : Store} (holding : Holding extractor store) : Kept extractor store := by
  intro record listed
  have recorded := (hashOf_eq_some holding.keyed).mpr ⟨record, listed, rfl, rfl⟩
  obtain ⟨content, hashed, held⟩ := holding.refs _ _ recorded
  exact ⟨content, hashed.symm, fun reference yielded stored => (held reference yielded stored).present⟩

theorem Held.mono {first second : Store} {reference : UnresolvedReference}
    (held : Held first reference) (rows : first.unresolvedRefs ⊆ second.unresolvedRefs)
    (edges : first.edges ⊆ second.edges) : Held second reference :=
  held.imp (fun ⟨row, listed, same⟩ => ⟨row, rows listed, same⟩)
    fun ⟨edge, listed, same⟩ => ⟨edge, edges listed, same⟩

section Restoring

variable {store : Store} {path : Path}

theorem getNodeById_eq (keyed : store.Keyed) {node : Node} (row : node ∈ store.nodes) :
    store.getNodeById node.id = some node := by
  unfold Store.getNodeById
  cases found : store.nodes.find? (·.id = node.id) with
  | none =>
    have := find?_eq_none.mp found node row
    simp at this
  | some other =>
    have same : other.id = node.id := by simpa using find?_some found
    rw [keyed.node_eq (mem_of_find?_eq_some found) row same]

theorem restored_of_written (keyed : store.Keyed) {edge : Edge} {name : String} {node : Node}
    {line column : Nat} (written : Written edge name) (row : node ∈ store.nodes)
    (source : edge.source = node.id) (outside : node.filePath ≠ path)
    (into : edge.target ∈ (store.getNodesByFile path).map Node.id)
    (atLine : edge.line = some line) (atColumn : edge.column = some column) :
    ∃ target kind reference,
      store.restored path edge = some ((node.id, target, kind, line, column), reference) ∧
        reference.fromNodeId = node.id ∧ reference.referenceName = name ∧
          reference.line = line ∧ reference.column = column := by
  obtain ⟨named, kind, bySource⟩ := written
  obtain ⟨target, listed, sameTarget⟩ := mem_map.mp into
  have restorable : ∃ kind, referenceKindForRemovedTarget edge.kind = some kind := by
    cases hasKind : edge.kind with
    | contains => exact absurd hasKind kind
    | _ => exact ⟨_, rfl⟩
  obtain ⟨restoredKind, restorable⟩ := restorable
  have found : ∃ other, (store.getNodesByFile path).find? (·.id = edge.target) = some other := by
    rw [← Option.isSome_iff_exists, find?_isSome]
    exact ⟨target, listed, by simpa using sameTarget⟩
  obtain ⟨other, found⟩ := found
  refine ⟨other.name, restoredKind, ⟨node.id, restoredReferenceName edge other, restoredKind, line,
    column, some node.filePath, some node.language, referenceMetadata edge⟩, ?_, rfl, ?_, rfl, rfl⟩
  · rw [Store.restored, restorable]
    rw [bySource, source, getNodeById_eq keyed row]
    dsimp only
    rw [if_neg outside, found, atLine, atColumn]
    rfl
  · simp [restoredReferenceName, named]

variable {reference : UnresolvedReference}

theorem restored_key {edge : Edge} {key : RestoreKey}
    (restored : store.restored path edge = some (key, reference)) :
    reference.fromNodeId = key.1 ∧ reference.line = key.2.2.2.1 ∧
      reference.column = key.2.2.2.2 ∧ reference.fromNodeId ∈ store.nodes.map Node.id := by
  unfold Store.restored at restored
  split at restored
  · cases restored
  split at restored
  · cases restored
  split at restored
  · cases restored
  rename_i source found
  split at restored
  · cases restored
  split at restored
  · cases restored
  · cases restored
    exact ⟨rfl, rfl, rfl, mem_map_of_mem (mem_of_find?_eq_some found)⟩

theorem mem_firstOfKeys {pairs : List (RestoreKey × UnresolvedReference)} {seen : List RestoreKey}
    (mem : reference ∈ Store.firstOfKeys seen pairs) :
    ∃ key, (key, reference) ∈ pairs := by
  induction pairs generalizing seen with
  | nil => cases mem
  | cons pair rest ih =>
    obtain ⟨key, first⟩ := pair
    rw [Store.firstOfKeys] at mem
    split at mem
    · obtain ⟨other, listed⟩ := ih mem
      exact ⟨other, mem_cons_of_mem _ listed⟩
    rcases mem_cons.mp mem with rfl | later
    · exact ⟨key, mem_cons_self⟩
    · obtain ⟨other, listed⟩ := ih later
      exact ⟨other, mem_cons_of_mem _ listed⟩

/-- Each key is kept once. -/
theorem firstOfKeys_of_mem {pairs : List (RestoreKey × UnresolvedReference)}
    {seen : List RestoreKey} {key : RestoreKey}
    (mem : (key, reference) ∈ pairs) (unseen : key ∉ seen) :
    ∃ first, (key, first) ∈ pairs ∧ first ∈ Store.firstOfKeys seen pairs := by
  induction pairs generalizing seen with
  | nil => cases mem
  | cons pair rest ih =>
    obtain ⟨other, first⟩ := pair
    by_cases same : key = other
    · refine ⟨first, same ▸ mem_cons_self, ?_⟩
      rw [Store.firstOfKeys, if_neg (same ▸ unseen)]
      exact mem_cons_self
    have later : (key, reference) ∈ rest := by
      rcases mem_cons.mp mem with here | later
      · exact absurd (congrArg Prod.fst here) same
      · exact later
    rw [Store.firstOfKeys]
    split
    · obtain ⟨found, listed, kept⟩ := ih later unseen
      exact ⟨found, mem_cons_of_mem _ listed, kept⟩
    · obtain ⟨found, listed, kept⟩ := @ih (other :: seen) later (by simp [same, unseen])
      exact ⟨found, mem_cons_of_mem _ listed, mem_cons_of_mem _ kept⟩

theorem restoredRefs_from (mem : reference ∈ store.restoredRefs path) :
    reference.fromNodeId ∈ store.nodes.map Node.id := by
  obtain ⟨key, listed⟩ := mem_firstOfKeys mem
  obtain ⟨edge, -, restored⟩ := mem_filterMap.mp listed
  exact (restored_key restored).2.2.2

theorem Held.deleteFile (keyed : store.Keyed) {node : Node}
    (row : node ∈ store.nodes) (source : node.id = reference.fromNodeId)
    (outside : node.filePath ≠ path)
    (covered : ∀ edge ∈ store.edges, edge.source = node.id → edge.line = some reference.line →
      edge.column = some reference.column → Written edge reference.referenceName →
        edge.target ∈ (store.getNodesByFile path).map Node.id →
          ∃ row ∈ store.unresolvedRefs, row.fromNodeId = reference.fromNodeId ∧
            row.referenceName = reference.referenceName ∧ row.line = reference.line ∧
              row.column = reference.column)
    (held : Held store reference) : Held (store.deleteFile path) reference := by
  have stays : node.id ∉ (store.nodes.filter (·.filePath = path)).map Node.id := by
    intro gone
    obtain ⟨other, listed, same⟩ := mem_map.mp gone
    obtain ⟨otherRow, inPath⟩ := mem_filter.mp listed
    rw [keyed.node_eq otherRow row same] at inPath
    exact outside (by simpa using inPath)
  have rows : ∀ unresolved ∈ store.unresolvedRefs, unresolved.fromNodeId = reference.fromNodeId →
      unresolved ∈ (store.deleteFile path).unresolvedRefs := by
    intro unresolved listed same
    refine mem_filter.mpr ⟨listed, ?_⟩
    rw [same, ← source]
    simpa using stays
  rcases held with ⟨unresolved, listed, same⟩ | ⟨edge, listed, from_, line, column, written⟩
  · exact .inl ⟨unresolved, rows unresolved listed same.1, same⟩
  by_cases into : edge.target ∈ (store.getNodesByFile path).map Node.id
  · obtain ⟨unresolved, unresolvedRow, same⟩ :=
      covered edge listed (from_.trans source.symm) line column written into
    exact .inl ⟨unresolved, rows unresolved unresolvedRow same.1, same⟩
  refine .inr ⟨edge, mem_filter.mpr ⟨listed, ?_⟩, from_, line, column, written⟩
  rw [from_, ← source]
  exact decide_eq_true ⟨stays, into⟩

theorem deleteFile_linked (linked : Linked store) : Linked (store.deleteFile path) := by
  have ids : ∀ id ∈ store.nodes.map Node.id, id ∉ (store.nodes.filter (·.filePath = path)).map Node.id →
        id ∈ (store.deleteFile path).nodes.map Node.id := by
    intro id mem kept
    obtain ⟨node, row, rfl⟩ := mem_map.mp mem
    refine mem_map_of_mem (mem_deleteFile_nodes.mpr ⟨row, fun inPath => kept ?_⟩)
    exact mem_map_of_mem (mem_filter.mpr ⟨row, by simpa using inPath⟩)
  constructor
  · intro edge listed
    obtain ⟨row, kept⟩ := mem_filter.mp listed
    exact ids _ (linked.sources edge row) (of_decide_eq_true kept).1
  · intro edge listed
    obtain ⟨row, kept⟩ := mem_filter.mp listed
    exact ids _ (linked.targets edge row) (of_decide_eq_true kept).2
  intro reference listed
  obtain ⟨row, kept⟩ := mem_filter.mp listed
  exact ids _ (linked.references reference row) (of_decide_eq_true kept)

theorem HeldRefs.deleteFile (keyed : store.Keyed) (held : HeldRefs extractor store)
    (covered : ∀ (reference : UnresolvedReference) (node : Node), node ∈ store.nodes →
      node.id = reference.fromNodeId → node.filePath ≠ path → ∀ edge ∈ store.edges,
        edge.source = node.id → edge.line = some reference.line → edge.column = some reference.column →
          Written edge reference.referenceName → edge.target ∈ (store.getNodesByFile path).map Node.id →
              ∃ row ∈ store.unresolvedRefs, row.fromNodeId = reference.fromNodeId ∧
                row.referenceName = reference.referenceName ∧ row.line = reference.line ∧
                  row.column = reference.column) :
    HeldRefs extractor (store.deleteFile path) := by
  intro other hash recorded
  rw [hashOf_deleteFile] at recorded
  split at recorded
  · cases recorded
  rename_i different
  obtain ⟨content, hashed, refs⟩ := held other hash recorded
  refine ⟨content, hashed, ?_⟩
  rintro reference yielded ⟨node, row, source, inPath⟩
  obtain ⟨old, outside⟩ := mem_deleteFile_nodes.mp row
  exact (refs reference yielded ⟨node, old, source, inPath⟩).deleteFile keyed old source outside
    (covered reference node old source outside)

/-- A file is deleted after the references into it are restored. -/
theorem Holding.remove (holding : Holding extractor store) (alike : RestoresAlike path store) :
    Holding extractor (lastOf store (follow store (deleteTransactions path))) := by
  rw [lastOf_delete]
  have keyed : (store.restoreUnresolvedRefsForRemovedTargets path).Keyed :=
    ⟨holding.keyed.nodes, holding.keyed.files⟩
  have refs : HeldRefs extractor (store.restoreUnresolvedRefsForRemovedTargets path) := by
    intro other hash recorded
    obtain ⟨content, hashed, held⟩ := holding.refs other hash recorded
    refine ⟨content, hashed, fun reference yielded stored => ?_⟩
    exact (held reference yielded stored).mono (subset_append_left _ _) (List.Subset.refl _)
  have linked : Linked (store.restoreUnresolvedRefsForRemovedTargets path) := by
    refine ⟨holding.linked.sources, holding.linked.targets, ?_⟩
    intro reference listed
    rcases mem_append.mp listed with old | restored
    · exact holding.linked.references reference old
    · exact restoredRefs_from restored
  refine ⟨deleteFile_keyed keyed path,
    (holding.settled.congr (sameView_restore path store)).deleteFile path,
    deleteFile_linked linked, refs.deleteFile keyed ?_⟩
  intro reference node row source outside edge listed from_ line column written into
  obtain ⟨target, kind, restored, found, -, named, -, -⟩ :=
    restored_of_written holding.keyed written row from_ outside into line column
  have incoming : ((node.id, target, kind, reference.line, reference.column), restored) ∈
      (store.getIncomingEdgesForTargets ((store.getNodesByFile path).map Node.id)).filterMap
        (store.restored path) := by
    refine mem_filterMap.mpr ⟨edge, mem_filter.mpr ⟨listed, ?_⟩, found⟩
    exact decide_eq_true into
  obtain ⟨first, firstListed, kept⟩ := firstOfKeys_of_mem incoming not_mem_nil
  obtain ⟨other, otherListed, otherFound⟩ := mem_filterMap.mp firstListed
  have sameName := alike other (mem_filter.mp otherListed).1 edge listed _ _ _ otherFound found
  obtain ⟨fromId, firstLine, firstColumn, -⟩ := restored_key otherFound
  exact ⟨first, mem_append_right _ kept, fromId.trans source, sameName.trans named, firstLine, firstColumn⟩

theorem Holding.drop (holding : Holding extractor store)
    (unreferenced : ∀ edge ∈ store.edges, store.restored path edge = none) :
    Holding extractor (store.deleteFile path) := by
  refine ⟨deleteFile_keyed holding.keyed path, holding.settled.deleteFile path,
    deleteFile_linked holding.linked, holding.refs.deleteFile holding.keyed ?_⟩
  intro reference node row source outside edge listed from_ line column written into
  obtain ⟨target, kind, restored, found, -⟩ :=
    restored_of_written holding.keyed written row from_ outside into line column
  rw [unreferenced edge listed] at found
  cases found

end Restoring

section Writing

variable {store : Store}

/-- Nodes that nothing names are inserted without a cascade. -/
theorem insertNodes_fresh {nodes : List Node}
    (fresh : ∀ node ∈ nodes, (∀ edge ∈ store.edges, edge.source ≠ node.id ∧ edge.target ≠ node.id) ∧
      ∀ row ∈ store.unresolvedRefs, row.fromNodeId ≠ node.id) :
    (store.insertNodes nodes).edges = store.edges ∧
      (store.insertNodes nodes).unresolvedRefs = store.unresolvedRefs := by
  induction nodes generalizing store with
  | nil => exact ⟨rfl, rfl⟩
  | cons node nodes ih =>
    have first : (store.insertNode node).edges = store.edges ∧
        (store.insertNode node).unresolvedRefs = store.unresolvedRefs := by
      have goneId : ∀ id ∈ (store.nodes.filter (·.id = node.id)).map Node.id, id = node.id := by
        intro id gone
        obtain ⟨other, listed, rfl⟩ := mem_map.mp gone
        simpa using (mem_filter.mp listed).2
      obtain ⟨edges, rows⟩ := fresh node mem_cons_self
      unfold Store.insertNode
      split
      · constructor
        · refine filter_eq_self.mpr fun edge listed => decide_eq_true ?_
          exact ⟨fun gone => (edges edge listed).1 (goneId _ gone),
            fun gone => (edges edge listed).2 (goneId _ gone)⟩
        · refine filter_eq_self.mpr fun row listed => decide_eq_true ?_
          exact fun gone => rows row listed (goneId _ gone)
      · exact ⟨rfl, rfl⟩
    obtain ⟨edges, rows⟩ := @ih (store.insertNode node) (by
      rw [first.1, first.2]
      exact fun other listed => fresh other (mem_cons_of_mem _ listed))
    exact ⟨edges.trans first.1, rows.trans first.2⟩

theorem insertNodes_ids_grow {nodes : List Node} (complete : ∀ node ∈ nodes, Store.required node = true) :
    store.nodes.map Node.id ⊆ (store.insertNodes nodes).nodes.map Node.id := by
  intro id mem
  obtain ⟨node, row, rfl⟩ := mem_map.mp mem
  by_cases replaced : node.id ∈ nodes.map Node.id
  · obtain ⟨other, listed, same⟩ := mem_map.mp ((insertNodes_ids complete _).mpr replaced)
    rw [← same]
    exact mem_map_of_mem ((mem_insertNodes_nodes complete).mpr (.inl listed))
  · exact mem_map_of_mem ((mem_insertNodes_nodes complete).mpr (.inr ⟨row, replaced⟩))

theorem insertEdges_spec (edges : List Edge) : store.edges ⊆ (store.insertEdges edges).edges ∧
      (store.insertEdges edges).unresolvedRefs = store.unresolvedRefs ∧
      ∀ edge ∈ (store.insertEdges edges).edges, edge ∈ store.edges ∨
        edge.source ∈ store.nodes.map Node.id ∧ edge.target ∈ store.nodes.map Node.id := by
  have stored : ∀ edge ∈ edges.filter fun edge => edge.source ∈ store.nodes.map Node.id ∧
      edge.target ∈ store.nodes.map Node.id, edge.source ∈ store.nodes.map Node.id ∧
        edge.target ∈ store.nodes.map Node.id :=
    fun edge listed => of_decide_eq_true (mem_filter.mp listed).2
  unfold Store.insertEdges
  generalize hids : store.nodes.map Node.id = ids at stored ⊢
  clear hids
  generalize edges.filter _ = kept at stored ⊢
  induction kept generalizing store with
  | nil => exact ⟨List.Subset.refl _, rfl, fun edge listed => .inl listed⟩
  | cons first kept ih =>
    obtain ⟨grow, rows, named⟩ := @ih (store.insertEdge first)
      fun edge listed => stored edge (mem_cons_of_mem _ listed)
    rw [foldl_cons]
    have one : store.edges ⊆ (store.insertEdge first).edges ∧
        (store.insertEdge first).unresolvedRefs = store.unresolvedRefs ∧
          ∀ edge ∈ (store.insertEdge first).edges, edge ∈ store.edges ∨ edge = first := by
      unfold Store.insertEdge
      split
      · exact ⟨List.Subset.refl _, rfl, fun edge listed => .inl listed⟩
      · refine ⟨subset_append_left _ _, rfl, fun edge listed => ?_⟩
        exact (mem_append.mp listed).imp_right mem_singleton.mp
    refine ⟨List.Subset.trans one.1 grow, rows.trans one.2.1, ?_⟩
    intro edge listed
    rcases named edge listed with early | endpoints
    · rcases one.2.2 edge early with old | rfl
      · exact .inl old
      · exact .inr (stored edge mem_cons_self)
    · exact .inr endpoints

/-- What storing a file leaves in the tables of the edges and the references. -/
theorem lastOf_write_rows (extractor : Extractor) (path : Path) (content : Content) (size : Nat)
    (modifiedAt : Int) (result : ExtractionResult) (store : Store) :
    (lastOf store (follow store (writeTransactions extractor path content size modifiedAt
        result))).edges =
      ((store.insertNodes (validNodes result)).insertEdges (validEdges result)).edges ∧
    (lastOf store (follow store (writeTransactions extractor path content size modifiedAt
        result))).unresolvedRefs =
      ((store.insertNodes (validNodes result)).insertEdges (validEdges result)).unresolvedRefs ++
        refsWithContext extractor path content result := by
  rw [lastOf_follow]
  simp only [writeTransactions, foldl_cons, foldl_nil]
  unfold Store.upsertFile
  split <;> exact ⟨rfl, rfl⟩

/-- A file without a record brings its nodes, edges and references. -/
theorem Holding.write {path : Path} {content : Content} (size : Nat) (modifiedAt : Int)
    (holding : Holding extractor store) (unrecorded : store.hashOf path = none)
    (ownIds : BringsOwnIds extractor path content store) :
    Holding extractor (lastOf store (follow store (writeTransactions extractor path content size
      modifiedAt (extractor.extractFromSource path content)))) := by
  obtain ⟨lastNodes, lastHashes⟩ := lastOf_write extractor path content size modifiedAt
    (extractor.extractFromSource path content) store
  obtain ⟨lastEdges, lastRows⟩ := lastOf_write_rows extractor path content size modifiedAt
    (extractor.extractFromSource path content) store
  have noNodes : ∀ node ∈ store.nodes, node.filePath ≠ path := by
    rintro node row rfl
    exact holding.settled node row unrecorded
  have freshIds : ∀ node ∈ validNodes (extractor.extractFromSource path content),
      node.id ∉ store.nodes.map Node.id := by
    intro node valid stored
    obtain ⟨other, row, same⟩ := mem_map.mp stored
    exact noNodes other row (ownIds other row (same ▸ mem_map_of_mem valid))
  obtain ⟨sameEdges, sameRows⟩ := @insertNodes_fresh store
    (validNodes (extractor.extractFromSource path content)) (by
      intro node valid
      refine ⟨fun edge listed => ⟨fun same => ?_, fun same => ?_⟩, fun row listed same => ?_⟩
      · exact freshIds node valid (same ▸ holding.linked.sources edge listed)
      · exact freshIds node valid (same ▸ holding.linked.targets edge listed)
      · exact freshIds node valid (same ▸ holding.linked.references row listed))
  obtain ⟨grow, keptRows, endpoints⟩ := @insertEdges_spec
    (store.insertNodes (validNodes (extractor.extractFromSource path content)))
    (validEdges (extractor.extractFromSource path content))
  rw [sameEdges] at grow endpoints
  rw [keptRows, sameRows] at lastRows
  have idsGrow : store.nodes.map Node.id ⊆ (store.insertNodes
      (validNodes (extractor.extractFromSource path content))).nodes.map Node.id :=
    insertNodes_ids_grow (validNodes_required _)
  refine ⟨lastOf_keeps holding.keyed (follow_keeps writeTransactions_keyed holding.keyed),
    write_settled size modifiedAt holding.settled, ⟨?_, ?_, ?_⟩, ?_⟩
  · intro edge listed
    rw [lastEdges] at listed
    rw [lastNodes]
    exact (endpoints edge listed).elim (fun old => idsGrow (holding.linked.sources edge old)) And.left
  · intro edge listed
    rw [lastEdges] at listed
    rw [lastNodes]
    exact (endpoints edge listed).elim (fun old => idsGrow (holding.linked.targets edge old)) And.right
  · intro row listed
    rw [lastRows] at listed
    rw [lastNodes]
    rcases mem_append.mp listed with old | new
    · exact idsGrow (holding.linked.references row old)
    obtain ⟨reference, kept, rfl⟩ := mem_map.mp new
    obtain ⟨node, yielded, same⟩ := mem_validIds_iff.mp (of_decide_eq_true (mem_filter.mp kept).2)
    refine mem_map.mpr ⟨node, ?_, same⟩
    exact (mem_insertNodes_nodes (validNodes_required _)).mpr (.inl yielded)
  · intro other hash recorded
    rw [lastHashes] at recorded
    rw [lastNodes]
    split at recorded
    · rename_i same
      cases recorded
      refine ⟨content, rfl, ?_⟩
      subst same
      rintro reference listed ⟨node, row, source, inPath⟩
      have yielded : node ∈ yields extractor other content := by
        rcases (mem_insertNodes_nodes (validNodes_required _)).mp row with new | ⟨old, _⟩
        · exact new
        · exact absurd inPath (noNodes node old)
      have valid := mem_validIds_iff.mpr ⟨node, yielded, source⟩
      have inContext : ∃ unresolved ∈ refsWithContext extractor other content
          (extractor.extractFromSource other content), unresolved.fromNodeId = reference.fromNodeId ∧
              unresolved.referenceName = reference.referenceName ∧
                unresolved.line = reference.line ∧ unresolved.column = reference.column :=
        ⟨_, mem_map_of_mem (mem_filter.mpr ⟨listed, decide_eq_true valid⟩), rfl, rfl, rfl, rfl⟩
      obtain ⟨unresolved, new, same⟩ := inContext
      refine .inl ⟨unresolved, ?_, same⟩
      rw [lastRows]
      exact mem_append_right _ new
    rename_i different
    obtain ⟨stored, hashed, held⟩ := holding.refs other hash recorded
    refine ⟨stored, hashed, ?_⟩
    rintro reference listed ⟨node, row, source, inPath⟩
    have old : node ∈ store.nodes := by
      rcases (mem_insertNodes_nodes (validNodes_required _)).mp row with new | ⟨old, _⟩
      · exact absurd (inPath.symm.trans (yields_filePath new)) different
      · exact old
    refine (held reference listed ⟨node, old, source, inPath⟩).mono ?_ ?_
    · rw [lastRows]
      exact subset_append_left _ _
    · rwa [lastEdges]

end Writing

section Tasks

variable {store : Store}

section

variable (holding : Holding extractor store)
include holding

/-- Storing what a worker read keeps the references of every file. -/
theorem Holding.persist {path : Path} {reading : Reading}
    (careful : ∀ content size modifiedAt, reading = .read content size modifiedAt →
      persistBatchItem extractor path reading store ≠ [] →
        RestoresAlike path store ∧ BringsOwnIds extractor path content store) :
    Holding extractor (lastOf store (persistBatchItem extractor path reading store)) := by
  by_cases silent : persistBatchItem extractor path reading store = []
  · rwa [silent]
  cases reading with
  | failed => exact absurd rfl silent
  | tooLarge size modifiedAt =>
    have unstored : ¬(tooLargeResult extractor size).stored := by
      simp [ExtractionResult.stored, tooLargeResult]
    dsimp only [persistBatchItem, Sync.persist] at silent
    exact absurd (if_neg unstored) silent
  | read content size modifiedAt =>
    obtain ⟨alike, ownIds⟩ := careful content size modifiedAt rfl silent
    dsimp only [persistBatchItem, Sync.persist] at silent ⊢
    split at silent
    · rename_i stored
      rw [if_pos stored]
      unfold storeExtractionResult at silent ⊢
      split at silent
      · rename_i existing recorded
        split at silent
        · exact absurd rfl silent
        rename_i changed
        rw [if_neg changed, follow_append, lastOf_append]
        refine Holding.write size modifiedAt (holding.remove alike) ?_ ?_
        · rw [lastOf_delete, hashOf_deleteFile, if_pos rfl]
        · rw [lastOf_delete]
          exact fun node row => ownIds node (mem_deleteFile_nodes.mp row).1
      · rename_i unrecorded
        exact holding.write size modifiedAt (by rw [Store.hashOf, unrecorded]; rfl) ownIds
    · exact absurd rfl silent

theorem Holding.task {read : Path → Reading} {task : Task}
    (careful : Careful extractor read task store) (notRefresh : ∀ record, task ≠ .refresh record) :
    Holding extractor (lastOf store (task.run extractor read store)) := by
  cases task with
  | refresh record => exact absurd rfl (notRefresh record)
  | remove path => exact holding.remove careful
  | index path before =>
    obtain ⟨persists, drops⟩ := careful
    have persisted := holding.persist persists
    dsimp only [Task.run, indexChanged]
    rw [lastOf_append]
    by_cases kept : dropStale path before
        (lastOf store (persistBatchItem extractor path (read path) store)) = []
    · rwa [kept]
    have unreferenced := drops kept
    unfold dropStale at kept ⊢
    split at kept
    · split at kept
      · rename_i before after first second same
        rw [if_pos same]
        exact persisted.drop unreferenced
      · exact absurd rfl kept
    · exact absurd rfl kept

theorem Holding.refresh {record : FileRecord} (known : store.hashOf record.path = some record.contentHash) :
    Holding extractor (store.upsertFile record) := by
  have sameRows : (store.upsertFile record).nodes = store.nodes ∧
      (store.upsertFile record).edges = store.edges ∧
        (store.upsertFile record).unresolvedRefs = store.unresolvedRefs := by
    unfold Store.upsertFile
    split <;> exact ⟨rfl, rfl, rfl⟩
  obtain ⟨nodes, edges, rows⟩ := sameRows
  have hashes : ∀ path, (store.upsertFile record).hashOf path = store.hashOf path := by
    intro path
    rw [hashOf_upsertFile]
    split
    · rename_i same
      rw [same, known]
    · rfl
  refine ⟨upsertFile_keyed holding.keyed record, holding.settled.congr ⟨nodes, hashes⟩,
    ⟨?_, ?_, ?_⟩, ?_⟩
  · rw [edges, nodes]
    exact holding.linked.sources
  · rw [edges, nodes]
    exact holding.linked.targets
  · rw [rows, nodes]
    exact holding.linked.references
  · intro path hash recorded
    rw [hashes] at recorded
    obtain ⟨content, hashed, held⟩ := holding.refs path hash recorded
    refine ⟨content, hashed, ?_⟩
    rw [nodes]
    intro reference listed stored
    refine (held reference listed stored).mono ?_ ?_
    · rw [rows]
      exact List.Subset.refl _
    · rw [edges]
      exact List.Subset.refl _

theorem Holding.sync {tree : Tree} {read : Path → Reading}
    (careful : CarefulEvent extractor (.sync tree read) store) :
    Holding extractor (lastOf store (Sync.sync extractor tree read store)) := by
  obtain ⟨cleanupGuarded, indexGuarded⟩ := careful
  obtain ⟨refreshGuarded, removeGuarded⟩ := cleanupGuarded.append
  have known := @metadataOnly_known extractor tree store holding.keyed
  have refreshKeeps : ∀ task ∈ (metadataOnlyFiles extractor tree store).map Task.refresh, ∀ state,
      (Holding extractor state ∧ SameView state store) → Careful extractor read task state →
        Holding extractor (lastOf state (task.run extractor read state)) ∧
          SameView (lastOf state (task.run extractor read state)) store := by
    rintro task listed state ⟨before, view⟩ -
    obtain ⟨record, recorded, rfl⟩ := mem_map.mp listed
    refine ⟨before.refresh ((view.2 _).trans (known record recorded)), ?_⟩
    obtain ⟨nodes, hashes⟩ := @refresh_sameView extractor [record] read state
      (by simpa using (view.2 _).trans (known record recorded)) _ mem_cons_self
    exact ⟨nodes.trans view.1, fun path => (hashes path).trans (view.2 path)⟩
  have refreshed := (refreshGuarded.keeps refreshKeeps ⟨holding, rfl, fun _ => rfl⟩).1
  have removeKeeps : ∀ task ∈ (removedFiles tree store).map Task.remove, ∀ state,
      Holding extractor state → Careful extractor read task state →
        Holding extractor (lastOf state (task.run extractor read state)) := by
    intro task listed state before guard
    obtain ⟨path, -, rfl⟩ := mem_map.mp listed
    exact before.task guard fun record => by simp
  have removed := removeGuarded.keeps removeKeeps refreshed
  rw [← lastOf_append, ← followAll_append] at removed
  have indexKeeps : ∀ (paths : List Path) (start : Store), ∀ task ∈ indexTasks paths start,
      ∀ state, Holding extractor state → Careful extractor read task state →
        Holding extractor (lastOf state (task.run extractor read state)) := by
    intro paths start task listed state before guard
    obtain ⟨path, -, rfl⟩ := mem_map.mp listed
    exact before.task guard fun record => by simp
  rw [Sync.sync, lastOf_append]
  exact indexGuarded.keeps (indexKeeps _ _) removed

theorem Holding.resolve {reference : UnresolvedReference} {edge : Edge}
    (resolves : Resolves store reference edge)
    (careful : CarefulResolution reference edge store) :
    Holding extractor
      ((store.insertEdges [edge]).deleteSpecificResolvedReference reference) := by
  obtain ⟨hasName, notContained, alike⟩ := careful
  obtain ⟨grow, rows, endpoints⟩ := @insertEdges_spec store [edge]
  obtain ⟨nodes, files⟩ := @insertEdges_nodes_files store [edge]
  have written : Written edge reference.referenceName := by
    refine ⟨?_, ?_, resolves.bySource⟩
    · rw [writtenName, resolves.named]
      exact if_neg hasName
    rcases resolves.kind with same | ⟨-, same⟩ | ⟨-, same⟩
    · rwa [same]
    · simp [same]
    · simp [same]
  have sourceStored : edge.source ∈ store.nodes.map Node.id := by
    rw [resolves.source]
    exact holding.linked.references reference resolves.unresolved
  have inserted : ∃ other ∈ (store.insertEdges [edge]).edges,
      Store.identity other = Store.identity edge ∧ Written other reference.referenceName := by
    have both : (edge.source ∈ store.nodes.map Node.id ∧ edge.target ∈ store.nodes.map Node.id) :=
      ⟨sourceStored, resolves.target⟩
    have same : store.insertEdges [edge] = store.insertEdge edge := by
      rw [Store.insertEdges, filter_cons_of_pos (by simpa using both)]
      rfl
    rw [same]
    unfold Store.insertEdge
    split
    · rename_i known
      obtain ⟨other, listed, sameIdentity⟩ := any_eq_true.mp known
      have sameIdentity := of_decide_eq_true sameIdentity
      exact ⟨other, listed, sameIdentity, alike other listed sameIdentity⟩
    · exact ⟨edge, mem_append_right _ mem_cons_self, rfl, written⟩
  have hashes : ∀ path, ((store.insertEdges [edge]).deleteSpecificResolvedReference
      reference).hashOf path = store.hashOf path := hashOf_congr files
  have sameNodes : ((store.insertEdges [edge]).deleteSpecificResolvedReference reference).nodes =
      store.nodes := nodes
  have keyed := insertEdges_keyed holding.keyed [edge]
  refine ⟨⟨keyed.nodes, keyed.files⟩, holding.settled.congr ⟨sameNodes, hashes⟩, ⟨?_, ?_, ?_⟩, ?_⟩
  · intro other listed
    rw [sameNodes]
    exact (endpoints other listed).elim (holding.linked.sources other) And.left
  · intro other listed
    rw [sameNodes]
    exact (endpoints other listed).elim (holding.linked.targets other) And.right
  · intro row listed
    rw [sameNodes]
    obtain ⟨old, -⟩ := mem_filter.mp listed
    exact holding.linked.references row (rows ▸ old)
  · intro path hash recorded
    rw [hashes] at recorded
    obtain ⟨content, hashed, held⟩ := holding.refs path hash recorded
    refine ⟨content, hashed, ?_⟩
    intro yielded listed stored
    rw [sameNodes] at stored
    rcases held yielded listed stored with
      ⟨row, unresolved, from_, name, line, column⟩ | ⟨other, old, same⟩
    · by_cases resolved : row.fromNodeId = reference.fromNodeId ∧
          row.referenceName = reference.referenceName ∧
            row.referenceKind = reference.referenceKind ∧ row.line = reference.line ∧
              row.column = reference.column
      · obtain ⟨sameFrom, sameName, -, sameLine, sameColumn⟩ := resolved
        obtain ⟨other, present, identity, writtenSo⟩ := inserted
        simp only [Store.identity, Prod.mk.injEq] at identity
        obtain ⟨source, -, -, atLine, atColumn⟩ := identity
        refine .inr ⟨other, present, ?_, ?_, ?_, ?_⟩
        · rw [source, resolves.source, ← sameFrom, from_]
        · rw [atLine, resolves.line, ← sameLine, line]
        · rw [atColumn, resolves.column, ← sameColumn, column]
        · rwa [← name, sameName]
      · refine .inl ⟨row, ?_, from_, name, line, column⟩
        exact mem_filter.mpr ⟨rows ▸ unresolved, decide_eq_true resolved⟩
    · exact .inr ⟨other, grow old, same⟩

end

end Tasks

theorem Run.holding {store : Store} (run : Run extractor (CarefulEvent extractor) store) :
    Holding extractor store := by
  induction run with
  | empty => exact holding_empty
  | step _ event valid careful ih =>
    cases event with
    | sync tree read => exact ih.sync careful
    | resolve reference edge => exact ih.resolve valid careful

/-- A file defines a function, or it has a function that calls the other. -/
def callAcross : Extractor where
  hashContent := id
  detectLanguage _ _ := "rust"
  extractFromSource path content :=
    if content = "fn foo() {}" ∨ content = "fn foo() { }" then
      ⟨[⟨"function:" ++ path, "foo", "foo", path, "rust", 1, 0⟩], [], [], []⟩
    else if content = "fn bar() { foo() }" then
      ⟨[⟨"function:" ++ path, "bar", "bar", path, "rust", 1, 0⟩], [],
        [⟨"function:" ++ path, "foo", .calls, 1, 11, none, none, none⟩], []⟩
    else ⟨[], [], [], ["syntax error"]⟩
  maxFileSize := 0
  owned path content node member := by
    split at member
    · rw [mem_singleton.mp member]
    split at member
    · rw [mem_singleton.mp member]
    · cases member

/-- The calling file is as it is, and the other has some content. -/
def withFoo (size : Nat) (content : Content) : Tree where
  scanned := ["a.rs", "b.rs"]
  distinct := by decide
  disk path :=
    if path = "a.rs" then some ⟨size, 1, true, some content⟩
    else if path = "b.rs" then some ⟨18, 1, true, some "fn bar() { foo() }"⟩
    else none
  blocked _ := false

def callToFoo : UnresolvedReference :=
  ⟨"function:b.rs", "foo", .calls, 1, 11, some "b.rs", some "rust", none⟩

def edgeToFoo : Edge :=
  ⟨"function:b.rs", "function:a.rs", .calls,
    some (Dict.set ∅ "referenceName" (.string "foo")), some 1, some 11⟩

/-- Both files are indexed. -/
def indexedBoth : Store :=
  (Event.sync (withFoo 11 "fn foo() {}") ((withFoo 11 "fn foo() {}").read callAcross)).apply
    callAcross .empty

/-- The call is resolved. -/
def resolvedCall : Store := (Event.resolve callToFoo edgeToFoo).apply callAcross indexedBoth

theorem callToFoo_resolves : Resolves indexedBoth callToFoo edgeToFoo where
  unresolved := by decide +kernel
  source := rfl
  target := by decide +kernel
  kind := .inl rfl
  line := rfl
  column := rfl
  named := by decide +kernel
  bySource := by decide +kernel

/-- The called file is broken, and it is dropped with the edge of the call. -/
def brokenFoo : Store :=
  (Event.sync (withFoo 4 "fn (") ((withFoo 4 "fn (").read callAcross)).apply callAcross resolvedCall

theorem restoresAlike_of_one {store : Store} (path : Path) (few : store.edges.length ≤ 1) :
    RestoresAlike path store := by
  intro first firstListed second secondListed key firstRef secondRef firstFound secondFound
  have same : first = second := by
    cases edges : store.edges with
    | nil =>
      rw [edges] at firstListed
      cases firstListed
    | cons only rest =>
      rw [edges, length_cons] at few
      obtain rfl : rest = [] := eq_nil_of_length_eq_zero (by omega)
      rw [edges] at firstListed secondListed
      rw [mem_singleton.mp firstListed, mem_singleton.mp secondListed]
  rw [same, secondFound] at firstFound
  cases firstFound
  rfl

theorem careful_index {extractor : Extractor} {read : Path → Reading} {path : Path}
    {before : Option FileRecord} {store : Store} {content : Content} {size : Nat} {modifiedAt : Int}
    (reading : read path = .read content size modifiedAt) (few : store.edges.length ≤ 1)
    (ownIds : BringsOwnIds extractor path content store)
    (kept : dropStale path before (lastOf store (persistBatchItem extractor path (read path)
      store)) = []) : Careful extractor read (.index path before) store := by
  refine ⟨?_, fun drops => absurd kept drops⟩
  intro other otherSize otherModifiedAt otherReading _
  rw [reading] at otherReading
  cases otherReading
  exact ⟨restoresAlike_of_one path few, ownIds⟩

end Codegraph.Sync
