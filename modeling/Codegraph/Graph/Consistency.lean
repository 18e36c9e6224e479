import Codegraph.Graph.CodeGraph
import Codegraph.Graph.Indexing

namespace Codegraph

open Library List Option StableGraph Indices Set

namespace CodeGraph

/-- The nodes that occupy a slot. -/
def stored (code : CodeGraph) : Set NodeData := {data | ∃ slot, code.graph.node slot = some data}

/-- Each stored id has its slot, and the indices list the stored nodes. -/
structure Consistent (code : CodeGraph) : Prop where
  mapped : ∀ id slot, code.indexMap.get id = some slot ↔
    ∃ data, code.graph.node slot = some data ∧ data.id = id
  indexes : code.indices.Indexes code.stored

variable {code : CodeGraph}

section

variable (consistent : Consistent code)
include consistent

theorem Consistent.slot {slot : Nat} {data : NodeData} (found : code.graph.node slot = some data) :
    code.indexMap.get data.id = some slot :=
  (consistent.mapped data.id slot).mpr ⟨data, found, rfl⟩

/-- No two slots hold nodes with the same id. -/
theorem Consistent.unique {first second : Nat}
    {data data' : NodeData} (found : code.graph.node first = some data)
    (found' : code.graph.node second = some data') (same : data.id = data'.id) :
    first = second ∧ data = data' := by
  have slot := consistent.slot found
  rw [same, consistent.slot found'] at slot
  obtain rfl := some.inj slot
  rw [found] at found'
  exact ⟨rfl, some.inj found'⟩

theorem Consistent.stored_unique :
    ∀ first ∈ code.stored, ∀ second ∈ code.stored, first.id = second.id → first = second := by
  intro first ⟨slot, found⟩ second ⟨slot', found'⟩ same
  exact (consistent.unique found found' same).2

theorem stored_setNode {slot : Nat}
    {old : NodeData} (found : code.graph.node slot = some old) (data : NodeData) :
    {node | ∃ other, (code.graph.setNode slot data).node other = some node} =
      insert data (code.stored \ {old}) := by
  ext node
  rw [mem_insert_iff, mem_sdiff, mem_singleton_iff]
  constructor
  · intro ⟨other, known⟩
    rw [node_setNode _ _ found] at known
    split at known
    · exact .inl (some.inj known).symm
    rename_i different
    right
    refine ⟨⟨other, known⟩, fun same => ?_⟩
    subst same
    exact different (consistent.unique known found rfl).1
  intro either
  rcases either with same | ⟨⟨other, known⟩, different⟩
  · exact ⟨slot, by rw [node_setNode _ _ found, if_pos rfl, same]⟩
  refine ⟨other, ?_⟩
  rw [node_setNode _ _ found, if_neg ?_]
  · exact known
  · intro same
    rw [same, found] at known
    exact different (some.inj known).symm

theorem setNode_consistent {slot : Nat}
    {old data : NodeData} (found : code.graph.node slot = some old) (same : data.id = old.id)
    {indices : Indices} (indexes : indices.Indexes (insert data (code.stored \ {old})))
    (revision : Nat) :
    Consistent { code with
      graph := code.graph.setNode slot data
      indices := indices
      revision := revision } := by
  constructor
  · intro id other
    rw [consistent.mapped]
    rw [node_setNode _ _ found]
    split
    · rename_i here
      subst here
      rw [found]
      simp [same]
    · rfl
  change indices.Indexes {node | ∃ other, (code.graph.setNode slot data).node other = some node}
  rwa [stored_setNode consistent found]

theorem touchSlot_consistent (rev slot : Nat) : Consistent (code.touchSlot rev slot) := by
  unfold touchSlot
  split
  · rename_i old found
    apply setNode_consistent consistent found (by rfl)
    apply consistent.indexes.restamp
    have mem : old ∈ code.stored := ⟨slot, found⟩
    rw [image_insert_eq]
    have same : (old.stamp old.birthRevision rev).unstamped = old.unstamped := rfl
    rw [same, ← image_insert_eq, insert_sdiff_singleton, insert_eq_of_mem mem]
  · exact consistent

theorem touchNode_consistent (rev : Nat) (id : NodeId) : Consistent (touchNode rev code id) := by
  unfold touchNode
  split
  · exact touchSlot_consistent consistent rev _
  · exact consistent

end

theorem new_consistent : Consistent new := by
  constructor
  · intro id slot
    simp [new]
  have none : new.stored = ∅ := by
    ext data
    simp [stored, new]
  rw [none]
  exact indexes_empty

variable (policy : SlotPolicy)

section

variable (consistent : Consistent code)
include consistent

theorem addNode_consistent (data : NodeData) : Consistent (code.addNode policy data) := by
  unfold addNode
  split
  · rename_i slot known
    obtain ⟨old, found, named⟩ := (consistent.mapped data.id slot).mp known
    rw [found]
    apply setNode_consistent consistent found
    · exact named.symm
    apply replaceNode_indexes consistent.indexes
    · exact named.symm
    · intro other mem same
      exact consistent.stored_unique other mem old ⟨slot, found⟩ same
  rename_i unknown
  have fresh := nextSlot_free policy code.graph
  have unused {slot : Nat} {old : NodeData} (found : code.graph.node slot = some old) :
      slot ≠ code.graph.nextSlot policy := by
    intro same
    rw [same, fresh] at found
    contradiction
  constructor
  · intro id slot
    simp only [Dict.get_set, node_addNode]
    constructor
    · intro known
      split at known
      · rename_i same
        subst same
        rw [if_pos (some.inj known).symm]
        exact ⟨_, rfl, rfl⟩
      obtain ⟨old, found, named⟩ := (consistent.mapped id slot).mp known
      rw [if_neg (unused found)]
      exact ⟨old, found, named⟩
    intro ⟨node, found, named⟩
    split at found
    · rename_i here
      cases found
      subst named
      rw [if_pos rfl, here]
    have known := (consistent.mapped id slot).mpr ⟨node, found, named⟩
    rw [if_neg ?_]
    · exact known
    · intro same
      rw [same] at known
      exact absurd (unknown.symm.trans known) (by simp)
  have distinct : ∀ old ∈ code.stored, old.id ≠ (data.stamp code.bumpRevision code.bumpRevision).id := by
    intro old ⟨slot, found⟩ same
    have known := consistent.slot found
    rw [same] at known
    exact absurd (unknown.symm.trans known) (by simp)
  have added := insertNode_indexes consistent.indexes distinct
  convert added using 1
  ext node
  simp only [stored, node_addNode, mem_insert_iff, mem_ofPred_eq]
  constructor
  · intro ⟨slot, found⟩
    split at found
    · exact .inl (some.inj found).symm
    · exact .inr ⟨slot, found⟩
  intro either
  rcases either with same | ⟨slot, found⟩
  · exact ⟨code.graph.nextSlot policy, by rw [if_pos rfl, same]⟩
  · exact ⟨slot, by rw [if_neg (unused found)]; exact found⟩

theorem addEdge_consistent (source target : NodeId)
    (data : EdgeData) : Consistent (code.addEdge source target data).1 := by
  have linked (sourceSlot targetSlot : Nat) :
      Consistent { code with
        graph := code.graph.addEdge sourceSlot targetSlot data
        revision := code.bumpRevision } := by
    constructor
    · intro id slot
      simp only [node_addEdge]
      exact consistent.mapped id slot
    have same : {node | ∃ slot, (code.graph.addEdge sourceSlot targetSlot data).node slot =
        some node} = code.stored := by
      simp only [node_addEdge]
      rfl
    have indexes := consistent.indexes
    rwa [← same] at indexes
  unfold addEdge
  split
  · exact consistent
  split
  · exact consistent
  split
  · split
    · split
      · exact consistent
      · exact consistent
    split
    · exact consistent
    · exact touchSlot_consistent (touchSlot_consistent (linked _ _) _ _) _ _
  · exact consistent

theorem removeNode_consistent (id : NodeId) : Consistent (code.removeNode id).1 := by
  unfold removeNode
  split
  · exact consistent
  rename_i slot known
  obtain ⟨removed, found, named⟩ := (consistent.mapped id slot).mp known
  rw [found]
  apply List.foldlRecOn
  · constructor
    · intro other place
      simp only [Dict.get_remove, node_removeNode]
      constructor
      · intro mapped
        split at mapped
        · contradiction
        rename_i different
        obtain ⟨data, stored, named'⟩ := (consistent.mapped other place).mp mapped
        rw [if_neg ?_]
        · exact ⟨data, stored, named'⟩
        · intro same
          rw [same, found] at stored
          cases stored
          exact different (named'.symm.trans named)
      intro ⟨data, stored, named'⟩
      split at stored
      · contradiction
      rename_i apart
      rw [if_neg ?_]
      · exact (consistent.mapped other place).mpr ⟨data, stored, named'⟩
      · intro same
        have both := named'.trans (same.trans named.symm)
        exact apart (consistent.unique stored found both).1
    have evicted := removeNode_indexes consistent.indexes
      fun other mem same => consistent.stored_unique other mem removed ⟨slot, found⟩ same
    convert evicted using 1
    ext node
    simp only [stored, node_removeNode, mem_sdiff, mem_singleton_iff,
      mem_ofPred_eq]
    constructor
    · intro ⟨place, kept⟩
      split at kept
      · contradiction
      rename_i apart
      refine ⟨⟨place, kept⟩, fun same => ?_⟩
      subst same
      exact apart (consistent.unique kept found rfl).1
    intro ⟨⟨place, kept⟩, different⟩
    refine ⟨place, ?_⟩
    rw [if_neg ?_]
    · exact kept
    · intro same
      rw [same, found] at kept
      exact different (some.inj kept).symm
  · intro middle consistent' neighbor _
    exact touchNode_consistent consistent' _ neighbor

theorem updateNodeMetadata_consistent (id : NodeId) (change : Dict String String → Dict String String) :
    Consistent (code.updateNodeMetadata id change).1 := by
  unfold updateNodeMetadata
  split
  · exact consistent
  split
  · exact consistent
  rename_i slot _ _ old found
  apply setNode_consistent consistent found
  · rfl
  apply replaceNode_indexes consistent.indexes
  · rfl
  · intro other mem same
    exact consistent.stored_unique other mem old ⟨slot, found⟩ same

theorem removeNodes_consistent (ids : List NodeId) : Consistent (code.removeNodes ids) :=
  List.foldlRecOn ids _ consistent fun _ consistent' id _ => removeNode_consistent consistent' id

theorem addNodes_consistent (nodes : List NodeData) : Consistent (code.addNodes policy nodes) :=
  List.foldlRecOn nodes _ consistent fun _ consistent' data _ =>
    addNode_consistent policy consistent' data

theorem addKnownEdges_consistent
    (edges : List (NodeId × NodeId × EdgeData)) : Consistent (code.addKnownEdges edges) := by
  apply List.foldlRecOn edges _ consistent
  intro middle consistent' edge _
  unfold addKnownEdge
  split
  · exact addEdge_consistent consistent' _ _ _
  · exact consistent'

theorem updateFile_consistent {ParsedFile : Type}
    (path content : String) (adapter : LanguageAdapter ParsedFile) :
    Consistent (code.updateFile policy path content adapter) := by
  have cleared := removeNodes_consistent consistent (code.nodesOfFile path)
  unfold updateFile
  split
  · exact cleared
  · exact addKnownEdges_consistent (addNodes_consistent policy cleared _) _

end

/-- The operations that change a graph. -/
inductive Operation (ParsedFile : Type) where
  | addNode (data : NodeData)
  | addEdge (source target : NodeId) (data : EdgeData)
  | removeNode (id : NodeId)
  | updateNodeMetadata (id : NodeId) (change : Dict String String → Dict String String)
  | updateFile (path content : String) (adapter : LanguageAdapter ParsedFile)

def apply {ParsedFile : Type} (policy : SlotPolicy) (code : CodeGraph) : Operation ParsedFile → CodeGraph
  | .addNode data => code.addNode policy data
  | .addEdge source target data => (code.addEdge source target data).1
  | .removeNode id => (code.removeNode id).1
  | .updateNodeMetadata id change => (code.updateNodeMetadata id change).1
  | .updateFile path content adapter => code.updateFile policy path content adapter

def run {ParsedFile : Type} (policy : SlotPolicy) (operations : List (Operation ParsedFile)) : CodeGraph :=
  operations.foldl (apply policy) new

theorem apply_consistent {ParsedFile : Type}
    (consistent : Consistent code) (operation : Operation ParsedFile) :
    Consistent (code.apply policy operation) := by
  cases operation with
  | addNode data => exact addNode_consistent policy consistent data
  | addEdge source target data => exact addEdge_consistent consistent source target data
  | removeNode id => exact removeNode_consistent consistent id
  | updateNodeMetadata id change => exact updateNodeMetadata_consistent consistent id change
  | updateFile path content adapter =>
    exact updateFile_consistent policy consistent path content adapter

theorem run_consistent {ParsedFile : Type}
    (operations : List (Operation ParsedFile)) : Consistent (run policy operations) :=
  List.foldlRecOn operations _ new_consistent fun _ consistent operation _ =>
    apply_consistent policy consistent operation

/-- A rebuilt index lists the stored nodes. -/
theorem rebuildIndices_indexes (consistent : Consistent code) :
    code.rebuildIndices.indices.Indexes code.stored := by
  have distinct : (code.graph.nodeWeights.map NodeData.id).Nodup := by
    apply nodeWeights_nodup
    intro first second data data' found found' same
    exact (consistent.unique found found' same).1
  have rebuilt := rebuildFromGraph_indexes distinct
  have same : {data | data ∈ code.graph.nodeWeights} = code.stored := by
    ext data
    exact mem_nodeWeights code.graph data
  rwa [same] at rebuilt

/-- After any operations the map pairs the stored ids with the live slots one to one, the indices
are the rebuilt ones, and the module query answers each node of the module and of the modules below
it once. -/
theorem run_indexed {ParsedFile : Type} (policy : SlotPolicy) (operations : List (Operation ParsedFile)) :
    let code := run policy operations
    (∀ id slot, code.indexMap.get id = some slot ↔
        ∃ data, code.graph.node slot = some data ∧ data.id = id) ∧
      Set.BijOn code.indexMap.get {id | ∃ data ∈ code.stored, data.id = id}
        {place | ∃ slot, place = some slot ∧ (code.graph.node slot).isSome} ∧
      code.indices.Agree code.rebuildIndices.indices ∧ code.indices.NoDuplicates ∧
      ∀ path, (code.nodesInModule path).Nodup ∧ ∀ id, id ∈ code.nodesInModule path ↔
        ∃ data ∈ code.stored, data.id = id ∧ (modulePathOf data.qualifiedName = path ∨
          (path ++ "::").toList <+: (modulePathOf data.qualifiedName).toList) := by
  intro code
  have consistent := run_consistent policy operations
  refine ⟨consistent.mapped, ⟨?_, ?_, ?_⟩, consistent.indexes.agree (rebuildIndices_indexes consistent),
    consistent.indexes.noDuplicates,
    nodesInModule_spec consistent.indexes consistent.stored_unique⟩
  · intro id ⟨data, ⟨slot, found⟩, named⟩
    exact ⟨slot, (consistent.mapped id slot).mpr ⟨data, found, named⟩, by rw [found]; rfl⟩
  · intro id ⟨data, ⟨slot, found⟩, named⟩ other _ same
    have here := (consistent.mapped id slot).mpr ⟨data, found, named⟩
    obtain ⟨data', found', named'⟩ := (consistent.mapped other slot).mp (same.symm.trans here)
    rw [found] at found'
    cases found'
    exact named.symm.trans named'
  intro place ⟨slot, here, live⟩
  obtain ⟨data, found⟩ := isSome_iff_exists.mp live
  exact ⟨data.id, ⟨data, ⟨slot, found⟩, rfl⟩, by rw [here]; exact consistent.slot found⟩

end CodeGraph

namespace CodeGraph

def FiniteWeights (code : CodeGraph) : Prop :=
  ∀ link ∈ code.graph.links, isFinite link.weight.weight = true

variable {code : CodeGraph} (policy : SlotPolicy)

@[simp] theorem links_touchSlot (rev slot : Nat) :
    (code.touchSlot rev slot).graph.links = code.graph.links := by
  unfold touchSlot
  split <;> rfl

@[simp] theorem links_touchNode (rev : Nat) (id : NodeId) :
    (touchNode rev code id).graph.links = code.graph.links := by
  unfold touchNode
  split
  · exact links_touchSlot rev _
  · rfl

@[simp] theorem links_addNode (data : NodeData) :
    (code.addNode policy data).graph.links = code.graph.links := by
  unfold addNode
  split
  · split <;> rfl
  · rfl

section

variable (finite : code.FiniteWeights)
include finite

theorem FiniteWeights.addNode (data : NodeData) : (code.addNode policy data).FiniteWeights := by
  unfold FiniteWeights
  rwa [links_addNode]

theorem FiniteWeights.addEdge (source target : NodeId)
    (data : EdgeData) : (code.addEdge source target data).1.FiniteWeights := by
  unfold CodeGraph.addEdge
  split
  · exact finite
  split
  · exact finite
  split
  · split
    · split <;> exact finite
    split
    · exact finite
    rename_i accepted
    rw [FiniteWeights, links_touchSlot, links_touchSlot]
    unfold StableGraph.addEdge
    split
    · intro link mem
      rcases mem_append.mp mem with old | new
      · exact finite link old
      · rw [mem_singleton.mp new]
        simpa using accepted
    · exact finite
  · exact finite

theorem FiniteWeights.removeNode (id : NodeId) : (code.removeNode id).1.FiniteWeights := by
  unfold CodeGraph.removeNode
  split
  · exact finite
  split
  · exact finite
  refine List.foldlRecOn _ _ ?_ fun other kept neighbor _ => ?_
  · exact fun link mem => finite link (mem_of_mem_filter mem)
  · unfold FiniteWeights
    rwa [links_touchNode]

theorem FiniteWeights.updateNodeMetadata (id : NodeId) (change : Dict String String → Dict String String) :
    (code.updateNodeMetadata id change).1.FiniteWeights := by
  unfold CodeGraph.updateNodeMetadata
  split
  · exact finite
  · split <;> exact finite

theorem FiniteWeights.addKnownEdge
    (edge : NodeId × NodeId × EdgeData) : (code.addKnownEdge edge).FiniteWeights := by
  unfold CodeGraph.addKnownEdge
  split
  · exact finite.addEdge _ _ _
  · exact finite

theorem FiniteWeights.updateFile {ParsedFile : Type}
    (path content : String) (adapter : LanguageAdapter ParsedFile) :
    (code.updateFile policy path content adapter).FiniteWeights := by
  have cleared : (code.removeNodes (code.nodesOfFile path)).FiniteWeights :=
    List.foldlRecOn _ _ finite fun _ kept id _ => kept.removeNode id
  unfold CodeGraph.updateFile
  split
  · exact cleared
  · refine List.foldlRecOn _ _ ?_ fun _ kept edge _ => kept.addKnownEdge edge
    exact List.foldlRecOn _ _ cleared fun _ kept data _ => kept.addNode policy data

end

theorem run_finiteWeights {ParsedFile : Type} (operations : List (Operation ParsedFile)) :
    (run policy operations).FiniteWeights := by
  refine List.foldlRecOn operations _ (fun link mem => absurd mem not_mem_nil) ?_
  intro code finite operation _
  cases operation with
  | addNode data => exact finite.addNode policy data
  | addEdge source target data => exact finite.addEdge source target data
  | removeNode id => exact finite.removeNode id
  | updateNodeMetadata id change => exact finite.updateNodeMetadata id change
  | updateFile path content adapter => exact finite.updateFile policy path content adapter

end CodeGraph

end Codegraph
