import Codegraph.Graph.Nodes

namespace Codegraph

open Library List Buckets

namespace Indices

/-- The keys under which the nodes are listed. -/
def kindNames (nodes : Set NodeData) : Set ((NodeKind × String) × NodeId) :=
  {pair | ∃ data ∈ nodes, pair = ((data.kind, data.name), data.id)}

def metadataKeys (nodes : Set NodeData) : Set (String × NodeId) :=
  {pair | ∃ data ∈ nodes, pair.1 ∈ data.metadata.keys ∧ pair.2 = data.id}

def modulePaths (nodes : Set NodeData) : Set (String × NodeId) :=
  {pair | ∃ data ∈ nodes, pair = (modulePathOf data.qualifiedName, data.id)}

/-- The indices list exactly the given nodes. -/
structure Indexes (indices : Indices) (nodes : Set NodeData) : Prop where
  kindName : Buckets.Lists indices.byKindName (kindNames nodes)
  metadataKey : Buckets.Lists indices.byMetadataKey (metadataKeys nodes)
  modulePath : Buckets.Lists indices.byModulePath (modulePaths nodes)

theorem indexes_empty : Indexes {} ∅ :=
  ⟨lists_empty.congr (by simp [kindNames]), lists_empty.congr (by simp [metadataKeys]),
    lists_empty.congr (by simp [modulePaths])⟩

variable {indices : Indices}

/-- Stamps do not matter to the indices. -/
theorem Indexes.restamp {nodes nodes' : Set NodeData} (indexes : Indexes indices nodes)
    (same : NodeData.unstamped '' nodes' = NodeData.unstamped '' nodes) :
    Indexes indices nodes' := by
  have through {Entry : Type} (property : NodeData → Entry → Prop)
      (blind : ∀ data entry, property data.unstamped entry ↔ property data entry) :
      {entry | ∃ data ∈ nodes, property data entry} = {entry | ∃ data ∈ nodes', property data entry} := by
    ext entry
    have images (set : Set NodeData) : (∃ data ∈ set, property data entry) ↔
        ∃ data ∈ NodeData.unstamped '' set, property data entry := by
      simp [blind]
    simp only [Set.mem_ofPred_eq]
    rw [images nodes, images nodes', same]
  exact ⟨indexes.kindName.congr (through (fun data pair => pair = ((data.kind, data.name), data.id))
      fun _ _ => Iff.rfl),
    indexes.metadataKey.congr (through (fun data (pair : String × NodeId) =>
        pair.1 ∈ data.metadata.keys ∧ pair.2 = data.id)
      fun _ _ => Iff.rfl),
    indexes.modulePath.congr
      (through (fun data pair => pair = (modulePathOf data.qualifiedName, data.id)) fun _ _ => Iff.rfl)⟩

variable {nodes : Set NodeData}

theorem insertNode_indexes
    (indexes : Indexes indices nodes) {data : NodeData} (fresh : ∀ old ∈ nodes, old.id ≠ data.id) :
    Indexes (indices.insertNode data) (insert data nodes) := by
  have absent : ((data.kind, data.name), data.id) ∉ kindNames nodes := by
    intro ⟨old, mem, same⟩
    exact fresh old mem (Prod.mk.inj same).2.symm
  refine ⟨(lists_push indexes.kindName absent).congr ?_,
    (lists_addAll indexes.metadataKey data.metadata.keys data.id).congr ?_,
    (lists_add indexes.modulePath (modulePathOf data.qualifiedName) data.id).congr ?_⟩
  · ext pair
    simp [kindNames]
  · ext pair
    simp [metadataKeys, or_comm]
  · ext pair
    simp [modulePaths]

/-- A removed node takes its own entries and no others. -/
theorem removeNode_indexes (indexes : Indexes indices nodes) {data : NodeData}
    (unique : ∀ other ∈ nodes, other.id = data.id → other = data) :
    Indexes (indices.removeNode data) (nodes \ {data}) := by
  have others {other : NodeData} (mem : other ∈ nodes) : other ≠ data ↔ other.id ≠ data.id :=
    not_congr ⟨fun same => same ▸ rfl, unique other mem⟩
  refine ⟨(lists_drop indexes.kindName (data.kind, data.name) data.id).congr ?_,
    (lists_dropAll indexes.metadataKey data.metadata.keys data.id).congr ?_,
    (lists_drop indexes.modulePath (modulePathOf data.qualifiedName) data.id).congr ?_⟩
  · ext pair
    constructor
    · intro ⟨⟨other, mem, named⟩, apart⟩
      subst named
      refine ⟨other, ⟨mem, ?_⟩, rfl⟩
      intro same
      rw [same] at apart
      exact apart rfl
    intro ⟨other, ⟨mem, distinct⟩, named⟩
    subst named
    refine ⟨⟨other, mem, rfl⟩, fun same => ?_⟩
    exact (others mem).mp distinct (Prod.mk.inj same).2
  · ext pair
    constructor
    · intro ⟨⟨other, mem, key, named⟩, apart⟩
      refine ⟨other, ⟨mem, ?_⟩, key, named⟩
      intro same
      rw [same] at key named
      exact apart ⟨key, named⟩
    intro ⟨other, ⟨mem, distinct⟩, key, named⟩
    refine ⟨⟨other, mem, key, named⟩, fun same => ?_⟩
    exact (others mem).mp distinct (named.symm.trans same.2)
  ext pair
  constructor
  · intro ⟨⟨other, mem, named⟩, apart⟩
    subst named
    refine ⟨other, ⟨mem, ?_⟩, rfl⟩
    intro same
    rw [same] at apart
    exact apart rfl
  intro ⟨other, ⟨mem, distinct⟩, named⟩
  subst named
  refine ⟨⟨other, mem, rfl⟩, fun same => ?_⟩
  exact (others mem).mp distinct (Prod.mk.inj same).2

theorem replaceNode_indexes (indexes : Indexes indices nodes) {old data : NodeData} (same : data.id = old.id)
    (unique : ∀ other ∈ nodes, other.id = old.id → other = old) :
    Indexes ((indices.removeNode old).insertNode data) (insert data (nodes \ {old})) := by
  apply insertNode_indexes (removeNode_indexes indexes unique)
  intro other ⟨mem, distinct⟩ named
  exact distinct (unique other mem (named.trans same))

theorem rebuildFromGraph_indexes {nodes : List NodeData} (distinct : (nodes.map NodeData.id).Nodup) :
    Indexes (rebuildFromGraph nodes) {data | data ∈ nodes} := by
  unfold rebuildFromGraph
  induction nodes using List.reverseRecOn with
  | nil => simpa using indexes_empty
  | append_singleton nodes data ih =>
    rw [map_append, nodup_append] at distinct
    obtain ⟨before, -, apart⟩ := distinct
    have inserted := insertNode_indexes (ih before) fun old mem =>
      apart old.id (mem_map_of_mem mem) data.id (by simp)
    rw [foldl_append]
    have together : {other | other ∈ nodes ++ [data]} = insert data {other | other ∈ nodes} := by
      ext other
      simp [or_comm]
    rwa [together]

/-- The same keys are listed, with the same names under each. -/
structure Agree (first second : Indices) : Prop where
  kindName : ∀ key, Option.Rel List.Perm (first.byKindName.get key) (second.byKindName.get key)
  metadataKey : ∀ key, Option.Rel List.Perm (first.byMetadataKey.get key) (second.byMetadataKey.get key)
  modulePath : ∀ key, Option.Rel List.Perm (first.byModulePath.get key) (second.byModulePath.get key)

/-- No bucket lists an id twice. -/
structure NoDuplicates (indices : Indices) : Prop where
  kindName : ∀ key, (indices.byKindName.getD key []).Nodup
  metadataKey : ∀ key, (indices.byMetadataKey.getD key []).Nodup
  modulePath : ∀ key, (indices.byModulePath.getD key []).Nodup

theorem Indexes.agree {first second : Indices} (left : Indexes first nodes)
    (right : Indexes second nodes) : Agree first second :=
  ⟨lists_unique left.kindName right.kindName,
    lists_unique left.metadataKey right.metadataKey,
    lists_unique left.modulePath right.modulePath⟩

theorem Indexes.noDuplicates (indexes : Indexes indices nodes) : NoDuplicates indices :=
  ⟨indexes.kindName.nodup, indexes.metadataKey.nodup, indexes.modulePath.nodup⟩

theorem range_iff (path text : String) :
    (path ++ "::" ≤ text ∧ text < path ++ ":;") ↔ (path ++ "::").toList <+: text.toList := by
  have next (c : Char) (notBelow : ¬ c < ':') (below : c < ';') : c = ':' := by
    rw [Char.lt_def, UInt32.lt_iff_toNat_lt] at notBelow below
    apply Char.ext
    apply UInt32.toNat_inj.mp
    have lowest : ':'.val.toNat = 58 := rfl
    have highest : ';'.val.toNat = 59 := rfl
    omega
  have between := Text.between_iff_prefix (by decide) next (path.toList ++ [':']) text.toList
  have lower : (path ++ "::").toList = path.toList ++ [':'] ++ [':'] := by simp
  have upper : (path ++ ":;").toList = path.toList ++ [':'] ++ [';'] := by simp
  rw [lower, ← between, ← lower, ← upper]
  rfl

theorem mem_bucketIds (indexes : Indexes indices nodes)
    (path : String) (id : NodeId) : id ∈ bucketIds (indices.byModulePath.getD path []) ↔
      ∃ data ∈ nodes, data.id = id ∧ modulePathOf data.qualifiedName = path := by
  rw [bucketIds, (mergeSort_perm _ NodeId.le).mem_iff, indexes.modulePath.members]
  simp only [modulePaths, Set.mem_ofPred_eq, Prod.ext_iff]
  constructor
  · intro ⟨data, mem, key, named⟩
    exact ⟨data, mem, named.symm, key.symm⟩
  · intro ⟨data, mem, named, key⟩
    exact ⟨data, mem, key.symm, named.symm⟩

theorem bucketIds_nodup (indexes : Indexes indices nodes)
    (path : String) : (bucketIds (indices.byModulePath.getD path [])).Nodup :=
  (mergeSort_perm _ NodeId.le).nodup_iff.mpr (indexes.modulePath.nodup path)

theorem mem_moduleRange (indices : Indices) (path : String) (entry : Sigma fun _ : String => List NodeId) :
    entry ∈ indices.moduleRange (path ++ "::") (path ++ ":;") ↔
      indices.byModulePath.get entry.1 = some entry.2 ∧ (path ++ "::").toList <+: entry.1.toList := by
  rw [moduleRange, (mergeSort_perm _ _).mem_iff, mem_filter, ← Dict.mem_entries_iff, ← range_iff]
  simp

theorem moduleRange_distinct (indices : Indices) (lower upper : String) :
    ((indices.moduleRange lower upper).map Sigma.fst).Nodup := by
  rw [moduleRange, ((mergeSort_perm _ _).map Sigma.fst).nodup_iff]
  have keys : (indices.byModulePath.entries.map Sigma.fst).Nodup := indices.byModulePath.nodupKeys
  exact keys.sublist (filter_sublist.map Sigma.fst)

/-- The query answers each node of the module and of the modules below it once. -/
theorem nodesInModule_spec (indexes : Indexes indices nodes)
    (unique : ∀ first ∈ nodes, ∀ second ∈ nodes, first.id = second.id → first = second)
    (path : String) :
    (indices.nodesInModule path).Nodup ∧ ∀ id, id ∈ indices.nodesInModule path ↔
      ∃ data ∈ nodes, data.id = id ∧ (modulePathOf data.qualifiedName = path ∨
        (path ++ "::").toList <+: (modulePathOf data.qualifiedName).toList) := by
  have bucket {entry : Sigma fun _ : String => List NodeId}
      (mem : entry ∈ indices.moduleRange (path ++ "::") (path ++ ":;")) :
      entry.2 = indices.byModulePath.getD entry.1 [] := by
    rw [Dict.getD, ((mem_moduleRange indices path entry).mp mem).1, Option.getD_some]
  -- A node is listed in the bucket of its own path only.
  have apart {first second : String} {id : NodeId}
      (mem : id ∈ bucketIds (indices.byModulePath.getD first []))
      (mem' : id ∈ bucketIds (indices.byModulePath.getD second [])) : first = second := by
    obtain ⟨data, stored, named, rfl⟩ := (mem_bucketIds indexes first id).mp mem
    obtain ⟨data', stored', named', rfl⟩ := (mem_bucketIds indexes second id).mp mem'
    rw [unique data stored data' stored' (named.trans named'.symm)]
  constructor
  · rw [nodesInModule, nodup_append]
    refine ⟨bucketIds_nodup indexes path, ?_, ?_⟩
    · rw [nodup_flatMap]
      constructor
      · intro entry mem
        rw [bucket mem]
        exact bucketIds_nodup indexes entry.1
      have distinct := pairwise_map.mp
        (moduleRange_distinct indices (path ++ "::") (path ++ ":;"))
      apply distinct.imp_of_mem
      intro first second mem mem' different
      change List.Disjoint (bucketIds first.2) (bucketIds second.2)
      rw [bucket mem, bucket mem']
      intro id listed listed'
      exact different (apart listed listed')
    intro id listed other listed' same
    subst same
    obtain ⟨entry, mem, inside⟩ := mem_flatMap.mp listed'
    rw [bucket mem] at inside
    have under := ((mem_moduleRange indices path entry).mp mem).2
    rw [← apart listed inside] at under
    have longer := under.length_le
    simp at longer
  intro id
  rw [nodesInModule, mem_append, mem_bucketIds indexes, mem_flatMap]
  constructor
  · intro either
    rcases either with ⟨data, stored, named, exactly⟩ | ⟨entry, mem, inside⟩
    · exact ⟨data, stored, named, .inl exactly⟩
    rw [bucket mem] at inside
    obtain ⟨data, stored, named, key⟩ := (mem_bucketIds indexes entry.1 id).mp inside
    have under := ((mem_moduleRange indices path entry).mp mem).2
    exact ⟨data, stored, named, .inr (key ▸ under)⟩
  rintro ⟨data, stored, named, either⟩
  rcases either with exactly | under
  · exact .inl ⟨data, stored, named, exactly⟩
  right
  have inside := (mem_bucketIds indexes (modulePathOf data.qualifiedName) id).mpr
    ⟨data, stored, named, rfl⟩
  cases found : indices.byModulePath.get (modulePathOf data.qualifiedName) with
  | none => simp [Dict.getD, found, bucketIds] at inside
  | some ids =>
    rw [Dict.getD, found, Option.getD_some] at inside
    exact ⟨⟨_, ids⟩, (mem_moduleRange indices path _).mpr ⟨found, under⟩, inside⟩

end Indices

end Codegraph
