import Codegraph.Sync.Tables

namespace Codegraph.Traverser

open Library Sync List

export Sync (NodeId EdgeKind)

inductive NodeKind where
  | file
  | module
  | «class»
  | struct
  | interface
  | trait
  | protocol
  | function
  | method
  | property
  | field
  | variable
  | constant
  | enum
  | enumMember
  | typeAlias
  | «namespace»
  | parameter
  | «import»
  | «export»
  | route
  | component
  | union
  | dataSymbol
  | stringLiteral
  | macroKind
  | «section»
deriving DecidableEq

structure Node where
  id : NodeId
  kind : NodeKind
deriving DecidableEq

/-- A query selects the edges of some end nodes, all of them or those of the given kinds. -/
inductive Query where
  | outgoing (sources : List NodeId) (kinds : Option (List EdgeKind))
  | incoming (targets : List NodeId) (kinds : Option (List EdgeKind))
deriving DecidableEq

/-- An absent or empty list of kinds filters nothing. -/
def kindAdmitted (kinds : Option (List EdgeKind)) (kind : EdgeKind) : Bool :=
  match kinds with
  | none => true
  | some [] => true
  | some kinds => kind ∈ kinds

def Query.selects (query : Query) (edge : Edge) : Bool :=
  match query with
  | .outgoing sources kinds => edge.source ∈ sources ∧ kindAdmitted kinds edge.kind
  | .incoming targets kinds => edge.target ∈ targets ∧ kindAdmitted kinds edge.kind

/-- The node of an id is unique, and a query returns its rows in an order of its own. -/
structure Store where
  nodes : List Node
  edges : List Edge
  arrange : Query → List Edge → List Edge
  keyed : (nodes.map Node.id).Nodup
  arranged : ∀ query rows, (arrange query rows).Perm rows

namespace Store

def getNodeById (store : Store) (id : NodeId) : Option Node := store.nodes.find? (·.id = id)

/-- An id without a node has no entry. -/
def getNodesByIds (store : Store) (ids : List NodeId) : Dict NodeId Node :=
  ids.foldl (fun found id =>
    match store.getNodeById id with
    | some node => found.set node.id node
    | none => found) ∅

def rows (store : Store) (query : Query) : List Edge :=
  store.arrange query (store.edges.filter query.selects)

def getOutgoingEdges (store : Store) (source : NodeId) (kinds : Option (List EdgeKind)) :
    List Edge := store.rows (.outgoing [source] kinds)

def getIncomingEdges (store : Store) (target : NodeId) (kinds : Option (List EdgeKind)) :
    List Edge := store.rows (.incoming [target] kinds)

/-- No source has no edges, and the database is not asked. -/
def getOutgoingEdgesForSources (store : Store) (sources : List NodeId)
    (kinds : Option (List EdgeKind)) : List Edge :=
  if sources = [] then [] else store.rows (.outgoing sources kinds)

def getIncomingEdgesForTargets (store : Store) (targets : List NodeId)
    (kinds : Option (List EdgeKind)) : List Edge :=
  if targets = [] then [] else store.rows (.incoming targets kinds)

/-- The stores hold the same nodes and edges and may return rows in other orders. -/
structure SameRows (first second : Store) : Prop where
  nodes : first.nodes.Perm second.nodes
  edges : first.edges.Perm second.edges

def Stored (store : Store) (id : NodeId) : Prop := (store.getNodeById id).isSome

instance (store : Store) (id : NodeId) : Decidable (store.Stored id) :=
  inferInstanceAs (Decidable ((store.getNodeById id).isSome = true))

variable {store other : Store} {id : NodeId} {node : Node}

theorem getNodeById_eq : store.getNodeById id = some node ↔ node ∈ store.nodes ∧ node.id = id := by
  unfold getNodeById
  constructor
  · intro found
    exact ⟨mem_of_find?_eq_some found, by simpa using find?_some found⟩
  rintro ⟨mem, rfl⟩
  cases found : store.nodes.find? (·.id = node.id) with
  | none =>
    have absent := find?_eq_none.mp found node mem
    simp at absent
  | some first =>
    have same : first.id = node.id := by simpa using find?_some found
    rw [inj_on_of_nodup_map store.keyed (mem_of_find?_eq_some found) mem same]

theorem getNodeById_id (found : store.getNodeById id = some node) : node.id = id :=
  (getNodeById_eq.mp found).2

/-- Stores with the same rows find the same nodes. -/
theorem SameRows.getNodeById (same : store.SameRows other) (id : NodeId) :
    store.getNodeById id = other.getNodeById id := by
  ext node
  rw [getNodeById_eq, getNodeById_eq, same.nodes.mem_iff]

theorem SameRows.refl (store : Store) : store.SameRows store := ⟨.refl _, .refl _⟩

theorem get_getNodesByIds (ids : List NodeId) (id : NodeId) :
    (store.getNodesByIds ids).get id = if id ∈ ids then store.getNodeById id else none := by
  unfold getNodesByIds
  induction ids using List.reverseRecOn with
  | nil => simp
  | append_singleton ids last ih =>
    rw [foldl_append, foldl_cons, foldl_nil]
    by_cases same : id = last
    · subst same
      rw [if_pos (by simp)]
      cases found : store.getNodeById id with
      | none =>
        simp only
        rw [ih, found, ite_self]
      | some node =>
        simp only
        rw [getNodeById_id found, Dict.get_set_self]
    have listed : id ∈ ids ++ [last] ↔ id ∈ ids := by simp [same]
    rw [if_congr listed rfl rfl, ← ih]
    cases found : store.getNodeById last with
    | none => rfl
    | some node =>
      simp only
      rw [getNodeById_id found, Dict.get_set_ne _ _ same]

@[simp] theorem mem_rows (query : Query) (edge : Edge) :
    edge ∈ store.rows query ↔ edge ∈ store.edges ∧ query.selects edge = true := by
  rw [rows, (store.arranged query _).mem_iff, mem_filter]

@[simp] theorem mem_getOutgoingEdges (source : NodeId) (kinds : Option (List EdgeKind))
    (edge : Edge) : edge ∈ store.getOutgoingEdges source kinds ↔
      edge ∈ store.edges ∧ edge.source = source ∧ kindAdmitted kinds edge.kind = true := by
  simp [getOutgoingEdges, Query.selects]

@[simp] theorem mem_getIncomingEdges (target : NodeId) (kinds : Option (List EdgeKind))
    (edge : Edge) : edge ∈ store.getIncomingEdges target kinds ↔
      edge ∈ store.edges ∧ edge.target = target ∧ kindAdmitted kinds edge.kind = true := by
  simp [getIncomingEdges, Query.selects]

@[simp] theorem mem_getOutgoingEdgesForSources (sources : List NodeId)
    (kinds : Option (List EdgeKind)) (edge : Edge) :
    edge ∈ store.getOutgoingEdgesForSources sources kinds ↔
      edge ∈ store.edges ∧ edge.source ∈ sources ∧ kindAdmitted kinds edge.kind = true := by
  unfold getOutgoingEdgesForSources
  split
  · rename_i empty
    simp [empty]
  · simp [Query.selects]

@[simp] theorem mem_getIncomingEdgesForTargets (targets : List NodeId)
    (kinds : Option (List EdgeKind)) (edge : Edge) :
    edge ∈ store.getIncomingEdgesForTargets targets kinds ↔
      edge ∈ store.edges ∧ edge.target ∈ targets ∧ kindAdmitted kinds edge.kind = true := by
  unfold getIncomingEdgesForTargets
  split
  · rename_i empty
    simp [empty]
  · simp [Query.selects]

end Store

end Codegraph.Traverser
