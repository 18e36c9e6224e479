import Codegraph.Csr.Multigraph
import Codegraph.Graph.Validity
import Codegraph.Library.StackExpansion
import Codegraph.Library.WorkQueue

namespace Codegraph.PossibleTypes

open Library CodeGraph List

/-- The types that a function may take and the ones that it may produce. -/
structure TypeSets where
  inputs : ListSet String := .empty
  returns : ListSet String := .empty

/-- The members of a set in their order. -/
def sorted (set : ListSet String) : List String := set.members.mergeSort

def nodesByKind (code : CodeGraph) (kind : NodeKind) : List NodeData :=
  code.graph.nodeWeights.filter fun data => data.kind = kind

/-- The source of an incoming edge may implement the trait. -/
def addImplementor (code : CodeGraph) (traitName : String) (impls : Dict String (ListSet String))
    (edge : NodeId × EdgeData) : Dict String (ListSet String) :=
  if edge.2.kind = .implements then
    match code.getNode edge.1 with
    | none => impls
    | some implNode => impls.update traitName .empty fun names => names.insert implNode.name
  else impls

def addTrait (code : CodeGraph) (impls : Dict String (ListSet String)) (traitId : NodeId) :
    Dict String (ListSet String) :=
  (code.getEdgesTo traitId).foldl
    (addImplementor code (((code.getNode traitId).map NodeData.name).getD "")) impls

def collectTraitImplementors (code : CodeGraph) : Dict String (ListSet String) :=
  ((nodesByKind code .trait).map NodeData.id).foldl (addTrait code) ∅

/-- The names that implement the trait of a name. -/
def implementorsOf (traitImpls : Dict String (ListSet String)) (name : String) : List String :=
  sorted (traitImpls.getD name .empty)

def TypeSets.add (sets : TypeSets) (names : List String) : TypeSets :=
  ⟨sets.inputs.extend names, sets.returns.extend names⟩

/-- A trait comes with its implementors. -/
def addUse (code : CodeGraph) (traitImpls : Dict String (ListSet String)) (sets : TypeSets)
    (edge : NodeId × EdgeData) : TypeSets :=
  if edge.2.kind ≠ .usesType then sets
  else
    match code.getNode edge.1 with
    | none => sets
    | some targetNode =>
      match targetNode.kind with
      | .struct | .enum => sets.add [targetNode.name]
      | .trait => (sets.add [targetNode.name]).add (implementorsOf traitImpls targetNode.name)
      | _ => sets

def seedFromUsesType (code : CodeGraph) (fnId : NodeId) (traitImpls : Dict String (ListSet String)) :
    TypeSets :=
  (code.getEdgesFrom fnId).foldl (addUse code traitImpls) {}

/-- The size from which on the edges are read from the compressed rows. -/
def csrThreshold : Nat := 1024

def collectCallEdgesCsr (code : CodeGraph) : List (NodeId × NodeId) :=
  let snap := CsrSnapshot.build code
  (List.range snap.n).flatMap fun v =>
    match snap.idOf v with
    | none => []
    | some id =>
      match code.getNode id with
      | none => []
      | some node =>
        if node.kind ≠ .function then []
        else ((snap.outNeighbours v).zip (snap.outKinds v)).filterMap fun entry =>
          if entry.2 = .calls then (snap.idOf entry.1).map fun nbrId => (id, nbrId) else none

def collectCallEdges (code : CodeGraph) : List (NodeId × NodeId) :=
  if csrThreshold ≤ code.graph.nodeCount then collectCallEdgesCsr code
  else
    ((nodesByKind code .function).map NodeData.id).flatMap fun fnId =>
      (code.getEdgesFrom fnId).filterMap fun edge =>
        if edge.2.kind = .calls then some (fnId, edge.1) else none

/-- The calls by the positions of the functions, and the calls at each function. -/
structure CallEdges where
  pairs : List (Nat × Nat)
  incident : Nat → List Nat

namespace CallEdges

/-- A call of a function by itself is listed once. -/
def touch (incident : Nat → List Nat) (index caller callee : Nat) : Nat → List Nat :=
  let incident := Function.update incident caller (incident caller ++ [index])
  if callee ≠ caller then Function.update incident callee (incident callee ++ [index]) else incident

def add (position : Dict NodeId Nat) (built : CallEdges) (edge : NodeId × NodeId) : CallEdges :=
  match position.get edge.1, position.get edge.2 with
  | some caller, some callee =>
    { pairs := built.pairs ++ [(caller, callee)]
      incident := touch built.incident built.pairs.length caller callee }
  | _, _ => built

/-- A call of something that is no function is dropped. -/
def build (functionIds : List NodeId) (edges : List (NodeId × NodeId)) : CallEdges :=
  edges.foldl (add (.ofList functionIds.zipIdx)) ⟨[], fun _ => []⟩

def touching (calls : CallEdges) (function : Nat) : List Nat := calls.incident function

end CallEdges

def addWithImplementors (traitImpls : Dict String (ListSet String)) (fuel : Nat)
    (types : ListSet String) (typeName : String) : Option (ListSet String) :=
  expand (implementorsOf traitImpls) fuel types typeName

structure Propagation where
  sets : Nat → TypeSets
  pending : WorkQueue

/-- The callee has its new inputs, and the caller takes over the returns of the callee. -/
def passTypes (calls : CallEdges) (state : Propagation) (pending : WorkQueue) (caller callee : Nat)
    (inputs : ListSet String) : Propagation :=
  let sets := Function.update state.sets callee { state.sets callee with inputs := inputs }
  let before := (sets caller).returns.size
  let returns := (sets caller).returns.extend (sorted (sets callee).returns)
  { sets := Function.update sets caller { sets caller with returns := returns }
    pending := if before < returns.size then pending.pushAll (calls.touching caller) else pending }

/-- The returns of the caller go into the inputs of the callee first. -/
def propagateRound (traitImpls : Dict String (ListSet String)) (fuel : Nat) (calls : CallEdges)
    (state : Propagation) : Option (Round Propagation) :=
  match state.pending.pop with
  | none => some (.done state)
  | some (edge, pending) => do
    let (caller, callee) ← calls.pairs[edge]?
    let inputs ← (sorted (state.sets caller).returns).foldlM (addWithImplementors traitImpls fuel)
      (state.sets callee).inputs
    return .next (passTypes calls state pending caller callee inputs)

def functionIds (code : CodeGraph) : List NodeId := (nodesByKind code .function).map NodeData.id

/-- The sets by the positions of the functions. There are none when the fuel of a loop ends. -/
def possibleTypes (fuel : Nat) (code : CodeGraph) : Option (Nat → TypeSets) :=
  let traitImpls := collectTraitImplementors code
  let seeds (place : Nat) : TypeSets :=
    match (functionIds code)[place]? with
    | none => {}
    | some fnId => seedFromUsesType code fnId traitImpls
  let calls := CallEdges.build (functionIds code) (collectCallEdges code)
  (whileLoop (propagateRound traitImpls fuel calls) fuel
    ⟨seeds, .all calls.pairs.length⟩).map Propagation.sets

/-- The node takes a record of each set that is not empty. -/
def annotate (toJson : List String → String) (sets : TypeSets) (metadata : Dict String String) :
    Dict String String :=
  let inputs := sorted sets.inputs
  let returns := sorted sets.returns
  let metadata := if inputs ≠ [] then metadata.set "possible_input_types" (toJson inputs) else metadata
  if returns ≠ [] then metadata.set "possible_return_types" (toJson returns) else metadata

/-- The graph with the records, and the numbers of functions, inputs and returns. -/
def propagatePossibleTypes (toJson : List String → String) (fuel : Nat) (code : CodeGraph) :
    Option (CodeGraph × Nat × Nat × Nat) :=
  (possibleTypes fuel code).map fun sets =>
    (functionIds code).zipIdx.foldl (fun result entry =>
      ((result.1.updateNodeMetadata entry.1 (annotate toJson (sets entry.2))).1,
        result.2.1 + 1, result.2.2.1 + (sets entry.2).inputs.size,
        result.2.2.2 + (sets entry.2).returns.size)) (code, 0, 0, 0)

section

variable {code : CodeGraph}

/-- An edge of a kind between two nodes. -/
def EdgeOf (code : CodeGraph) (kind : EdgeKind) (source target : NodeId) : Prop :=
  ∃ data, (source, target, data) ∈ code.edges ∧ data.kind = kind

/-- A node of the name implements a trait of the name. -/
def Implements (code : CodeGraph) (traitName name : String) : Prop :=
  ∃ source target implNode traitNode, EdgeOf code .implements source target ∧
    code.getNode source = some implNode ∧ implNode.name = name ∧
    code.getNode target = some traitNode ∧ traitNode.kind = .trait ∧ traitNode.name = traitName

/-- The function uses a type of the name, or a trait that a node of the name implements. -/
def Seeded (code : CodeGraph) (fnId : NodeId) (name : String) : Prop :=
  ∃ target node, EdgeOf code .usesType fnId target ∧ code.getNode target = some node ∧
    ((node.kind ∈ [NodeKind.struct, .enum, .trait] ∧ name = node.name) ∨
      (node.kind = .trait ∧ Implements code node.name name))

def IsFunction (code : CodeGraph) (fnId : NodeId) : Prop :=
  ∃ node, code.getNode fnId = some node ∧ node.kind = .function

/-- A call between functions. -/
def CallsFunction (code : CodeGraph) (caller callee : NodeId) : Prop :=
  IsFunction code caller ∧ IsFunction code callee ∧ EdgeOf code .calls caller callee

theorem mem_sorted (set : ListSet String) (name : String) : name ∈ sorted set ↔ name ∈ set.members :=
  mem_mergeSort

theorem mem_nodesByKind (consistent : Consistent code) (kind : NodeKind) (id : NodeId) :
    id ∈ (nodesByKind code kind).map NodeData.id ↔
      ∃ node, code.getNode id = some node ∧ node.kind = kind := by
  simp only [nodesByKind, mem_map, mem_filter, StableGraph.mem_nodeWeights, decide_eq_true_iff,
    getNode_eq_some consistent]
  constructor
  · rintro ⟨node, ⟨⟨slot, found⟩, same⟩, named⟩
    exact ⟨node, ⟨slot, found, named⟩, same⟩
  · rintro ⟨node, ⟨slot, found, named⟩, same⟩
    exact ⟨node, ⟨⟨slot, found⟩, same⟩, named⟩

theorem functionIds_nodup (consistent : Consistent code) : (functionIds code).Nodup := by
  have distinct : (code.graph.nodeWeights.map NodeData.id).Nodup := by
    apply StableGraph.nodeWeights_nodup
    intro first second data data' found found' same
    exact (consistent.unique found found' same).1
  exact distinct.sublist (filter_sublist.map _)

section Implementors

/-- The names that a table has for a trait. -/
def Listed (impls : Dict String (ListSet String)) (traitName name : String) : Prop :=
  name ∈ (impls.getD traitName .empty).members

variable (impls : Dict String (ListSet String))

theorem mem_implementorsOf (traitName name : String) :
    name ∈ implementorsOf impls traitName ↔ Listed impls traitName name := mem_sorted _ _

theorem listed_addImplementor (traitName : String) (impls : Dict String (ListSet String))
    (edge : NodeId × EdgeData) (other name : String) :
    Listed (addImplementor code traitName impls edge) other name ↔
      (other = traitName ∧ edge.2.kind = .implements ∧
        ∃ implNode, code.getNode edge.1 = some implNode ∧ implNode.name = name) ∨
      Listed impls other name := by
  unfold addImplementor
  split
  · rename_i kind
    cases found : code.getNode edge.1 with
    | none => simp
    | some implNode =>
      unfold Listed
      rw [Dict.getD_update]
      split
      · rename_i same
        rw [ListSet.mem_insert, same]
        simp [kind, eq_comm]
      · rename_i apart
        exact (or_iff_right fun both => apart both.1).symm
  · rename_i kind
    exact (or_iff_right fun both => kind both.2.1).symm

theorem listed_addTrait (traitId : NodeId) (other name : String) :
    Listed (addTrait code impls traitId) other name ↔
      (other = ((code.getNode traitId).map NodeData.name).getD "" ∧
        ∃ edge ∈ code.getEdgesTo traitId, edge.2.kind = .implements ∧
          ∃ implNode, code.getNode edge.1 = some implNode ∧ implNode.name = name) ∨
      Listed impls other name := by
  unfold addTrait
  generalize code.getEdgesTo traitId = edges
  induction edges generalizing impls with
  | nil => simp
  | cons edge edges ih =>
    rw [foldl_cons, ih, listed_addImplementor, exists_mem_cons_iff, and_or_left, or_assoc, or_left_comm]

theorem listed_traits (traitIds : List NodeId) (impls : Dict String (ListSet String)) (other name : String) :
    Listed (traitIds.foldl (addTrait code) impls) other name ↔
      (∃ traitId ∈ traitIds, other = ((code.getNode traitId).map NodeData.name).getD "" ∧
        ∃ edge ∈ code.getEdgesTo traitId, edge.2.kind = .implements ∧
          ∃ implNode, code.getNode edge.1 = some implNode ∧ implNode.name = name) ∨
      Listed impls other name := by
  induction traitIds generalizing impls with
  | nil => simp
  | cons traitId traitIds ih =>
    rw [foldl_cons, ih, listed_addTrait, exists_mem_cons_iff, or_assoc, or_left_comm]

theorem mem_implementors (consistent : Consistent code) (traitName name : String) :
    name ∈ implementorsOf (collectTraitImplementors code) traitName ↔ Implements code traitName name := by
  rw [mem_implementorsOf]
  rw [collectTraitImplementors, listed_traits]
  have nothing : ¬ Listed (∅ : Dict String (ListSet String)) traitName name := by
    unfold Listed
    rw [Dict.getD_empty]
    exact not_mem_nil
  rw [or_iff_left nothing]
  constructor
  · rintro ⟨traitId, mem, rfl, edge, listed, kind, implNode, found, rfl⟩
    obtain ⟨traitNode, found', kind'⟩ := (mem_nodesByKind consistent _ _).mp mem
    rw [found']
    exact ⟨edge.1, traitId, implNode, traitNode,
      ⟨edge.2, (mem_getEdgesTo consistent _ _).mp listed, kind⟩, found, rfl, found', kind', rfl⟩
  rintro ⟨source, target, implNode, traitNode, ⟨data, edge, kind⟩, found, rfl, found', kind', rfl⟩
  refine ⟨target, (mem_nodesByKind consistent _ _).mpr ⟨traitNode, found', kind'⟩, ?_,
    (source, data), (mem_getEdgesTo consistent _ _).mpr edge, kind, implNode, found, rfl⟩
  rw [found']
  rfl

theorem implementorsOf_nodup (name : String) : (implementorsOf impls name).Nodup :=
  (mergeSort_perm _ _).nodup_iff.mpr (impls.getD name .empty).nodup

end Implementors

section Seeds

theorem mem_add (sets : TypeSets) (names : List String) (name : String) :
    (name ∈ (sets.add names).inputs.members ↔ name ∈ names ∨ name ∈ sets.inputs.members) ∧
      (name ∈ (sets.add names).returns.members ↔ name ∈ names ∨ name ∈ sets.returns.members) :=
  ⟨ListSet.mem_extend _ _ _, ListSet.mem_extend _ _ _⟩

/-- What one use of a type adds. -/
def Adds (code : CodeGraph) (impls : Dict String (ListSet String)) (edge : NodeId × EdgeData)
    (name : String) : Prop :=
  edge.2.kind = .usesType ∧ ∃ node, code.getNode edge.1 = some node ∧
    ((node.kind ∈ [NodeKind.struct, .enum, .trait] ∧ name = node.name) ∨
      (node.kind = .trait ∧ name ∈ implementorsOf impls node.name))

theorem mem_addUse (code : CodeGraph) (impls : Dict String (ListSet String)) (sets : TypeSets) (edge : NodeId × EdgeData)
    (name : String) :
    (name ∈ (addUse code impls sets edge).inputs.members ↔
        Adds code impls edge name ∨ name ∈ sets.inputs.members) ∧
      (name ∈ (addUse code impls sets edge).returns.members ↔
        Adds code impls edge name ∨ name ∈ sets.returns.members) := by
  unfold addUse Adds
  by_cases kind : edge.2.kind = .usesType
  · rw [if_neg (not_not.mpr kind)]
    cases found : code.getNode edge.1 with
    | none => simp
    | some node => cases same : node.kind <;> simp [kind, same, mem_add, or_assoc, or_left_comm]
  · rw [if_pos kind]
    simp [kind]

theorem mem_foldl_addUse (code : CodeGraph) (impls : Dict String (ListSet String)) (edges : List (NodeId × EdgeData))
    (sets : TypeSets) (name : String) :
    (name ∈ (edges.foldl (addUse code impls) sets).inputs.members ↔
        (∃ edge ∈ edges, Adds code impls edge name) ∨ name ∈ sets.inputs.members) ∧
      (name ∈ (edges.foldl (addUse code impls) sets).returns.members ↔
        (∃ edge ∈ edges, Adds code impls edge name) ∨ name ∈ sets.returns.members) := by
  induction edges generalizing sets with
  | nil => simp
  | cons edge edges ih =>
    obtain ⟨inputs, returns⟩ := ih (addUse code impls sets edge)
    obtain ⟨inputs', returns'⟩ := mem_addUse code impls sets edge name
    rw [foldl_cons, inputs, returns, inputs', returns', exists_mem_cons_iff]
    exact ⟨by rw [or_assoc, or_left_comm], by rw [or_assoc, or_left_comm]⟩

theorem mem_seedFromUsesType (consistent : Consistent code) (fnId : NodeId) (name : String) :
    let sets := seedFromUsesType code fnId (collectTraitImplementors code)
    (name ∈ sets.inputs.members ↔ Seeded code fnId name) ∧
      (name ∈ sets.returns.members ↔ Seeded code fnId name) := by
  have added : (∃ edge ∈ code.getEdgesFrom fnId, Adds code (collectTraitImplementors code) edge name) ↔
      Seeded code fnId name := by
    constructor
    · rintro ⟨edge, listed, kind, node, found, either⟩
      refine ⟨edge.1, node, ⟨edge.2, (mem_getEdgesFrom consistent _ _).mp listed, kind⟩, found, ?_⟩
      rwa [← mem_implementors consistent]
    rintro ⟨target, node, ⟨data, edge, kind⟩, found, either⟩
    refine ⟨(target, data), (mem_getEdgesFrom consistent _ _).mpr edge, kind, node, found, ?_⟩
    rwa [mem_implementors consistent]
  have both := mem_foldl_addUse code (collectTraitImplementors code)
    (code.getEdgesFrom fnId) {} name
  rw [added] at both
  exact ⟨both.1.trans (or_iff_left not_mem_nil), both.2.trans (or_iff_left not_mem_nil)⟩

end Seeds

section Calls

theorem isFunction_iff (consistent : Consistent code) (fnId : NodeId) :
    fnId ∈ functionIds code ↔ IsFunction code fnId := mem_nodesByKind consistent _ _

/-- The compressed rows list the same calls. -/
theorem mem_collectCallEdgesCsr (consistent : Consistent code) (edge : NodeId × NodeId) :
    edge ∈ collectCallEdgesCsr code ↔ IsFunction code edge.1 ∧ EdgeOf code .calls edge.1 edge.2 := by
  obtain ⟨⟨-, -, inside, named, inverse⟩, -, -, counted, -⟩ := CsrSnapshot.build_multigraph consistent
  have represents := CsrSnapshot.build_represents code
  have listed (u v : Nat) (source target : NodeId)
      (here : (CsrSnapshot.build code).idOf u = some source)
      (there : (CsrSnapshot.build code).idOf v = some target) :
      (v, EdgeKindTag.calls) ∈ (CsrSnapshot.build code).outRow u ↔ EdgeOf code .calls source target := by
    rw [← count_pos_iff, (counted u v source target here there .calls).2, countP_pos_iff]
    constructor
    · rintro ⟨⟨source', target', data⟩, mem, same⟩
      simp only [Bool.and_eq_true, decide_eq_true_iff] at same
      obtain ⟨⟨rfl, rfl⟩, kind⟩ := same
      refine ⟨data, mem, ?_⟩
      cases kinds : data.kind <;> rw [kinds] at kind <;> first | rfl | cases kind
    rintro ⟨data, mem, kind⟩
    refine ⟨(source, target, data), mem, ?_⟩
    simp [kind, EdgeKindTag.fromKind]
  rw [collectCallEdgesCsr, mem_flatMap]
  constructor
  · rintro ⟨v, -, mem⟩
    cases here : (CsrSnapshot.build code).idOf v with
    | none => simp [here] at mem
    | some id =>
      rw [here] at mem
      dsimp only at mem
      cases found : code.getNode id with
      | none => simp [found] at mem
      | some node =>
        rw [found] at mem
        by_cases kind : node.kind = .function
        · dsimp only at mem
          rw [if_neg (not_not.mpr kind)] at mem
          obtain ⟨entry, inRow, mapped⟩ := mem_filterMap.mp mem
          split at mapped
          · rename_i tag
            obtain ⟨nbrId, there, rfl⟩ := Option.map_eq_some_iff.mp mapped
            refine ⟨⟨node, found, kind⟩, (listed v entry.1 id nbrId here there).mp ?_⟩
            rwa [← tag]
          · cases mapped
        dsimp only at mem
        rw [if_pos kind] at mem
        exact absurd mem not_mem_nil
  rintro ⟨⟨node, found, kind⟩, call⟩
  obtain ⟨data, mem, kind'⟩ := call
  obtain ⟨sourceNode, targetNode, atSource, atTarget, -, -⟩ := edge_ends consistent mem
  obtain ⟨u, numbered⟩ := Option.isSome_iff_exists.mp
    ((named edge.1).mpr (Option.isSome_iff_exists.mpr ⟨sourceNode, atSource⟩))
  obtain ⟨v, numbered'⟩ := Option.isSome_iff_exists.mp
    ((named edge.2).mpr (Option.isSome_iff_exists.mpr ⟨targetNode, atTarget⟩))
  have here := (inverse edge.1 u).mp numbered
  have there := (inverse edge.2 v).mp numbered'
  refine ⟨u, List.mem_range.mpr ((inside u).mp (Option.isSome_iff_exists.mpr ⟨_, here⟩)), ?_⟩
  rw [here]
  dsimp only
  rw [found]
  dsimp only
  rw [if_neg (not_not.mpr kind)]
  refine mem_filterMap.mpr ⟨(v, .calls), (listed u v edge.1 edge.2 here there).mpr ⟨data, mem, kind'⟩, ?_⟩
  rw [if_pos rfl, there]
  rfl

theorem mem_collectCallEdges (consistent : Consistent code) (edge : NodeId × NodeId) :
    edge ∈ collectCallEdges code ↔ IsFunction code edge.1 ∧ EdgeOf code .calls edge.1 edge.2 := by
  unfold collectCallEdges
  split
  · exact mem_collectCallEdgesCsr consistent edge
  rw [mem_flatMap]
  constructor
  · rintro ⟨fnId, mem, listed⟩
    obtain ⟨other, inRow, mapped⟩ := mem_filterMap.mp listed
    split at mapped
    · rename_i kind
      obtain rfl := Option.some.inj mapped
      exact ⟨(mem_nodesByKind consistent _ _).mp mem, other.2,
        (mem_getEdgesFrom consistent _ _).mp inRow, kind⟩
    · cases mapped
  rintro ⟨function, data, mem, kind⟩
  refine ⟨edge.1, (mem_nodesByKind consistent _ _).mpr function, mem_filterMap.mpr
    ⟨(edge.2, data), (mem_getEdgesFrom consistent _ _).mpr mem, ?_⟩⟩
  rw [if_pos kind]

end Calls

end

end Codegraph.PossibleTypes
