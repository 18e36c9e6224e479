import Codegraph.Algorithms.EssentialEdges
import Codegraph.Library.Positions

namespace Codegraph

open Library Relation List

/-- The edges of a call, whether its target is known or not. -/
def isCallEdge : EdgeKind → Bool
  | .calls | .unresolvedCall _ | .externalCall _ _ => true
  | _ => false

inductive CallRelation where
  | callers
  | callees
deriving DecidableEq

namespace CodeGraph

variable (code : CodeGraph)

/-- The other ends of the call edges of a node, against the calls or along them. -/
def callNeighbors (relation : CallRelation) (current : Nat) : List Nat :=
  match relation with
  | .callers =>
    ((code.graph.edgesTo current).filter fun edge => isCallEdge edge.weight.kind).map Link.source
  | .callees =>
    ((code.graph.edgesFrom current).filter fun edge => isCallEdge edge.weight.kind).map Link.target

/-- The walk starts at the target, which is not visited yet and is removed at the end. -/
def cascadeReach (relation : CallRelation) (target : Nat) : ListSet Nat :=
  (loop (Search.advance (code.callNeighbors relation)) (code.graph.nodeCount + 1)
    (Search.startBeyond target)).visited.erase target

/-- The whole graph is sorted. When it cannot be, the nodes come in the order of the hash set. -/
def cascadeWalk (order : HashOrder Nat)
    (toposort : StableGraph NodeData EdgeData → Option (List Nat)) (target : NodeId)
    (relation : CallRelation) : List NodeId :=
  match code.resolve target with
  | none => []
  | some targetIdx =>
    let reachable := code.cascadeReach relation targetIdx
    match toposort code.graph with
    | some fullOrder => (fullOrder.filter fun idx => idx ∈ reachable.members).filterMap code.nodeIdFor
    | none => (order.iterate reachable.members.toFinset).filterMap code.nodeIdFor

def callersOf (order : HashOrder Nat)
    (toposort : StableGraph NodeData EdgeData → Option (List Nat)) (target : NodeId) : List NodeId :=
  code.cascadeWalk order toposort target .callers

def calleesOf (order : HashOrder Nat)
    (toposort : StableGraph NodeData EdgeData → Option (List Nat)) (target : NodeId) : List NodeId :=
  code.cascadeWalk order toposort target .callees

/-- One function calls another one. -/
def Calls (first second : NodeId) : Prop :=
  ∃ data, (first, second, data) ∈ code.edges ∧ isCallEdge data.kind = true

/-- The steps of a walk against the calls or along them. -/
def CallStep : CallRelation → NodeId → NodeId → Prop
  | .callers, first, second => code.Calls second first
  | .callees, first, second => code.Calls first second

/-- The target and the nodes around it. -/
def Cone (relation : CallRelation) (target id : NodeId) : Prop :=
  id = target ∨ TransGen (code.CallStep relation) target id

/-- The calls between the target and the nodes around it have no cycle. -/
def AcyclicCone (relation : CallRelation) (target : NodeId) : Prop :=
  ∀ id, ¬ TransGen (fun first second => code.Cone relation target first ∧
    code.Cone relation target second ∧ code.Calls first second) id id

/-- A sorted graph lists each node once, before the targets of its edges, and only a graph with a cycle
has no order. -/
def Sorts (graph : StableGraph NodeData EdgeData) : Option (List Nat) → Prop
  | some order => order.Nodup ∧ (∀ slot, slot ∈ order ↔ slot ∈ graph.slots) ∧
      ∀ link ∈ graph.links, order.idxOf link.source < order.idxOf link.target
  | none => ∃ slot, TransGen (fun first second =>
    ∃ link ∈ graph.links, link.source = first ∧ link.target = second) slot slot

/-- The callers and the callees are exactly the other nodes around the target, and they are listed
callers first whenever the calls around the target have no cycle. -/
structure Cascades (order : HashOrder Nat)
    (toposort : StableGraph NodeData EdgeData → Option (List Nat)) (target : NodeId) : Prop where
  callers : ∀ id, id ∈ code.callersOf order toposort target ↔ id ≠ target ∧ TransGen code.Calls id target
  callees : ∀ id, id ∈ code.calleesOf order toposort target ↔ id ≠ target ∧ TransGen code.Calls target id
  dual : ∀ id ≠ target, id ∈ code.callersOf order toposort target ↔
    target ∈ code.calleesOf order toposort id
  sorted : ∀ relation, code.AcyclicCone relation target →
    ∀ first ∈ code.cascadeWalk order toposort target relation,
      ∀ second ∈ code.cascadeWalk order toposort target relation, code.Calls first second →
        [first, second].Sublist (code.cascadeWalk order toposort target relation)

variable {code}

section Names

/-- Two slots are the ends of a call edge. -/
def SlotStep (code : CodeGraph) : CallRelation → Nat → Nat → Prop
  | .callers, first, second => ∃ link ∈ code.graph.links, link.source = second ∧
      link.target = first ∧ isCallEdge link.weight.kind = true
  | .callees, first, second => ∃ link ∈ code.graph.links, link.source = first ∧
      link.target = second ∧ isCallEdge link.weight.kind = true

theorem mem_callNeighbors (relation : CallRelation) (current other : Nat) :
    other ∈ code.callNeighbors relation current ↔ code.SlotStep relation current other := by
  cases relation with
  | callers =>
    simp only [callNeighbors, SlotStep, mem_map, mem_filter, StableGraph.mem_edgesTo]
    constructor
    · rintro ⟨link, ⟨⟨listed, here⟩, call⟩, rfl⟩
      exact ⟨link, listed, rfl, here, call⟩
    · rintro ⟨link, listed, rfl, here, call⟩
      exact ⟨link, ⟨⟨listed, here⟩, call⟩, rfl⟩
  | callees =>
    simp only [callNeighbors, SlotStep, mem_map, mem_filter, StableGraph.mem_edgesFrom]
    constructor
    · rintro ⟨link, ⟨⟨listed, here⟩, call⟩, rfl⟩
      exact ⟨link, listed, here, rfl, call⟩
    · rintro ⟨link, listed, here, rfl, call⟩
      exact ⟨link, ⟨⟨listed, here⟩, call⟩, rfl⟩

theorem SlotStep.stored {relation : CallRelation} {first second : Nat}
    (step : code.SlotStep relation first second) :
    first ∈ code.graph.slots ∧ second ∈ code.graph.slots := by
  cases relation with
  | callers =>
    obtain ⟨link, listed, rfl, rfl, -⟩ := step
    exact (link_slots listed).symm
  | callees =>
    obtain ⟨link, listed, rfl, rfl, -⟩ := step
    exact link_slots listed

theorem mem_edges_iff (first second : NodeId) (data : EdgeData) :
    (first, second, data) ∈ code.edges ↔ ∃ link ∈ code.graph.links,
      code.nameOf link.source = first ∧ code.nameOf link.target = second ∧ link.weight = data := by
  rw [edges_eq_map, mem_map]
  simp only [Prod.mk.injEq]

theorem callStep_iff (relation : CallRelation) (first second : NodeId) :
    code.CallStep relation first second ↔ ∃ slot slot', code.SlotStep relation slot slot' ∧
      code.nameOf slot = first ∧ code.nameOf slot' = second := by
  cases relation with
  | callers =>
    simp only [CallStep, Calls, SlotStep, mem_edges_iff]
    constructor
    · rintro ⟨data, ⟨link, listed, source, target, rfl⟩, call⟩
      exact ⟨_, _, ⟨link, listed, rfl, rfl, call⟩, target, source⟩
    · rintro ⟨slot, slot', ⟨link, listed, rfl, rfl, call⟩, target, source⟩
      exact ⟨_, ⟨link, listed, source, target, rfl⟩, call⟩
  | callees =>
    simp only [CallStep, Calls, SlotStep, mem_edges_iff]
    constructor
    · rintro ⟨data, ⟨link, listed, source, target, rfl⟩, call⟩
      exact ⟨_, _, ⟨link, listed, rfl, rfl, call⟩, source, target⟩
    · rintro ⟨slot, slot', ⟨link, listed, rfl, rfl, call⟩, source, target⟩
      exact ⟨_, ⟨link, listed, source, target, rfl⟩, call⟩

variable (consistent : Consistent code) {relation : CallRelation} {targetIdx : Nat}

include consistent

theorem transGen_names (stored : targetIdx ∈ code.graph.slots) (id : NodeId) :
    TransGen (code.CallStep relation) (code.nameOf targetIdx) id ↔
      ∃ slot ∈ code.graph.slots, code.nameOf slot = id ∧
        TransGen (code.SlotStep relation) targetIdx slot := by
  constructor
  · intro reached
    induction reached with
    | single step =>
      obtain ⟨slot, slot', slots, same, named⟩ := (callStep_iff _ _ _).mp step
      obtain rfl := nameOf_injOn consistent slots.stored.1 stored same
      exact ⟨slot', slots.stored.2, named, .single slots⟩
    | tail _ step found =>
      obtain ⟨middle, stored', named, reached⟩ := found
      obtain ⟨slot, slot', slots, same, named'⟩ := (callStep_iff _ _ _).mp step
      obtain rfl := nameOf_injOn consistent slots.stored.1 stored' (same.trans named.symm)
      exact ⟨slot', slots.stored.2, named', reached.tail slots⟩
  rintro ⟨slot, -, rfl, reached⟩
  exact TransGen.lift code.nameOf (fun first second step =>
    (callStep_iff _ _ _).mpr ⟨first, second, step, rfl, rfl⟩) _ _ reached

omit consistent in
theorem mem_cascadeReach (slot : Nat) : slot ∈ (code.cascadeReach relation targetIdx).members ↔
    slot ≠ targetIdx ∧ TransGen (code.SlotStep relation) targetIdx slot := by
  have inside (node other : Nat) (mem : other ∈ code.callNeighbors relation node) :
      other ∈ code.graph.slots := ((mem_callNeighbors _ _ _).mp mem).stored.2
  have steps : (fun first second => second ∈ code.callNeighbors relation first) =
      code.SlotStep relation := by
    funext first second
    exact propext (mem_callNeighbors relation first second)
  rw [cascadeReach, ListSet.mem_erase, ← code.graph.length_slots, Search.loop_advance_complete inside,
    steps]

end Names

section Listing

variable {order : HashOrder Nat} {toposort : StableGraph NodeData EdgeData → Option (List Nat)}
variable {relation : CallRelation} {target : NodeId} {targetIdx : Nat}

/-- The slots around the target in the order in which they are returned. -/
def listing (code : CodeGraph) (order : HashOrder Nat) (sorted : Option (List Nat))
    (relation : CallRelation) (targetIdx : Nat) : List Nat :=
  match sorted with
  | some fullOrder => fullOrder.filter fun idx => idx ∈ (code.cascadeReach relation targetIdx).members
  | none => order.iterate (code.cascadeReach relation targetIdx).members.toFinset

theorem cascadeReach_stored {slot : Nat}
    (mem : slot ∈ (code.cascadeReach relation targetIdx).members) : slot ∈ code.graph.slots := by
  obtain ⟨-, reached⟩ := (mem_cascadeReach slot).mp mem
  cases reached with
  | single step => exact step.stored.2
  | tail _ step => exact step.stored.2

theorem listing_spec {sorted : Option (List Nat)} (sorts : Sorts code.graph sorted) :
    (code.listing order sorted relation targetIdx).Nodup ∧
      ∀ slot, slot ∈ code.listing order sorted relation targetIdx ↔
        slot ∈ (code.cascadeReach relation targetIdx).members := by
  cases sorted with
  | some fullOrder =>
    refine ⟨sorts.1.filter _, fun slot => ?_⟩
    rw [listing, mem_filter, decide_eq_true_eq]
    exact and_iff_right_of_imp fun mem => (sorts.2.1 slot).mpr (cascadeReach_stored mem)
  | none =>
    refine ⟨order.distinct _, fun slot => ?_⟩
    rw [listing, order.listed, mem_toFinset]

theorem cascadeWalk_eq (sorts : Sorts code.graph (toposort code.graph))
    (resolved : code.resolve target = some targetIdx) :
    code.cascadeWalk order toposort target relation =
      (code.listing order (toposort code.graph) relation targetIdx).map code.nameOf := by
  have named (slot : Nat) (mem : slot ∈ code.listing order (toposort code.graph) relation
      targetIdx) : code.nodeIdFor slot = some (code.nameOf slot) :=
    nodeIdFor_eq (cascadeReach_stored (((listing_spec sorts).2 slot).mp mem))
  have same := filterMap_congr (g := some ∘ code.nameOf) named
  rw [← filterMap_eq_map, ← same]
  unfold cascadeWalk listing
  rw [resolved]
  dsimp only
  split <;> rfl

theorem mem_cascadeWalk (consistent : Consistent code)
    (sorts : Sorts code.graph (toposort code.graph)) (id : NodeId) :
    id ∈ code.cascadeWalk order toposort target relation ↔
      id ≠ target ∧ TransGen (code.CallStep relation) target id := by
  cases resolved : code.resolve target with
  | none =>
    have empty : code.cascadeWalk order toposort target relation = [] := by rw [cascadeWalk, resolved]
    rw [empty]
    refine iff_of_false not_mem_nil ?_
    rintro ⟨-, reached⟩
    obtain ⟨next, step, -⟩ := TransGen.head'_iff.mp reached
    obtain ⟨slot, slot', slots, rfl, -⟩ := (callStep_iff _ _ _).mp step
    rw [(resolve_eq_some_iff consistent _ slot).mpr ⟨slots.stored.1, rfl⟩] at resolved
    cases resolved
  | some targetIdx =>
    obtain ⟨stored, rfl⟩ := (resolve_eq_some_iff consistent _ _).mp resolved
    rw [cascadeWalk_eq sorts resolved, mem_map, transGen_names consistent stored]
    simp only [(listing_spec sorts).2, mem_cascadeReach]
    constructor
    · rintro ⟨slot, ⟨apart, reached⟩, rfl⟩
      have stored' := cascadeReach_stored ((mem_cascadeReach slot).mpr ⟨apart, reached⟩)
      exact ⟨fun same => apart (nameOf_injOn consistent stored' stored same), slot, stored', rfl, reached⟩
    · rintro ⟨apart, slot, stored', rfl, reached⟩
      exact ⟨slot, ⟨fun same => apart (congrArg code.nameOf same), reached⟩, rfl⟩

theorem callStep_callers : code.CallStep .callers = Function.swap code.Calls := rfl

theorem callStep_callees : code.CallStep .callees = code.Calls := rfl

theorem mem_callersOf (consistent : Consistent code)
    (sorts : Sorts code.graph (toposort code.graph)) (id : NodeId) :
    id ∈ code.callersOf order toposort target ↔ id ≠ target ∧ TransGen code.Calls id target := by
  rw [callersOf, mem_cascadeWalk consistent sorts, callStep_callers, transGen_swap]

theorem mem_calleesOf (consistent : Consistent code)
    (sorts : Sorts code.graph (toposort code.graph)) (id : NodeId) :
    id ∈ code.calleesOf order toposort target ↔ id ≠ target ∧ TransGen code.Calls target id := by
  rw [calleesOf, mem_cascadeWalk consistent sorts, callStep_callees]

theorem cascadeWalk_sorted (consistent : Consistent code)
    (sorts : Sorts code.graph (toposort code.graph)) (sortable : toposort code.graph ≠ none)
    {first second : NodeId} (mem : first ∈ code.cascadeWalk order toposort target relation)
    (mem' : second ∈ code.cascadeWalk order toposort target relation)
    (calls : code.Calls first second) :
    [first, second].Sublist (code.cascadeWalk order toposort target relation) := by
  obtain ⟨fullOrder, ordered⟩ := Option.ne_none_iff_exists'.mp sortable
  cases resolved : code.resolve target with
  | none =>
    rw [cascadeWalk, resolved] at mem
    exact absurd mem not_mem_nil
  | some targetIdx =>
    rw [cascadeWalk_eq sorts resolved] at mem mem' ⊢
    rw [ordered] at sorts mem mem' ⊢
    obtain ⟨distinct, listed, before⟩ := sorts
    obtain ⟨slot, inside, rfl⟩ := mem_map.mp mem
    obtain ⟨slot', inside', rfl⟩ := mem_map.mp mem'
    obtain ⟨data, edge, -⟩ := calls
    obtain ⟨link, linked, source, goal, -⟩ := (mem_edges_iff _ _ _).mp edge
    obtain ⟨stored, stored'⟩ := link_slots linked
    have here := (listed slot).mp (mem_of_mem_filter inside)
    have there := (listed slot').mp (mem_of_mem_filter inside')
    obtain rfl := nameOf_injOn consistent stored here source
    obtain rfl := nameOf_injOn consistent stored' there goal
    have earlier := sublist_of_idxOf_lt (before link linked) ((listed _).mpr there)
    have kept : [link.source, link.target].filter (fun idx =>
        decide (idx ∈ (code.cascadeReach relation targetIdx).members)) = [link.source, link.target] := by
      rw [filter_eq_self]
      intro idx mem
      rcases mem_pair.mp mem with rfl | rfl
      · exact (mem_filter.mp inside).2
      · exact (mem_filter.mp inside').2
    have around := earlier.filter fun idx =>
      decide (idx ∈ (code.cascadeReach relation targetIdx).members)
    rw [kept] at around
    exact around.map code.nameOf

/-- The hash set can list any node first. -/
theorem cascadeWalk_leading (consistent : Consistent code)
    (sorts : Sorts code.graph (toposort code.graph)) (unsortable : toposort code.graph = none)
    {first second : NodeId} (apart : first ≠ second)
    (mem : second ∈ code.cascadeWalk order toposort target relation) :
    ∃ order, ¬ [first, second].Sublist (code.cascadeWalk order toposort target relation) := by
  cases resolved : code.resolve target with
  | none =>
    rw [cascadeWalk, resolved] at mem
    exact absurd mem not_mem_nil
  | some targetIdx =>
    rw [cascadeWalk_eq sorts resolved] at mem
    obtain ⟨slot, inside, rfl⟩ := mem_map.mp mem
    have reached := ((listing_spec sorts).2 slot).mp inside
    refine ⟨.leading slot, ?_⟩
    rw [cascadeWalk_eq sorts resolved]
    have distinct : ((code.listing (.leading slot) (toposort code.graph) relation targetIdx).map
        code.nameOf).Nodup := by
      refine List.Nodup.map_on ?_ (listing_spec sorts).1
      intro one listed other listed' same
      exact nameOf_injOn consistent (cascadeReach_stored (((listing_spec sorts).2 one).mp listed))
        (cascadeReach_stored (((listing_spec sorts).2 other).mp listed')) same
    intro earlier
    have lower := idxOf_lt_of_sublist distinct earlier
    have head : (code.listing (.leading slot) (toposort code.graph) relation targetIdx).map
        code.nameOf = code.nameOf slot :: (HashOrder.ascending.iterate
          ((code.cascadeReach relation targetIdx).members.toFinset.erase slot)).map code.nameOf := by
      rw [unsortable]
      unfold listing HashOrder.leading
      dsimp only
      rw [if_pos (mem_toFinset.mpr reached), map_cons]
    rw [head, idxOf_cons_self] at lower
    exact Nat.not_lt_zero _ lower

end Listing

/-- No node reaches itself. -/
def Acyclic (code : CodeGraph) : Prop := ∀ id, ¬ TransGen code.Edge id id

theorem edge_ascends {order : List Nat} (sorts : Sorts code.graph (some order))
    {first second : NodeId} (step : code.Edge first second) :
    ∃ slot ∈ code.graph.slots, ∃ slot' ∈ code.graph.slots, code.nameOf slot = first ∧
      code.nameOf slot' = second ∧ order.idxOf slot < order.idxOf slot' := by
  obtain ⟨-, -, before⟩ := sorts
  obtain ⟨data, edge⟩ := step
  obtain ⟨link, linked, source, target, -⟩ := (mem_edges_iff _ _ _).mp edge
  obtain ⟨stored, stored'⟩ := link_slots linked
  exact ⟨_, stored, _, stored', source, target, before link linked⟩

theorem acyclic_iff_sortable (consistent : Consistent code) {sorted : Option (List Nat)}
    (sorts : Sorts code.graph sorted) : code.Acyclic ↔ sorted ≠ none := by
  cases sorted with
  | none =>
    refine iff_of_false ?_ (fun none => none rfl)
    intro acyclic
    obtain ⟨slot, cycle⟩ := sorts
    refine acyclic (code.nameOf slot) (TransGen.lift code.nameOf ?_ _ _ cycle)
    rintro first second ⟨link, listed, rfl, rfl⟩
    exact ⟨_, (mem_edges_iff _ _ _).mpr ⟨link, listed, rfl, rfl, rfl⟩⟩
  | some order =>
    refine iff_of_true ?_ (Option.some_ne_none order)
    have later {first second : NodeId} (reached : TransGen code.Edge first second) :
        ∃ slot ∈ code.graph.slots, ∃ slot' ∈ code.graph.slots, code.nameOf slot = first ∧
          code.nameOf slot' = second ∧ order.idxOf slot < order.idxOf slot' := by
      induction reached with
      | single step => exact edge_ascends sorts step
      | tail _ step found =>
        obtain ⟨slot, stored, middle, inside, named, through, lower⟩ := found
        obtain ⟨middle', inside', last, stored', same, named', lower'⟩ := edge_ascends sorts step
        obtain rfl := nameOf_injOn consistent inside' inside (same.trans through.symm)
        exact ⟨slot, stored, last, stored', named, named', lower.trans lower'⟩
    intro id cycle
    obtain ⟨slot, stored, slot', stored', named, named', lower⟩ := later cycle
    obtain rfl := nameOf_injOn consistent stored stored' (named.trans named'.symm)
    exact lt_irrefl _ lower

/-- The walk has no call to put in order. -/
def NothingToOrder (code : CodeGraph) (target : NodeId) : Prop :=
  ∀ relation, code.AcyclicCone relation target → ∀ first ≠ target, ∀ second ≠ target,
    TransGen (code.CallStep relation) target first →
      TransGen (code.CallStep relation) target second → ¬ code.Calls first second

/-- The walk keeps its promises in every order of the hash set exactly when the whole graph has no
cycle or no two of the returned nodes call each other. -/
theorem cascades_iff (consistent : Consistent code)
    (toposort : StableGraph NodeData EdgeData → Option (List Nat))
    (sorts : Sorts code.graph (toposort code.graph)) (target : NodeId) :
    (∀ order, code.Cascades order toposort target) ↔ code.Acyclic ∨ code.NothingToOrder target := by
  constructor
  · intro cascades
    by_contra neither
    obtain ⟨cyclic, ordered⟩ := not_or.mp neither
    rw [acyclic_iff_sortable consistent sorts, not_not] at cyclic
    unfold NothingToOrder at ordered
    push Not at ordered
    obtain ⟨relation, acyclic, first, apart, second, apart', reached, reached', calls⟩ := ordered
    have distinct : first ≠ second := by
      rintro rfl
      exact acyclic first (.single ⟨.inr reached, .inr reached, calls⟩)
    have mem (order : HashOrder Nat) : second ∈ code.cascadeWalk order toposort target relation :=
      (mem_cascadeWalk consistent sorts second).mpr ⟨apart', reached'⟩
    obtain ⟨order, unsorted⟩ := cascadeWalk_leading consistent sorts cyclic distinct (mem .ascending)
    exact unsorted ((cascades order).sorted relation acyclic first
      ((mem_cascadeWalk consistent sorts first).mpr ⟨apart, reached⟩) second (mem order) calls)
  intro either order
  refine ⟨mem_callersOf consistent sorts, mem_calleesOf consistent sorts, ?_, ?_⟩
  · intro id apart
    rw [mem_callersOf consistent sorts, mem_calleesOf consistent sorts]
    exact and_congr_left' (iff_of_true apart apart.symm)
  intro relation acyclic first mem second mem' calls
  rcases either with sortable | nothing
  · exact cascadeWalk_sorted consistent sorts
      ((acyclic_iff_sortable consistent sorts).mp sortable) mem mem' calls
  obtain ⟨apart, reached⟩ := (mem_cascadeWalk consistent sorts first).mp mem
  obtain ⟨apart', reached'⟩ := (mem_cascadeWalk consistent sorts second).mp mem'
  exact absurd calls (nothing relation acyclic first apart second apart' reached reached')

/-- A chain of three functions beside a function that calls itself. -/
def besideRecursion : CodeGraph :=
  edited .fresh [.addNode caller, .addNode callee,
    .addNode { id := ⟨3⟩, kind := .function, name := "last" },
    .addNode { id := ⟨4⟩, kind := .function, name := "walk" },
    .addEdge ⟨1⟩ ⟨2⟩ ⟨.calls, {}, 0⟩, .addEdge ⟨2⟩ ⟨3⟩ ⟨.calls, {}, 0⟩, .addEdge ⟨4⟩ ⟨4⟩ ⟨.calls, {}, 0⟩]

theorem besideRecursion_sorts : Sorts besideRecursion.graph none :=
  ⟨8, .single ⟨⟨8, 8, .calls, {}, 0⟩, by decide +kernel, rfl, rfl⟩⟩

theorem cascades_iff_besideRecursion : (∀ order, besideRecursion.Cascades order (fun _ => none) ⟨3⟩) ↔
      besideRecursion.Acyclic ∨ besideRecursion.NothingToOrder ⟨3⟩ :=
  cascades_iff (edited_consistent .fresh _) (fun _ => none) besideRecursion_sorts ⟨3⟩

theorem besideRecursion_calls {first second : NodeId} (calls : besideRecursion.Calls first second) :
    first.hash.toNat < second.hash.toNat ∨ first = ⟨4⟩ ∧ second = ⟨4⟩ := by
  obtain ⟨data, listed, -⟩ := calls
  have ends : ∀ edge ∈ besideRecursion.edges,
      edge.1.hash.toNat < edge.2.1.hash.toNat ∨ edge.1 = ⟨4⟩ ∧ edge.2.1 = ⟨4⟩ := by decide +kernel
  exact ends _ listed

theorem besideRecursion_acyclicCone : besideRecursion.AcyclicCone .callers ⟨3⟩ := by
  have lower {id : NodeId} (reached : TransGen (besideRecursion.CallStep .callers) ⟨3⟩ id) :
      id.hash.toNat < 3 := by
    have step {first second : NodeId} (calls : besideRecursion.Calls first second)
        (below : second.hash.toNat ≤ 3) : first.hash.toNat < 3 := by
      rcases besideRecursion_calls calls with less | ⟨-, rfl⟩
      · exact lt_of_lt_of_le less below
      · exact absurd below (by decide)
    induction reached with
    | single calls => exact step calls (by decide)
    | tail _ calls below => exact step calls below.le
  have inside {id : NodeId} (cone : besideRecursion.Cone .callers ⟨3⟩ id) : id.hash.toNat ≤ 3 := by
    rcases cone with rfl | reached
    · decide
    · exact (lower reached).le
  intro id cycle
  have ascends {first second : NodeId} (steps : TransGen (fun first second =>
      besideRecursion.Cone .callers ⟨3⟩ first ∧ besideRecursion.Cone .callers ⟨3⟩ second ∧
        besideRecursion.Calls first second) first second) : first.hash.toNat < second.hash.toNat := by
    have step {first second : NodeId} (cone : besideRecursion.Cone .callers ⟨3⟩ first)
        (calls : besideRecursion.Calls first second) : first.hash.toNat < second.hash.toNat := by
      rcases besideRecursion_calls calls with less | ⟨rfl, -⟩
      · exact less
      · exact absurd (inside cone) (by decide)
    induction steps with
    | single both => exact step both.1 both.2.2
    | tail _ both less => exact less.trans (step both.1 both.2.2)
  exact lt_irrefl _ (ascends cycle)

/-- The recursion elsewhere leaves the callers of the last function in the order of the hash set. -/
theorem cascades_unordered : ¬ ∀ (code : CodeGraph)
    (toposort : StableGraph NodeData EdgeData → Option (List Nat)) (order : HashOrder Nat)
    (target : NodeId), Consistent code → Sorts code.graph (toposort code.graph) →
      code.Cascades order toposort target := by
  intro always
  have cascades := always besideRecursion (fun _ => none) (.leading 2) ⟨3⟩
    (edited_consistent .fresh _) besideRecursion_sorts
  have walk : besideRecursion.cascadeWalk (.leading 2) (fun _ => none) ⟨3⟩ .callers = [⟨2⟩, ⟨1⟩] := by
    decide +kernel
  have sorted := cascades.sorted .callers besideRecursion_acyclicCone ⟨1⟩
    (by rw [walk]; decide) ⟨2⟩ (by rw [walk]; decide) ⟨⟨.calls, {}, 0⟩, by decide +kernel, rfl⟩
  rw [walk] at sorted
  exact absurd sorted (by decide)

end CodeGraph

end Codegraph
