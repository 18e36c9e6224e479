import Codegraph.Graph.Validity
import Codegraph.Library.Sweeps

namespace Codegraph.Hll

open Library Relation List

section SipHash

/-- The four words of the hasher. -/
abbrev SipState := BitVec 64 × BitVec 64 × BitVec 64 × BitVec 64

def sipRound : SipState → SipState
  | (v0, v1, v2, v3) =>
    let v0 := v0 + v1
    let v1 := v1.rotateLeft 13 ^^^ v0
    let v0 := v0.rotateLeft 32
    let v2 := v2 + v3
    let v3 := v3.rotateLeft 16 ^^^ v2
    let v0 := v0 + v3
    let v3 := v3.rotateLeft 21 ^^^ v0
    let v2 := v2 + v1
    let v1 := v1.rotateLeft 17 ^^^ v2
    let v2 := v2.rotateLeft 32
    (v0, v1, v2, v3)

/-- A word of the message takes one round. -/
def sipWord (word : BitVec 64) : SipState → SipState
  | (v0, v1, v2, v3) =>
    let (v0, v1, v2, v3) := sipRound (v0, v1, v2, v3 ^^^ word)
    (v0 ^^^ word, v1, v2, v3)

/-- Three rounds end the hash. -/
def sipFinish : SipState → BitVec 64
  | (v0, v1, v2, v3) =>
    let (v0, v1, v2, v3) := sipRound (sipRound (sipRound (v0, v1, v2 ^^^ 0xff, v3)))
    v0 ^^^ v1 ^^^ v2 ^^^ v3

/-- The hasher starts with two keys of zero. -/
def sipStart : SipState :=
  (0x736f6d6570736575, 0x646f72616e646f6d, 0x6c7967656e657261, 0x7465646279746573)

/-- The eight bytes of an id are one word, and their count is in the last word. -/
def nodeHash (id : NodeId) : BitVec 64 :=
  sipFinish (sipWord 0x0800000000000000 (sipWord id.hash sipStart))

end SipHash

section Model

/-- The bits of a hash that choose the register. -/
def precision : Nat := 12

def registerCount : Nat := 2 ^ precision

/-- A sketch has one number for each register. -/
abbrev HllSketch := Fin registerCount → Nat

def trailingZeros (word : BitVec 64) : Nat :=
  ((List.range 64).find? fun place => word.getLsbD place).getD 64

def registerOf (hash : BitVec 64) : Fin registerCount :=
  ⟨hash.toNat % registerCount, Nat.mod_lt _ (by decide)⟩

def rho (hash : BitVec 64) : Nat :=
  let remaining := hash >>> precision
  if remaining = 0 then 64 - precision + 1 else trailingZeros remaining + 1

def emptySketch : HllSketch := fun _ => 0

def addHash (sketch : HllSketch) (hash : BitVec 64) : HllSketch := fun place =>
  if place = registerOf hash ∧ sketch place < rho hash then rho hash else sketch place

/-- The larger registers win, and the flag tells whether one of them grew. -/
def merge (sketch other : HllSketch) : HllSketch × Bool :=
  (fun place => if sketch place < other place then other place else sketch place,
    decide (∃ place, sketch place < other place))

/-- The most rounds of the propagation. -/
def maxRounds : Nat := 64

/-- The edges of a round in the order in which it follows them. -/
def roundEdges (ids : List NodeId) (neighbors : NodeId → List (NodeId × EdgeData)) : List (Nat × Nat) :=
  ids.zipIdx.flatMap fun entry => (neighbors entry.1).filterMap fun other =>
    if other.1 ∈ ids then some (entry.2, ids.idxOf other.1) else none

def singleton (id : NodeId) : HllSketch := addHash emptySketch (nodeHash id)

def propagate (ids : List NodeId) (neighbors : NodeId → List (NodeId × EdgeData)) : List HllSketch :=
  sweeps merge emptySketch (roundEdges ids neighbors) maxRounds (ids.map singleton)

/-- The sketches of the descendants and of the ancestors of the nodes. -/
def approximateReachability (ids : List NodeId) (code : CodeGraph) : List HllSketch × List HllSketch :=
  (propagate ids code.getEdgesFrom, propagate ids code.getEdgesTo)

end Model

theorem merge_joins : Joins merge where
  join sketch other := by
    funext place
    rw [merge, Pi.sup_apply]
    dsimp only
    split
    · rename_i less
      exact (Nat.max_eq_right less.le).symm
    · rename_i notLess
      exact (Nat.max_eq_left (Nat.le_of_not_lt notLess)).symm
  flag sketch other := by
    rw [merge, decide_eq_false_iff_not, not_exists, Pi.le_def]
    exact forall_congr' fun place => not_lt

section Rounds

variable {ids : List NodeId} {neighbors : NodeId → List (NodeId × EdgeData)}

theorem mem_roundEdges (distinct : ids.Nodup) (first second : Nat) :
    Along (roundEdges ids neighbors) first second ↔ ∃ id id', ids[first]? = some id ∧
      ids[second]? = some id' ∧ ∃ data, (id', data) ∈ neighbors id := by
  simp only [Along, roundEdges, mem_flatMap, mem_filterMap, mem_zipIdx_iff_getElem?]
  constructor
  · rintro ⟨⟨id, index⟩, here, ⟨id', data⟩, listed, found⟩
    split at found
    · rename_i stored
      obtain ⟨rfl, rfl⟩ := Prod.mk.inj (Option.some.inj found)
      refine ⟨id, id', here, ?_, data, listed⟩
      rw [getElem?_eq_getElem (idxOf_lt_length_of_mem stored), getElem_idxOf]
    · cases found
  rintro ⟨id, id', here, there, data, listed⟩
  refine ⟨(id, first), here, (id', data), listed, ?_⟩
  obtain ⟨within, rfl⟩ := List.getElem?_eq_some_iff.mp there
  rw [if_pos (getElem_mem within), distinct.idxOf_getElem]

theorem roundEdges_below (distinct : ids.Nodup) :
    EdgesBelow (ids.map singleton).length (roundEdges ids neighbors) := by
  rintro ⟨first, second⟩ mem
  obtain ⟨id, id', here, there, -⟩ := (mem_roundEdges distinct first second).mp mem
  rw [length_map]
  exact ⟨(List.getElem?_eq_some_iff.mp here).1, (List.getElem?_eq_some_iff.mp there).1⟩

theorem getD_singletons {place : Nat} {id : NodeId} (here : ids[place]? = some id) :
    (ids.map singleton).getD place emptySketch = singleton id := by
  rw [getD_eq_getElem?_getD, getElem?_map, here]
  rfl

/-- What a sketch of the nodes around a node holds. -/
structure SketchOf (edge : NodeId → NodeId → Prop) (settled : Prop) (sketch : HllSketch)
    (id : NodeId) : Prop where
  near : ∀ count ≤ maxRounds, ∀ other, Hops edge id count other → singleton other ≤ sketch
  bounded : ∀ bound, (∀ other, ReflTransGen edge id other → singleton other ≤ bound) → sketch ≤ bound
  exact : (settled ∨ ∀ other, ReflTransGen edge id other → ∃ count ≤ maxRounds, Hops edge id count other) →
    IsLUB {sketch | ∃ other, ReflTransGen edge id other ∧ singleton other = sketch} sketch

/-- One more round would change nothing. -/
def Settled (ids : List NodeId) (neighbors : NodeId → List (NodeId × EdgeData)) : Prop :=
  (sweep merge emptySketch (roundEdges ids neighbors) (propagate ids neighbors)).2 = false

theorem propagate_sketch {edge : NodeId → NodeId → Prop} (distinct : ids.Nodup)
    (listed : ∀ id other, edge id other ↔ ∃ data, (other, data) ∈ neighbors id)
    (stored : ∀ id other, edge id other → other ∈ ids) {place : Nat} {id : NodeId}
    (here : ids[place]? = some id) :
    SketchOf edge (Settled ids neighbors) ((propagate ids neighbors).getD place emptySketch) id := by
  have below : EdgesBelow (ids.map singleton).length (roundEdges ids neighbors) :=
    roundEdges_below distinct
  have along (first : Nat) (image second : NodeId) (related : ids[first]? = some image)
      (step : edge image second) :
      ∃ next, ids[next]? = some second ∧ Along (roundEdges ids neighbors) first next := by
    obtain ⟨next, there⟩ := mem_iff_getElem?.mp (stored image second step)
    exact ⟨next, there, (mem_roundEdges distinct first next).mpr
      ⟨image, second, related, there, (listed image second).mp step⟩⟩
  have near (count : Nat) (close : count ≤ maxRounds) (other : NodeId)
      (hops : Hops edge id count other) :
      singleton other ≤ (propagate ids neighbors).getD place emptySketch := by
    obtain ⟨next, there, walk⟩ := hops.follow (fun image node => ids[node]? = some image)
      (fun first second node related step => along node first second related step) here
    rw [← getD_singletons there]
    exact sweeps_near merge_joins maxRounds _ below close walk
  have bounded (bound : HllSketch)
      (above : ∀ other, ReflTransGen edge id other → singleton other ≤ bound) :
      (propagate ids neighbors).getD place emptySketch ≤ bound := by
    refine sweeps_le merge_joins maxRounds _ below ?_
    intro next reached
    have named : ∃ other, ids[next]? = some other ∧ ReflTransGen edge id other := by
      induction reached with
      | refl => exact ⟨id, here, .refl⟩
      | tail _ step found =>
        obtain ⟨middle, atMiddle, before⟩ := found
        obtain ⟨first, second, atFirst, atSecond, linked⟩ := (mem_roundEdges distinct _ _).mp step
        obtain rfl := Option.some.inj (atMiddle.symm.trans atFirst)
        exact ⟨second, atSecond, before.tail ((listed _ _).mpr linked)⟩
    obtain ⟨other, there, reached'⟩ := named
    rw [getD_singletons there]
    exact above other reached'
  refine ⟨near, bounded, ?_⟩
  intro either
  constructor
  · rintro _ ⟨other, reached, rfl⟩
    rcases either with settled | close
    · have followed : ∃ next, ids[next]? = some other ∧
          ReflTransGen (Along (roundEdges ids neighbors)) place next := by
        induction reached with
        | refl => exact ⟨place, here, .refl⟩
        | tail _ step found =>
          obtain ⟨middle, atMiddle, before⟩ := found
          obtain ⟨next, atNext, last⟩ := along middle _ _ atMiddle step
          exact ⟨next, atNext, before.tail last⟩
      obtain ⟨next, there, walk⟩ := followed
      rw [← getD_singletons there]
      exact sweeps_settled merge_joins maxRounds _ below settled walk
    · obtain ⟨count, few, hops⟩ := close other reached
      exact near count few other hops
  · intro bound above
    exact bounded bound fun other reached => above ⟨other, reached, rfl⟩

end Rounds

variable {code : CodeGraph}

open CodeGraph

theorem edge_stored (consistent : Consistent code) {first second : NodeId}
    (edge : code.Edge first second) : first ∈ code.allNodeIds ∧ second ∈ code.allNodeIds := by
  obtain ⟨data, listed⟩ := edge
  obtain ⟨link, -, source, target, atSource, atTarget, same⟩ := (mem_edges _).mp listed
  obtain ⟨rfl, rfl, -⟩ : first = source.id ∧ second = target.id ∧ data = link.weight := by
    simpa [Prod.ext_iff] using same
  exact ⟨(Dict.mem_keys_iff _ _).mpr ⟨_, consistent.slot atSource⟩,
    (Dict.mem_keys_iff _ _).mpr ⟨_, consistent.slot atTarget⟩⟩

section Chain

def chainIds : List NodeId := (List.range 66).map fun node => ⟨.ofNat 64 node⟩

/-- A chain of calls that is longer than the rounds are many. -/
def chain : CodeGraph :=
  edited .fresh
    (((List.range 66).map fun node =>
      .addNode { id := ⟨.ofNat 64 node⟩, kind := .function, name := "" }) ++
    (List.range 65).map fun node => .addEdge ⟨.ofNat 64 node⟩ ⟨.ofNat 64 (node + 1)⟩ ⟨.calls, {}, 0⟩)

theorem chain_edges :
    roundEdges chainIds chain.getEdgesFrom = (List.range 65).map fun node => (node, node + 1) := by
  decide +kernel

theorem chain_ids : chain.allNodeIds = chainIds.reverse := by decide +kernel

theorem chain_hash : (nodeHash ⟨65⟩).toNat % registerCount = 1612 ∧
    ∀ node < 65, (nodeHash ⟨.ofNat 64 node⟩).toNat % registerCount ≠ 1612 := by
  decide +kernel

theorem getElem_chainIds {node : Nat} (inside : node < 66) : chainIds[node]? = some ⟨.ofNat 64 node⟩ := by
  rw [chainIds, getElem?_map, getElem?_range inside]
  rfl

theorem rho_pos (hash : BitVec 64) : 0 < rho hash := by
  unfold rho
  dsimp only
  split <;> exact Nat.succ_pos _

theorem singleton_pos (id : NodeId) : 0 < singleton id (registerOf (nodeHash id)) := by
  rw [singleton, addHash, if_pos ⟨rfl, rho_pos _⟩]
  exact rho_pos _

theorem singleton_apart {id : NodeId} {place : Fin registerCount}
    (apart : place ≠ registerOf (nodeHash id)) : singleton id place = 0 := by
  rw [singleton, addHash, if_neg fun both => apart both.1]
  rfl

/-- The register of the last node stays zero. -/
def chainBound : HllSketch := fun place =>
  if place = registerOf (nodeHash ⟨65⟩) then 0
  else (Finset.range 65).sup fun node => singleton ⟨.ofNat 64 node⟩ place

theorem singleton_le_chainBound {node : Nat} (inside : node < 65) :
    singleton ⟨.ofNat 64 node⟩ ≤ chainBound := by
  intro place
  unfold chainBound
  split
  · rename_i last
    have apart : place ≠ registerOf (nodeHash ⟨.ofNat 64 node⟩) := by
      intro same
      have value := (congrArg Fin.val last).trans chain_hash.1
      exact chain_hash.2 node inside ((congrArg Fin.val same).symm.trans value)
    rw [singleton_apart apart]
  · exact Finset.le_sup (f := fun node => singleton ⟨.ofNat 64 node⟩ place) (Finset.mem_range.mpr inside)

theorem chain_misses : ¬ singleton ⟨65⟩ ≤ (approximateReachability chainIds chain).1.getD 0 emptySketch := by
  have distinct : chainIds.Nodup := by
    rw [← nodup_reverse, ← chain_ids]
    exact chain.indexMap.nodupKeys
  have walk (count other : Nat) (hops : Hops (Along (roundEdges chainIds chain.getEdgesFrom)) 0 count other) :
      other = count := by
    induction hops with
    | start => rfl
    | step _ last same =>
      rw [chain_edges] at last
      obtain ⟨node, -, here⟩ := mem_map.mp last
      obtain ⟨rfl, rfl⟩ := Prod.mk.inj here
      rw [same]
  have below : (approximateReachability chainIds chain).1.getD 0 emptySketch ≤ chainBound := by
    unfold approximateReachability propagate
    dsimp only
    apply lagging_sweeps merge_joins maxRounds _ (roundEdges_below distinct)
    · rw [chain_edges, pairwise_map]
      exact pairwise_lt_range.imp fun less same => by omega
    intro count close other hops
    obtain rfl := walk count other hops
    have few : other < 65 := Nat.lt_succ_of_le close
    rw [getD_singletons (getElem_chainIds (by omega))]
    exact singleton_le_chainBound few
  intro holds
  have lower := (holds.trans below) (registerOf (nodeHash ⟨65⟩))
  have nothing : chainBound (registerOf (nodeHash ⟨65⟩)) = 0 := by rw [chainBound, if_pos rfl]
  rw [nothing] at lower
  exact absurd lower (Nat.not_le_of_lt (singleton_pos ⟨65⟩))

theorem chain_reaches {node : Nat} (inside : node < 66) :
    ReflTransGen chain.Edge ⟨.ofNat 64 0⟩ ⟨.ofNat 64 node⟩ := by
  induction node with
  | zero => exact .refl
  | succ node hypothesis =>
    have listed : Along (roundEdges chainIds chain.getEdgesFrom) node (node + 1) := by
      rw [chain_edges]
      exact mem_map.mpr ⟨node, List.mem_range.mpr (by omega), rfl⟩
    have distinct : chainIds.Nodup := by
      rw [← nodup_reverse, ← chain_ids]
      exact chain.indexMap.nodupKeys
    obtain ⟨id, id', here, there, data, edge⟩ := (mem_roundEdges distinct _ _).mp listed
    obtain rfl := Option.some.inj ((getElem_chainIds (by omega)).symm.trans here)
    obtain rfl := Option.some.inj ((getElem_chainIds inside).symm.trans there)
    exact (hypothesis (by omega)).tail
      ⟨data, (mem_getEdgesFrom (edited_consistent .fresh _) _ (_, data)).mp edge⟩

end Chain

end Codegraph.Hll
