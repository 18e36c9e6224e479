import Codegraph.Graph.View
import Codegraph.Library.Iteration
import Codegraph.Library.ListSet
import Codegraph.Library.Rows

namespace Codegraph

open Library List

section

variable {Node Weight : Type}

/-- The search has listed the nodes that left the queue. -/
structure Relabelling where
  order : List Nat
  visited : ListSet Nat
  queue : List Nat

namespace Relabelling

/-- An unvisited node joins the queue. -/
def visit (state : Relabelling) (slot : Nat) : Relabelling :=
  if slot ∈ state.visited.members then state
  else { state with visited := state.visited.insert slot, queue := state.queue ++ [slot] }

/-- The next node of the queue is listed and its neighbours in both directions are visited. -/
def step (graph : StableGraph Node Weight) (state : Relabelling) : Option Relabelling :=
  match state.queue with
  | [] => none
  | slot :: queue =>
    some ((graph.neighbors slot).foldl visit
      { state with order := state.order ++ [slot], queue := queue })

/-- A seed that was not met yet starts a search. -/
def searchFrom (graph : StableGraph Node Weight) (state : Relabelling) (seed : Nat) : Relabelling :=
  if seed ∈ state.visited.members then state
  else loop (step graph) graph.nodeCount (state.visit seed)

end Relabelling

/-- The nodes with the most edges come first. -/
def relabelSeeds (graph : StableGraph Node Weight) : List Nat :=
  graph.slots.mergeSort fun first second =>
    (graph.neighbors second).length ≤ (graph.neighbors first).length

def bfsRelabel (graph : StableGraph Node Weight) : List Nat :=
  ((relabelSeeds graph).foldl (Relabelling.searchFrom graph) ⟨[], .empty, []⟩).order

namespace Relabelling

/-- Each visited node is listed or waits in the queue, and never both. -/
structure Sound (graph : StableGraph Node Weight) (state : Relabelling) : Prop where
  met : (state.order ++ state.queue).Perm state.visited.members
  stored : ∀ slot ∈ state.visited.members, slot ∈ graph.slots

variable {graph : StableGraph Node Weight} {state : Relabelling}

theorem visit_sound (sound : Sound graph state) {slot : Nat} (stored : slot ∈ graph.slots) :
    Sound graph (state.visit slot) := by
  unfold visit
  split
  · exact sound
  rename_i fresh
  have members : (state.visited.insert slot).members = state.visited.members ++ [slot] := by
    rw [ListSet.insert, dif_neg fresh]
  constructor
  · rw [members, ← append_assoc]
    exact sound.met.append_right [slot]
  intro other mem
  rcases (ListSet.mem_insert _ _ _).mp mem with same | old
  · rwa [same]
  · exact sound.stored other old

/-- A visit adds the node to the visited ones and to nothing that was listed. -/
theorem mem_visit (state : Relabelling) (slot other : Nat) :
    other ∈ (state.visit slot).visited.members ↔ other = slot ∨ other ∈ state.visited.members := by
  unfold visit
  split
  · rename_i present
    constructor
    · exact .inr
    intro either
    rcases either with same | old
    · rwa [same]
    · exact old
  · exact ListSet.mem_insert _ _ _

theorem visit_order (state : Relabelling) (slot : Nat) : (state.visit slot).order = state.order := by
  unfold visit
  split <;> rfl

theorem foldl_visit_order (state : Relabelling) (slots : List Nat) :
    (slots.foldl visit state).order = state.order := by
  induction slots generalizing state with
  | nil => rfl
  | cons slot slots ih => rw [foldl_cons, ih, visit_order]

theorem foldl_visit_mono (state : Relabelling) (slots : List Nat) {slot : Nat}
    (mem : slot ∈ state.visited.members) :
    slot ∈ (slots.foldl visit state).visited.members := by
  induction slots generalizing state with
  | nil => exact mem
  | cons first slots ih => exact ih _ ((mem_visit state first slot).mpr (.inr mem))

theorem foldl_visit_sound
    (sound : Sound graph state) {slots : List Nat} (stored : ∀ slot ∈ slots, slot ∈ graph.slots) :
    Sound graph (slots.foldl visit state) :=
  List.foldlRecOn slots visit sound fun _ sound slot mem => visit_sound sound (stored slot mem)

theorem step_sound (graph : StableGraph Node Weight) (before after : Relabelling)
    (sound : Sound graph before) (moved : step graph before = some after) : Sound graph after := by
  unfold step at moved
  split at moved
  · contradiction
  rename_i slot queue waiting
  have met := sound.met
  rw [waiting] at met
  cases moved
  apply foldl_visit_sound _ fun other mem => graph.neighbors_stored mem
  refine ⟨?_, sound.stored⟩
  rwa [append_assoc]

theorem step_mono {before after : Relabelling} (moved : step graph before = some after) {slot : Nat}
    (mem : slot ∈ before.visited.members) : slot ∈ after.visited.members := by
  unfold step at moved
  split at moved
  · contradiction
  · cases moved
    exact foldl_visit_mono _ _ mem

/-- The nodes that are not listed yet pay for the steps of the search. -/
theorem step_falls (graph : StableGraph Node Weight) (before after : Relabelling)
    (sound : Sound graph before) (moved : step graph before = some after) :
    graph.nodeCount - after.order.length < graph.nodeCount - before.order.length := by
  have sound' := step_sound graph before after sound moved
  have listed : after.order.length ≤ graph.nodeCount := by
    have within : ∀ slot ∈ after.order, slot ∈ graph.slots := fun slot mem =>
      sound'.stored slot (sound'.met.mem_iff.mp (mem_append_left _ mem))
    have distinct := (nodup_append.mp (sound'.met.nodup_iff.mpr after.visited.nodup)).1
    rw [← graph.length_slots]
    exact (subperm_of_subset distinct within).length_le
  have longer : after.order.length = before.order.length + 1 := by
    unfold step at moved
    split at moved
    · contradiction
    cases moved
    rw [foldl_visit_order]
    simp
  omega

/-- A search ends with an empty queue. -/
theorem search_halts (graph : StableGraph Node Weight) (sound : Sound graph state) :
    Halts (step graph) state (loop (step graph) graph.nodeCount state) :=
  halts_loop (step_sound graph) (step_falls graph) graph.nodeCount state sound (Nat.sub_le _ _)

theorem halts_sound {state final : Relabelling}
    (sound : Sound graph state) (halts : Halts (step graph) state final) : Sound graph final :=
  halts.preserves (step_sound graph) sound

theorem halts_queue {state final : Relabelling}
    (halts : Halts (step graph) state final) : final.queue = [] := by
  have ended := halts.ended
  unfold step at ended
  split at ended
  · assumption
  · contradiction

theorem searchFrom_sound (sound : Sound graph state) {seed : Nat} (stored : seed ∈ graph.slots) :
    Sound graph (state.searchFrom graph seed) := by
  unfold searchFrom
  split
  · exact sound
  · have started := visit_sound sound stored
    exact halts_sound started (search_halts graph started)

theorem searchFrom_spec (sound : Sound graph state) (empty : state.queue = []) {seed : Nat}
    (stored : seed ∈ graph.slots) :
    (state.searchFrom graph seed).queue = [] ∧ seed ∈ (state.searchFrom graph seed).visited.members ∧
      ∀ slot ∈ state.visited.members, slot ∈ (state.searchFrom graph seed).visited.members := by
  unfold searchFrom
  split
  · rename_i present
    exact ⟨empty, present, fun _ mem => mem⟩
  have halts := search_halts graph (visit_sound sound stored)
  have kept : ∀ slot ∈ (state.visit seed).visited.members,
      slot ∈ (loop (step graph) graph.nodeCount (state.visit seed)).visited.members := by
    intro slot mem
    exact @Halts.preserves _ _ _ _ (fun state => slot ∈ state.visited.members)
      (fun _ _ mem moved => step_mono moved mem) halts mem
  exact ⟨halts_queue halts, kept seed ((mem_visit state seed seed).mpr (.inl rfl)),
    fun slot mem => kept slot ((mem_visit state seed slot).mpr (.inr mem))⟩

end Relabelling

/-- Every node is listed exactly once. -/
theorem bfsRelabel_perm (graph : StableGraph Node Weight) : (bfsRelabel graph).Perm graph.slots := by
  have seeds : (relabelSeeds graph).Perm graph.slots := mergeSort_perm _ _
  have searched (done : List Nat) (stored : ∀ slot ∈ done, slot ∈ graph.slots) :
      let state := done.foldl (Relabelling.searchFrom graph) ⟨[], .empty, []⟩
      state.Sound graph ∧ state.queue = [] ∧ ∀ slot ∈ done, slot ∈ state.visited.members := by
    induction done using List.reverseRecOn with
    | nil => exact ⟨⟨by simp [List.Perm.refl], by simp⟩, rfl, by simp⟩
    | append_singleton done seed ih =>
      obtain ⟨sound, empty, met⟩ := ih fun slot mem => stored slot (mem_append_left _ mem)
      have storedSeed := stored seed (mem_append_right _ (mem_singleton.mpr rfl))
      obtain ⟨empty', met', kept⟩ := Relabelling.searchFrom_spec sound empty storedSeed
      rw [foldl_append]
      refine ⟨Relabelling.searchFrom_sound sound storedSeed, empty', ?_⟩
      intro slot mem
      rcases mem_append.mp mem with old | new
      · exact kept slot (met slot old)
      · rwa [mem_singleton.mp new]
  obtain ⟨sound, empty, met⟩ := searched (relabelSeeds graph) fun slot mem => seeds.mem_iff.mp mem
  have listed := sound.met
  rw [empty, append_nil] at listed
  apply listed.trans
  rw [perm_ext_iff_of_nodup (ListSet.nodup _) graph.slots_nodup]
  intro slot
  constructor
  · exact sound.stored slot
  · intro mem
    exact met slot (seeds.mem_iff.mpr mem)

end

/-- The kind of an edge without its texts. -/
inductive EdgeKindTag where
  | calls
  | unresolvedCall
  | usesType
  | references
  | contains
  | implements
  | externalCall
  | extends
  | returns
  | typeOf
deriving DecidableEq

def EdgeKindTag.fromKind : EdgeKind → EdgeKindTag
  | .calls => .calls
  | .unresolvedCall _ => .unresolvedCall
  | .usesType => .usesType
  | .references => .references
  | .contains => .contains
  | .implements => .implements
  | .externalCall _ _ => .externalCall
  | .extends => .extends
  | .returns => .returns
  | .typeOf => .typeOf

/-- The outgoing and the incoming edges of the vertices, row by row. -/
structure CsrSnapshot where
  n : Nat
  m : Nat
  outRowPtrs : List Nat
  outColIndices : List Nat
  outEdgeKinds : List EdgeKindTag
  inRowPtrs : List Nat
  inColIndices : List Nat
  inEdgeKinds : List EdgeKindTag
  vertexToId : List NodeId
  idToVertex : Dict NodeId Nat
  sourceRevision : Nat

namespace CsrSnapshot

def empty (revision : Nat) : CsrSnapshot := ⟨0, 0, [0], [], [], [0], [], [], [], ∅, revision⟩

def outNeighbours (snapshot : CsrSnapshot) (v : Nat) : List Nat :=
  slice snapshot.outColIndices (snapshot.outRowPtrs.getD v 0) (snapshot.outRowPtrs.getD (v + 1) 0)

def inNeighbours (snapshot : CsrSnapshot) (v : Nat) : List Nat :=
  slice snapshot.inColIndices (snapshot.inRowPtrs.getD v 0) (snapshot.inRowPtrs.getD (v + 1) 0)

def outKinds (snapshot : CsrSnapshot) (v : Nat) : List EdgeKindTag :=
  slice snapshot.outEdgeKinds (snapshot.outRowPtrs.getD v 0) (snapshot.outRowPtrs.getD (v + 1) 0)

def inKinds (snapshot : CsrSnapshot) (v : Nat) : List EdgeKindTag :=
  slice snapshot.inEdgeKinds (snapshot.inRowPtrs.getD v 0) (snapshot.inRowPtrs.getD (v + 1) 0)

def outDegree (snapshot : CsrSnapshot) (v : Nat) : Nat :=
  snapshot.outRowPtrs.getD (v + 1) 0 - snapshot.outRowPtrs.getD v 0

def inDegree (snapshot : CsrSnapshot) (v : Nat) : Nat :=
  snapshot.inRowPtrs.getD (v + 1) 0 - snapshot.inRowPtrs.getD v 0

def vertexOf (snapshot : CsrSnapshot) (id : NodeId) : Option Nat := snapshot.idToVertex.get id

def idOf (snapshot : CsrSnapshot) (v : Nat) : Option NodeId := snapshot.vertexToId[v]?

/-- The ends that have a vertex, in the order of their vertices. -/
def rowOf (petgraphToCsr : Dict Nat Nat) (ends : List (Nat × EdgeKindTag)) : List (Nat × EdgeKindTag) :=
  (ends.filterMap fun other => (petgraphToCsr.get other.1).map fun v => (v, other.2)).mergeSort
    fun first second => first.1 ≤ second.1

def outEnds (graph : StableGraph NodeData EdgeData) (slot : Nat) : List (Nat × EdgeKindTag) :=
  (graph.edgesFrom slot).map fun link => (link.target, .fromKind link.weight.kind)

def inEnds (graph : StableGraph NodeData EdgeData) (slot : Nat) : List (Nat × EdgeKindTag) :=
  (graph.edgesTo slot).map fun link => (link.source, .fromKind link.weight.kind)

/-- The vertices are numbered in the order of the search. -/
def build (code : CodeGraph) : CsrSnapshot :=
  if code.graph.nodeCount = 0 then empty code.revision
  else
    let order := bfsRelabel code.graph
    let petgraphToCsr : Dict Nat Nat := .ofList order.zipIdx
    match order.mapM code.nodeIdFor with
    | none => empty code.revision
    | some vertexToId =>
      let outRows := order.map fun slot => rowOf petgraphToCsr (outEnds code.graph slot)
      let inRows := order.map fun slot => rowOf petgraphToCsr (inEnds code.graph slot)
      let out := Rows.pack outRows
      let inc := Rows.pack inRows
      { n := code.graph.nodeCount
        m := (outRows.map List.length).sum
        outRowPtrs := out.ptrs
        outColIndices := out.items.map Prod.fst
        outEdgeKinds := out.items.map Prod.snd
        inRowPtrs := inc.ptrs
        inColIndices := inc.items.map Prod.fst
        inEdgeKinds := inc.items.map Prod.snd
        vertexToId := vertexToId
        idToVertex := .ofList vertexToId.zipIdx
        sourceRevision := code.revision }

end CsrSnapshot

end Codegraph
