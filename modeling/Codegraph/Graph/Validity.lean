import Codegraph.Graph.Replay

namespace Codegraph

open Library List Function GraphView

/-- The kind of a stored node after the new one is stored. -/
def NodeData.kindAfter (data stored : NodeData) : NodeKind :=
  if stored.id = data.id then data.kind else stored.kind

namespace GraphView

/-- The current kinds of the ends of every edge allow it. -/
def Valid (view : GraphView) : Prop := ∀ edge ∈ view.edges, view.allows edge = true

theorem empty_valid : empty.Valid := by
  intro edge mem
  contradiction

theorem addEdge_valid {view : GraphView} (valid : view.Valid) (source target : NodeId)
    (data : EdgeData) : (view.addEdge source target data).Valid := by
  unfold addEdge
  split
  · rename_i accepted
    intro edge mem
    have same : GraphView.allows { view with edges := view.edges ++ [(source, target, data)] } =
        view.allows := allows_congr rfl
    rw [same]
    rcases mem_append.mp mem with old | new
    · exact valid edge old
    · rwa [mem_singleton.mp new]
  · exact valid

theorem removeNode_valid {view : GraphView} (valid : view.Valid) (id : NodeId) :
    (view.removeNode id).Valid := by
  intro edge mem
  obtain ⟨old, apart⟩ := mem_filter.mp mem
  have ends : edge.1 ≠ id ∧ edge.2.1 ≠ id := by simpa using apart
  have allowed := valid edge old
  unfold allows accepts at allowed ⊢
  have updated : (view.removeNode id).nodes = update view.nodes id none := rfl
  rwa [updated, update_of_ne ends.1, update_of_ne ends.2]

theorem allows_addNode {view : GraphView} (data : NodeData) {edge : NodeId × NodeId × EdgeData}
    {source target : NodeData} (foundSource : view.nodes edge.1 = some source)
    (foundTarget : view.nodes edge.2.1 = some target) (namedSource : source.id = edge.1)
    (namedTarget : target.id = edge.2.1) :
    (view.addNode data).allows edge =
      (edge.2.2.kind.validFor (data.kindAfter source) (data.kindAfter target) &&
        isFinite edge.2.2.weight) := by
  have after {id : NodeId} {stored : NodeData} (found : view.nodes id = some stored)
      (named : stored.id = id) :
      ((view.addNode data).nodes id).map NodeData.kind = some (data.kindAfter stored) := by
    change (update view.nodes data.id (some data.unstamped) id).map NodeData.kind = _
    unfold NodeData.kindAfter
    by_cases here : id = data.id
    · rw [here, update_self, if_pos (named.trans here)]
      rfl
    · rw [update_of_ne here, found, if_neg fun same => here (named.symm.trans same)]
      rfl
  obtain ⟨newSource, storedSource, kindSource⟩ :=
    Option.map_eq_some_iff.mp (after foundSource namedSource)
  obtain ⟨newTarget, storedTarget, kindTarget⟩ :=
    Option.map_eq_some_iff.mp (after foundTarget namedTarget)
  rw [allows, accepts, storedSource, storedTarget]
  dsimp only
  rw [kindSource, kindTarget]

end GraphView

namespace CodeGraph

/-- The edges at a replaced node stay allowed under the kind of the new one. -/
def KeepsEdges (code : CodeGraph) (data : NodeData) : Prop :=
  ∀ edge ∈ code.edges, edge.1 = data.id ∨ edge.2.1 = data.id →
    ∀ source target, code.getNode edge.1 = some source → code.getNode edge.2.1 = some target →
      edge.2.2.kind.validFor (data.kindAfter source) (data.kindAfter target) = true

/-- The edges are allowed, a rejected edge changes nothing, and a saved graph loads unchanged. -/
structure Sound (code : CodeGraph) : Prop where
  allowed : ∀ link ∈ code.graph.links, ∀ source target,
    code.graph.node link.source = some source → code.graph.node link.target = some target →
      isFinite link.weight.weight = true ∧ link.weight.kind.validFor source.kind target.kind = true
  rejected : ∀ source target data error, (code.addEdge source target data).2 = .error error →
    (code.addEdge source target data).1 = code
  loads : ∀ policy snap, OverlaySnapshot.Saves snap code →
    ∃ loaded, loadBaseSnapshot policy snap = .ok loaded ∧
      loadSnapshotBincode policy snap = .ok loaded ∧ loaded.graph.view.SameAs code.view
  saved : ∀ workspaceRoot baseRef, (code.saveBaseSnapshot workspaceRoot baseRef).Saves code ∧
      (code.saveSnapshotBincode workspaceRoot).Saves code

/-- The operations that change single nodes and edges. -/
inductive Edit where
  | addNode (data : NodeData)
  | addEdge (source target : NodeId) (data : EdgeData)
  | removeNode (id : NodeId)

def Edit.operation : Edit → Operation Unit
  | .addNode data => .addNode data
  | .addEdge source target data => .addEdge source target data
  | .removeNode id => .removeNode id

/-- An edit of the view, which knows no slots. -/
def Edit.onView (view : GraphView) : Edit → GraphView
  | .addNode data => view.addNode data
  | .addEdge source target data => view.addEdge source target data
  | .removeNode id => view.removeNode id

def Edit.KeepsEdges (code : CodeGraph) : Edit → Prop
  | .addNode data => code.KeepsEdges data
  | .addEdge _ _ _ | .removeNode _ => True

def edited (policy : SlotPolicy) (edits : List Edit) : CodeGraph :=
  run policy (edits.map Edit.operation)

variable (policy : SlotPolicy)

theorem edited_concat (edits : List Edit) (edit : Edit) :
    edited policy (edits ++ [edit]) = (edited policy edits).apply policy edit.operation := by
  rw [edited, run, map_append, foldl_append]
  rfl

theorem edited_consistent (edits : List Edit) : Consistent (edited policy edits) :=
  run_consistent policy _

/-- The graph of a run is the edited view, in whatever slots its nodes are. -/
theorem edited_view (edits : List Edit) :
    (edited policy edits).view = edits.foldl Edit.onView .empty := by
  induction edits using List.reverseRecOn with
  | nil => rfl
  | append_singleton edits edit ih =>
    have consistent := edited_consistent policy edits
    rw [edited_concat, foldl_append, ← ih]
    cases edit with
    | addNode data => exact view_addNode policy consistent data
    | addEdge source target data => exact view_addEdge consistent source target data
    | removeNode id => exact view_removeNode consistent id

variable {code : CodeGraph}

/-- The ends of an edge are known nodes. -/
theorem edge_ends (consistent : Consistent code)
    {edge : NodeId × NodeId × EdgeData} (mem : edge ∈ code.edges) :
    ∃ source target, code.getNode edge.1 = some source ∧ code.getNode edge.2.1 = some target ∧
      source.id = edge.1 ∧ target.id = edge.2.1 := by
  obtain ⟨link, _, source, target, foundSource, foundTarget, rfl⟩ := (mem_edges edge).mp mem
  exact ⟨source, target, (getNode_eq_some consistent _ _).mpr ⟨_, foundSource, rfl⟩,
    (getNode_eq_some consistent _ _).mpr ⟨_, foundTarget, rfl⟩, rfl, rfl⟩

/-- The view answers a known node without its stamps. -/
theorem view_nodes_of_getNode {id : NodeId} {data : NodeData}
    (found : code.getNode id = some data) : code.view.nodes id = some data.unstamped := by
  change (code.getNode id).map NodeData.unstamped = _
  rw [found]
  rfl

section

variable (consistent : Consistent code)
include consistent

theorem addNode_allows (data : NodeData) {edge : NodeId × NodeId × EdgeData} {source target : NodeData}
    (foundSource : code.getNode edge.1 = some source)
    (foundTarget : code.getNode edge.2.1 = some target) (namedSource : source.id = edge.1)
    (namedTarget : target.id = edge.2.1) :
    (code.addNode policy data).view.allows edge =
      (edge.2.2.kind.validFor (data.kindAfter source) (data.kindAfter target) &&
        isFinite edge.2.2.weight) := by
  rw [view_addNode policy consistent, allows_addNode data (view_nodes_of_getNode foundSource)
      (view_nodes_of_getNode foundTarget) (by exact namedSource) (by exact namedTarget)]
  rfl

theorem addNode_valid (valid : code.view.Valid) {data : NodeData} (keeps : code.KeepsEdges data) :
    (code.addNode policy data).view.Valid := by
  intro edge mem
  rw [view_addNode policy consistent] at mem
  have old : edge ∈ code.edges := mem
  obtain ⟨source, target, foundSource, foundTarget, namedSource, namedTarget⟩ :=
    edge_ends consistent old
  have before := valid edge old
  rw [GraphView.allows, GraphView.accepts, view_nodes_of_getNode foundSource,
    view_nodes_of_getNode foundTarget, Bool.and_eq_true] at before
  rw [addNode_allows policy consistent data foundSource foundTarget namedSource namedTarget,
    Bool.and_eq_true]
  refine ⟨?_, before.2⟩
  by_cases touched : edge.1 = data.id ∨ edge.2.1 = data.id
  · exact keeps edge old touched source target foundSource foundTarget
  have apart := not_or.mp touched
  have keptSource : data.kindAfter source = source.kind :=
    if_neg fun same => apart.1 (namedSource.symm.trans same)
  have keptTarget : data.kindAfter target = target.kind :=
    if_neg fun same => apart.2 (namedTarget.symm.trans same)
  rw [keptSource, keptTarget]
  exact before.1

theorem keepsEdges_of_valid
    {data : NodeData} (valid : (code.addNode policy data).view.Valid) : code.KeepsEdges data := by
  intro edge mem _ source target foundSource foundTarget
  obtain ⟨source', target', foundSource', foundTarget', namedSource, namedTarget⟩ :=
    edge_ends consistent mem
  rw [foundSource] at foundSource'
  rw [foundTarget] at foundTarget'
  cases foundSource'
  cases foundTarget'
  have kept : edge ∈ (code.addNode policy data).view.edges := by rwa [view_addNode policy consistent]
  have allowed := valid edge kept
  rw [addNode_allows policy consistent data foundSource foundTarget namedSource namedTarget,
    Bool.and_eq_true] at allowed
  exact allowed.1

/-- An edit keeps the edges allowed exactly when it keeps those at a replaced node. -/
theorem edit_valid (valid : code.view.Valid) (edit : Edit) :
    (code.apply policy edit.operation).view.Valid ↔ edit.KeepsEdges code := by
  cases edit with
  | addNode data => exact ⟨keepsEdges_of_valid policy consistent, addNode_valid policy consistent valid⟩
  | addEdge source target data =>
    apply iff_of_true _ trivial
    change (code.addEdge source target data).1.view.Valid
    rw [view_addEdge consistent]
    exact addEdge_valid valid source target data
  | removeNode id =>
    apply iff_of_true _ trivial
    change (code.removeNode id).1.view.Valid
    rw [view_removeNode consistent]
    exact removeNode_valid valid id

theorem valid_iff : code.view.Valid ↔ ∀ link ∈ code.graph.links, ∀ source target,
      code.graph.node link.source = some source → code.graph.node link.target = some target →
        isFinite link.weight.weight = true ∧ link.weight.kind.validFor source.kind target.kind = true := by
  have judged {link : Link EdgeData} {source target : NodeData}
      (foundSource : code.graph.node link.source = some source)
      (foundTarget : code.graph.node link.target = some target) :
      code.view.allows (source.id, target.id, link.weight) = true ↔ isFinite link.weight.weight = true ∧
          link.weight.kind.validFor source.kind target.kind = true := by
    have left := (getNode_eq_some consistent source.id source).mpr ⟨_, foundSource, rfl⟩
    have right := (getNode_eq_some consistent target.id target).mpr ⟨_, foundTarget, rfl⟩
    rw [GraphView.allows, GraphView.accepts, view_nodes_of_getNode left, view_nodes_of_getNode right,
      Bool.and_eq_true, and_comm]
    rfl
  constructor
  · intro valid link mem source target foundSource foundTarget
    have edge := (mem_edges _).mpr ⟨link, mem, source, target, foundSource, foundTarget, rfl⟩
    exact (judged foundSource foundTarget).mp (valid _ edge)
  intro allowed edge mem
  obtain ⟨link, stored, source, target, foundSource, foundTarget, rfl⟩ := (mem_edges edge).mp mem
  exact (judged foundSource foundTarget).mpr
    (allowed link stored source target foundSource foundTarget)

/-- A loaded graph is the saved one exactly when every edge of the saved one is allowed. -/
theorem loads_iff {snap : OverlaySnapshot} (saves : snap.Saves code) :
    (replay policy snap.nodes snap.edges).view.SameAs code.view ↔ code.view.Valid := by
  have loaded := view_replay_saved policy consistent saves
  constructor
  · intro same
    have kept := loaded.edges.symm.trans same.edges
    exact filter_eq_self.mp (filter_sublist.eq_of_length kept.length_eq)
  intro valid
  have all := filter_eq_self.mpr valid
  rwa [all] at loaded

theorem sound_iff : Sound code ↔ code.view.Valid := by
  constructor
  · intro sound
    exact (valid_iff consistent).mpr sound.allowed
  intro valid
  refine ⟨(valid_iff consistent).mp valid, fun _ _ _ _ => addEdge_rejected, ?_,
    fun _ _ => ⟨⟨rfl, .refl _, .refl _⟩, ⟨rfl, .refl _, .refl _⟩⟩⟩
  intro policy snap saves
  have current := not_not.mpr saves.version
  exact ⟨⟨snap.workspaceRoot, snap.baseRef, replay policy snap.nodes snap.edges⟩,
    if_neg current, if_neg current, (loads_iff policy consistent saves).mpr valid⟩

end

/-- All graphs of a run are sound exactly when each replaced node keeps its edges allowed. -/
theorem edited_sound_iff (policy : SlotPolicy) (edits : List Edit) :
    (∀ done, done <+: edits → Sound (edited policy done)) ↔
      ∀ done edit, done ++ [edit] <+: edits → edit.KeepsEdges (edited policy done) := by
  constructor
  · intro sound done edit before
    have reached := sound done ((prefix_append done [edit]).trans before)
    have next := (sound_iff (edited_consistent policy _)).mp (sound (done ++ [edit]) before)
    rw [edited_concat] at next
    exact (edit_valid policy (edited_consistent policy done)
      ((sound_iff (edited_consistent policy done)).mp reached) edit).mp next
  intro keeps done
  rw [sound_iff (edited_consistent policy done)]
  induction done using List.reverseRecOn with
  | nil => exact fun _ => empty_valid
  | append_singleton done edit ih =>
    intro before
    rw [edited_concat]
    exact (edit_valid policy (edited_consistent policy done)
      (ih ((prefix_append done [edit]).trans before)) edit).mpr
      (keeps done edit before)

def caller : NodeData := { id := ⟨1⟩, kind := .function, name := "caller" }

def callee : NodeData := { id := ⟨2⟩, kind := .function, name := "callee" }

/-- The called function is replaced by a struct with its id. -/
def retype : List Edit :=
  [.addNode caller, .addNode callee, .addEdge caller.id callee.id ⟨.calls, {}, 0⟩,
    .addNode { callee with kind := .struct }]

/-- The call of the replaced function stays although a struct cannot be called. -/
theorem retype_unsound : ¬ Sound (edited .fresh retype) := by
  rw [sound_iff (edited_consistent .fresh retype)]
  intro valid
  have stays : (caller.id, callee.id, ⟨.calls, {}, 0⟩) ∈ (edited .fresh retype).edges := by
    decide +kernel
  have refused : (edited .fresh retype).view.allows (caller.id, callee.id, ⟨.calls, {}, 0⟩) = false := by
    decide +kernel
  rw [valid _ stays] at refused
  contradiction

end CodeGraph

end Codegraph
