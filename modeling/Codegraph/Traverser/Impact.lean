import Codegraph.Library.Costs
import Codegraph.Library.Iteration
import Codegraph.Traverser.Store

namespace Codegraph.Traverser

open Library Sync List Dict Store

/-- The members of such a node count as the node itself. -/
def NodeKind.isContainer : NodeKind → Bool
  | .class | .interface | .struct | .union | .trait | .protocol | .module | .enum => true
  | _ => false

/-- A node is reached again only by a shorter route. -/
def reach (best : Dict NodeId Nat) (id : NodeId) (depth : Nat) : Bool × Dict NodeId Nat :=
  match best.get id with
  | some shortest => if shortest ≤ depth then (false, best) else (true, best.set id depth)
  | none => (true, best.set id depth)

/-- The search keeps the shortest depth each node was reached at. -/
structure Impact where
  nodes : Dict NodeId Node
  edges : List Edge
  best : Dict NodeId Nat
  queue : List (NodeId × Nat)

namespace Impact

/-- A node is recorded with the edge of its first sight. -/
def record (state : Impact) (edge : Edge) (node : Node) : Impact :=
  if (state.nodes.get node.id).isSome then state
  else { state with nodes := state.nodes.set node.id node, edges := state.edges ++ [edge] }

/-- A member is as deep as its container and is expanded before the other nodes. -/
def meetMember (children : Dict NodeId Node) (depth : Nat) (state : Impact) (edge : Edge) : Impact :=
  match children.get edge.target with
  | none => state
  | some child =>
    match reach state.best child.id depth with
    | (false, _) => state
    | (true, best) =>
      { state.record edge child with best := best, queue := (child.id, depth) :: state.queue }

/-- A dependent is one step deeper and is expanded after the other nodes. -/
def meetDependent (sources : Dict NodeId Node) (depth : Nat) (state : Impact) (edge : Edge) : Impact :=
  match sources.get edge.source with
  | none => state
  | some source =>
    match reach state.best source.id (depth + 1) with
    | (false, _) => state
    | (true, best) =>
      { state.record edge source with
        best := best, queue := state.queue ++ [(source.id, depth + 1)] }

def expandMembers (store : Store) (id : NodeId) (depth : Nat) (state : Impact) : Impact :=
  let edges := store.getOutgoingEdges id (some [.contains])
  edges.foldl (meetMember (store.getNodesByIds (edges.map Edge.target)) depth) state

/-- A container does not depend on its members. -/
def expandDependents (store : Store) (id : NodeId) (depth : Nat) (state : Impact) : Impact :=
  let edges := (store.getIncomingEdges id none).filter (·.kind ≠ .contains)
  edges.foldl (meetDependent (store.getNodesByIds (edges.map Edge.source)) depth) state

def visit (store : Store) (maxDepth : Nat) (id : NodeId) (depth : Nat) (state : Impact) : Impact :=
  if (state.best.get id).any (· < depth) ∨ maxDepth ≤ depth then state
  else
    match state.nodes.get id with
    | none => state
    | some node =>
      expandDependents store id depth
        (if node.kind.isContainer then expandMembers store id depth state else state)

def step (store : Store) (maxDepth : Nat) (state : Impact) : Option Impact :=
  match state.queue with
  | [] => none
  | (id, depth) :: rest => some (visit store maxDepth id depth { state with queue := rest })

def start (focal : Node) : Impact :=
  ⟨Dict.set ∅ focal.id focal, [], Dict.set ∅ focal.id 0, [(focal.id, 0)]⟩

def empty : Impact := ⟨∅, [], ∅, []⟩

end Impact

namespace Store

/-- Every iteration lowers a depth or shortens the queue. -/
def impactFuel (store : Store) (maxDepth : Nat) : Nat := 2 * (store.nodes.length * (maxDepth + 1)) + 1

/-- A missing node has no dependents. -/
def getImpactRadius (store : Store) (focal : NodeId) (maxDepth : Nat) : Impact :=
  match store.getNodeById focal with
  | none => .empty
  | some node => loop (Impact.step store maxDepth) (store.impactFuel maxDepth) (.start node)

/-- A step from a container to a member is free. -/
def IsMember (store : Store) (container member : NodeId) : Prop :=
  store.Stored member ∧ (∃ node, store.getNodeById container = some node ∧ node.kind.isContainer) ∧
    ∃ edge ∈ store.edges, edge.source = container ∧ edge.target = member ∧ edge.kind = .contains

/-- A step from a node to one that depends on it costs one. -/
def IsDependent (store : Store) (node dependent : NodeId) : Prop :=
  store.Stored dependent ∧ store.Stored node ∧
    ∃ edge ∈ store.edges, edge.source = dependent ∧ edge.target = node ∧ edge.kind ≠ .contains

/-- The node has a route of so much cost from the focal node. -/
abbrev ImpactCosts (store : Store) (focal : NodeId) (cost : Nat) (id : NodeId) : Prop :=
  Costs store.IsMember store.IsDependent focal cost id

/-- The stored node has a route from the focal node that the depth allows. -/
def WithinRadius (store : Store) (focal : NodeId) (maxDepth : Nat) (id : NodeId) : Prop :=
  store.Stored id ∧ store.Stored focal ∧ ∃ cost ≤ maxDepth, store.ImpactCosts focal cost id

/-- A member of a container at the depth bound has a step from a node below the bound. -/
def BorderMembersMet (store : Store) (focal : NodeId) (maxDepth : Nat) : Prop :=
  ∀ container member, store.ImpactCosts focal maxDepth container →
    (∀ cost, store.ImpactCosts focal cost container → maxDepth ≤ cost) → store.IsMember container member →
        member = focal ∨ Adjoins store.IsMember store.IsDependent focal maxDepth member

end Store

namespace Impact

theorem reach_eq (best : Dict NodeId Nat) (id : NodeId) (depth : Nat) :
    (Below best.get depth id ∧ reach best id depth = (false, best)) ∨
      (¬ Below best.get depth id ∧ reach best id depth = (true, best.set id depth)) := by
  unfold reach Below
  cases found : best.get id with
  | none =>
    right
    exact ⟨by simp, rfl⟩
  | some shortest =>
    by_cases near : shortest ≤ depth
    · left
      simp [near]
    · right
      simp [near]

theorem set_eq_update (best : Dict NodeId Nat) (id : NodeId) (depth : Nat) :
    (best.set id depth).get = Function.update best.get id (some depth) := by
  funext other
  rw [get_set, Function.update_apply]

/-- The depths are labels of the recorded nodes, and what waits has no smaller label. -/
structure Sound (store : Store) (focal : NodeId) (maxDepth : Nat)
    (expanding : NodeId → Nat → Prop) (state : Impact) : Prop where
  labelled : Labelled store.IsMember store.IsDependent focal maxDepth state.best.get
    fun id cost => (id, cost) ∈ state.queue ∨ expanding id cost
  queued : ∀ id cost, (id, cost) ∈ state.queue → Below state.best.get cost id
  recorded : ∀ id, (state.nodes.get id).isSome ↔ (state.best.get id).isSome
  stored : ∀ id node, state.nodes.get id = some node → store.getNodeById id = some node

/-- The iterations that are left. -/
def effort (store : Store) (maxDepth : Nat) (state : Impact) : Nat :=
  2 * slack maxDepth state.best.get (store.nodes.map Node.id) + state.queue.length

/-- The state stays sound, the depths fall and the work that is left does not grow. -/
structure Progress (store : Store) (focal : NodeId) (maxDepth : Nat)
    (expanding : NodeId → Nat → Prop) (before after : Impact) : Prop where
  sound : after.Sound store focal maxDepth expanding
  falls : Falls before.best.get after.best.get
  effort : after.effort store maxDepth ≤ before.effort store maxDepth

variable {store : Store} {focal : NodeId} {maxDepth : Nat} {expanding : NodeId → Nat → Prop}
  {state : Impact}

theorem Progress.refl (sound : state.Sound store focal maxDepth expanding) :
    Progress store focal maxDepth expanding state state :=
  ⟨sound, Falls.refl _, le_refl _⟩

theorem Progress.trans {before middle after : Impact}
    (first : Progress store focal maxDepth expanding before middle)
    (second : Progress store focal maxDepth expanding middle after) :
    Progress store focal maxDepth expanding before after :=
  ⟨second.sound, first.falls.trans second.falls, le_trans second.effort first.effort⟩

theorem get_record (state : Impact) (edge : Edge) (node : Node) (id : NodeId) :
    (state.record edge node).nodes.get id =
      if id = node.id ∧ state.nodes.get id = none then some node else state.nodes.get id := by
  unfold record
  split
  · rename_i present
    rw [if_neg]
    rintro ⟨rfl, absent⟩
    rw [absent] at present
    contradiction
  rename_i absent
  rw [Option.not_isSome_iff_eq_none] at absent
  rw [get_set]
  by_cases same : id = node.id
  · subst same
    rw [if_pos rfl, if_pos ⟨rfl, absent⟩]
  · rw [if_neg same, if_neg (fun both => same both.1)]

variable {depth : Nat}

theorem Sound.discover (sound : state.Sound store focal maxDepth expanding) {node : Node}
    {queue : List (NodeId × Nat)} (edge : Edge)
    (stored : store.getNodeById node.id = some node) (shorter : ¬ Below state.best.get depth node.id)
    (route : store.ImpactCosts focal depth node.id) (within : depth ≤ maxDepth)
    (adjoins : Adjoins store.IsMember store.IsDependent focal maxDepth node.id)
    (permuted : queue.Perm ((node.id, depth) :: state.queue)) :
    Progress store focal maxDepth expanding state
      { state.record edge node with best := state.best.set node.id depth, queue := queue } := by
  have falls : Falls state.best.get (state.best.set node.id depth).get := by
    rw [set_eq_update]
    exact falls_update shorter
  refine ⟨⟨?_, ?_, ?_, ?_⟩, falls, ?_⟩
  · rw [set_eq_update]
    apply sound.labelled.offer shorter route within adjoins
    · exact .inl (permuted.mem_iff.mpr mem_cons_self)
    intro other least waiting
    rcases waiting with waiting | waiting
    · exact .inl (permuted.mem_iff.mpr (mem_cons_of_mem _ waiting))
    · exact .inr waiting
  · intro id cost waiting
    rcases mem_cons.mp (permuted.mem_iff.mp waiting) with same | waiting
    · obtain ⟨rfl, rfl⟩ := Prod.mk.inj same
      exact ⟨cost, le_refl _, get_set_self ..⟩
    · exact (sound.queued id cost waiting).falls falls
  · intro id
    rw [get_record, get_set]
    by_cases same : id = node.id
    · rw [if_pos same]
      cases found : state.nodes.get id <;> simp [same]
    · rw [if_neg same, if_neg (fun both => same both.1), sound.recorded]
  · intro id other found
    rw [get_record] at found
    split at found
    · rename_i both
      cases found
      rwa [both.1]
    · exact sound.stored id other found
  · have mem : node.id ∈ store.nodes.map Node.id := mem_map_of_mem (getNodeById_eq.mp stored).1
    have lower := slack_update mem shorter within
    have length := permuted.length_eq
    rw [length_cons] at length
    unfold effort
    rw [set_eq_update]
    simp only
    omega

theorem foldl_progress (meet : Impact → Edge → Impact) (finish : Edge → NodeId) (depth : Nat)
    (edges : List Edge)
    (keeps : ∀ state, ∀ edge ∈ edges, state.Sound store focal maxDepth expanding →
      Progress store focal maxDepth expanding state (meet state edge) ∧
        (store.Stored (finish edge) → Below (meet state edge).best.get depth (finish edge)))
    (sound : state.Sound store focal maxDepth expanding) :
    Progress store focal maxDepth expanding state (edges.foldl meet state) ∧
      ∀ edge ∈ edges, store.Stored (finish edge) →
        Below (edges.foldl meet state).best.get depth (finish edge) := by
  induction edges using List.reverseRecOn with
  | nil => exact ⟨.refl sound, by simp⟩
  | append_singleton edges last ih =>
    obtain ⟨progress, below⟩ := ih fun state edge mem => keeps state edge (mem_append_left _ mem)
    rw [foldl_append, foldl_cons, foldl_nil]
    obtain ⟨progress', below'⟩ := keeps (edges.foldl meet state) last (by simp) progress.sound
    refine ⟨progress.trans progress', ?_⟩
    intro edge mem stored
    rcases mem_append.mp mem with earlier | here
    · exact (below edge earlier stored).falls progress'.falls
    · rw [mem_singleton.mp here] at stored ⊢
      exact below' stored

theorem meetMember_progress {children : Dict NodeId Node} {edge : Edge}
    (found : children.get edge.target = store.getNodeById edge.target)
    (route : store.Stored edge.target → store.ImpactCosts focal depth edge.target ∧
      Adjoins store.IsMember store.IsDependent focal maxDepth edge.target)
    (within : depth ≤ maxDepth) (sound : state.Sound store focal maxDepth expanding) :
    Progress store focal maxDepth expanding state (meetMember children depth state edge) ∧
      (store.Stored edge.target →
        Below (meetMember children depth state edge).best.get depth edge.target) := by
  rw [meetMember, found]
  cases here : store.getNodeById edge.target with
  | none =>
    refine ⟨.refl sound, ?_⟩
    intro stored
    rw [Store.Stored, here] at stored
    contradiction
  | some child =>
    have same := getNodeById_id here
    have stored : store.Stored edge.target := by rw [Store.Stored, here]; rfl
    obtain ⟨route, adjoins⟩ := route stored
    rw [← same] at here route adjoins ⊢
    rcases reach_eq state.best child.id depth with ⟨below, kept⟩ | ⟨shorter, changed⟩
    · simp only [kept]
      exact ⟨.refl sound, fun _ => below⟩
    simp only [changed]
    exact ⟨sound.discover edge here shorter route within adjoins (.refl _),
      fun _ => ⟨depth, le_refl _, get_set_self ..⟩⟩

theorem meetDependent_progress {sources : Dict NodeId Node} {edge : Edge}
    (found : sources.get edge.source = store.getNodeById edge.source)
    (route : store.Stored edge.source → store.ImpactCosts focal (depth + 1) edge.source ∧
      Adjoins store.IsMember store.IsDependent focal maxDepth edge.source)
    (within : depth + 1 ≤ maxDepth) (sound : state.Sound store focal maxDepth expanding) :
    Progress store focal maxDepth expanding state (meetDependent sources depth state edge) ∧
      (store.Stored edge.source →
        Below (meetDependent sources depth state edge).best.get (depth + 1) edge.source) := by
  rw [meetDependent, found]
  cases here : store.getNodeById edge.source with
  | none =>
    refine ⟨.refl sound, ?_⟩
    intro stored
    rw [Store.Stored, here] at stored
    contradiction
  | some source =>
    have same := getNodeById_id here
    have stored : store.Stored edge.source := by rw [Store.Stored, here]; rfl
    obtain ⟨route, adjoins⟩ := route stored
    rw [← same] at here route adjoins ⊢
    rcases reach_eq state.best source.id (depth + 1) with ⟨below, kept⟩ | ⟨shorter, changed⟩
    · simp only [kept]
      exact ⟨.refl sound, fun _ => below⟩
    simp only [changed]
    exact ⟨sound.discover edge here shorter route within adjoins (perm_append_singleton ..),
      fun _ => ⟨depth + 1, le_refl _, get_set_self ..⟩⟩

theorem expandMembers_progress {id : NodeId} {node : Node}
    (stored : store.getNodeById id = some node) (container : node.kind.isContainer = true)
    (route : store.ImpactCosts focal depth id) (below : depth < maxDepth)
    (sound : state.Sound store focal maxDepth expanding) :
    Progress store focal maxDepth expanding state (expandMembers store id depth state) ∧
      ∀ mem, store.IsMember id mem → Below (expandMembers store id depth state).best.get depth mem := by
  have mem (edge : Edge) (listed : edge ∈ store.getOutgoingEdges id (some [.contains]))
      (present : store.Stored edge.target) : store.IsMember id edge.target := by
    rw [mem_getOutgoingEdges] at listed
    exact ⟨present, ⟨node, stored, container⟩, edge, listed.1, listed.2.1, rfl,
      by simpa [kindAdmitted] using listed.2.2⟩
  obtain ⟨progress, reached⟩ := foldl_progress
    (meetMember (store.getNodesByIds
      ((store.getOutgoingEdges id (some [.contains])).map Edge.target)) depth)
    Edge.target depth (store.getOutgoingEdges id (some [.contains])) (fun state edge listed sound => by
      refine meetMember_progress ?_ ?_ (le_of_lt below) sound
      · rw [get_getNodesByIds, if_pos (mem_map_of_mem listed)]
      intro present
      exact ⟨.free route (mem edge listed present),
        id, depth, below, route, .inl (mem edge listed present)⟩) sound
  refine ⟨progress, ?_⟩
  rintro other ⟨present, _, edge, listed, rfl, rfl, kind⟩
  refine reached edge ?_ present
  rw [mem_getOutgoingEdges]
  exact ⟨listed, rfl, by simp [kindAdmitted, kind]⟩

theorem expandDependents_progress {id : NodeId} (stored : store.Stored id)
    (route : store.ImpactCosts focal depth id) (below : depth < maxDepth)
    (sound : state.Sound store focal maxDepth expanding) :
    Progress store focal maxDepth expanding state (expandDependents store id depth state) ∧
      ∀ dependent, store.IsDependent id dependent →
        Below (expandDependents store id depth state).best.get (depth + 1) dependent := by
  have dependent (edge : Edge)
      (listed : edge ∈ (store.getIncomingEdges id none).filter (·.kind ≠ .contains))
      (present : store.Stored edge.source) : store.IsDependent id edge.source := by
    rw [mem_filter, mem_getIncomingEdges] at listed
    exact ⟨present, stored, edge, listed.1.1, rfl, listed.1.2.1, by simpa using listed.2⟩
  obtain ⟨progress, reached⟩ := foldl_progress
    (meetDependent (store.getNodesByIds
      (((store.getIncomingEdges id none).filter (·.kind ≠ .contains)).map Edge.source)) depth)
    Edge.source (depth + 1) ((store.getIncomingEdges id none).filter (·.kind ≠ .contains))
    (fun state edge listed sound => by
      refine meetDependent_progress ?_ ?_ below sound
      · rw [get_getNodesByIds, if_pos (mem_map_of_mem listed)]
      intro present
      exact ⟨.paid route (dependent edge listed present),
        id, depth, below, route, .inr (dependent edge listed present)⟩) sound
  refine ⟨progress, ?_⟩
  rintro other ⟨present, _, edge, listed, rfl, finish, kind⟩
  refine reached edge ?_ present
  rw [mem_filter, mem_getIncomingEdges]
  exact ⟨⟨listed, finish, rfl⟩, by simpa using kind⟩

/-- A node that is taken from the queue is settled, has a shorter route or lies at the bound. -/
theorem visit_progress {id : NodeId} (queued : Below state.best.get depth id)
    (sound : state.Sound store focal maxDepth fun other cost => other = id ∧ cost = depth) :
    Progress store focal maxDepth (fun _ _ => False) state
      (visit store maxDepth id depth state) := by
  have release {after : Impact}
      (progress : Progress store focal maxDepth (fun other cost => other = id ∧ cost = depth)
        state after)
      (settled : after.best.get id = some depth → depth < maxDepth →
        Settled store.IsMember store.IsDependent after.best.get depth id) :
      Progress store focal maxDepth (fun _ _ => False) state after := by
    have sound := progress.sound
    refine ⟨⟨?_, sound.queued, sound.recorded, sound.stored⟩, progress.falls, progress.effort⟩
    apply sound.labelled.release
    rintro other cost found below (waiting | ⟨rfl, rfl⟩)
    · exact .inl (.inl waiting)
    · exact .inr (settled found below)
  obtain ⟨least, small, found⟩ := queued
  unfold visit
  split
  · rename_i skipped
    apply release (.refl sound)
    intro same below
    rw [same] at found skipped
    cases found
    simp at skipped
    omega
  rename_i visited
  rw [found, Option.any_some, decide_eq_true_eq] at visited
  obtain rfl : least = depth := by omega
  have below : least < maxDepth := by omega
  cases recorded : state.nodes.get id with
  | none =>
    have present := (sound.recorded id).mpr (by rw [found]; rfl)
    rw [recorded] at present
    contradiction
  | some node =>
    have stored := sound.stored id node recorded
    have present : store.Stored id := by rw [Store.Stored, stored]; rfl
    have route := sound.labelled.real id least found
    simp only
    split
    · rename_i container
      obtain ⟨first, members⟩ := expandMembers_progress stored container route below sound
      obtain ⟨second, dependents⟩ := expandDependents_progress present route below first.sound
      apply release (first.trans second)
      exact fun _ _ => ⟨fun next mem => (members next mem).falls second.falls, dependents⟩
    rename_i leaf
    obtain ⟨progress, dependents⟩ := expandDependents_progress present route below sound
    apply release progress
    refine fun _ _ => ⟨?_, dependents⟩
    rintro next ⟨_, ⟨other, found', container⟩, _⟩
    rw [stored] at found'
    cases found'
    exact absurd container leaf

theorem step_sound {after : Impact} (sound : state.Sound store focal maxDepth fun _ _ => False)
    (moved : step store maxDepth state = some after) :
    after.Sound store focal maxDepth (fun _ _ => False) ∧
      after.effort store maxDepth < state.effort store maxDepth := by
  unfold step at moved
  cases queued : state.queue with
  | nil =>
    rw [queued] at moved
    contradiction
  | cons first rest =>
    obtain ⟨id, depth⟩ := first
    rw [queued] at moved
    cases moved
    have progress : Progress store focal maxDepth (fun _ _ => False) { state with queue := rest }
        (visit store maxDepth id depth { state with queue := rest }) := visit_progress
      (sound.queued id depth (by rw [queued]; exact mem_cons_self)) (by
        refine ⟨?_, ?_, sound.recorded, sound.stored⟩
        · apply sound.labelled.release
          rintro other cost found below (waiting | impossible)
          · rw [queued] at waiting
            rcases mem_cons.mp waiting with same | waiting
            · exact .inl (.inr (Prod.mk.inj same))
            · exact .inl (.inl waiting)
          · contradiction
        · intro other cost waiting
          exact sound.queued other cost (by rw [queued]; exact mem_cons_of_mem _ waiting))
    refine ⟨progress.sound, Nat.lt_of_le_of_lt progress.effort ?_⟩
    simp only [effort, queued, length_cons]
    omega

theorem start_sound {node : Node} (stored : store.getNodeById focal = some node) :
    (start node).Sound store focal maxDepth fun _ _ => False := by
  obtain rfl := getNodeById_id stored
  have only (id : NodeId) (cost : Nat) :
      (start node).best.get id = some cost ↔ id = node.id ∧ cost = 0 := by
    simp only [start, get_set, get_empty]
    split <;> simp [*, eq_comm]
  refine ⟨⟨?_, ?_, ?_, ?_⟩, ?_, ?_, ?_⟩
  · exact (only _ _).mpr ⟨rfl, rfl⟩
  · intro id cost found
    obtain ⟨rfl, rfl⟩ := (only id cost).mp found
    exact .start
  · intro id cost found
    obtain ⟨rfl, rfl⟩ := (only id cost).mp found
    exact ⟨Nat.zero_le _, .inl rfl⟩
  · intro id cost found _
    obtain ⟨rfl, rfl⟩ := (only id cost).mp found
    exact .inl (.inl mem_cons_self)
  · intro id cost waiting
    obtain ⟨rfl, rfl⟩ := Prod.mk.inj (mem_singleton.mp waiting)
    exact ⟨0, le_refl _, (only _ _).mpr ⟨rfl, rfl⟩⟩
  · intro id
    simp only [start, get_set, get_empty]
    split <;> rfl
  · intro id other found
    simp only [start, get_set, get_empty] at found
    split at found
    · rename_i same
      cases found
      rwa [same]
    · contradiction

theorem start_effort {node : Node} (stored : store.getNodeById focal = some node) :
    (start node).effort store maxDepth ≤ store.impactFuel maxDepth := by
  have mem : node.id ∈ store.nodes.map Node.id := mem_map_of_mem (getNodeById_eq.mp stored).1
  have empty : (Dict.get ∅ : NodeId → Option Nat) = fun _ => none := by
    funext id
    exact get_empty id
  have unlabelled : ¬ Below (fun _ => none) 0 node.id := by
    rintro ⟨_, _, found⟩
    contradiction
  have lower := slack_update mem unlabelled (Nat.zero_le maxDepth)
  rw [slack_empty, length_map] at lower
  simp only [effort, Store.impactFuel, start, set_eq_update, empty, length_singleton]
  omega

end Impact

namespace Store

variable {store other : Store} {focal : NodeId} {maxDepth : Nat}

theorem getImpactRadius_halts {node : Node} (stored : store.getNodeById focal = some node) :
    Halts (Impact.step store maxDepth) (.start node) (store.getImpactRadius focal maxDepth) := by
  rw [getImpactRadius, stored]
  have keeps (before after : Impact)
      (sound : before.Sound store focal maxDepth fun _ _ => False)
      (moved : Impact.step store maxDepth before = some after) :
      after.Sound store focal maxDepth fun _ _ => False := (Impact.step_sound sound moved).1
  exact halts_loop keeps (fun _ _ sound moved => (Impact.step_sound sound moved).2)
    (store.impactFuel maxDepth) _ (Impact.start_sound stored) (Impact.start_effort stored)

theorem getImpactRadius_nodes (store : Store) (focal : NodeId) (maxDepth : Nat) (id : NodeId) :
    id ∈ (store.getImpactRadius focal maxDepth).nodes.keys ↔ store.Stored id ∧ store.Stored focal ∧
        (id = focal ∨ Adjoins store.IsMember store.IsDependent focal maxDepth id) := by
  rw [mem_keys_iff, ← Option.isSome_iff_exists]
  cases stored : store.getNodeById focal with
  | none =>
    have absent : ¬ store.Stored focal := by
      rw [Stored, stored]
      exact Bool.false_ne_true
    simp [getImpactRadius, stored, absent, Impact.empty]
  | some node =>
    have halts := @getImpactRadius_halts store focal maxDepth node stored
    have sound := halts.preserves
      (fun _ _ sound moved => (Impact.step_sound sound moved).1) (Impact.start_sound stored)
    have ended := halts.ended
    have empty : (store.getImpactRadius focal maxDepth).queue = [] := by
      unfold Impact.step at ended
      split at ended
      · assumption
      · contradiction
    have labelled : Labelled store.IsMember store.IsDependent focal maxDepth
        (store.getImpactRadius focal maxDepth).best.get fun _ _ => False := by
      apply sound.labelled.release
      rintro other cost _ _ (waiting | impossible)
      · rw [empty] at waiting
        contradiction
      · contradiction
    have present : store.Stored focal := by rw [Stored, stored]; rfl
    rw [sound.recorded, labelled.complete]
    constructor
    · intro near
      refine ⟨?_, present, near⟩
      rcases near with same | ⟨_, _, _, _, last | last⟩
      · rwa [same]
      · exact last.1
      · exact last.1
    · exact fun all => all.2.2

theorem SameRows.isMember (same : other.SameRows store) : other.IsMember = store.IsMember := by
  funext container mem
  simp only [IsMember, Stored, same.getNodeById, same.edges.mem_iff]

theorem SameRows.isDependent (same : other.SameRows store) : other.IsDependent = store.IsDependent := by
  funext node dependent
  simp only [IsDependent, Stored, same.getNodeById, same.edges.mem_iff]

theorem IsMember.stored {container mem : NodeId} (step : store.IsMember container mem) :
    store.Stored container := by
  obtain ⟨_, ⟨node, found, _⟩, _⟩ := step
  rw [Stored, found]
  rfl

theorem ImpactCosts.stored {cost : Nat} {id : NodeId} (costs : store.ImpactCosts focal cost id)
    (present : store.Stored id) : store.Stored focal := by
  induction costs with
  | start => exact present
  | free _ last ih => exact ih last.stored
  | paid _ last ih => exact ih last.2.1

/-- The radius holds the nodes within the depth, whatever the order of the rows, if and only if
the members of the containers at the depth bound are met below it. -/
theorem getImpactRadius_exact_iff (store : Store) (focal : NodeId) (maxDepth : Nat) :
    (∀ other : Store, other.SameRows store →
      (∀ node, other.getNodeById focal = some node → Halts (Impact.step other maxDepth)
        (.start node) (other.getImpactRadius focal maxDepth)) ∧
      ∀ id, id ∈ (other.getImpactRadius focal maxDepth).nodes.keys ↔ store.WithinRadius focal maxDepth id) ↔
    store.BorderMembersMet focal maxDepth := by
  constructor
  · intro agrees container mem costs least step
    have within : store.WithinRadius focal maxDepth mem :=
      ⟨step.1, costs.stored step.stored, maxDepth, le_refl _, .free costs step⟩
    have listed := ((agrees store (.refl store)).2 mem).mpr within
    exact ((getImpactRadius_nodes store focal maxDepth mem).mp listed).2.2
  intro border other same
  refine ⟨fun node stored => getImpactRadius_halts stored, fun id => ?_⟩
  rw [getImpactRadius_nodes, same.isMember, same.isDependent]
  simp only [Stored, same.getNodeById]
  refine and_congr_right fun _ => and_congr_right fun present => ?_
  constructor
  · rintro (rfl | adjoins)
    · exact ⟨0, Nat.zero_le _, .start⟩
    · exact adjoins.costs
  · rintro ⟨cost, within, costs⟩
    exact costs.adjoins border within

/-- A class contains a method. -/
def classWithMethod : Store where
  nodes := [⟨"class", .class⟩, ⟨"method", .method⟩]
  edges := [⟨"class", "method", .contains, none, none, none⟩]
  arrange _ rows := rows
  keyed := by decide
  arranged _ rows := .refl rows

/-- At depth zero the method of the focal class is left out. -/
theorem radius_leaves_method : ¬ ∀ id, id ∈ (classWithMethod.getImpactRadius "class" 0).nodes.keys ↔
      classWithMethod.WithinRadius "class" 0 id := by
  intro agrees
  have within : classWithMethod.WithinRadius "class" 0 "method" := by
    refine ⟨by decide, by decide, 0, le_refl _, .free .start ⟨by decide, ?_, ?_⟩⟩
    · exact ⟨⟨"class", .class⟩, by decide, rfl⟩
    · exact ⟨_, mem_singleton_self _, rfl, rfl, rfl⟩
  have listed := (agrees "method").mpr within
  revert listed
  decide

end Store

end Codegraph.Traverser
