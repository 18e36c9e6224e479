import Codegraph.Library.Relaxation

namespace Codegraph.Library

open Relation List Dict

variable {Node Cost Key : Type} [Costing Cost] [LinearOrder Key]

/-- A walk goes one edge further from a node and a cost at which it may. -/
inductive Advance (edges : Node → List (Node × Cost)) (may : Node → Cost → Prop) :
    Node × Cost → Node × Cost → Prop
  | edge {node : Node} {cost : Cost} {next : Node × Cost} (here : may node cost)
      (listed : next ∈ edges node) :
      Advance edges may (node, cost) (next.1, Costing.add cost next.2)

/-- The costs of walks, counted from a node and a cost. -/
abbrev Route (edges : Node → List (Node × Cost)) (may : Node → Cost → Prop) :
    Node × Cost → Node × Cost → Prop := ReflTransGen (Advance edges may)

/-- Adding the weight of an edge keeps costs proper and in order. -/
structure Additive (key : Cost → Key) (Proper : Cost → Prop) (edges : Node → List (Node × Cost)) : Prop where
  proper : ∀ node, ∀ edge ∈ edges node, ∀ cost, Proper cost → Proper (Costing.add cost edge.2)
  monotone : ∀ node, ∀ edge ∈ edges node, ∀ first second, Proper first → Proper second →
    key first ≤ key second → key (Costing.add first edge.2) ≤ key (Costing.add second edge.2)

theorem Route.proper {key : Cost → Key} {Proper : Cost → Prop} {edges : Node → List (Node × Cost)}
    (additive : Additive key Proper edges) {may : Node → Cost → Prop} {first last : Node × Cost}
    (proper : Proper first.2) (route : Route edges may first last) : Proper last.2 := by
  induction route with
  | refl => exact proper
  | tail before last ih =>
    cases last with
    | edge here listed => exact additive.proper _ _ listed _ ih

theorem Ordered.route {key : Cost → Key} {Proper : Cost → Prop} {edges : Node → List (Node × Cost)}
    (ordered : Ordered key Proper) (additive : Additive key Proper edges)
    {may : Node → Cost → Prop} {source : Node} {last : Node × Cost}
    (route : Route edges may (source, Costing.zero) last) : Proper last.2 :=
  Route.proper additive ordered.zero route

/-- A walk reaches the goal, and no cost on the way exceeds the limit. -/
def ReachesWithin (key : Cost → Key) (edges : Node → List (Node × Cost)) (source goal : Node)
    (limit : Key) : Prop :=
  ∃ cost, Route edges (fun _ cost => key cost ≤ limit) (source, Costing.zero) (goal, cost) ∧
    key cost ≤ limit

/-- A search for the goal may go on from a node at a cost: no walk reaches the goal within less. -/
def Expanded (key : Cost → Key) (edges : Node → List (Node × Cost)) (source : Node)
    (goal : Option Node) (node : Node) (cost : Cost) : Prop :=
  goal ≠ some node ∧ ∀ target limit, goal = some target → limit < key Costing.infinity →
    ReachesWithin key edges source target limit → key cost ≤ limit

namespace Relaxing

variable [DecidableEq Node] {key : Cost → Key} {Proper : Cost → Prop}
variable {edges : Node → List (Node × Cost)} {source : Node} {goal : Option Node}

/-- The distance of a node is no larger than the bound. -/
def Known (key : Cost → Key) (state : Relaxing Node Cost) (node : Node) (bound : Cost) : Prop :=
  key (state.distance node) ≤ key bound

/-- The distances are costs of walks, and what waits or is left to relax explains the larger ones. -/
structure Relaxed (key : Cost → Key) (edges : Node → List (Node × Cost)) (source : Node)
    (goal : Option Node) (left : Node → Cost → Node × Cost → Prop)
    (state : Relaxing Node Cost) : Prop where
  started : state.Known key source Costing.zero
  real : ∀ node cost, state.dist.get node = some cost →
    Route edges (Expanded key edges source goal) (source, Costing.zero) (node, cost)
  finite : ∀ node cost, state.dist.get node = some cost → key cost < key Costing.infinity
  queued : ∀ entry ∈ state.heap,
    Route edges (Expanded key edges source goal) (source, Costing.zero) (entry.2, entry.1) ∧
      ∃ cost, state.dist.get entry.2 = some cost ∧ key cost ≤ key entry.1
  waits : ∀ node cost, state.dist.get node = some cost → (cost, node) ∈ state.heap ∨
    (goal ≠ some node ∧ ∀ edge ∈ edges node,
      left node cost edge ∨ state.Known key edge.1 (Costing.add cost edge.2))

variable {state : Relaxing Node Cost} {cost : Cost}

theorem distance_of_get {node : Node}
    (found : state.dist.get node = some cost) : state.distance node = cost := by
  rw [distance, Dict.getD, found]
  rfl

theorem Known.get {node : Node} {bound : Cost}
    (known : state.Known key node bound) (finite : key bound < key Costing.infinity) :
    ∃ cost, state.dist.get node = some cost ∧ key cost ≤ key bound := by
  cases found : state.dist.get node with
  | none =>
    rw [Known, distance, Dict.getD, found] at known
    exact absurd known (not_le_of_gt finite)
  | some cost =>
    rw [Known, distance_of_get found] at known
    exact ⟨cost, rfl, known⟩

/-- Something cheap enough waits, or the distance of the node is no larger than the walk. -/
theorem Relaxed.frontier (ordered : Ordered key Proper) (additive : Additive key Proper edges)
    (relaxed : Relaxed key edges source goal (fun _ _ _ => False) state) {limit : Key}
    (finite : limit < key Costing.infinity) {last : Node × Cost}
    (route : Route edges (fun _ cost => key cost ≤ limit) (source, Costing.zero) last)
    (within : key last.2 ≤ limit) :
    (∃ entry ∈ state.heap, key entry.1 ≤ limit) ∨
      ∃ cost, state.dist.get last.1 = some cost ∧ key cost ≤ key last.2 ∧ goal ≠ some last.1 ∧
        ∀ edge ∈ edges last.1, state.Known key edge.1 (Costing.add cost edge.2) := by
  have settle {node : Node} {bound : Cost} (known : state.Known key node bound)
      (bounded : key bound ≤ limit) :
      (∃ entry ∈ state.heap, key entry.1 ≤ limit) ∨
        ∃ cost, state.dist.get node = some cost ∧ key cost ≤ key bound ∧ goal ≠ some node ∧
          ∀ edge ∈ edges node, state.Known key edge.1 (Costing.add cost edge.2) := by
    obtain ⟨cost, found, small⟩ := known.get (bounded.trans_lt finite)
    rcases relaxed.waits node cost found with waiting | ⟨other, done⟩
    · exact .inl ⟨_, waiting, small.trans bounded⟩
    · exact .inr ⟨cost, found, small, other, fun edge listed => (done edge listed).resolve_left id⟩
  induction route with
  | refl => exact settle relaxed.started within
  | tail before last ih =>
    cases last with
    | @edge node cost edge here listed =>
      rcases ih here with waiting | ⟨least, found, small, -, done⟩
      · exact .inl waiting
      have proper := ordered.route additive before
      have proper' := ordered.route additive (relaxed.real _ _ found)
      have larger := additive.monotone node edge listed least cost proper' proper small
      exact settle ((done edge listed).trans larger) within

theorem Relaxed.proper (ordered : Ordered key Proper)
    (additive : Additive key Proper edges) {left : Node → Cost → Node × Cost → Prop}
    (relaxed : Relaxed key edges source goal left state) (node : Node) :
    Proper (state.distance node) := by
  cases found : state.dist.get node with
  | none =>
    rw [distance, Dict.getD, found]
    exact ordered.infinity
  | some cost =>
    rw [distance_of_get found]
    exact ordered.route additive (relaxed.real node cost found)

/-- The shorter way to a target has been noted. -/
def noted (state : Relaxing Node Cost) (node target : Node) (cost : Cost) : Relaxing Node Cost where
  dist := state.dist.set target cost
  prev := state.prev.set target node
  heap := state.heap ++ [(cost, target)]

theorem distance_noted (state : Relaxing Node Cost) (node target other : Node) (cost : Cost) :
    (state.noted node target cost).distance other = if other = target then cost else state.distance other :=
  getD_set state.dist target other cost _

theorem relax_cases (ordered : Ordered key Proper)
    (node : Node) {edge : Node × Cost} (proper : Proper (Costing.add cost edge.2))
    (proper' : Proper (state.distance edge.1)) :
    (relax cost node state edge = state ∧ state.Known key edge.1 (Costing.add cost edge.2)) ∨
      (relax cost node state edge = state.noted node edge.1 (Costing.add cost edge.2) ∧
        key (Costing.add cost edge.2) < key (state.distance edge.1)) := by
  unfold relax
  dsimp only
  split
  · rename_i shorter
    exact .inr ⟨rfl, (ordered.less _ _ proper proper').mp shorter⟩
  · rename_i longer
    exact .inl ⟨rfl, (ordered.not_less proper proper').mp longer⟩

theorem known_noted {node target : Node}
    (shorter : key cost < key (state.distance target)) {other : Node} {bound : Cost}
    (known : state.Known key other bound) : (state.noted node target cost).Known key other bound := by
  unfold Known at known ⊢
  rw [distance_noted]
  split
  · rename_i same
    exact shorter.le.trans (same ▸ known)
  · exact known

theorem known_noted_self {node target : Node} : (state.noted node target cost).Known key target cost := by
  rw [Known, distance_noted, if_pos rfl]

theorem Relaxed.relax (ordered : Ordered key Proper)
    (additive : Additive key Proper edges) {node : Node} {edge : Node × Cost}
    {rest : List (Node × Cost)} (listed : edge ∈ edges node)
    (route : Route edges (Expanded key edges source goal) (source, Costing.zero) (node, cost))
    (expanded : Expanded key edges source goal node cost)
    (relaxed : Relaxed key edges source goal
      (fun node' cost' edge' => node' = node ∧ cost' = cost ∧ edge' ∈ edge :: rest) state) :
    Relaxed key edges source goal
      (fun node' cost' edge' => node' = node ∧ cost' = cost ∧ edge' ∈ rest)
      (Relaxing.relax cost node state edge) := by
  have proper := additive.proper node edge listed cost (ordered.route additive route)
  have bounded : key (state.distance edge.1) ≤ key (Costing.infinity : Cost) := by
    cases found : state.dist.get edge.1 with
    | none =>
      unfold distance Dict.getD
      rw [found]
      exact le_rfl
    | some old => exact distance_of_get found ▸ (relaxed.finite _ _ found).le
  rcases relax_cases ordered node proper (relaxed.proper ordered additive edge.1) with
    ⟨same, known⟩ | ⟨same, shorter⟩
  · rw [same]
    refine { relaxed with waits := fun node' cost' found => ?_ }
    refine (relaxed.waits node' cost' found).imp_right fun ⟨other, done⟩ => ⟨other, fun edge' at' => ?_⟩
    rcases done edge' at' with ⟨rfl, rfl, todo⟩ | done
    · rcases mem_cons.mp todo with rfl | later
      · exact .inr known
      · exact .inl ⟨rfl, rfl, later⟩
    · exact .inr done
  rw [same]
  have label {other : Node} {value : Cost}
      (found : (state.noted node edge.1 (Costing.add cost edge.2)).dist.get other = some value) :
      (other = edge.1 ∧ value = Costing.add cost edge.2) ∨ state.dist.get other = some value := by
    rw [noted, get_set] at found
    split at found
    · rename_i here
      exact .inl ⟨here, (Option.some.inj found).symm⟩
    · exact .inr found
  constructor
  · exact known_noted shorter relaxed.started
  · intro other value found
    rcases label found with ⟨rfl, rfl⟩ | found
    · exact route.tail (.edge expanded listed)
    · exact relaxed.real other value found
  · intro other value found
    rcases label found with ⟨rfl, rfl⟩ | found
    · exact shorter.trans_le bounded
    · exact relaxed.finite other value found
  · intro entry mem
    have lowered : ∀ other value, state.dist.get other = some value →
        ∃ value', (state.noted node edge.1 (Costing.add cost edge.2)).dist.get other =
          some value' ∧ key value' ≤ key value := by
      intro other value found
      rw [noted, get_set]
      split
      · rename_i here
        refine ⟨_, rfl, ?_⟩
        rw [← here, distance_of_get found] at shorter
        exact shorter.le
      · exact ⟨value, found, le_rfl⟩
    rcases mem_append.mp mem with old | new
    · obtain ⟨real, value, found, small⟩ := relaxed.queued entry old
      obtain ⟨value', found', small'⟩ := lowered _ _ found
      exact ⟨real, value', found', small'.trans small⟩
    · rw [mem_singleton.mp new]
      exact ⟨route.tail (.edge expanded listed), _, get_set_self _ _ _, le_rfl⟩
  · intro other value found
    rcases label found with ⟨rfl, rfl⟩ | found
    · exact .inl (mem_append_right _ mem_cons_self)
    refine (relaxed.waits other value found).imp (mem_append_left _) ?_
    refine fun ⟨apart, done⟩ => ⟨apart, fun edge' at' => ?_⟩
    rcases done edge' at' with ⟨rfl, rfl, todo⟩ | done
    · rcases mem_cons.mp todo with rfl | later
      · exact .inr known_noted_self
      · exact .inl ⟨rfl, rfl, later⟩
    · exact .inr (known_noted shorter done)

theorem Relaxed.foldl (ordered : Ordered key Proper)
    (additive : Additive key Proper edges) {node : Node} {todo : List (Node × Cost)}
    (listed : ∀ edge ∈ todo, edge ∈ edges node)
    (route : Route edges (Expanded key edges source goal) (source, Costing.zero) (node, cost))
    (expanded : Expanded key edges source goal node cost)
    (relaxed : Relaxed key edges source goal
      (fun node' cost' edge => node' = node ∧ cost' = cost ∧ edge ∈ todo) state) :
    Relaxed key edges source goal (fun _ _ _ => False)
      (todo.foldl (Relaxing.relax cost node) state) := by
  induction todo generalizing state with
  | nil =>
    refine { relaxed with waits := fun other value found => ?_ }
    refine (relaxed.waits other value found).imp_right fun ⟨apart, done⟩ => ⟨apart, fun edge at' => ?_⟩
    exact .inr ((done edge at').resolve_left fun todo => not_mem_nil todo.2.2)
  | cons edge todo ih =>
    obtain ⟨first, later⟩ := forall_mem_cons.mp listed
    exact ih later (relaxed.relax ordered additive first route expanded)

section Steps

variable {state : Relaxing Node Cost} {cost : Cost} {node : Node} {rest : List (Cost × Node)}

theorem Relaxed.skip (ordered : Ordered key Proper) (additive : Additive key Proper edges)
    (relaxed : Relaxed key edges source goal (fun _ _ _ => False) state)
    (popped : Popped state cost node rest)
    (stale : Costing.less (state.distance node) cost = true) :
    Relaxed key edges source goal (fun _ _ _ => False) { state with heap := rest } := by
  have proper := ordered.route additive (relaxed.queued _ popped.member).1
  refine { relaxed with queued := fun entry mem => ?_, waits := fun other value found => ?_ }
  · exact relaxed.queued entry (popped.perm.mem_iff.mpr (mem_cons_of_mem _ mem))
  refine (relaxed.waits other value found).imp_left fun mem => ?_
  refine (mem_cons.mp (popped.perm.mem_iff.mp mem)).resolve_left fun same => ?_
  obtain ⟨rfl, rfl⟩ := Prod.mk.inj same
  have here : state.distance other = value := distance_of_get found
  rw [here, ordered.less _ _ proper proper] at stale
  exact lt_irrefl _ stale

theorem Relaxed.current (ordered : Ordered key Proper) (additive : Additive key Proper edges)
    (relaxed : Relaxed key edges source goal (fun _ _ _ => False) state)
    (popped : Popped state cost node rest)
    (current : ¬Costing.less (state.distance node) cost = true) :
    state.dist.get node = some cost := by
  obtain ⟨route, value, found, small⟩ := relaxed.queued _ popped.member
  have proper := ordered.route additive route
  have proper' := ordered.route additive (relaxed.real node value found)
  rw [distance_of_get found, ordered.not_less proper' proper] at current
  rw [found, ordered.injective value cost proper' proper (le_antisymm small current)]

/-- No walk reaches the goal within less than the least cost that waits. -/
theorem Relaxed.expanded (ordered : Ordered key Proper) (additive : Additive key Proper edges)
    (relaxed : Relaxed key edges source goal (fun _ _ _ => False) state)
    (popped : Popped state cost node rest) (other : goal ≠ some node) :
    Expanded key edges source goal node cost := by
  refine ⟨other, fun target limit same finite ⟨reached, route, within⟩ => ?_⟩
  rcases relaxed.frontier ordered additive finite route within with
    ⟨entry, mem, bounded⟩ | ⟨_, _, _, apart, _⟩
  · have proper := ordered.route additive (relaxed.queued _ popped.member).1
    have proper' := ordered.route additive (relaxed.queued entry mem).1
    exact ((ordered.not_less proper' proper).mp (popped.least entry mem)).trans bounded
  · exact absurd same apart

theorem Relaxed.taken (relaxed : Relaxed key edges source goal (fun _ _ _ => False) state)
    (popped : Popped state cost node rest) (other : goal ≠ some node) :
    Relaxed key edges source goal
      (fun node' cost' edge => node' = node ∧ cost' = cost ∧ edge ∈ edges node)
      { state with heap := rest } := by
  refine { relaxed with queued := fun entry mem => ?_, waits := fun node' cost' found => ?_ }
  · exact relaxed.queued entry (popped.perm.mem_iff.mpr (mem_cons_of_mem _ mem))
  rcases relaxed.waits node' cost' found with mem | ⟨apart, done⟩
  · rcases mem_cons.mp (popped.perm.mem_iff.mp mem) with same | mem
    · obtain ⟨rfl, rfl⟩ := Prod.mk.inj same
      exact .inr ⟨other, fun edge listed => .inl ⟨rfl, rfl, listed⟩⟩
    · exact .inl mem
  · exact .inr ⟨apart, fun edge listed => .inr ((done edge listed).resolve_left id)⟩

theorem Relaxed.expand (ordered : Ordered key Proper) (additive : Additive key Proper edges)
    (relaxed : Relaxed key edges source goal (fun _ _ _ => False) state)
    (popped : Popped state cost node rest) (other : goal ≠ some node) :
    Relaxed key edges source goal (fun _ _ _ => False)
      ((edges node).foldl (Relaxing.relax cost node) { state with heap := rest }) :=
  Relaxed.foldl ordered additive (fun _ listed => listed) (relaxed.queued _ popped.member).1
    (relaxed.expanded ordered additive popped other) (relaxed.taken popped other)

end Steps

theorem relaxed_start (finite : key Costing.zero < key (Costing.infinity : Cost)) :
    Relaxed key edges source goal (fun _ _ _ => False) (start source) := by
  have label {node : Node} {cost : Cost}
      (found : (start source : Relaxing Node Cost).dist.get node = some cost) :
      node = source ∧ cost = Costing.zero := by
    unfold start at found
    rw [get_set, get_empty] at found
    split at found
    · rename_i same
      exact ⟨same, (Option.some.inj found).symm⟩
    · nomatch found
  have here : (start source : Relaxing Node Cost).dist.get source = some Costing.zero :=
    get_set_self _ _ _
  constructor
  · rw [Known, distance_of_get here]
  · intro node cost found
    obtain ⟨rfl, rfl⟩ := label found
    exact .refl
  · intro node cost found
    obtain ⟨rfl, rfl⟩ := label found
    exact finite
  · intro entry mem
    rw [mem_singleton.mp mem]
    exact ⟨.refl, _, here, le_rfl⟩
  · intro node cost found
    obtain ⟨rfl, rfl⟩ := label found
    exact .inl mem_cons_self

end Relaxing

end Codegraph.Library
