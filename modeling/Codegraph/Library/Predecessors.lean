import Codegraph.Library.CheapestWalks

namespace Codegraph.Library

open Relation List Option Dict

variable {Node Cost Key : Type}

/-- An edge leads from one node to the other. -/
def Adjacent (edges : Node → List (Node × Cost)) (first second : Node) : Prop :=
  ∃ weight, (second, weight) ∈ edges first

/-- A walk leads from the node to the goal. -/
def Useful (edges : Node → List (Node × Cost)) (goal : Option Node) (node : Node) : Prop :=
  ∃ target, goal = some target ∧ ReflTransGen (Adjacent edges) node target

theorem Useful.before {edges : Node → List (Node × Cost)} {goal : Option Node}
    {node before : Node} (useful : Useful edges goal node)
    (adjacent : Adjacent edges before node) : Useful edges goal before := by
  obtain ⟨target, same, walk⟩ := useful
  exact ⟨target, same, walk.head adjacent⟩

variable [Costing Cost] [LinearOrder Key]

/-- On the way to the goal no round trip that the search may make lowers the cost. -/
def Harmless (key : Cost → Key) (edges : Node → List (Node × Cost)) (source : Node)
    (goal : Option Node) : Prop :=
  ∀ node cost cost', Route edges (Expanded key edges source goal) (source, Costing.zero) (node, cost) →
    Route edges (Expanded key edges source goal) (node, cost) (node, cost') →
      Useful edges goal node → ¬Costing.less cost' cost = true

theorem Expanded.lower {key : Cost → Key} {edges : Node → List (Node × Cost)} {source node : Node}
    {goal : Option Node} {cost cost' : Cost} (expanded : Expanded key edges source goal node cost)
    (smaller : key cost' ≤ key cost) : Expanded key edges source goal node cost' :=
  ⟨expanded.1, fun target limit same finite reaches =>
    smaller.trans (expanded.2 target limit same finite reaches)⟩

namespace Relaxing

variable [DecidableEq Node]

/-- The nodes from the source to a node, found from the end. -/
def walkBack (prev : Dict Node Node) : Nat → Node → List Node → Option (List Node)
  | 0, _, _ => none
  | fuel + 1, current, path =>
    match prev.get current with
    | some before => walkBack prev fuel before (before :: path)
    | none => some path

/-- The predecessors of a node lead back to the source. -/
inductive Rooted (prev : Dict Node Node) (source : Node) : Node → Prop
  | root (first : prev.get source = none) : Rooted prev source source
  | step {node before : Node} (last : prev.get node = some before)
      (rooted : Rooted prev source before) : Rooted prev source node

/-- One node is met on the way back from the other. -/
abbrev Leads (prev : Dict Node Node) : Node → Node → Prop :=
  ReflTransGen fun before node => prev.get node = some before

section Chains

variable {prev : Dict Node Node} {source target node before : Node}

/-- A new predecessor of a node that is not met changes nothing. -/
theorem Rooted.set_apart (rooted : Rooted prev source node) (apart : ¬Leads prev target node) :
    Rooted (prev.set target before) source node := by
  induction rooted with
  | root first =>
    have different : source ≠ target := fun same => apart (same ▸ .refl)
    refine .root ?_
    rwa [get_set_ne _ _ different]
  | @step node other last rooted ih =>
    have different : node ≠ target := fun same => apart (same ▸ .refl)
    refine .step ?_ (ih fun leads => apart (leads.tail last))
    rwa [get_set_ne _ _ different]

/-- The way back goes through the new predecessor when it meets the node. -/
theorem Rooted.set_through (rooted : Rooted prev source node)
    (turned : Rooted (prev.set target before) source target) :
    Rooted (prev.set target before) source node := by
  induction rooted with
  | root first =>
    by_cases same : source = target
    · exact same ▸ turned
    refine .root ?_
    rwa [get_set_ne _ _ same]
  | @step node other last rooted ih =>
    by_cases same : node = target
    · exact same ▸ turned
    refine .step ?_ ih
    rwa [get_set_ne _ _ same]

theorem Rooted.walkBack (rooted : Rooted prev source node) : ∃ fuel path, (∀ more, fuel ≤ more → ∀ after,
      Relaxing.walkBack prev more node after = some (path ++ after)) ∧
        (path ++ [node]).head? = some source ∧
          (path ++ [node]).IsChain fun before node => prev.get node = some before := by
  induction rooted with
  | root first =>
    refine ⟨1, [], fun more enough after => ?_, rfl, isChain_singleton _⟩
    obtain ⟨more, rfl⟩ := Nat.exists_eq_add_of_le' enough
    rw [Relaxing.walkBack, first]
    rfl
  | @step node before last rooted ih =>
    obtain ⟨fuel, path, walked, starts, chain⟩ := ih
    refine ⟨fuel + 1, path ++ [before], fun more enough after => ?_, ?_, ?_⟩
    · obtain ⟨more, rfl⟩ := Nat.exists_eq_add_of_le' enough
      unfold Relaxing.walkBack
      rw [last]
      change Relaxing.walkBack prev (more + fuel) before (before :: after) = _
      rw [walked (more + fuel) (Nat.le_add_left _ _), append_assoc]
      rfl
    · rw [head?_append, starts]
      rfl
    rw [isChain_append]
    refine ⟨chain, isChain_singleton _, fun first here second there => ?_⟩
    rw [getLast?_concat] at here
    obtain rfl := some.inj here
    obtain rfl := some.inj there
    exact last

end Chains

variable {key : Cost → Key} {Proper : Cost → Prop} {edges : Node → List (Node × Cost)}
variable {source : Node} {goal : Option Node} {state : Relaxing Node Cost}

/-- A distance is no smaller than that of the predecessor and the edge, and no way back turns. -/
structure Traced (key : Cost → Key) (edges : Node → List (Node × Cost)) (source : Node)
    (goal : Option Node) (state : Relaxing Node Cost) : Prop where
  chained : ∀ node before, state.prev.get node = some before → ∃ weight cost value,
    (node, weight) ∈ edges before ∧ state.dist.get before = some cost ∧
      Expanded key edges source goal before cost ∧ state.dist.get node = some value ∧
        key (Costing.add cost weight) ≤ key value
  rooted : ∀ node cost, state.dist.get node = some cost → Useful edges goal node →
    Rooted state.prev source node

theorem Traced.useful (traced : Traced key edges source goal state) {first last : Node}
    (leads : Leads state.prev first last) (useful : Useful edges goal last) :
    Useful edges goal first := by
  induction leads with
  | refl => exact useful
  | tail before last ih =>
    obtain ⟨weight, -, -, listed, -⟩ := traced.chained _ _ last
    exact ih (useful.before ⟨weight, listed⟩)

variable {left : Node → Cost → Node × Cost → Prop}

section

variable (ordered : Ordered key Proper)
include ordered

theorem Traced.lap (additive : Additive key Proper edges) (relaxed : Relaxed key edges source goal left state)
    (traced : Traced key edges source goal state) {first last : Node}
    (leads : Leads state.prev first last) {value : Cost}
    (found : state.dist.get last = some value) : ∃ cost cost', state.dist.get first = some cost ∧
        Route edges (Expanded key edges source goal) (first, cost) (last, cost') ∧
          key cost' ≤ key value := by
  induction leads generalizing value with
  | refl => exact ⟨value, value, found, .refl, le_rfl⟩
  | @tail before last leads step ih =>
    obtain ⟨weight, middle, value', listed, found', expanded, here, small⟩ :=
      traced.chained last before step
    obtain rfl := some.inj (here.symm.trans found)
    obtain ⟨cost, cost', start, route, small'⟩ := ih found'
    have proper := ordered.route additive (relaxed.real before middle found')
    have proper' := Route.proper additive (ordered.route additive (relaxed.real first cost start)) route
    have larger := additive.monotone before _ listed cost' middle proper' proper small'
    exact ⟨cost, _, start, route.tail (.edge (expanded.lower small') listed), larger.trans small⟩

theorem Traced.apart (additive : Additive key Proper edges) (harmless : Harmless key edges source goal)
    (relaxed : Relaxed key edges source goal left state)
    (traced : Traced key edges source goal state) {cost value : Cost} {node : Node}
    {edge : Node × Cost} (listed : edge ∈ edges node)
    (expanded : Expanded key edges source goal node cost) (proper : Proper cost)
    (here : state.dist.get node = some value) (small : key value ≤ key cost)
    (shorter : key (Costing.add cost edge.2) < key (state.distance edge.1))
    (useful : Useful edges goal edge.1) : ¬Leads state.prev edge.1 node := by
  intro leads
  obtain ⟨least, cost', found, route, small'⟩ := traced.lap ordered additive relaxed leads here
  rw [distance_of_get found] at shorter
  have real := relaxed.real edge.1 least found
  have proper' := Route.proper additive (ordered.route additive real) route
  have bounded := small'.trans small
  have larger := additive.monotone node edge listed cost' cost proper' proper bounded
  refine harmless edge.1 least _ real (route.tail (.edge (expanded.lower bounded) listed)) useful ?_
  rw [ordered.less _ _ (additive.proper node edge listed cost' proper') (ordered.route additive real)]
  exact larger.trans_lt shorter

/-- An edge keeps the ways back. -/
theorem Traced.relax (additive : Additive key Proper edges) (harmless : Harmless key edges source goal)
    (relaxed : Relaxed key edges source goal left state)
    (traced : Traced key edges source goal state) {cost value : Cost} {node : Node}
    {edge : Node × Cost} (listed : edge ∈ edges node)
    (expanded : Expanded key edges source goal node cost) (proper : Proper cost)
    (here : state.dist.get node = some value) (small : key value ≤ key cost) :
    Traced key edges source goal (Relaxing.relax cost node state edge) ∧ ∃ value,
      (Relaxing.relax cost node state edge).dist.get node = some value ∧ key value ≤ key cost := by
  have proper' := additive.proper node edge listed cost proper
  rcases relax_cases ordered node proper' (relaxed.proper ordered additive edge.1) with
    ⟨same, -⟩ | ⟨same, shorter⟩
  · rw [same]
    exact ⟨traced, value, here, small⟩
  have apart := traced.apart ordered additive harmless relaxed listed expanded proper here small
    shorter
  have fallen {other : Node} {old : Cost} (found : state.dist.get other = some old) :
      ∃ new, (state.dist.set edge.1 (Costing.add cost edge.2)).get other = some new ∧
        key new ≤ key old ∧ Proper new := by
    rw [get_set]
    split
    · rename_i target
      rw [← target, distance_of_get found] at shorter
      exact ⟨_, rfl, shorter.le, proper'⟩
    · exact ⟨old, found, le_rfl, ordered.route additive (relaxed.real other old found)⟩
  obtain ⟨value', here', small', kept⟩ := fallen here
  rw [same]
  refine ⟨⟨fun other before step => ?_, fun other old labelled useful => ?_⟩, value', here',
    small'.trans small⟩
  · unfold noted at step ⊢
    rw [get_set] at step
    split at step
    · rename_i target
      obtain rfl := some.inj step
      have bounded := small'.trans small
      refine ⟨edge.2, value', _, target ▸ listed, here', expanded.lower bounded, ?_,
        additive.monotone node edge listed value' cost kept proper bounded⟩
      rw [target]
      exact get_set_self _ _ _
    rename_i different
    obtain ⟨weight, middle, last, listed', found, expanded', found', small''⟩ :=
      traced.chained other before step
    obtain ⟨new, lowered, lower, fresh⟩ := fallen found
    have old := ordered.route additive (relaxed.real before middle found)
    refine ⟨weight, new, last, listed', lowered, expanded'.lower lower, ?_,
      (additive.monotone before _ listed' new middle fresh old lower).trans small''⟩
    rwa [get_set_ne _ _ different]
  unfold noted at labelled ⊢
  by_cases turned : Useful edges goal edge.1
  · have back := traced.rooted node value here (turned.before ⟨edge.2, listed⟩)
    have rooted : Rooted (state.prev.set edge.1 node) source edge.1 :=
      .step (get_set_self _ _ _) (back.set_apart (apart turned))
    rw [get_set] at labelled
    split at labelled
    · rename_i target
      exact target ▸ rooted
    · exact (traced.rooted other old labelled useful).set_through rooted
  have missed : ¬Leads state.prev edge.1 other := fun leads => turned (traced.useful leads useful)
  rw [get_set] at labelled
  split at labelled
  · rename_i target
    exact absurd (target ▸ useful) turned
  · exact (traced.rooted other old labelled useful).set_apart missed

theorem Traced.foldl (additive : Additive key Proper edges)
    (harmless : Harmless key edges source goal) {cost : Cost} {node : Node}
    {todo : List (Node × Cost)} (listed : ∀ edge ∈ todo, edge ∈ edges node)
    (route : Route edges (Expanded key edges source goal) (source, Costing.zero) (node, cost))
    (expanded : Expanded key edges source goal node cost)
    (relaxed : Relaxed key edges source goal
      (fun node' cost' edge => node' = node ∧ cost' = cost ∧ edge ∈ todo) state)
    (traced : Traced key edges source goal state) {value : Cost}
    (here : state.dist.get node = some value) (small : key value ≤ key cost) :
    Traced key edges source goal (todo.foldl (Relaxing.relax cost node) state) := by
  induction todo generalizing state value with
  | nil => exact traced
  | cons edge todo ih =>
    obtain ⟨first, later⟩ := forall_mem_cons.mp listed
    obtain ⟨traced', value', here', small'⟩ := traced.relax ordered additive harmless relaxed first
      expanded (ordered.route additive route) here small
    exact ih later (relaxed.relax ordered additive first route expanded) traced' here' small'

end

/-- The heap plays no part in the ways back. -/
theorem Traced.skip (traced : Traced key edges source goal state) (rest : List (Cost × Node)) :
    Traced key edges source goal { state with heap := rest } := ⟨traced.chained, traced.rooted⟩

theorem Traced.expand (ordered : Ordered key Proper) (additive : Additive key Proper edges)
    (harmless : Harmless key edges source goal)
    (relaxed : Relaxed key edges source goal (fun _ _ _ => False) state)
    (traced : Traced key edges source goal state) {cost : Cost} {node : Node}
    {rest : List (Cost × Node)} (popped : Popped state cost node rest) (other : goal ≠ some node)
    (current : ¬Costing.less (state.distance node) cost = true) :
    Traced key edges source goal
      ((edges node).foldl (Relaxing.relax cost node) { state with heap := rest }) := by
  have here := relaxed.current ordered additive popped current
  exact Traced.foldl ordered additive harmless (fun _ listed => listed)
    (relaxed.queued _ popped.member).1 (relaxed.expanded ordered additive popped other)
    (relaxed.taken popped other) (traced.skip rest) here le_rfl

section Runs

variable {policy : HeapPolicy Cost} {fuel : Nat} {found : Option Cost} {final : Relaxing Node Cost}

theorem traced_start : Traced key edges source goal (start source) := by
  constructor
  · intro node before step
    rw [start, Dict.get_empty] at step
    cases step
  intro node cost labelled useful
  unfold start at labelled
  rw [Dict.get_set, Dict.get_empty] at labelled
  split at labelled
  · rename_i same
    exact same ▸ .root (Dict.get_empty _)
  · cases labelled

theorem explore_relaxed (ordered : Ordered key Proper) (additive : Additive key Proper edges)
    (finite : key Costing.zero < key (Costing.infinity : Cost))
    (ends : explore policy edges goal fuel 0 (start source) = some (found, final)) :
    ∃ last, Relaxed key edges source goal (fun _ _ _ => False) last ∧ Ended goal last found final := by
  refine explore_keeps (fun state cost node rest relaxed popped other stale => ?_)
    (fun state cost node rest relaxed popped other current => ?_) (relaxed_start finite) ends
  · exact relaxed.skip ordered additive popped stale
  · exact relaxed.expand ordered additive popped other

/-- The predecessors of a goal that was found form a walk from the source to it. -/
theorem explore_path (ordered : Ordered key Proper) (additive : Additive key Proper edges)
    (finite : key Costing.zero < key (Costing.infinity : Cost)) {target : Node}
    (harmless : Harmless key edges source (some target)) {cost : Cost}
    (ends : explore policy edges (some target) fuel 0 (start source) = some (some cost, final)) :
    ∃ enough path, (∀ more, enough ≤ more → walkBack final.prev more target [target] = some path) ∧
      path.head? = some source ∧ path.getLast? = some target ∧ path.IsChain (Adjacent edges) := by
  have kept : ∃ last, (Relaxed key edges source (some target) (fun _ _ _ => False) last ∧
      Traced key edges source (some target) last) ∧ Ended (some target) last (some cost) final :=
    explore_keeps
      (fun state cost node rest both popped other stale =>
        ⟨both.1.skip ordered additive popped stale, both.2.skip rest⟩)
      (fun state cost node rest both popped other current =>
        ⟨both.1.expand ordered additive popped other,
          both.2.expand ordered additive harmless both.1 popped other current⟩)
      ⟨relaxed_start finite, traced_start⟩ ends
  obtain ⟨last, ⟨relaxed, traced⟩, ended⟩ := kept
  obtain ⟨none, -⟩ | ⟨cost', target', rest, -, same, popped, rfl⟩ := ended
  · nomatch none
  obtain rfl := some.inj same
  obtain ⟨-, value, labelled, -⟩ := relaxed.queued _ popped.member
  have rooted := traced.rooted target value labelled ⟨target, rfl, .refl⟩
  obtain ⟨enough, path, walked, starts, chain⟩ := rooted.walkBack
  refine ⟨enough, path ++ [target], fun more large => walked more large [target], starts,
    getLast?_concat, chain.imp fun before node step => ?_⟩
  obtain ⟨weight, -, -, listed, -⟩ := traced.chained node before step
  exact ⟨weight, listed⟩

end Runs

end Relaxing

end Codegraph.Library
