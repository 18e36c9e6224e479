import Codegraph.Algorithms.EssentialEdges
import Mathlib.Combinatorics.SimpleGraph.Clique

namespace Codegraph

open Library List

/-- The neighbours of each node. -/
abbrev Adjacency := Dict Nat (Finset Nat)

namespace Adjacency

def neighbors (adj : Adjacency) (node : Nat) : Finset Nat := adj.getD node ∅

def addLink {Weight : Type} (adj : Adjacency) (link : Link Weight) : Adjacency :=
  (adj.update link.source ∅ (insert link.target)).update link.target ∅ (insert link.source)

/-- Both ends of an edge are neighbours, and a loop makes a node its own neighbour. -/
def ofGraph {Node Weight : Type} (graph : StableGraph Node Weight) : Adjacency :=
  graph.links.foldl addLink (graph.slots.foldl (fun adj slot => adj.update slot ∅ id) ∅)

end Adjacency

/-- The last of the elements with the largest key. -/
def maxByKey (key : Nat → Nat) : List Nat → Option Nat :=
  List.foldl (fun best element =>
    match best with
    | none => some element
    | some other => if key other ≤ key element then some element else some other) none

section BronKerbosch

variable (order : HashOrder Nat) (adj : Adjacency)

/-- A node that is left and has the most left neighbours. -/
def pivotNeighbors (p x : Finset Nat) : Finset Nat :=
  (maxByKey (fun node => (adj.neighbors node ∩ p).card) (order.iterate (p ∪ x))).elim ∅
    adj.neighbors

/-- Each candidate is explored and then set aside. -/
def exploreCandidates (explore : Finset Nat → Finset Nat → Finset Nat → Option (List (List Nat)))
    (r : Finset Nat) : List Nat → Finset Nat → Finset Nat → Option (List (List Nat))
  | [], _, _ => some []
  | v :: candidates, p, x => do
    let found ← explore (insert v r) (p ∩ adj.neighbors v) (x ∩ adj.neighbors v)
    let rest ← exploreCandidates explore r candidates (p.erase v) (insert v x)
    return found ++ rest

/-- The cliques that extend the chosen nodes. The recursion may only go as deep as the fuel. -/
def bronKerbosch : Nat → Finset Nat → Finset Nat → Finset Nat → Option (List (List Nat))
  | 0, _, _, _ => none
  | fuel + 1, r, p, x =>
    if p = ∅ ∧ x = ∅ then some (if 2 ≤ r.card then [order.iterate r] else [])
    else exploreCandidates adj (bronKerbosch fuel) r
      (order.iterate (p \ pivotNeighbors order adj p x)) p x

end BronKerbosch

namespace CodeGraph

/-- The maximal cliques with at least two members. -/
def maximalCliques (order : HashOrder Nat) (code : CodeGraph) : Option (List (List NodeId)) :=
  if code.graph.nodeCount = 0 then some []
  else do
    let cliques ← bronKerbosch order (Adjacency.ofGraph code.graph) (code.graph.nodeCount + 1) ∅
      code.graph.slots.toFinset ∅
    return (cliques.filter (2 ≤ ·.length)).map (·.filterMap code.nodeIdFor)

end CodeGraph

theorem maxByKey_mem {key : Nat → Nat} {elements : List Nat} {best : Nat}
    (found : maxByKey key elements = some best) : best ∈ elements := by
  have general : ∀ (elements : List Nat) (start : Option Nat),
      elements.foldl (fun best element =>
        match best with
        | none => some element
        | some other => if key other ≤ key element then some element else some other) start =
          some best → start = some best ∨ best ∈ elements := by
    intro elements
    induction elements with
    | nil => exact fun start found => .inl found
    | cons element elements ih =>
      intro start found
      rcases ih _ found with taken | later
      · cases start with
        | none =>
          rw [Option.some.inj taken]
          exact .inr mem_cons_self
        | some other =>
          dsimp only at taken
          split at taken
          · rw [Option.some.inj taken]
            exact .inr mem_cons_self
          · exact .inl taken
      · exact .inr (mem_cons_of_mem element later)
  exact (general elements none found).resolve_left (by simp)

theorem maxByKey_none {key : Nat → Nat} {elements : List Nat}
    (absent : maxByKey key elements = none) : elements = [] := by
  have general : ∀ (elements : List Nat) (start : Nat),
      elements.foldl (fun best element =>
        match best with
        | none => some element
        | some other => if key other ≤ key element then some element else some other)
          (some start) ≠ none := by
    intro elements
    induction elements with
    | nil => exact fun start => Option.some_ne_none start
    | cons element elements ih =>
      intro start
      rw [foldl_cons]
      dsimp only
      split
      · exact ih element
      · exact ih start
  cases elements with
  | nil => rfl
  | cons element elements => exact absurd absent (general elements element)

section Cliques

variable {order : HashOrder Nat} {adj : Adjacency}

/-- The set extends the chosen nodes by left ones to a clique that no left node extends. -/
structure Extends (adj : Adjacency) (r p x set : Finset Nat) : Prop where
  chosen : r ⊆ set
  inside : set ⊆ r ∪ p
  clique : ∀ first ∈ set, ∀ second ∈ set, first ≠ second → second ∈ adj.neighbors first
  closed : ∀ node ∈ p ∪ x, ∃ member ∈ set, node ∉ adj.neighbors member
  large : 2 ≤ set.card

/-- The left nodes are neighbours of all chosen ones. -/
def Around (adj : Adjacency) (r left : Finset Nat) : Prop :=
  ∀ node ∈ left, ∀ chosen ∈ r, node ∈ adj.neighbors chosen

theorem extends_insert_iff {r p x set : Finset Nat} {v : Nat} (left : v ∈ p) :
    Extends adj (insert v r) (p ∩ adj.neighbors v) (x ∩ adj.neighbors v) set ↔
      Extends adj r p x set ∧ v ∈ set := by
  constructor
  · intro found
    have mem := found.chosen (Finset.mem_insert_self v r)
    refine ⟨⟨(Finset.subset_insert v r).trans found.chosen, ?_, found.clique, ?_, found.large⟩, mem⟩
    · intro node present
      have := found.inside present
      grind
    intro node waits
    by_cases near : node ∈ adj.neighbors v
    · exact found.closed node (by grind)
    · exact ⟨v, mem, near⟩
  rintro ⟨found, mem⟩
  refine ⟨Finset.insert_subset mem found.chosen, ?_, found.clique, ?_, found.large⟩
  · intro node present
    by_cases same : node = v
    · exact Finset.mem_union_left _ (same ▸ Finset.mem_insert_self v r)
    have near := found.clique v mem node present (Ne.symm same)
    have := found.inside present
    grind
  · intro node waits
    exact found.closed node (by grind)

theorem extends_erase_iff {r p x set : Finset Nat} {v : Nat} (left : v ∈ p) (fresh : v ∉ r) :
    Extends adj r (p.erase v) (insert v x) set ↔ Extends adj r p x set ∧ v ∉ set := by
  have same : p.erase v ∪ insert v x = p ∪ x := by grind
  constructor
  · intro found
    refine ⟨⟨found.chosen, ?_, found.clique, same ▸ found.closed, found.large⟩, ?_⟩
    · intro node present
      have := found.inside present
      grind
    intro mem
    have := found.inside mem
    grind
  rintro ⟨found, absent⟩
  refine ⟨found.chosen, ?_, found.clique, same.symm ▸ found.closed, found.large⟩
  intro node present
  have := found.inside present
  grind

/-- What is listed are exactly the extensions of the chosen nodes, each once. -/
structure Lists (adj : Adjacency) (r p x : Finset Nat) (wanted : Finset Nat → Prop)
    (cliques : List (List Nat)) : Prop where
  distinct : (cliques.map List.toFinset).Nodup
  members : ∀ clique ∈ cliques, clique.Nodup
  complete : ∀ set, set ∈ cliques.map List.toFinset ↔ Extends adj r p x set ∧ wanted set

theorem Around.step {r left : Finset Nat} {v : Nat} (around : Around adj r left) (next : Finset Nat)
    (inside : next ⊆ left) (near : next ⊆ adj.neighbors v) : Around adj (insert v r) next := by
  intro node mem chosen present
  rcases Finset.mem_insert.mp present with rfl | old
  · exact near mem
  · exact around node (inside mem) chosen old

/-- The candidates in turn list the extensions that contain one of them. -/
theorem exploreCandidates_lists {explore : Finset Nat → Finset Nat → Finset Nat →
      Option (List (List Nat))} {r nodes : Finset Nat}
    (explored : ∀ v p x, v ∉ r → v ∈ p → p ∪ x ⊆ nodes → Around adj r (p ∪ x) → Disjoint p x →
      ∃ cliques, explore (insert v r) (p ∩ adj.neighbors v) (x ∩ adj.neighbors v) = some cliques ∧
        Lists adj (insert v r) (p ∩ adj.neighbors v) (x ∩ adj.neighbors v) (fun _ => True) cliques)
    (candidates : List Nat) (p x : Finset Nat) (left : ∀ v ∈ candidates, v ∈ p)
    (fresh : ∀ v ∈ candidates, v ∉ r) (distinct : candidates.Nodup) (inside : p ∪ x ⊆ nodes)
    (apart : Disjoint p x) (around : Around adj r (p ∪ x)) :
    ∃ cliques, exploreCandidates adj explore r candidates p x = some cliques ∧
      Lists adj r p x (fun set => ∃ v ∈ candidates, v ∈ set) cliques := by
  induction candidates generalizing p x with
  | nil =>
    refine ⟨[], rfl, nodup_nil, fun _ absent => absurd absent not_mem_nil, ?_⟩
    simp
  | cons v candidates ih =>
    obtain ⟨unlisted, distinctRest⟩ := nodup_cons.mp distinct
    have here := left v mem_cons_self
    have new := fresh v mem_cons_self
    obtain ⟨found, explored, lists⟩ := explored v p x new here inside around apart
    have same : p.erase v ∪ insert v x = p ∪ x := by grind
    obtain ⟨rest, walked, listsRest⟩ := ih (p.erase v) (insert v x)
      (fun other mem => Finset.mem_erase.mpr
        ⟨fun equal => unlisted (equal ▸ mem), left other (mem_cons_of_mem v mem)⟩)
      (fun other mem => fresh other (mem_cons_of_mem v mem)) distinctRest
      (same.symm ▸ inside)
      (by
        rw [Finset.disjoint_insert_right]
        exact ⟨Finset.notMem_erase v p, apart.mono_left (Finset.erase_subset v p)⟩)
      (same.symm ▸ around)
    have first (set : Finset Nat) : set ∈ found.map List.toFinset ↔ Extends adj r p x set ∧ v ∈ set := by
      rw [lists.complete, extends_insert_iff here]
      exact and_iff_left trivial
    have later (set : Finset Nat) : set ∈ rest.map List.toFinset ↔
        (Extends adj r p x set ∧ v ∉ set) ∧ ∃ other ∈ candidates, other ∈ set := by
      rw [listsRest.complete, extends_erase_iff here new]
    refine ⟨found ++ rest, ?_, ?_, ?_, ?_⟩
    · rw [exploreCandidates, explored, walked]
      rfl
    · rw [map_append]
      refine lists.distinct.append listsRest.distinct fun set before after => ?_
      exact ((later set).mp after).1.2 ((first set).mp before).2
    · intro clique mem
      rcases mem_append.mp mem with before | after
      · exact lists.members clique before
      · exact listsRest.members clique after
    · intro set
      rw [map_append, mem_append, first, later]
      simp only [mem_cons, exists_eq_or_imp]
      tauto

/-- The pivot is a left node. -/
theorem pivotNeighbors_eq {p x : Finset Nat} (waits : (p ∪ x).Nonempty) :
    ∃ pivot ∈ p ∪ x, pivotNeighbors order adj p x = adj.neighbors pivot := by
  unfold pivotNeighbors
  cases chosen : maxByKey (fun node => (adj.neighbors node ∩ p).card)
      (order.iterate (p ∪ x)) with
  | none =>
    have empty := order.iterate_eq_nil.mp (maxByKey_none chosen)
    exact absurd empty waits.ne_empty
  | some pivot => exact ⟨pivot, (order.listed _ _).mp (maxByKey_mem chosen), rfl⟩

/-- Every extension contains a left node that is no neighbour of the pivot. -/
theorem Extends.candidate {r p x set : Finset Nat} {pivot : Nat} (found : Extends adj r p x set)
    (symmetric : ∀ first second, second ∈ adj.neighbors first → first ∈ adj.neighbors second)
    (around : Around adj r (p ∪ x)) (left : pivot ∈ p ∪ x) :
    ∃ v ∈ order.iterate (p \ adj.neighbors pivot), v ∈ set := by
  obtain ⟨v, mem, far⟩ := found.closed pivot left
  refine ⟨v, (order.listed _ _).mpr (Finset.mem_sdiff.mpr ⟨?_, ?_⟩), mem⟩
  · refine (Finset.mem_union.mp (found.inside mem)).resolve_left fun old => ?_
    exact far (around pivot left v old)
  · exact fun near => far (symmetric pivot v near)

/-- The recursion is no deeper than there are nodes. -/
theorem bronKerbosch_lists {nodes : Finset Nat}
    (symmetric : ∀ first second, second ∈ adj.neighbors first → first ∈ adj.neighbors second)
    (fuel : Nat) (r p x : Finset Nat) (chosenInside : r ⊆ nodes) (leftInside : p ∪ x ⊆ nodes)
    (enough : nodes.card < fuel + r.card) (apart : Disjoint p x) (around : Around adj r (p ∪ x))
    (clique : ∀ first ∈ r, ∀ second ∈ r, first ≠ second → second ∈ adj.neighbors first) :
    ∃ cliques, bronKerbosch order adj fuel r p x = some cliques ∧
      Lists adj r p x (fun _ => True) cliques := by
  induction fuel generalizing r p x with
  | zero =>
    have few := Finset.card_le_card chosenInside
    omega
  | succ fuel ih =>
    unfold bronKerbosch
    by_cases done : p = ∅ ∧ x = ∅
    · obtain ⟨rfl, rfl⟩ := done
      rw [if_pos ⟨rfl, rfl⟩]
      have only (set : Finset Nat) : Extends adj r ∅ ∅ set ↔ set = r ∧ 2 ≤ r.card := by
        constructor
        · intro found
          have same : set = r := by
            refine Finset.Subset.antisymm ?_ found.chosen
            simpa using found.inside
          exact ⟨same, same ▸ found.large⟩
        · rintro ⟨rfl, large⟩
          exact ⟨Finset.Subset.refl _, Finset.subset_union_left, clique, by simp, large⟩
      by_cases large : 2 ≤ r.card
      · rw [if_pos large]
        refine ⟨_, rfl, by simp, ?_, fun set => ?_⟩
        · intro members listed
          rw [mem_singleton.mp listed]
          exact order.distinct r
        · rw [only, map_singleton, mem_singleton, order.iterate_toFinset]
          simp [large]
      rw [if_neg large]
      refine ⟨_, rfl, by simp, by simp, fun set => ?_⟩
      rw [only]
      simp [large]
    rw [if_neg done]
    have waits : (p ∪ x).Nonempty := by rwa [Finset.nonempty_iff_ne_empty, ne_eq, Finset.union_eq_empty]
    obtain ⟨pivot, left, chosen⟩ := @pivotNeighbors_eq order adj p x waits
    rw [chosen]
    have candidate (v : Nat) (mem : v ∈ order.iterate (p \ adj.neighbors pivot)) :
        v ∈ p ∧ v ∉ adj.neighbors pivot :=
      Finset.mem_sdiff.mp ((order.listed _ _).mp mem)
    have explored : ∀ v p x, v ∉ r → v ∈ p → p ∪ x ⊆ nodes → Around adj r (p ∪ x) →
        Disjoint p x → ∃ cliques,
        bronKerbosch order adj fuel (insert v r) (p ∩ adj.neighbors v)
          (x ∩ adj.neighbors v) = some cliques ∧
        Lists adj (insert v r) (p ∩ adj.neighbors v) (x ∩ adj.neighbors v)
          (fun _ => True) cliques := by
      intro v p x fresh here inside around apart
      have known := inside (Finset.mem_union_left x here)
      refine ih (insert v r) _ _ (Finset.insert_subset known chosenInside) ?_ ?_ ?_ ?_ ?_
      · exact (by grind : _ ⊆ p ∪ x).trans inside
      · rw [Finset.card_insert_of_notMem fresh]
        omega
      · exact apart.mono Finset.inter_subset_left Finset.inter_subset_left
      · exact around.step _ (by grind) (by grind)
      · intro first mem second mem' different
        rcases Finset.mem_insert.mp mem with rfl | old
        · have old' := Finset.mem_of_mem_insert_of_ne mem' (Ne.symm different)
          exact symmetric _ _ (around first (Finset.mem_union_left x here) second old')
        rcases Finset.mem_insert.mp mem' with rfl | old'
        · exact around second (Finset.mem_union_left x here) first old
        · exact clique first old second old' different
    have fresh (v : Nat) (mem : v ∈ order.iterate (p \ adj.neighbors pivot)) : v ∉ r :=
      fun old => (candidate v mem).2 (symmetric v pivot (around pivot left v old))
    obtain ⟨cliques, found, lists⟩ := exploreCandidates_lists explored
      (order.iterate (p \ adj.neighbors pivot)) p x (fun v mem => (candidate v mem).1)
      fresh (order.distinct _) leftInside apart around
    refine ⟨cliques, found, lists.distinct, lists.members, fun set => ?_⟩
    rw [lists.complete]
    refine and_congr_right fun extends_ => iff_of_true ?_ trivial
    exact extends_.candidate symmetric around left

end Cliques

namespace Adjacency

variable {Node Weight : Type}

theorem neighbors_update (adj : Adjacency) (key node : Nat) (change : Finset Nat → Finset Nat) :
    neighbors (adj.update key ∅ change) node =
      if node = key then change (adj.neighbors node) else adj.neighbors node := by
  unfold neighbors Dict.update Dict.getD
  rw [Dict.get_set]
  by_cases same : node = key
  · subst same
    rw [if_pos rfl, if_pos rfl]
    rfl
  · rw [if_neg same, if_neg same]

theorem mem_neighbors_addLink (adj : Adjacency) (link : Link Weight) (first second : Nat) :
    second ∈ (adj.addLink link).neighbors first ↔ second ∈ adj.neighbors first ∨
      link.source = first ∧ link.target = second ∨ link.source = second ∧ link.target = first := by
  rw [addLink, neighbors_update, neighbors_update]
  split <;> split <;> grind

theorem neighbors_slots (slots : List Nat) (adj : Adjacency) (node : Nat) :
    (slots.foldl (fun adj slot => adj.update slot ∅ id) adj).neighbors node = adj.neighbors node := by
  induction slots generalizing adj with
  | nil => rfl
  | cons slot slots ih =>
    rw [foldl_cons, ih, neighbors_update]
    split <;> rfl

theorem mem_neighbors_links (links : List (Link Weight)) (adj : Adjacency) (first second : Nat) :
    second ∈ (links.foldl addLink adj).neighbors first ↔ second ∈ adj.neighbors first ∨
      ∃ link ∈ links, link.source = first ∧ link.target = second ∨
        link.source = second ∧ link.target = first := by
  induction links generalizing adj with
  | nil => simp
  | cons link links ih => rw [foldl_cons, ih, mem_neighbors_addLink, exists_mem_cons_iff, or_assoc]

/-- The neighbours are the other ends of the edges. -/
theorem mem_neighbors_ofGraph (graph : StableGraph Node Weight) (first second : Nat) :
    second ∈ (ofGraph graph).neighbors first ↔ ∃ link ∈ graph.links,
      link.source = first ∧ link.target = second ∨ link.source = second ∧ link.target = first := by
  rw [ofGraph, mem_neighbors_links, neighbors_slots]
  exact or_iff_right (by simp [neighbors])

theorem neighbors_symm (graph : StableGraph Node Weight) (first second : Nat)
    (near : second ∈ (ofGraph graph).neighbors first) :
    first ∈ (ofGraph graph).neighbors second := by
  rw [mem_neighbors_ofGraph] at near ⊢
  obtain ⟨link, mem, ends⟩ := near
  exact ⟨link, mem, ends.symm⟩

end Adjacency

namespace CodeGraph

variable {code : CodeGraph}

/-- Two ids are joined by an edge in one of the directions. -/
def Touches (code : CodeGraph) (first second : NodeId) : Prop :=
  ∃ data, (first, second, data) ∈ code.edges ∨ (second, first, data) ∈ code.edges

/-- The graph without directions, parallel edges and loops. -/
def undirected (code : CodeGraph) : SimpleGraph NodeId where
  Adj first second := first ≠ second ∧ code.Touches first second
  symm := ⟨fun _ _ joined => ⟨joined.1.symm, joined.2.imp fun _ => Or.symm⟩⟩
  loopless := ⟨fun _ joined => joined.1 rfl⟩

theorem touches_iff (consistent : Consistent code) {first second : Nat}
    (stored : first ∈ code.graph.slots) (stored' : second ∈ code.graph.slots) :
    code.Touches (code.nameOf first) (code.nameOf second) ↔
      second ∈ (Adjacency.ofGraph code.graph).neighbors first := by
  have apart := nameOf_injOn consistent
  rw [Adjacency.mem_neighbors_ofGraph]
  rw [Touches, edges_eq_map]
  simp only [mem_map, Prod.mk.injEq]
  constructor
  · rintro ⟨data, ⟨link, mem, source, target, -⟩ | ⟨link, mem, source, target, -⟩⟩
    · obtain ⟨inside, inside'⟩ := link_slots mem
      exact ⟨link, mem, .inl ⟨apart inside stored source, apart inside' stored' target⟩⟩
    · obtain ⟨inside, inside'⟩ := link_slots mem
      exact ⟨link, mem, .inr ⟨apart inside stored' source, apart inside' stored target⟩⟩
  rintro ⟨link, mem, ⟨rfl, rfl⟩ | ⟨rfl, rfl⟩⟩
  · exact ⟨link.weight, .inl ⟨link, mem, rfl, rfl, rfl⟩⟩
  · exact ⟨link.weight, .inr ⟨link, mem, rfl, rfl, rfl⟩⟩

theorem Touches.slot {first second : NodeId} (joined : code.Touches first second) :
    ∃ slot ∈ code.graph.slots, code.nameOf slot = first := by
  obtain ⟨data, mem⟩ := joined
  rw [edges_eq_map] at mem
  simp only [mem_map, Prod.mk.injEq] at mem
  rcases mem with ⟨link, listed, source, -⟩ | ⟨link, listed, -, target, -⟩
  · exact ⟨link.source, (link_slots listed).1, source⟩
  · exact ⟨link.target, (link_slots listed).2, target⟩

/-- The slots of a set of ids. -/
def slotsOf (code : CodeGraph) (set : Finset NodeId) : Finset Nat :=
  code.graph.slots.toFinset.filter (code.nameOf · ∈ set)

theorem image_slotsOf {set : Finset NodeId}
    (known : ∀ id ∈ set, ∃ slot ∈ code.graph.slots, code.nameOf slot = id) :
    (code.slotsOf set).image code.nameOf = set := by
  ext id
  simp only [slotsOf, Finset.mem_image, Finset.mem_filter, mem_toFinset]
  constructor
  · rintro ⟨slot, ⟨-, mem⟩, rfl⟩
    exact mem
  intro mem
  obtain ⟨slot, stored, rfl⟩ := known id mem
  exact ⟨slot, ⟨stored, mem⟩, rfl⟩

theorem known_of_clique {set : Set NodeId} (clique : code.undirected.IsClique set)
    (large : set.Nontrivial) : ∀ id ∈ set, ∃ slot ∈ code.graph.slots, code.nameOf slot = id := by
  intro id mem
  obtain ⟨other, mem', different⟩ := large.exists_ne id
  exact (clique mem mem' different.symm).2.slot

/-- A maximal clique whose members call neither themselves nor fewer than one other node. -/
theorem extends_iff (consistent : Consistent code) {set : Finset Nat}
    (stored : set ⊆ code.graph.slots.toFinset) :
    Extends (Adjacency.ofGraph code.graph) ∅ code.graph.slots.toFinset ∅ set ↔ 2 ≤ set.card ∧
        Maximal code.undirected.IsClique ((set.image code.nameOf : Finset NodeId) : Set NodeId) ∧
        ∀ slot ∈ set, ¬code.Touches (code.nameOf slot) (code.nameOf slot) := by
  have apart := nameOf_injOn consistent
  have known {slot : Nat} (mem : slot ∈ set) : slot ∈ code.graph.slots := mem_toFinset.mp (stored mem)
  have names {id : NodeId} : id ∈ ((set.image code.nameOf : Finset NodeId) : Set NodeId) ↔
      ∃ slot ∈ set, code.nameOf slot = id := by simp
  constructor
  · intro found
    refine ⟨found.large, ⟨?_, ?_⟩, ?_⟩
    · intro first mem second mem' different
      obtain ⟨slot, inside, rfl⟩ := names.mp mem
      obtain ⟨slot', inside', rfl⟩ := names.mp mem'
      refine ⟨different, (touches_iff consistent (known inside) (known inside')).mpr ?_⟩
      exact found.clique slot inside slot' inside' fun same => different (congrArg _ same)
    · intro larger clique more id mem
      have two : larger.Nontrivial := by
        obtain ⟨first, mem, second, mem', different⟩ :=
          Finset.one_lt_card.mp (show 1 < set.card from found.large)
        refine ⟨_, more (names.mpr ⟨first, mem, rfl⟩), _,
          more (names.mpr ⟨second, mem', rfl⟩), fun same => different ?_⟩
        exact apart (known mem) (known mem') same
      obtain ⟨slot, inside, rfl⟩ := known_of_clique clique two id mem
      obtain ⟨other, present, far⟩ := found.closed slot
        (Finset.mem_union_left _ (mem_toFinset.mpr inside))
      refine names.mpr ⟨other, present, ?_⟩
      by_contra different
      refine far ((touches_iff consistent (known present) inside).mp ?_)
      exact (clique (more (names.mpr ⟨other, present, rfl⟩)) mem different).2
    intro slot mem loop
    obtain ⟨other, present, far⟩ := found.closed slot
      (Finset.mem_union_left _ (stored mem))
    by_cases same : slot = other
    · subst same
      exact far ((touches_iff consistent (known mem) (known mem)).mp loop)
    · exact far (found.clique other present slot mem (Ne.symm same))
  · rintro ⟨large, maximal, plain⟩
    have clique : ∀ first ∈ set, ∀ second ∈ set, first ≠ second →
        second ∈ (Adjacency.ofGraph code.graph).neighbors first := by
      intro first mem second mem' different
      refine (touches_iff consistent (known mem) (known mem')).mp ?_
      exact (maximal.prop (names.mpr ⟨first, mem, rfl⟩) (names.mpr ⟨second, mem', rfl⟩)
        fun same => different (apart (known mem) (known mem') same)).2
    refine ⟨Finset.empty_subset set, by simpa using stored, clique, ?_, large⟩
    intro slot waits
    have inside : slot ∈ code.graph.slots := by simpa using waits
    by_contra near
    push Not at near
    by_cases mem : slot ∈ set
    · exact plain slot mem
        ((touches_iff consistent inside inside).mpr (near slot mem))
    have bigger : code.undirected.IsClique
        (insert (code.nameOf slot) ((set.image code.nameOf : Finset NodeId) : Set NodeId)) := by
      refine maximal.prop.insert fun id present different => ?_
      obtain ⟨other, listed, rfl⟩ := names.mp present
      refine ⟨different, (touches_iff consistent inside (known listed)).mpr ?_⟩
      exact Adjacency.neighbors_symm _ _ _ (near other listed)
    obtain ⟨other, listed, same⟩ := names.mp
      (maximal.le_of_ge bigger (Set.subset_insert _ _) (Set.mem_insert _ _))
    exact mem (apart (known listed) inside same ▸ listed)

/-- The listed cliques are the maximal ones with two members, each once. -/
def CliquesExact (order : HashOrder Nat) (code : CodeGraph) : Prop :=
  ∃ cliques, code.maximalCliques order = some cliques ∧ (∀ clique ∈ cliques, clique.Nodup) ∧
    (cliques.map List.toFinset).Nodup ∧ ∀ set : Finset NodeId, set ∈ cliques.map List.toFinset ↔
        2 ≤ set.card ∧ Maximal code.undirected.IsClique (set : Set NodeId)

/-- The recursion starts with every node left. -/
theorem maximalCliques_lists (order : HashOrder Nat) (code : CodeGraph) :
    ∃ cliques, code.maximalCliques order =
        some ((cliques.filter (2 ≤ ·.length)).map (·.filterMap code.nodeIdFor)) ∧
      Lists (Adjacency.ofGraph code.graph) ∅ code.graph.slots.toFinset ∅ (fun _ => True)
        cliques := by
  have count : code.graph.slots.toFinset.card = code.graph.nodeCount := by
    rw [toFinset_card_of_nodup code.graph.slots_nodup, code.graph.length_slots]
  unfold maximalCliques
  split
  · rename_i empty
    refine ⟨[], rfl, nodup_nil, by simp, fun set => ?_⟩
    refine iff_of_false not_mem_nil fun ⟨found, _⟩ => ?_
    have few := Finset.card_le_card found.inside
    rw [Finset.empty_union, count, empty] at few
    have large := found.large
    omega
  obtain ⟨cliques, found, lists⟩ := @bronKerbosch_lists order
    (Adjacency.ofGraph code.graph) code.graph.slots.toFinset (Adjacency.neighbors_symm code.graph)
    (code.graph.nodeCount + 1) ∅ code.graph.slots.toFinset ∅ (Finset.empty_subset _)
    (by rw [Finset.union_empty]) (by omega) (Finset.disjoint_empty_right _)
    (fun _ _ _ absent => absurd absent (Finset.notMem_empty _))
    (fun _ absent => absurd absent (Finset.notMem_empty _))
  rw [found]
  exact ⟨cliques, rfl, lists⟩

theorem maximalCliques_spec (order : HashOrder Nat) (consistent : Consistent code) :
    ∃ cliques, code.maximalCliques order = some cliques ∧ (∀ clique ∈ cliques, clique.Nodup) ∧
      (cliques.map List.toFinset).Nodup ∧ ∀ set : Finset NodeId, set ∈ cliques.map List.toFinset ↔
          (2 ≤ set.card ∧ Maximal code.undirected.IsClique (set : Set NodeId)) ∧
            ∀ id ∈ set, ¬code.Touches id id := by
  obtain ⟨cliques, listed, lists⟩ := code.maximalCliques_lists order
  have apart := nameOf_injOn consistent
  have found {clique : List Nat} (mem : clique ∈ cliques) :
      Extends (Adjacency.ofGraph code.graph) ∅ code.graph.slots.toFinset ∅ clique.toFinset :=
    ((lists.complete _).mp (mem_map_of_mem mem)).1
  have stored {clique : List Nat} (mem : clique ∈ cliques) {slot : Nat}
      (inside : slot ∈ clique) : slot ∈ code.graph.slots := by
    have left := (found mem).inside (mem_toFinset.mpr inside)
    simpa using left
  have injective {set : Finset Nat} (inside : ∀ slot ∈ set, slot ∈ code.graph.slots) :
      Set.InjOn code.nameOf (set : Set Nat) :=
    apart.mono fun slot mem => inside slot mem
  have all : cliques.filter (2 ≤ ·.length) = cliques := by
    refine filter_eq_self.mpr fun clique mem => ?_
    have large := (found mem).large
    rw [toFinset_card_of_nodup (lists.members clique mem)] at large
    exact decide_eq_true large
  have names {clique : List Nat} (mem : clique ∈ cliques) :
      clique.filterMap code.nodeIdFor = clique.map code.nameOf := by
    rw [← filterMap_eq_map]
    exact filterMap_congr fun slot inside => nodeIdFor_eq (stored mem inside)
  have sets : (cliques.map (·.filterMap code.nodeIdFor)).map List.toFinset =
      (cliques.map List.toFinset).map (Finset.image code.nameOf) := by
    rw [map_map, map_map]
    refine map_congr_left fun clique mem => ?_
    change (clique.filterMap code.nodeIdFor).toFinset = clique.toFinset.image code.nameOf
    rw [names mem]
    ext id
    simp
  refine ⟨cliques.map (·.filterMap code.nodeIdFor), by rw [listed, all], ?_, ?_, ?_⟩
  · intro clique mem
    obtain ⟨slots, inside, rfl⟩ := mem_map.mp mem
    rw [names inside]
    exact (lists.members slots inside).map_on fun first present second present' same =>
      apart (stored inside present) (stored inside present') same
  · rw [sets]
    refine lists.distinct.map_on fun first mem second mem' same => ?_
    obtain ⟨slots, inside, rfl⟩ := mem_map.mp mem
    obtain ⟨slots', inside', rfl⟩ := mem_map.mp mem'
    have both : Set.InjOn code.nameOf
        ((slots.toFinset ∪ slots'.toFinset : Finset Nat) : Set Nat) := by
      refine injective fun slot present => ?_
      rcases Finset.mem_union.mp present with left | right
      · exact stored inside (mem_toFinset.mp left)
      · exact stored inside' (mem_toFinset.mp right)
    refine Finset.coe_injective (both.image_eq_image_iff ?_ ?_ |>.mp ?_)
    · exact_mod_cast Finset.subset_union_left
    · exact_mod_cast Finset.subset_union_right
    · exact_mod_cast congrArg (fun set : Finset NodeId => (set : Set NodeId)) same
  intro set
  rw [sets, mem_map]
  constructor
  · rintro ⟨slots, listed, rfl⟩
    have extends_ := ((lists.complete _).mp listed).1
    have inside : slots ⊆ code.graph.slots.toFinset := by simpa using extends_.inside
    obtain ⟨large, maximal, plain⟩ := (extends_iff consistent inside).mp extends_
    refine ⟨⟨?_, maximal⟩, by simpa using plain⟩
    rwa [Finset.card_image_of_injOn (injective fun slot mem => mem_toFinset.mp (inside mem))]
  rintro ⟨⟨large, maximal⟩, plain⟩
  have known := known_of_clique maximal.prop (Finset.one_lt_card_iff_nontrivial.mp large)
  have same := image_slotsOf known
  have inside : code.slotsOf set ⊆ code.graph.slots.toFinset := Finset.filter_subset _ _
  refine ⟨code.slotsOf set, (lists.complete _).mpr ⟨?_, trivial⟩, same⟩
  refine (extends_iff consistent inside).mpr ⟨?_, same.symm ▸ maximal, ?_⟩
  · rwa [← Finset.card_image_of_injOn (injective fun slot mem => mem_toFinset.mp (inside mem)), same]
  · intro slot mem
    exact plain _ (same ▸ Finset.mem_image_of_mem code.nameOf mem)

theorem exists_maximal {first second : NodeId} (joined : code.undirected.Adj first second) :
    ∃ set : Finset NodeId, first ∈ set ∧ second ∈ set ∧
      Maximal code.undirected.IsClique (set : Set NodeId) := by
  let names : Finset NodeId := code.graph.slots.toFinset.image code.nameOf
  have two {set : Set NodeId} (inside : {first, second} ⊆ set) : set.Nontrivial :=
    ⟨first, inside (Set.mem_insert _ _), second, inside (by simp), joined.1⟩
  have bounded {set : Set NodeId} (clique : code.undirected.IsClique set)
      (inside : {first, second} ⊆ set) : set ⊆ names := by
    intro id mem
    obtain ⟨slot, stored, rfl⟩ := known_of_clique clique (two inside) id mem
    exact Finset.mem_coe.mpr
      (Finset.mem_image_of_mem code.nameOf (mem_toFinset.mpr stored))
  have finite : {set | code.undirected.IsClique set ∧ {first, second} ⊆ set}.Finite :=
    names.finite_toSet.finite_subsets.subset fun set found => bounded found.1 found.2
  have start : ({first, second} : Set NodeId) ∈
      {set | code.undirected.IsClique set ∧ {first, second} ⊆ set} :=
    ⟨SimpleGraph.isClique_pair.mpr fun _ => joined, Set.Subset.refl _⟩
  obtain ⟨set, -, maximal⟩ := finite.exists_le_maximal start
  obtain ⟨members, rfl⟩ := (names.finite_toSet.subset
    (bounded maximal.prop.1 maximal.prop.2)).exists_finset_coe
  refine ⟨members, maximal.prop.2 (Set.mem_insert _ _), maximal.prop.2 (by simp),
    maximal.prop.1, fun larger clique more => ?_⟩
  exact maximal.le_of_ge ⟨clique, maximal.prop.2.trans more⟩ more

/-- The listed cliques are exact as long as no node with a loop has an edge to another node. -/
theorem maximalCliques_exact_iff (order : HashOrder Nat) (consistent : Consistent code) :
    code.CliquesExact order ↔
      ∀ first second, first ≠ second → code.Touches first second → ¬code.Touches first first := by
  obtain ⟨cliques, listed, members, distinct, complete⟩ := maximalCliques_spec order consistent
  constructor
  · rintro ⟨cliques', listed', -, -, exact_⟩ first second different joined loop
    obtain rfl : cliques = cliques' := Option.some.inj (listed.symm.trans listed')
    obtain ⟨set, inside, inside', maximal⟩ := exists_maximal ⟨different, joined⟩
    have large := Finset.one_lt_card.mpr ⟨first, inside, second, inside', different⟩
    exact ((complete set).mp ((exact_ set).mpr ⟨large, maximal⟩)).2 first inside loop
  intro plain
  refine ⟨cliques, listed, members, distinct, fun set => (complete set).trans ?_⟩
  refine and_iff_left_of_imp fun ⟨large, maximal⟩ id mem loop => ?_
  obtain ⟨other, present, different⟩ := (Finset.one_lt_card_iff_nontrivial.mp large).exists_ne id
  exact plain id other different.symm (maximal.prop mem present different.symm).2 loop

/-- A function that calls itself and another one. -/
def selfCaller : List Edit :=
  [.addNode caller, .addNode callee, .addEdge caller.id caller.id ⟨.calls, {}, 0⟩,
    .addEdge caller.id callee.id ⟨.calls, {}, 0⟩]

theorem maximalCliques_exact_iff_selfCaller : (edited .fresh selfCaller).CliquesExact .ascending ↔
      ∀ first second, first ≠ second → (edited .fresh selfCaller).Touches first second →
        ¬(edited .fresh selfCaller).Touches first first :=
  maximalCliques_exact_iff .ascending (edited_consistent .fresh selfCaller)

/-- The two functions form a maximal clique that is not listed. -/
theorem selfCaller_not_cliquesExact : ¬(edited .fresh selfCaller).CliquesExact .ascending := by
  rintro ⟨cliques, listed, -, -, exact_⟩
  obtain ⟨cliques', listed', -, -, complete⟩ :=
    maximalCliques_spec .ascending (edited_consistent .fresh selfCaller)
  obtain rfl : cliques = cliques' := Option.some.inj (listed.symm.trans listed')
  have loop : (caller.id, caller.id, ⟨.calls, {}, 0⟩) ∈ (edited .fresh selfCaller).edges := by
    decide +kernel
  have calls : (caller.id, callee.id, ⟨.calls, {}, 0⟩) ∈ (edited .fresh selfCaller).edges := by
    decide +kernel
  have joined : (edited .fresh selfCaller).undirected.Adj caller.id callee.id :=
    ⟨by decide, _, .inl calls⟩
  obtain ⟨set, inside, inside', maximal⟩ := exists_maximal joined
  have large := Finset.one_lt_card.mpr ⟨caller.id, inside, callee.id, inside', joined.1⟩
  exact ((complete set).mp ((exact_ set).mpr ⟨large, maximal⟩)).2 caller.id inside
    ⟨_, .inl loop⟩

end CodeGraph

end Codegraph
