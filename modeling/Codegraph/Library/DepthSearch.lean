import Codegraph.Library.Layers

namespace Codegraph.Library

open List

section

variable {Node : Type}

/-- Every met node has a depth and was met from a node that is one step nearer to a root. -/
structure Led (edge : Node → Node → Prop) (roots : Node → Prop) (depth : Node → Option Nat)
    (parent : Node → Option Node) : Prop where
  rooted : ∀ node, depth node = some 0 ↔ roots node
  led : ∀ node count, depth node = some (count + 1) →
    ∃ before, parent node = some before ∧ depth before = some count ∧ edge before node

namespace Led

variable {edge : Node → Node → Prop} {roots : Node → Prop} {depth : Node → Option Nat}
  {parent : Node → Option Node}

/-- The new nodes are one step away from a met one. -/
theorem meet [DecidableEq Node] (before : Led edge roots depth parent) {current : Node} {level : Nat}
    (here : depth current = some level) {new : List Node} {parent' : Node → Option Node}
    (fresh : ∀ node ∈ new, depth node = none) (listed : ∀ node ∈ new, edge current node)
    (led : ∀ node ∈ new, parent' node = some current) (kept : ∀ node ∉ new, parent' node = parent node) :
    Led edge roots (fun node => if node ∈ new then some (level + 1) else depth node) parent' := by
  have old {node : Node} {count : Nat} (met : depth node = some count) : node ∉ new := by
    intro mem
    rw [fresh node mem] at met
    contradiction
  constructor
  · intro node
    rw [← before.rooted node]
    split
    · rename_i mem
      rw [fresh node mem]
      simp
    · rfl
  intro node count met
  split at met
  · rename_i mem
    cases met
    refine ⟨current, led node mem, ?_, listed node mem⟩
    rwa [if_neg (old here)]
  rename_i outside
  obtain ⟨middle, found, met', step⟩ := before.led node count met
  refine ⟨middle, (kept node outside).trans found, ?_, step⟩
  rwa [if_neg (old met')]

theorem layer (search : Led edge roots depth parent) {node : Node} {count : Nat}
    (met : depth node = some count) {below : Nat} (low : below ≤ count) :
    ∃ other, depth other = some below := by
  induction count generalizing node with
  | zero =>
    obtain rfl := Nat.le_zero.mp low
    exact ⟨node, met⟩
  | succ count ih =>
    rcases Nat.lt_or_eq_of_le low with less | rfl
    · obtain ⟨before, _, met', _⟩ := search.led node count met
      exact ih met' (Nat.le_of_lt_succ less)
    · exact ⟨node, met⟩

theorem depth_le (search : Led edge roots depth parent) {node : Node} {count : Nat}
    (met : depth node = some count) {known : List Node}
    (listed : ∀ other before, parent other = some before → other ∈ known) : count ≤ known.length := by
  have inside : (List.range count).map (· + 1) ⊆ known.filterMap depth := by
    intro level mem
    obtain ⟨below, low, rfl⟩ := mem_map.mp mem
    obtain ⟨other, met'⟩ := search.layer met (Nat.succ_le_of_lt (List.mem_range.mp low))
    obtain ⟨before, found, _⟩ := search.led other below met'
    exact mem_filterMap.mpr ⟨other, listed other before found, met'⟩
  have distinct : ((List.range count).map (· + 1)).Nodup := nodup_range.map (add_left_injective 1)
  have bound := (subperm_of_subset distinct inside).length_le
  rw [length_map, length_range] at bound
  exact bound.trans (length_filterMap_le _ _)

end Led

/-- The nodes that wait come in the order of their depths, and each other met node leads to met nodes
only. The target was not met yet. -/
structure DepthSearch (edge : Node → Node → Prop) (roots : Node → Prop) (target : Node) (limit : Nat)
    (depth : Node → Option Nat) (parent : Node → Option Node) (queue : List (Node × Nat)) : Prop
    extends Led edge roots depth parent where
  waiting : ∀ entry ∈ queue, depth entry.1 = some entry.2
  sorted : queue.Pairwise fun first second => first.2 ≤ second.2
  near : ∀ node count, depth node = some count → ∀ entry ∈ queue, count ≤ entry.2 + 1
  closed : ∀ node count, depth node = some count → count < limit → (node, count) ∈ queue ∨
    ∀ other, edge node other → ∃ level ≤ count + 1, depth other = some level
  unmet : depth target = none

namespace DepthSearch

variable {edge : Node → Node → Prop} {roots : Node → Prop} {target : Node} {limit : Nat}
  {depth : Node → Option Nat} {parent : Node → Option Node} {queue rest : List (Node × Nat)}
  {current : Node} {level : Nat}

theorem start (rooted : ∀ node, depth node = some 0 ↔ roots node)
    (only : ∀ node count, depth node = some count → count = 0)
    (queued : ∀ node count, (node, count) ∈ queue ↔ depth node = some count)
    (unmet : depth target = none) : DepthSearch edge roots target limit depth parent queue where
  rooted := rooted
  led node count met := absurd (only node _ met) (Nat.succ_ne_zero count)
  waiting entry mem := (queued entry.1 entry.2).mp mem
  sorted := by
    refine pairwise_of_forall_mem_list fun first mem second _ => ?_
    rw [only first.1 first.2 ((queued _ _).mp mem)]
    exact Nat.zero_le _
  near node count met entry mem := by
    rw [only node count met]
    exact Nat.zero_le _
  closed node count met _ := .inl ((queued node count).mpr met)
  unmet := unmet

section

variable (search : DepthSearch edge roots target limit depth parent ((current, level) :: rest))
include search

theorem skip (beyond : limit ≤ level) : DepthSearch edge roots target limit depth parent rest where
  rooted := search.rooted
  led := search.led
  waiting entry mem := search.waiting entry (mem_cons_of_mem _ mem)
  sorted := (pairwise_cons.mp search.sorted).2
  near node count met entry mem := search.near node count met entry (mem_cons_of_mem _ mem)
  closed node count met within := by
    rcases search.closed node count met within with waits | closed
    · rcases mem_cons.mp waits with same | later
      · cases same
        omega
      · exact .inl later
    · exact .inr closed
  unmet := search.unmet

/-- The first node that waits leads to the new nodes, which wait behind the others. -/
theorem expand [DecidableEq Node] {new : List Node} {parent' : Node → Option Node}
    (fresh : ∀ node ∈ new, depth node = none) (listed : ∀ node ∈ new, edge current node)
    (all : ∀ node, edge current node → node ∈ new ∨ (depth node).isSome) (apart : target ∉ new)
    (led : ∀ node ∈ new, parent' node = some current) (kept : ∀ node ∉ new, parent' node = parent node) :
    DepthSearch edge roots target limit (fun node => if node ∈ new then some (level + 1) else depth node)
      parent' (rest ++ new.map fun node => (node, level + 1)) := by
  have here := search.waiting (current, level) mem_cons_self
  have old {node : Node} {count : Nat} (met : depth node = some count) : node ∉ new := by
    intro mem
    rw [fresh node mem] at met
    contradiction
  have later := (pairwise_cons.mp search.sorted).1
  have upper (node : Node) (count : Nat) (met : depth node = some count) : count ≤ level + 1 :=
    search.near node count met (current, level) mem_cons_self
  have added {entry : Node × Nat} (mem : entry ∈ new.map fun node => (node, level + 1)) :
      entry.1 ∈ new ∧ entry.2 = level + 1 := by
    obtain ⟨node, inside, rfl⟩ := mem_map.mp mem
    exact ⟨inside, rfl⟩
  have lower {entry : Node × Nat} (mem : entry ∈ rest ++ new.map fun node => (node, level + 1)) :
      level ≤ entry.2 := by
    rcases mem_append.mp mem with earlier | last
    · exact later entry earlier
    · rw [(added last).2]
      exact Nat.le_succ level
  refine ⟨search.toLed.meet here fresh listed led kept, ?_, ?_, ?_, ?_, ?_⟩
  · intro entry mem
    rcases mem_append.mp mem with earlier | last
    · have met := search.waiting entry (mem_cons_of_mem _ earlier)
      rwa [if_neg (old met)]
    · rw [if_pos (added last).1, (added last).2]
  · rw [pairwise_append]
    refine ⟨(pairwise_cons.mp search.sorted).2, ?_, ?_⟩
    · refine pairwise_of_forall_mem_list fun first mem second mem' => ?_
      rw [(added mem).2, (added mem').2]
    intro first mem second mem'
    rw [(added mem').2]
    exact upper _ _ (search.waiting first (mem_cons_of_mem _ mem))
  · intro node count met entry mem
    have low := lower mem
    split at met
    · cases met
      omega
    · have high := upper node count met
      omega
  · intro node count met within
    split at met
    · rename_i mem
      cases met
      exact .inl (mem_append_right _ (mem_map.mpr ⟨node, mem, rfl⟩))
    rcases search.closed node count met within with waits | closed
    · rcases mem_cons.mp waits with same | waits
      · cases same
        refine .inr fun other step => ?_
        rcases all other step with mem | known
        · exact ⟨level + 1, le_refl _, if_pos mem⟩
        obtain ⟨count, met'⟩ := Option.isSome_iff_exists.mp known
        refine ⟨count, upper other count met', ?_⟩
        rwa [if_neg (old met')]
      · exact .inl (mem_append_left _ waits)
    refine .inr fun other step => ?_
    obtain ⟨count', low, met'⟩ := closed other step
    refine ⟨count', low, ?_⟩
    rwa [if_neg (old met')]
  · rw [if_neg apart]
    exact search.unmet

end

theorem covers (search : DepthSearch edge roots target limit depth parent queue) {root node : Node}
    {count : Nat} (start : roots root) (hops : Hops edge root count node) (within : count ≤ limit) :
    (∃ level ≤ count, depth node = some level) ∨ ∃ entry ∈ queue, entry.2 < count := by
  induction hops with
  | start => exact .inl ⟨0, le_refl 0, (search.rooted root).mpr start⟩
  | @step count middle target before last ih =>
    rcases ih (by omega) with ⟨level, low, met⟩ | ⟨entry, mem, low⟩
    · rcases search.closed middle level met (by omega) with waits | closed
      · exact .inr ⟨(middle, level), waits, Nat.lt_succ_of_le low⟩
      · obtain ⟨level', low', met'⟩ := closed target last
        exact .inl ⟨level', by omega, met'⟩
    · exact .inr ⟨entry, mem, Nat.lt_succ_of_lt low⟩

theorem none_within (search : DepthSearch edge roots target limit depth parent []) {root : Node}
    {count : Nat} (start : roots root) (hops : Hops edge root count target) : limit < count := by
  by_contra within
  rcases search.covers start hops (by omega) with ⟨level, _, met⟩ | ⟨entry, mem, _⟩
  · rw [search.unmet] at met
    contradiction
  · contradiction

/-- A walk to the target is longer than the way to the first node that waits. -/
theorem farther (search : DepthSearch edge roots target limit depth parent ((current, level) :: rest))
    (inside : level < limit) {root : Node} {count : Nat} (start : roots root)
    (hops : Hops edge root count target) : level < count := by
  by_contra near
  rcases search.covers start hops (by omega) with ⟨level', _, met⟩ | ⟨entry, mem, low⟩
  · rw [search.unmet] at met
    contradiction
  rcases mem_cons.mp mem with same | later
  · rw [same] at low
    omega
  · have order := (pairwise_cons.mp search.sorted).1 entry later
    omega

end DepthSearch

/-- A route takes steps from a start to a target. -/
structure Trail (starts : Node → Prop) (edge : Node → Node → Prop) (target : Node) (path : List Node) :
    Prop where
  head : ∃ start, path.head? = some start ∧ starts start
  last : path.getLast? = some target
  steps : path.IsChain edge

theorem Trail.hops {starts : Node → Prop} {edge : Node → Node → Prop} {target : Node}
    {path : List Node} (route : Trail starts edge target path) :
    ∃ start count, starts start ∧ path.length = count + 1 ∧ Hops edge start count target := by
  obtain ⟨⟨start, head, allowed⟩, last, steps⟩ := route
  induction path using List.reverseRecOn generalizing target with
  | nil => contradiction
  | append_singleton path node ih =>
    obtain rfl : node = target := by
      rw [getLast?_concat] at last
      exact Option.some.inj last
    cases path using List.reverseRecOn with
    | nil =>
      obtain rfl : node = start := Option.some.inj head
      exact ⟨node, 0, allowed, rfl, .start⟩
    | append_singleton path before =>
      rw [isChain_append] at steps
      rw [head?_append_of_ne_nil _ (by simp)] at head
      obtain ⟨start', count, allowed', length, hops⟩ := ih getLast?_concat steps.1 head
      refine ⟨start', count + 1, allowed', ?_, .step hops (steps.2.2 before ?_ node rfl)⟩
      · rw [length_append, length]
        rfl
      · rw [getLast?_concat]
        rfl

/-- A list that is not distinct comes by some entry twice. -/
theorem exists_repeat {Entry : Type} {entries : List Entry} (repeats : ¬ entries.Nodup) :
    ∃ before entry middle after, entries = before ++ entry :: (middle ++ entry :: after) := by
  induction entries with
  | nil => exact absurd nodup_nil repeats
  | cons first rest ih =>
    by_cases mem : first ∈ rest
    · obtain ⟨middle, after, split⟩ := append_of_mem mem
      exact ⟨[], first, middle, after, by rw [split]; rfl⟩
    obtain ⟨before, entry, middle, after, split⟩ :=
      ih fun distinct => repeats (nodup_cons.mpr ⟨mem, distinct⟩)
    exact ⟨first :: before, entry, middle, after, by rw [split]; rfl⟩

/-- The way around can be left out of a route that comes by a node twice. -/
theorem Trail.shorten {starts : Node → Prop} {edge : Node → Node → Prop} {target : Node}
    {before : List Node} {node : Node} {middle after : List Node}
    (route : Trail starts edge target (before ++ node :: (middle ++ node :: after))) :
    Trail starts edge target (before ++ node :: after) := by
  obtain ⟨⟨start, head, begins⟩, last, steps⟩ := route
  refine ⟨⟨start, ?_, begins⟩, ?_, ?_⟩
  · cases before <;> exact head
  · rw [getLast?_append_of_ne_nil _ (cons_ne_nil _ _)] at last ⊢
    rwa [← cons_append, getLast?_append_of_ne_nil _ (cons_ne_nil _ _)] at last
  rw [isChain_append, ← cons_append, isChain_append] at steps
  rw [isChain_append]
  exact ⟨steps.1, steps.2.1.2.1, fun final isLast first isFirst =>
    steps.2.2 final isLast first (by cases middle <;> exact isFirst)⟩

theorem Trail.nodup {starts : Node → Prop} {edge : Node → Node → Prop} {target : Node} {path : List Node}
    (route : Trail starts edge target path)
    (least : ∀ other, Trail starts edge target other → path.length ≤ other.length) : path.Nodup := by
  by_contra repeats
  obtain ⟨before, node, middle, after, rfl⟩ := exists_repeat repeats
  have short := least _ route.shorten
  simp only [length_append, length_cons] at short
  omega

end

section

variable {Node : Type} [DecidableEq Node]

/-- The ways to go on from a path over a neighbor. A route ends at the target. -/
def branchRoutes (target : Node) (onwards : List Node → Node → List (List Node)) (path : List Node)
    (neighbor : Node) : List (List Node) :=
  if neighbor = target then [path ++ [target]]
  else if neighbor ∈ path then []
  else onwards (path ++ [neighbor]) neighbor

/-- The routes that go on from a path by at most so many steps. A neighbor that is listed twice is
followed twice. -/
def simpleRoutes (next : Node → List Node) (target : Node) : Nat → List Node → Node → List (List Node)
  | 0, _, _ => []
  | room + 1, path, current =>
    (next current).flatMap (branchRoutes target (simpleRoutes next target room) path)

/-- The routes with the place of each step among the neighbors, which tells steps to the same node
apart. -/
def edgeRoutes (next : Node → List Node) (target : Node) :
    Nat → List Node → Node → List (List Nat × List Node)
  | 0, _, _ => []
  | room + 1, path, current =>
    (next current).zipIdx.flatMap fun step =>
      (if step.1 = target then [([], path ++ [target])]
      else if step.1 ∈ path then []
      else edgeRoutes next target room (path ++ [step.1]) step.1).map fun route =>
        (step.2 :: route.1, route.2)

variable {next : Node → List Node} {target : Node}

theorem edgeRoutes_nodes (room : Nat) (path : List Node) (current : Node) :
    (edgeRoutes next target room path current).map Prod.snd =
      simpleRoutes next target room path current := by
  induction room generalizing path current with
  | zero => rfl
  | succ room ih =>
    have branch (step : Node × Nat) : (((if step.1 = target then [([], path ++ [target])]
          else if step.1 ∈ path then []
          else edgeRoutes next target room (path ++ [step.1]) step.1).map fun route =>
            (step.2 :: route.1, route.2)).map Prod.snd) =
        branchRoutes target (simpleRoutes next target room) path step.1 := by
      rw [branchRoutes, map_map]
      split
      · rfl
      split
      · rfl
      · exact ih (path ++ [step.1]) step.1
    rw [edgeRoutes, simpleRoutes, map_flatMap]
    calc ((next current).zipIdx.flatMap fun step => _)
        = (next current).zipIdx.flatMap fun step =>
            branchRoutes target (simpleRoutes next target room) path step.1 :=
          flatMap_congr fun step _ => branch step
      _ = ((next current).zipIdx.map Prod.fst).flatMap
            (branchRoutes target (simpleRoutes next target room) path) := (flatMap_map _ _ _).symm
      _ = (next current).flatMap (branchRoutes target (simpleRoutes next target room) path) := by
          rw [zipIdx_map_fst]

/-- No two routes take the same places. -/
theorem edgeRoutes_distinct (room : Nat) (path : List Node) (current : Node) :
    ((edgeRoutes next target room path current).map Prod.fst).Nodup := by
  induction room generalizing path current with
  | zero => exact nodup_nil
  | succ room ih =>
    rw [edgeRoutes, map_flatMap, nodup_flatMap]
    constructor
    · intro step _
      rw [map_map]
      change (List.map (List.cons step.2 ∘ Prod.fst) _).Nodup
      rw [← map_map]
      refine List.Nodup.map (cons_injective) ?_
      split
      · exact nodup_singleton _
      split
      · exact nodup_nil
      · exact ih (path ++ [step.1]) step.1
    have places : (next current).zipIdx.Pairwise fun first second => first.2 ≠ second.2 := by
      have distinct : ((next current).zipIdx.map Prod.snd).Nodup := by
        rw [zipIdx_map_snd]
        exact nodup_range'
      exact pairwise_map.mp distinct
    refine places.imp fun apart => ?_
    intro route mem mem'
    obtain ⟨_, listed, rfl⟩ := mem_map.mp mem
    obtain ⟨_, _, rfl⟩ := mem_map.mp listed
    obtain ⟨_, listed', same⟩ := mem_map.mp mem'
    obtain ⟨_, _, rfl⟩ := mem_map.mp listed'
    exact apart (List.cons.inj same).1.symm

theorem mem_simpleRoutes {room : Nat} {path : List Node} {current : Node}
    (top : path.getLast? = some current) (distinct : path.Nodup) (open' : target ∉ path)
    (linked : path.IsChain fun first second => second ∈ next first) (route : List Node) :
    route ∈ simpleRoutes next target room path current ↔
      path <+: route ∧ route.getLast? = some target ∧ route.Nodup ∧
        (route.IsChain fun first second => second ∈ next first) ∧ route.length ≤ path.length + room := by
  have grow {path : List Node} {current neighbor : Node} (top : path.getLast? = some current)
      (linked : path.IsChain fun first second => second ∈ next first) (step : neighbor ∈ next current) :
      (path ++ [neighbor]).IsChain fun first second => second ∈ next first := by
    rw [isChain_append]
    refine ⟨linked, isChain_singleton _, fun last isLast first isFirst => ?_⟩
    rw [top] at isLast
    cases isLast
    cases isFirst
    exact step
  have apart {path : List Node} {neighbor : Node} (distinct : path.Nodup) (fresh : neighbor ∉ path) :
      (path ++ [neighbor]).Nodup := by
    rw [← concat_eq_append]
    exact distinct.concat fresh
  induction room generalizing path current with
  | zero =>
    rw [simpleRoutes]
    refine iff_of_false not_mem_nil ?_
    rintro ⟨start, last, -, -, short⟩
    rw [← start.eq_of_length_le short] at last
    exact open' (mem_of_getLast? last)
  | succ room ih =>
    rw [simpleRoutes, mem_flatMap]
    constructor
    · rintro ⟨neighbor, step, mem⟩
      unfold branchRoutes at mem
      split at mem
      · rename_i here
        rw [mem_singleton.mp mem]
        rw [here] at step
        refine ⟨prefix_append _ _, getLast?_concat, apart distinct open', grow top linked step, ?_⟩
        rw [length_append, length_singleton]
        omega
      rename_i differs
      split at mem
      · contradiction
      rename_i fresh
      have open'' : target ∉ path ++ [neighbor] := by
        rw [mem_append, mem_singleton]
        exact fun either => either.elim open' fun same => differs same.symm
      obtain ⟨start, last, distinct', linked', short⟩ :=
        (ih getLast?_concat (apart distinct fresh) open'' (grow top linked step)).mp
          mem
      rw [length_append, length_singleton] at short
      exact ⟨(prefix_append _ _).trans start, last, distinct', linked', by omega⟩
    rintro ⟨⟨rest, rfl⟩, last, distinct', linked', short⟩
    cases rest with
    | nil =>
      rw [append_nil] at last
      exact absurd (mem_of_getLast? last) open'
    | cons neighbor rest =>
      have step := (isChain_append.mp linked').2.2 current top neighbor rfl
      refine ⟨neighbor, step, ?_⟩
      have separate := nodup_append.mp distinct'
      have fresh : neighbor ∉ path := fun mem => separate.2.2 neighbor mem neighbor mem_cons_self rfl
      unfold branchRoutes
      split
      · rename_i here
        have empty : rest = [] := by
          rw [getLast?_append_of_ne_nil _ (cons_ne_nil _ _)] at last
          cases rest with
          | nil => rfl
          | cons after rest =>
            rw [getLast?_cons_cons] at last
            rw [here] at separate
            exact absurd (mem_of_getLast? last) (nodup_cons.mp separate.2.1).1
        rw [empty, here]
        exact mem_singleton_self _
      rename_i differs
      have open'' : target ∉ path ++ [neighbor] := by
        rw [mem_append, mem_singleton]
        exact fun either => either.elim open' fun same => differs same.symm
      refine (ih getLast?_concat (apart distinct fresh) open''
        (grow top linked step)).mpr ⟨⟨rest, by simp⟩, last, distinct', linked', ?_⟩
      rw [length_append, length_cons] at short
      rw [length_append, length_append, length_cons, length_singleton]
      omega

theorem simpleRoutes_map {Image : Type} [DecidableEq Image] {next' : Image → List Image}
    {name : Node → Image} (nodes : List Node)
    (apart : ∀ first ∈ nodes, ∀ second ∈ nodes, name first = name second → first = second)
    (closed : ∀ node ∈ nodes, ∀ other ∈ next node, other ∈ nodes)
    (named : ∀ node ∈ nodes, next' (name node) = (next node).map name) (inside : target ∈ nodes)
    (room : Nat) {path : List Node} {current : Node} (listed : ∀ node ∈ path, node ∈ nodes)
    (here : current ∈ nodes) :
    simpleRoutes next' (name target) room (path.map name) (name current) =
      (simpleRoutes next target room path current).map (List.map name) := by
  induction room generalizing path current with
  | zero => rfl
  | succ room ih =>
    rw [simpleRoutes, simpleRoutes, named current here, flatMap_map, map_flatMap]
    refine flatMap_congr fun neighbor step => ?_
    have there := closed current here neighbor step
    have met : name neighbor ∈ path.map name ↔ neighbor ∈ path := by
      rw [mem_map]
      constructor
      · rintro ⟨other, mem, same⟩
        rwa [← apart other (listed other mem) neighbor there same]
      · exact fun mem => ⟨neighbor, mem, rfl⟩
    have same : name neighbor = name target ↔ neighbor = target :=
      ⟨apart neighbor there target inside, congrArg name⟩
    simp only [branchRoutes, same, met]
    split
    · simp
    split
    · rfl
    have listed' : ∀ node ∈ path ++ [neighbor], node ∈ nodes := by
      intro node mem
      rcases mem_append.mp mem with earlier | last
      · exact listed node earlier
      · rwa [mem_singleton.mp last]
    have rest := ih listed' there
    rwa [map_append] at rest

/-- The rounds of a search that goes on from a path over some neighbors and leaves it. -/
def routeCost (next : Node → List Node) (target : Node) : Nat → List Node → List Node → Nat
  | 0, _, _ => 1
  | room + 1, path, neighbors => 1 + (neighbors.map fun neighbor =>
    1 + if neighbor = target ∨ neighbor ∈ path then 0
      else routeCost next target room (path ++ [neighbor]) (next neighbor)).sum

end

end Codegraph.Library
