import Codegraph.Library.Dict
import Codegraph.Library.Layers
import Codegraph.Library.ListSet

namespace Codegraph.Library

open List ListSet

variable {Node : Type} [DecidableEq Node]

/-- The visited nodes, those of them that wait and the node that each was met from. -/
structure QueueSearch (Node : Type) [DecidableEq Node] where
  predecessor : Dict Node Node
  visited : ListSet Node
  queue : List Node

namespace QueueSearch

def start (root : Node) : QueueSearch Node := ⟨∅, ListSet.empty.insert root, [root]⟩

/-- A new node is met from the current one and waits. -/
def meet (current : Node) (search : QueueSearch Node) (node : Node) : QueueSearch Node :=
  if node ∈ search.visited.members then search
  else ⟨search.predecessor.set node current, search.visited.insert node, search.queue ++ [node]⟩

/-- The nodes that were met from the current one. -/
structure Met (current : Node) (nodes new : List Node) (before after : QueueSearch Node) : Prop where
  listed : ∀ node ∈ new, node ∈ nodes
  fresh : ∀ node ∈ new, node ∉ before.visited.members
  visited : ∀ node, node ∈ after.visited.members ↔ node ∈ before.visited.members ∨ node ∈ new
  all : ∀ node ∈ nodes, node ∈ after.visited.members
  queue : after.queue = before.queue ++ new
  led : ∀ node ∈ new, after.predecessor.get node = some current
  kept : ∀ node ∉ new, after.predecessor.get node = before.predecessor.get node
  size : after.visited.size = before.visited.size + new.length

theorem foldl_meet (current : Node) (nodes : List Node) (search : QueueSearch Node) :
    ∃ new, Met current nodes new search (nodes.foldl (meet current) search) := by
  induction nodes using List.reverseRecOn with
  | nil => refine ⟨[], ?_, ?_, ?_, ?_, ?_, ?_, ?_, rfl⟩ <;> simp
  | append_singleton nodes node ih =>
    obtain ⟨new, met⟩ := ih
    rw [foldl_append, foldl_cons, foldl_nil]
    generalize nodes.foldl (meet current) search = middle at met ⊢
    unfold meet
    split
    · rename_i present
      refine ⟨new, ?_, met.fresh, met.visited, ?_, met.queue, met.led, met.kept, met.size⟩
      · exact fun other mem => mem_append_left _ (met.listed other mem)
      intro other mem
      rcases mem_append.mp mem with old | last
      · exact met.all other old
      · rwa [mem_singleton.mp last]
    rename_i absent
    have outside : node ∉ new := fun mem => absent ((met.visited node).mpr (.inr mem))
    refine ⟨new ++ [node], ?_, ?_, ?_, ?_, ?_, ?_, ?_, ?_⟩
    · intro other mem
      rcases mem_append.mp mem with old | last
      · exact mem_append_left _ (met.listed other old)
      · exact mem_append_right _ last
    · intro other mem
      rcases mem_append.mp mem with old | last
      · exact met.fresh other old
      · rw [mem_singleton.mp last]
        exact fun old => absent ((met.visited node).mpr (.inl old))
    · intro other
      rw [mem_insert, met.visited, mem_append, mem_singleton]
      tauto
    · intro other mem
      rw [mem_insert]
      rcases mem_append.mp mem with old | last
      · exact .inr (met.all other old)
      · exact .inl (mem_singleton.mp last)
    · rw [met.queue, append_assoc]
    · intro other mem
      rw [Dict.get_set]
      split
      · rfl
      rename_i apart
      rcases mem_append.mp mem with old | last
      · exact met.led other old
      · exact absurd (mem_singleton.mp last) apart
    · intro other mem
      rw [mem_append, not_or, mem_singleton] at mem
      rw [Dict.get_set_ne _ _ mem.2]
      exact met.kept other mem.1
    · have inserted : (middle.visited.insert node).size = middle.visited.size + 1 := by
        unfold ListSet.insert ListSet.size
        rw [dif_neg absent, length_append, length_singleton]
      change (middle.visited.insert node).size = _
      rw [inserted, met.size, length_append, length_singleton, add_assoc]

/-- The visited nodes form the layers up to the first node that waits and a part of the next. -/
structure Sound (next : Node → List Node) (root : Node) (search : QueueSearch Node) : Prop where
  start : root ∈ search.visited.members
  reached : ∀ node ∈ search.visited.members,
    ∃ depth, Distance (fun first second => second ∈ next first) root node depth
  waiting : ∀ node ∈ search.queue, node ∈ search.visited.members
  closed : ∀ node ∈ search.visited.members, node ∈ search.queue ∨
    ∀ other ∈ next node, other ∈ search.visited.members
  sorted : search.queue.Pairwise fun first second => ∀ depth depth',
    Distance (fun first second => second ∈ next first) root first depth →
      Distance (fun first second => second ∈ next first) root second depth' → depth ≤ depth'
  near : ∀ first ∈ search.queue.head?, ∀ second ∈ search.queue, ∀ depth depth',
    Distance (fun first second => second ∈ next first) root first depth →
      Distance (fun first second => second ∈ next first) root second depth' → depth' ≤ depth + 1
  unled : search.predecessor.get root = none
  led : ∀ node ∈ search.visited.members, node = root ∨
    ∃ before ∈ search.visited.members, search.predecessor.get node = some before ∧
      node ∈ next before ∧ ∃ depth, Distance (fun first second => second ∈ next first) root before depth ∧
          Distance (fun first second => second ∈ next first) root node (depth + 1)

variable {next : Node → List Node} {root : Node}

theorem start_sound (next : Node → List Node) (root : Node) : (start root).Sound next root := by
  have only (node : Node) : node ∈ (start root).visited.members ↔ node = root := by
    change node ∈ (ListSet.empty.insert root).members ↔ _
    rw [mem_insert, members_empty]
    simp
  refine ⟨(only root).mpr rfl, ?_, ?_, ?_, pairwise_singleton _ _, ?_, Dict.get_empty root, ?_⟩
  · intro node mem
    rw [(only node).mp mem]
    exact ⟨0, Distance.zero _ _⟩
  · exact fun node mem => (only node).mpr (mem_singleton.mp mem)
  · exact fun node mem => .inl (mem_singleton.mpr ((only node).mp mem))
  · intro first head second mem depth depth' distance distance'
    rw [mem_singleton.mp mem] at distance'
    rw [distance'.unique (Distance.zero _ _)]
    exact Nat.zero_le _
  · exact fun node mem => .inl ((only node).mp mem)

variable {search : QueueSearch Node}

theorem Sound.far (sound : search.Sound next root) {current : Node}
    {rest : List Node} (first : search.queue = current :: rest) {depth : Nat}
    (distance : Distance (fun first second => second ∈ next first) root current depth)
    {node : Node} (absent : node ∉ search.visited.members) {count : Nat}
    (hops : Hops (fun first second => second ∈ next first) root count node) : depth < count := by
  induction hops with
  | start => exact absurd sound.start absent
  | @step count middle target before last ih =>
    by_cases visited : middle ∈ search.visited.members
    · rcases sound.closed middle visited with waits | closed
      · obtain ⟨depth', distance'⟩ := sound.reached middle visited
        have shorter := distance'.least count before
        have order : depth ≤ depth' := by
          have sorted := sound.sorted
          rw [first, pairwise_cons] at sorted
          rw [first] at waits
          rcases mem_cons.mp waits with same | later
          · rw [same] at distance'
            exact le_of_eq (distance.unique distance')
          · exact sorted.1 middle later depth depth' distance distance'
        omega
      · exact absurd (closed target last) absent
    · have farther := ih visited
      omega

theorem Sound.complete (sound : search.Sound next root)
    (empty : search.queue = []) {node : Node} {count : Nat}
    (hops : Hops (fun first second => second ∈ next first) root count node) :
    node ∈ search.visited.members := by
  induction hops with
  | start => exact sound.start
  | step _ last visited =>
    rcases sound.closed _ visited with waits | closed
    · rw [empty] at waits
      contradiction
    · exact closed _ last

theorem Sound.expand (sound : search.Sound next root) {current : Node}
    {rest : List Node} (first : search.queue = current :: rest) :
    ((next current).foldl (meet current) { search with queue := rest }).Sound next root := by
  obtain ⟨new, met⟩ := foldl_meet current (next current) { search with queue := rest }
  generalize (next current).foldl (meet current) { search with queue := rest } = after at met ⊢
  have here : current ∈ search.visited.members :=
    sound.waiting current (by rw [first]; exact mem_cons_self)
  obtain ⟨depth, distance⟩ := sound.reached current here
  have layer (node : Node) (mem : node ∈ new) :
      Distance (fun first second => second ∈ next first) root node (depth + 1) := by
    obtain ⟨count, close, distance'⟩ := distance.after (met.listed node mem)
    have beyond := sound.far first distance (met.fresh node mem) distance'.reached
    rwa [show depth + 1 = count by omega]
  have window (node : Node) (mem : node ∈ rest) (count : Nat)
      (distance' : Distance (fun first second => second ∈ next first) root node count) :
      depth ≤ count ∧ count ≤ depth + 1 := by
    have sorted := sound.sorted
    have near := sound.near
    rw [first] at near sorted
    exact ⟨(pairwise_cons.mp sorted).1 node mem depth count distance distance',
      near current rfl node (mem_cons_of_mem _ mem) depth count distance distance'⟩
  have old (node : Node) (mem : node ∈ search.visited.members) :
      node ∈ after.visited.members := (met.visited node).mpr (.inl mem)
  have span (node : Node) (mem : node ∈ after.queue) (count : Nat)
      (distance' : Distance (fun first second => second ∈ next first) root node count) :
      depth ≤ count ∧ count ≤ depth + 1 := by
    rw [met.queue] at mem
    rcases mem_append.mp mem with earlier | later
    · exact window node earlier count distance'
    · rw [distance'.unique (layer node later)]
      omega
  refine ⟨old root sound.start, ?_, ?_, ?_, ?_, ?_, ?_, ?_⟩
  · intro node mem
    rcases (met.visited node).mp mem with earlier | later
    · exact sound.reached node earlier
    · exact ⟨depth + 1, layer node later⟩
  · intro node mem
    rw [met.queue] at mem
    rcases mem_append.mp mem with earlier | later
    · exact old node (sound.waiting node (by rw [first]; exact mem_cons_of_mem _ earlier))
    · exact (met.visited node).mpr (.inr later)
  · intro node mem
    rw [met.queue]
    rcases (met.visited node).mp mem with earlier | later
    · rcases sound.closed node earlier with waits | closed
      · rw [first] at waits
        rcases mem_cons.mp waits with same | waits
        · rw [same]
          exact .inr met.all
        · exact .inl (mem_append_left new waits)
      · exact .inr fun other listed => old other (closed other listed)
    · exact .inl (mem_append_right rest later)
  · rw [met.queue, pairwise_append]
    have sorted := sound.sorted
    rw [first, pairwise_cons] at sorted
    refine ⟨sorted.2, ?_, ?_⟩
    · apply pairwise_of_forall_mem_list
      intro node mem other mem' count count' distance' distance''
      rw [distance'.unique (layer node mem), distance''.unique (layer other mem')]
    intro node earlier other later count count' distance' distance''
    have bound := (window node earlier count distance').2
    rwa [distance''.unique (layer other later)]
  · intro node head other mem count count' distance' distance''
    have lower := (span node (mem_of_mem_head? head) count distance').1
    have upper := (span other mem count' distance'').2
    omega
  · by_cases late : root ∈ new
    · exact absurd sound.start (met.fresh root late)
    · rw [met.kept root late]
      exact sound.unled
  · intro node mem
    by_cases late : node ∈ new
    · exact .inr ⟨current, old current here, met.led node late, met.listed node late, depth,
        distance, layer node late⟩
    have earlier := ((met.visited node).mp mem).resolve_right late
    rcases sound.led node earlier with same | ⟨before, visited, led, listed, steps⟩
    · exact .inl same
    · exact .inr ⟨before, old before visited, (met.kept node late).trans led, listed, steps⟩

/-- The nodes that led from the root to a node, both included. -/
inductive Traced (search : QueueSearch Node) (root : Node) : List Node → Node → Prop
  | root : Traced search root [root] root
  | led {path : List Node} {before node : Node} (traced : Traced search root path before)
      (apart : node ≠ root) (found : search.predecessor.get node = some before) :
      Traced search root (path ++ [node]) node

/-- A visited node has a trace along a shortest walk. -/
theorem Sound.traced (sound : search.Sound next root) {depth : Nat}
    {node : Node} (mem : node ∈ search.visited.members)
    (distance : Distance (fun first second => second ∈ next first) root node depth) :
    ∃ path, search.Traced root path node ∧ path.length = depth + 1 := by
  induction depth generalizing node with
  | zero =>
    rw [Distance.zero_iff] at distance
    rw [distance]
    exact ⟨[root], .root, rfl⟩
  | succ depth ih =>
    have apart : node ≠ root := by
      intro same
      rw [same] at distance
      have zero := distance.unique (Distance.zero _ _)
      contradiction
    rcases sound.led node mem with same | ⟨before, visited, found, _, count, first, last⟩
    · exact absurd same apart
    have level := Nat.succ.inj (last.unique distance)
    rw [level] at first
    obtain ⟨path, traced, length⟩ := ih visited first
    refine ⟨path ++ [node], .led traced apart found, ?_⟩
    rw [length_append, length]
    rfl

namespace Traced

variable {search : QueueSearch Node} {path : List Node} {node : Node}

/-- A trace has no more steps than there are nodes with a predecessor. -/
theorem length_le (traced : search.Traced root path node) (sound : search.Sound next root)
    (mem : node ∈ search.visited.members) : path.length ≤ search.predecessor.keys.length + 1 := by
  have spread (path : List Node) (node : Node) (traced : search.Traced root path node)
      (mem : node ∈ search.visited.members) :
      path.Nodup ∧ (∀ other ∈ path, other = root ∨ other ∈ search.predecessor.keys) ∧
        ∀ depth, Distance (fun first second => second ∈ next first) root node depth →
          ∀ other ∈ path, ∃ count ≤ depth,
            Distance (fun first second => second ∈ next first) root other count := by
    induction traced with
    | root =>
      refine ⟨nodup_singleton root, fun other listed => .inl (mem_singleton.mp listed), ?_⟩
      intro depth _ other listed
      rw [mem_singleton.mp listed]
      exact ⟨0, Nat.zero_le _, Distance.zero _ _⟩
    | @led path before node traced apart found ih =>
      rcases sound.led node mem with same | ⟨before', visited, found', _, count, first, last⟩
      · exact absurd same apart
      rw [found] at found'
      cases found'
      obtain ⟨nodup, keyed, close⟩ := ih visited
      have outside : node ∉ path := by
        intro listed
        obtain ⟨count', lower, distance⟩ := close count first node listed
        have same := distance.unique last
        omega
      refine ⟨?_, ?_, ?_⟩
      · rw [← concat_eq_append]
        exact nodup.concat outside
      · intro other listed
        rcases mem_append.mp listed with earlier | here
        · exact keyed other earlier
        · rw [mem_singleton.mp here]
          exact .inr ((Dict.mem_keys_iff _ _).mpr ⟨_, found⟩)
      intro depth distance other listed
      rw [distance.unique last]
      rcases mem_append.mp listed with earlier | here
      · obtain ⟨count', lower, distance'⟩ := close count first other earlier
        exact ⟨count', Nat.le_succ_of_le lower, distance'⟩
      · rw [mem_singleton.mp here]
        exact ⟨count + 1, le_refl _, last⟩
  obtain ⟨nodup, keyed, _⟩ := spread path node traced mem
  have inside : path ⊆ root :: search.predecessor.keys := fun other listed =>
    mem_cons.mpr (keyed other listed)
  exact (subperm_of_subset nodup inside).length_le

end Traced

end QueueSearch

end Codegraph.Library
