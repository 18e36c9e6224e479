import Codegraph.Algorithms.Cliques
import Codegraph.Library.FirstFit

namespace Codegraph

open Library List Adjacency

namespace Adjacency

/-- Each node is listed with its neighbours on both sides. -/
def ofNeighbors {Node Weight : Type} (graph : StableGraph Node Weight) : Adjacency :=
  graph.slots.foldl (fun adj slot =>
    (graph.edgesFrom slot ++ graph.edgesTo slot).foldl addLink (adj.update slot ∅ id)) ∅

/-- The nodes in the order of their colors, of which those with more neighbours come first. -/
def byDegree (adj : Adjacency) (slots : List Nat) : List Nat :=
  slots.insertionSort fun first second => (adj.neighbors second).card ≤ (adj.neighbors first).card

end Adjacency

/-- The nodes of one color. -/
structure ParallelGroup where
  color : Nat
  members : List NodeId
deriving DecidableEq

namespace CodeGraph

def colorGroups (slotOrder : HashOrder Nat) (code : CodeGraph) (colors : Dict Nat Nat) :
    Dict Nat (List NodeId) :=
  (slotOrder.iterate colors.keys.toFinset).foldl (fun groups slot =>
    match code.nodeIdFor slot with
    | some id => groups.update (colors.getD slot 0) [] (· ++ [id])
    | none => groups) ∅

/-- The nodes of a color can be edited at the same time. The largest groups come first. -/
def parallelEditGroups (slotOrder colorOrder : HashOrder Nat) (code : CodeGraph) : List ParallelGroup :=
  if code.graph.nodeCount = 0 then []
  else
    let adj := Adjacency.ofNeighbors code.graph
    let colors := firstFit adj.neighbors (adj.byDegree code.graph.slots)
    let groups := code.colorGroups slotOrder colors
    ((colorOrder.iterate groups.keys.toFinset).map fun color => ⟨color, groups.getD color []⟩).insertionSort
      fun first second : ParallelGroup => second.members.length ≤ first.members.length

def chromaticNumber (slotOrder colorOrder : HashOrder Nat) (code : CodeGraph) : Nat :=
  (code.parallelEditGroups slotOrder colorOrder).length

/-- Every node is in one of the groups, and no edge joins two nodes of a group. -/
structure EditPartition (code : CodeGraph) (groups : List (List NodeId)) : Prop where
  nonempty : ∀ group ∈ groups, group ≠ []
  covers : groups.flatten.Perm code.allNodeIds
  apart : ∀ group ∈ groups, ∀ first ∈ group, ∀ second ∈ group, ¬code.undirected.Adj first second

/-- The groups are such a partition, and there is none with fewer groups. -/
structure ParallelExact (slotOrder colorOrder : HashOrder Nat) (code : CodeGraph) : Prop where
  partition : code.EditPartition
    ((code.parallelEditGroups slotOrder colorOrder).map ParallelGroup.members)
  least : IsLeast {count | ∃ groups, code.EditPartition groups ∧ groups.length = count}
    (code.chromaticNumber slotOrder colorOrder)

/-- No edge joins two nodes of one color. -/
def Proper (code : CodeGraph) (color : NodeId → Nat) : Prop :=
  ∀ first second, code.undirected.Adj first second → color first ≠ color second

def colorsUsed (code : CodeGraph) (color : NodeId → Nat) : Finset Nat := code.allNodeIds.toFinset.image color

/-- The number of the nodes at an edge with the node. -/
noncomputable def degree (code : CodeGraph) (id : NodeId) : Nat := {other | code.Touches id other}.ncard

/-- A node has more neighbours, or as many and a lower slot. -/
def DegreeBefore (code : CodeGraph) (first second : NodeId) : Prop :=
  code.degree second < code.degree first ∨ code.degree first = code.degree second ∧
    ∃ slot slot', code.resolve first = some slot ∧ code.resolve second = some slot' ∧ slot < slot'

/-- Each smaller color belongs to a neighbour that comes before. -/
structure DegreeColored (code : CodeGraph) (color : NodeId → Nat) : Prop where
  proper : code.Proper color
  filled : ∀ id ∈ code.allNodeIds, ∀ smaller < color id,
    ∃ other, code.DegreeBefore other id ∧ code.Touches id other ∧ color other = smaller

end CodeGraph

namespace Adjacency

variable {Node Weight : Type}

theorem mem_neighbors_rows (graph : StableGraph Node Weight) (slots : List Nat) (adj : Adjacency)
    (first second : Nat) :
    second ∈ (slots.foldl (fun adj slot =>
      (graph.edgesFrom slot ++ graph.edgesTo slot).foldl addLink (adj.update slot ∅ id)) adj).neighbors
        first ↔ second ∈ adj.neighbors first ∨
      ∃ slot ∈ slots, ∃ link ∈ graph.edgesFrom slot ++ graph.edgesTo slot,
        link.source = first ∧ link.target = second ∨ link.source = second ∧ link.target = first := by
  induction slots generalizing adj with
  | nil => simp
  | cons slot slots ih =>
    have same : neighbors (adj.update slot ∅ id) first = adj.neighbors first := by
      rw [neighbors_update]
      exact ite_self _
    rw [foldl_cons, ih, mem_neighbors_links, same, exists_mem_cons_iff, or_assoc]

/-- Listing the neighbours of each node or the edges makes no difference. -/
theorem neighbors_ofNeighbors (graph : StableGraph Node Weight) :
    (ofNeighbors graph).neighbors = (ofGraph graph).neighbors := by
  funext first
  ext second
  rw [mem_neighbors_ofGraph, ofNeighbors, mem_neighbors_rows]
  rw [or_iff_right (by simp [neighbors])]
  constructor
  · rintro ⟨slot, _, link, listed, ends⟩
    refine ⟨link, ?_, ends⟩
    rcases mem_append.mp listed with out | into
    · exact ((graph.mem_edgesFrom slot link).mp out).1
    · exact ((graph.mem_edgesTo slot link).mp into).1
  rintro ⟨link, mem, ends⟩
  exact ⟨link.source, (graph.mem_slots _).mpr (graph.wired link mem).1, link,
    mem_append_left _ ((graph.mem_edgesFrom _ link).mpr ⟨mem, rfl⟩), ends⟩

end Adjacency

namespace CodeGraph

variable {code : CodeGraph}

theorem mem_allNodeIds_iff (consistent : Consistent code) (id : NodeId) :
    id ∈ code.allNodeIds ↔ ∃ slot ∈ code.graph.slots, code.nameOf slot = id := by
  rw [allNodeIds, Dict.mem_keys_iff]
  exact exists_congr fun slot => resolve_eq_some_iff consistent id slot

section Partitions

/-- The nodes are told apart by their colors. -/
def groupsOf (code : CodeGraph) (items colors : List Nat) (color : Nat → Nat) : List (List NodeId) :=
  colors.map fun value => (items.filter (color · = value)).map code.nameOf

theorem flatten_groupsOf (items colors : List Nat) (color : Nat → Nat) :
    (code.groupsOf items colors color).flatten =
      (colors.flatMap fun value => items.filter (color · = value)).map code.nameOf := by
  rw [groupsOf, ← flatMap_def, map_flatMap]

theorem flatMap_filter_perm {items colors : List Nat} {color : Nat → Nat} (distinct : items.Nodup)
    (once : colors.Nodup) (used : ∀ item ∈ items, color item ∈ colors) :
    (colors.flatMap fun value => items.filter (color · = value)).Perm items := by
  have apart : (colors.flatMap fun value => items.filter (color · = value)).Nodup := by
    refine nodup_flatMap.mpr ⟨fun value _ => distinct.filter _, once.imp fun different => ?_⟩
    intro item mem mem'
    have same := of_decide_eq_true (mem_filter.mp mem).2
    have same' := of_decide_eq_true (mem_filter.mp mem').2
    exact different (same.symm.trans same')
  rw [perm_ext_iff_of_nodup apart distinct]
  intro item
  simp only [mem_flatMap, mem_filter, decide_eq_true_eq]
  exact ⟨fun ⟨_, _, mem, _⟩ => mem, fun mem => ⟨_, used item mem, mem, rfl⟩⟩

theorem groupsOf_partition (consistent : Consistent code) {items colors : List Nat} {color : Nat → Nat}
    (distinct : items.Nodup) (listed : ∀ slot, slot ∈ items ↔ slot ∈ code.graph.slots)
    (once : colors.Nodup) (used : ∀ value, value ∈ colors ↔ ∃ slot ∈ items, color slot = value)
    (proper : ∀ first ∈ code.graph.slots, ∀ second ∈ code.graph.slots,
      code.undirected.Adj (code.nameOf first) (code.nameOf second) → color first ≠ color second) :
    code.EditPartition (code.groupsOf items colors color) where
  nonempty group mem := by
    obtain ⟨value, inside, rfl⟩ := mem_map.mp mem
    obtain ⟨slot, item, same⟩ := (used value).mp inside
    rw [ne_eq, map_eq_nil_iff]
    exact ne_nil_of_mem (mem_filter.mpr ⟨item, decide_eq_true same⟩)
  covers := by
    rw [flatten_groupsOf]
    refine ((flatMap_filter_perm distinct once fun item mem =>
      (used _).mpr ⟨item, mem, rfl⟩).map _).trans ?_
    have names := distinct.map_on fun first mem second mem' =>
      nameOf_injOn consistent ((listed _).mp mem) ((listed _).mp mem')
    refine (perm_ext_iff_of_nodup names code.indexMap.nodupKeys).mpr fun id => ?_
    rw [mem_map]
    refine Iff.trans ?_ (mem_allNodeIds_iff consistent id).symm
    exact exists_congr fun slot => and_congr_left' (listed slot)
  apart group mem first inside second inside' joined := by
    obtain ⟨value, -, rfl⟩ := mem_map.mp mem
    obtain ⟨slot, kept, rfl⟩ := mem_map.mp inside
    obtain ⟨slot', kept', rfl⟩ := mem_map.mp inside'
    obtain ⟨item, same⟩ := mem_filter.mp kept
    obtain ⟨item', same'⟩ := mem_filter.mp kept'
    exact proper slot ((listed _).mp item) slot' ((listed _).mp item') joined
      ((of_decide_eq_true same).trans (of_decide_eq_true same').symm)

theorem EditPartition.proper {groups : List (List NodeId)} (partition : code.EditPartition groups)
    (consistent : Consistent code) :
    ∃ color, code.Proper color ∧ (code.colorsUsed color).card ≤ groups.length := by
  have inside {id : NodeId} (known : id ∈ code.allNodeIds) : groups.findIdx (id ∈ ·) < groups.length := by
    obtain ⟨group, mem, listed⟩ := mem_flatten.mp (partition.covers.mem_iff.mpr known)
    exact findIdx_lt_length_of_exists ⟨group, mem, decide_eq_true listed⟩
  refine ⟨fun id => groups.findIdx (id ∈ ·), fun first second joined same => ?_, ?_⟩
  · have known := (mem_allNodeIds_iff consistent first).mpr joined.2.slot
    have known' := (mem_allNodeIds_iff consistent second).mpr joined.symm.2.slot
    have own := findIdx_getElem (w := inside known)
    have own' := findIdx_getElem (w := inside known')
    refine partition.apart _ (getElem_mem (inside known)) first (of_decide_eq_true own) second ?_
      joined
    simp only [same]
    exact of_decide_eq_true own'
  rw [← Finset.card_range groups.length]
  refine Finset.card_le_card fun value mem => ?_
  obtain ⟨id, known, rfl⟩ := Finset.mem_image.mp mem
  exact Finset.mem_range.mpr (inside (mem_toFinset.mp known))

theorem Proper.partition {color : NodeId → Nat} (proper : code.Proper color) (consistent : Consistent code) :
    ∃ groups, code.EditPartition groups ∧ groups.length = (code.colorsUsed color).card := by
  refine ⟨_, @groupsOf_partition code consistent _ _ (fun slot => color (code.nameOf slot))
    code.graph.slots_nodup (fun _ => Iff.rfl) (HashOrder.ascending.distinct (code.colorsUsed color))
    (fun value => ?_) fun first _ second _ => proper _ _, ?_⟩
  · rw [HashOrder.listed, colorsUsed, Finset.mem_image]
    constructor
    · rintro ⟨id, known, rfl⟩
      obtain ⟨slot, stored, rfl⟩ := (mem_allNodeIds_iff consistent id).mp (mem_toFinset.mp known)
      exact ⟨slot, stored, rfl⟩
    · rintro ⟨slot, stored, rfl⟩
      exact ⟨_, mem_toFinset.mpr ((mem_allNodeIds_iff consistent _).mpr ⟨slot, stored, rfl⟩), rfl⟩
  · rw [groupsOf, length_map, ← toFinset_card_of_nodup (HashOrder.distinct _ _), HashOrder.iterate_toFinset]

end Partitions

section Greedy

/-- The order of the slots in which they get their colors. -/
def slotBefore (code : CodeGraph) (first second : Nat) : Prop :=
  ((Adjacency.ofGraph code.graph).neighbors second).card <
      ((Adjacency.ofGraph code.graph).neighbors first).card ∨
    ((Adjacency.ofGraph code.graph).neighbors first).card =
      ((Adjacency.ofGraph code.graph).neighbors second).card ∧ first < second

theorem slotBefore_asymm (first second : Nat) (before : code.slotBefore first second) :
    ¬code.slotBefore second first := by
  unfold slotBefore at *
  omega

theorem byDegree_pairwise (code : CodeGraph) :
    ((Adjacency.ofGraph code.graph).byDegree code.graph.slots).Pairwise code.slotBefore := by
  refine pairwise_insertionSort_falling (fun slot => ((Adjacency.ofGraph code.graph).neighbors slot).card) ?_
  have sorted := pairwise_mergeSort' (· ≤ ·) code.graph.nodes.keys
  refine (sorted.and code.graph.slots_nodup).imp fun both => ?_
  exact lt_of_le_of_ne both.1 both.2

theorem mem_byDegree (slot : Nat) :
    slot ∈ (Adjacency.ofGraph code.graph).byDegree code.graph.slots ↔ slot ∈ code.graph.slots :=
  (perm_insertionSort _ _).mem_iff

theorem near_stored {slot other : Nat} (near : other ∈ (Adjacency.ofGraph code.graph).neighbors slot) :
    other ∈ code.graph.slots := by
  rw [mem_neighbors_ofGraph] at near
  obtain ⟨link, mem, ⟨-, rfl⟩ | ⟨rfl, -⟩⟩ := near
  · exact (link_slots mem).2
  · exact (link_slots mem).1

theorem Touches.symm {first second : NodeId} (joined : code.Touches first second) :
    code.Touches second first := joined.imp fun _ => Or.symm

section

variable (consistent : Consistent code)
include consistent

theorem degree_eq {slot : Nat} (stored : slot ∈ code.graph.slots) :
    code.degree (code.nameOf slot) = ((Adjacency.ofGraph code.graph).neighbors slot).card := by
  have names : {other | code.Touches (code.nameOf slot) other} =
      code.nameOf '' ((Adjacency.ofGraph code.graph).neighbors slot : Set Nat) := by
    ext other
    constructor
    · intro joined
      obtain ⟨slot', stored', rfl⟩ := joined.symm.slot
      exact ⟨slot', (touches_iff consistent stored stored').mp joined, rfl⟩
    · rintro ⟨slot', near, rfl⟩
      exact (touches_iff consistent stored (near_stored near)).mpr near
  have apart : Set.InjOn code.nameOf ((Adjacency.ofGraph code.graph).neighbors slot : Set Nat) :=
    (nameOf_injOn consistent).mono fun _ near => near_stored near
  rw [degree, names, apart.ncard_image, Set.ncard_coe_finset]

theorem degreeBefore_iff {first second : Nat}
    (stored : first ∈ code.graph.slots) (stored' : second ∈ code.graph.slots) :
    code.DegreeBefore (code.nameOf first) (code.nameOf second) ↔ code.slotBefore first second := by
  unfold DegreeBefore slotBefore
  rw [degree_eq consistent stored, degree_eq consistent stored',
    (resolve_eq_some_iff consistent _ first).mpr ⟨stored, rfl⟩,
    (resolve_eq_some_iff consistent _ second).mpr ⟨stored', rfl⟩]
  simp

theorem adj_iff {first second : Nat}
    (stored : first ∈ code.graph.slots) (stored' : second ∈ code.graph.slots) :
    code.undirected.Adj (code.nameOf first) (code.nameOf second) ↔
      first ≠ second ∧ first ∈ (Adjacency.ofGraph code.graph).neighbors second := by
  refine and_congr ?_ ?_
  · exact not_congr ⟨fun same => nameOf_injOn consistent stored stored' same, congrArg _⟩
  refine (touches_iff consistent stored stored').trans ⟨?_, ?_⟩
  · exact neighbors_symm code.graph first second
  · exact neighbors_symm code.graph second first

/-- The colors of the ids are those of the slots in the order of the degrees. -/
theorem degreeColored_iff (color : NodeId → Nat) :
    code.DegreeColored color ↔ FirstFits (Adjacency.ofGraph code.graph).neighbors code.slotBefore
      ((Adjacency.ofGraph code.graph).byDegree code.graph.slots) fun slot => color (code.nameOf slot) := by
  constructor
  · intro colored
    refine ⟨fun first mem second mem' different near => ?_, fun slot mem smaller less => ?_⟩
    · rw [mem_byDegree] at mem mem'
      exact colored.proper _ _ ((adj_iff consistent mem mem').mpr ⟨different, near⟩)
    rw [mem_byDegree] at mem
    obtain ⟨other, before, joined, same⟩ := colored.filled (code.nameOf slot)
      ((mem_allNodeIds_iff consistent _).mpr ⟨slot, mem, rfl⟩) smaller less
    obtain ⟨slot', stored, rfl⟩ := joined.symm.slot
    exact ⟨slot', (mem_byDegree slot').mpr stored, (degreeBefore_iff consistent stored mem).mp before,
      (touches_iff consistent mem stored).mp joined, same⟩
  intro fits
  refine ⟨fun first second joined => ?_, fun id known smaller less => ?_⟩
  · obtain ⟨slot, stored, rfl⟩ := joined.2.slot
    obtain ⟨slot', stored', rfl⟩ := joined.2.symm.slot
    obtain ⟨different, near⟩ := (adj_iff consistent stored stored').mp joined
    exact fits.proper slot ((mem_byDegree slot).mpr stored) slot' ((mem_byDegree slot').mpr stored')
      different near
  obtain ⟨slot, stored, rfl⟩ := (mem_allNodeIds_iff consistent id).mp known
  obtain ⟨other, mem, before, near, same⟩ :=
    fits.filled slot ((mem_byDegree slot).mpr stored) smaller less
  rw [mem_byDegree] at mem
  exact ⟨code.nameOf other, (degreeBefore_iff consistent mem stored).mpr before,
    (touches_iff consistent stored mem).mpr near, same⟩

end

/-- The colors that the slots get. -/
def greedyColor (code : CodeGraph) (slot : Nat) : Nat :=
  (firstFit (Adjacency.ofGraph code.graph).neighbors
    ((Adjacency.ofGraph code.graph).byDegree code.graph.slots)).getD slot 0

theorem greedyColor_fits (code : CodeGraph) :
    FirstFits (Adjacency.ofGraph code.graph).neighbors code.slotBefore
      ((Adjacency.ofGraph code.graph).byDegree code.graph.slots) code.greedyColor :=
  firstFit_fits (fun first second => neighbors_symm code.graph second first) slotBefore_asymm
    (byDegree_pairwise code)

/-- The only coloring that follows the degrees is the found one. -/
theorem DegreeColored.unique {color : NodeId → Nat} (colored : code.DegreeColored color)
    (consistent : Consistent code) {slot : Nat} (stored : slot ∈ code.graph.slots) :
    color (code.nameOf slot) = code.greedyColor slot := by
  have found := (firstFits_iff (fun first second => neighbors_symm code.graph second first)
    slotBefore_asymm (byDegree_pairwise code)).mp ((degreeColored_iff consistent color).mp colored) slot
    ((mem_byDegree slot).mpr stored)
  rw [greedyColor, Dict.getD, found]
  rfl

theorem exists_degreeColored (consistent : Consistent code) : ∃ color, code.DegreeColored color := by
  refine ⟨fun id => ((code.resolve id).map code.greedyColor).getD 0,
    (degreeColored_iff consistent _).mpr ⟨?_, ?_⟩⟩
  all_goals
    have named {slot : Nat} (mem : slot ∈ (Adjacency.ofGraph code.graph).byDegree code.graph.slots) :
        code.resolve (code.nameOf slot) = some slot :=
      (resolve_eq_some_iff consistent _ slot).mpr ⟨(mem_byDegree slot).mp mem, rfl⟩
  · intro first mem second mem' different near
    rw [named mem, named mem']
    exact (greedyColor_fits code).proper first mem second mem' different near
  · intro slot mem smaller less
    rw [named mem] at less
    obtain ⟨other, mem', before, near, same⟩ := (greedyColor_fits code).filled slot mem smaller less
    refine ⟨other, mem', before, near, ?_⟩
    rwa [named mem']

end Greedy

section Groups

theorem listed_groups {items : List Nat} (colors : Dict Nat Nat)
    (stored : ∀ slot ∈ items, slot ∈ code.graph.slots) (value : Nat) :
    (items.foldl (fun groups slot =>
      match code.nodeIdFor slot with
      | some id => groups.update (colors.getD slot 0) [] (· ++ [id])
      | none => groups) (∅ : Dict Nat (List NodeId))).get value =
      if ∃ slot ∈ items, colors.getD slot 0 = value then
        some ((items.filter (colors.getD · 0 = value)).map code.nameOf)
      else none := by
  induction items using List.reverseRecOn with
  | nil => simp
  | append_singleton items slot ih =>
    have before := ih fun slot mem => stored slot (mem_append_left _ mem)
    rw [foldl_append, foldl_cons, foldl_nil,
      nodeIdFor_eq (stored slot (mem_append_right _ (mem_singleton_self _)))]
    rw [Dict.get_update]
    by_cases same : value = colors.getD slot 0
    · subst same
      rw [if_pos rfl, if_pos ⟨slot, mem_append_right _ (mem_singleton_self _), rfl⟩,
        filter_append, map_append, filter_cons_of_pos (by simp), Dict.getD, before]
      congr 2
      split
      · rfl
      rename_i absent
      have nothing := filter_eq_nil_iff.mpr fun other mem here =>
          absent ⟨other, mem, of_decide_eq_true here⟩
      rw [nothing]
      rfl
    rw [if_neg same, before, filter_append, filter_cons_of_neg (by simpa using Ne.symm same),
      filter_nil, append_nil]
    refine if_congr ?_ rfl rfl
    constructor
    · rintro ⟨other, mem, here⟩
      exact ⟨other, mem_append_left _ mem, here⟩
    rintro ⟨other, mem, here⟩
    rcases mem_append.mp mem with inside | last
    · exact ⟨other, inside, here⟩
    · exact absurd (mem_singleton.mp last ▸ here).symm same

theorem mem_keys_firstFit (code : CodeGraph) : (firstFit (Adjacency.ofGraph code.graph).neighbors
      ((Adjacency.ofGraph code.graph).byDegree code.graph.slots)).keys.toFinset =
        code.graph.slots.toFinset := by
  ext slot
  rw [mem_toFinset, mem_toFinset, Dict.mem_keys_iff, ← mem_byDegree]
  constructor
  · rintro ⟨color, found⟩
    by_contra outside
    rw [get_firstFit_eq_none outside] at found
    cases found
  intro mem
  exact ⟨_, (firstFits_iff (fun first second => neighbors_symm code.graph second first)
    slotBefore_asymm (byDegree_pairwise code)).mp (greedyColor_fits code) slot mem⟩

variable (slotOrder colorOrder : HashOrder Nat)

theorem parallelEditGroups_perm (code : CodeGraph) :
    ((code.parallelEditGroups slotOrder colorOrder).map ParallelGroup.members).Perm
      (code.groupsOf (slotOrder.iterate code.graph.slots.toFinset)
        (colorOrder.iterate (code.graph.slots.toFinset.image code.greedyColor)) code.greedyColor) := by
  have stored : ∀ slot ∈ slotOrder.iterate code.graph.slots.toFinset, slot ∈ code.graph.slots :=
    fun slot mem => mem_toFinset.mp ((slotOrder.listed _ slot).mp mem)
  unfold parallelEditGroups
  split
  · rename_i none
    have empty : code.graph.slots = [] := by rw [← length_eq_zero_iff, code.graph.length_slots, none]
    rw [empty, toFinset_nil, Finset.image_empty, colorOrder.iterate_eq_nil.mpr rfl]
    exact List.Perm.refl []
  dsimp only
  rw [neighbors_ofNeighbors]
  refine ((perm_insertionSort _ _).map _).trans ?_
  have order : (Adjacency.ofNeighbors code.graph).byDegree code.graph.slots =
      (Adjacency.ofGraph code.graph).byDegree code.graph.slots := by
    unfold Adjacency.byDegree
    rw [neighbors_ofNeighbors]
  rw [order, colorGroups, mem_keys_firstFit, map_map]
  have listed := listed_groups (firstFit (Adjacency.ofGraph code.graph).neighbors
    ((Adjacency.ofGraph code.graph).byDegree code.graph.slots)) stored
  generalize (slotOrder.iterate code.graph.slots.toFinset).foldl _ (∅ : Dict Nat (List NodeId)) =
    groups at listed ⊢
  have keys : groups.keys.toFinset = code.graph.slots.toFinset.image code.greedyColor := by
    ext value
    rw [mem_toFinset, Dict.mem_keys_iff, listed]
    simp only [ite_eq_iff, slotOrder.listed, reduceCtorEq, and_false, or_false, Finset.mem_image]
    constructor
    · rintro ⟨_, found, -⟩
      exact found
    · intro found
      exact ⟨_, found, rfl⟩
  rw [keys]
  refine List.Perm.of_eq (map_congr_left fun value mem => ?_)
  rw [colorOrder.listed, Finset.mem_image] at mem
  obtain ⟨slot, inside, same⟩ := mem
  change groups.getD value [] = _
  rw [Dict.getD, listed, if_pos ⟨slot, (slotOrder.listed _ slot).mpr inside, same⟩]
  rfl

theorem EditPartition.of_perm {groups groups' : List (List NodeId)} (partition : code.EditPartition groups)
    (perm : groups'.Perm groups) : code.EditPartition groups' where
  nonempty group mem := partition.nonempty group (perm.mem_iff.mp mem)
  covers := perm.flatten.trans partition.covers
  apart group mem := partition.apart group (perm.mem_iff.mp mem)

theorem parallelEditGroups_partition (consistent : Consistent code) :
    code.EditPartition ((code.parallelEditGroups slotOrder colorOrder).map ParallelGroup.members) := by
  refine (groupsOf_partition consistent (slotOrder.distinct _) (fun slot => ?_) (colorOrder.distinct _)
    (fun value => ?_) fun first stored second stored' joined => ?_).of_perm
      (parallelEditGroups_perm slotOrder colorOrder code)
  · rw [slotOrder.listed, mem_toFinset]
  · simp only [colorOrder.listed, slotOrder.listed, Finset.mem_image]
  obtain ⟨different, near⟩ := (adj_iff consistent stored stored').mp joined
  exact (greedyColor_fits code).proper first ((mem_byDegree first).mpr stored) second
    ((mem_byDegree second).mpr stored') different near

/-- There are as many groups as colors in the coloring that follows the degrees. -/
theorem DegreeColored.chromaticNumber_eq {color : NodeId → Nat} (colored : code.DegreeColored color)
    (slotOrder colorOrder : HashOrder Nat) (consistent : Consistent code) :
    code.chromaticNumber slotOrder colorOrder = (code.colorsUsed color).card := by
  have count := (parallelEditGroups_perm slotOrder colorOrder code).length_eq
  rw [length_map, groupsOf, length_map, ← toFinset_card_of_nodup (colorOrder.distinct _),
    HashOrder.iterate_toFinset] at count
  have used : code.colorsUsed color = code.graph.slots.toFinset.image code.greedyColor := by
    ext value
    simp only [colorsUsed, Finset.mem_image, mem_toFinset, mem_allNodeIds_iff consistent]
    constructor
    · rintro ⟨id, ⟨slot, stored, rfl⟩, rfl⟩
      exact ⟨slot, stored, (colored.unique consistent stored).symm⟩
    · rintro ⟨slot, stored, rfl⟩
      exact ⟨code.nameOf slot, ⟨slot, stored, rfl⟩, colored.unique consistent stored⟩
  rw [chromaticNumber, count, used]

end Groups

/-- The six functions of which each of the odd ones calls two of the even ones. -/
def crown : List Edit :=
  ([1, 2, 3, 4, 5, 6] : List (BitVec 64)).map (fun hash =>
      .addNode { id := ⟨hash⟩, kind := .function, name := "f" }) ++
    ([(1, 4), (1, 6), (3, 2), (3, 6), (5, 2), (5, 4)] : List (BitVec 64 × BitVec 64)).map fun call =>
      .addEdge ⟨call.1⟩ ⟨call.2⟩ ⟨.calls, {}, 0⟩

theorem slots_crown : (edited .fresh crown).graph.slots = [1, 2, 4, 8, 16, 32] := by
  have keys : (edited .fresh crown).graph.nodes.keys.Perm [1, 2, 4, 8, 16, 32] := by decide +kernel
  have sorted := pairwise_mergeSort' (· ≤ ·) (edited .fresh crown).graph.nodes.keys
  exact ((mergeSort_perm _ _).trans keys).eq_of_pairwise' sorted (by decide)

end CodeGraph

end Codegraph
