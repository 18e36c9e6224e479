import Mathlib.Algebra.BigOperators.Field
import Mathlib.Algebra.BigOperators.Ring.Finset
import Mathlib.Tactic

namespace Codegraph.Library

open Finset Function

section Modularity

variable {Node Label K : Type} [DecidableEq Label] [Field K]
variable (nodes : Finset Node) (weight : Node → Node → K)

/-- The weight of the edges at a node. -/
def weightedDegree (node : Node) : K := ∑ other ∈ nodes, weight node other

/-- Every edge counts at both of its ends. -/
def doubleWeight : K := ∑ node ∈ nodes, weightedDegree nodes weight node

/-- The weight between two nodes over the one expected from their degrees. -/
def surplus (resolution : K) (first second : Node) : K :=
  weight first second - resolution * weightedDegree nodes weight first *
    weightedDegree nodes weight second / doubleWeight nodes weight

/-- The modularity of Newman sums the surplus over the pairs of nodes with one label. -/
def modularity (resolution : K) (label : Node → Label) : K :=
  1 / doubleWeight nodes weight * ∑ first ∈ nodes, ∑ second ∈ nodes,
    if label first = label second then surplus nodes weight resolution first second else 0

/-- The weight of the edges inside the groups, each counted from both ends. -/
def innerWeight (label : Node → Label) : K :=
  ∑ first ∈ nodes, ∑ second ∈ nodes, if label first = label second then weight first second else 0

/-- The degrees of the nodes with a label. -/
def groupDegree (label : Node → Label) (group : Label) : K :=
  ∑ node ∈ nodes with label node = group, weightedDegree nodes weight node

variable {nodes weight}

theorem sum_groupDegree (label : Node → Label) (groups : Finset Label)
    (covers : ∀ node ∈ nodes, label node ∈ groups) :
    ∑ first ∈ nodes, ∑ second ∈ nodes, (if label first = label second then
        weightedDegree nodes weight first * weightedDegree nodes weight second else 0) =
      ∑ group ∈ groups, groupDegree nodes weight label group ^ 2 := by
  have squared (group : Label) : groupDegree nodes weight label group ^ 2 =
      ∑ first ∈ nodes with label first = group, weightedDegree nodes weight first *
        groupDegree nodes weight label (label first) := by
    rw [pow_two, groupDegree, sum_mul]
    apply sum_congr rfl
    intro first mem
    rw [(mem_filter.mp mem).2, groupDegree]
  simp_rw [squared]
  rw [sum_fiberwise_of_maps_to covers]
  apply sum_congr rfl
  intro first _
  rw [groupDegree, mul_sum, sum_filter]
  apply sum_congr rfl
  intro second _
  simp only [eq_comm]

theorem modularity_eq (resolution : K) (label : Node → Label) (groups : Finset Label)
    (covers : ∀ node ∈ nodes, label node ∈ groups) :
    modularity nodes weight resolution label = innerWeight nodes weight label /
      doubleWeight nodes weight - resolution * ∑ group ∈ groups,
        (groupDegree nodes weight label group / doubleWeight nodes weight) ^ 2 := by
  have split (first second : Node) :
      (if label first = label second then surplus nodes weight resolution first second else 0) =
        (if label first = label second then weight first second else 0) -
          resolution / doubleWeight nodes weight * (if label first = label second then
            weightedDegree nodes weight first * weightedDegree nodes weight second else 0) := by
    unfold surplus
    split_ifs
    · ring
    · ring
  unfold modularity innerWeight
  simp_rw [split, sum_sub_distrib, ← mul_sum]
  rw [sum_groupDegree label groups covers]
  simp_rw [div_pow, ← sum_div]
  ring

theorem surplus_comm {resolution : K} (symmetric : ∀ first second, weight first second = weight second first)
    (first second : Node) : surplus nodes weight resolution first second =
      surplus nodes weight resolution second first := by
  unfold surplus
  rw [symmetric first second]
  ring

section Moves

variable [DecidableEq Node]

/-- The weight between a node and the other nodes of a group. -/
def attachment (nodes : Finset Node) (weight : Node → Node → K) (label : Node → Label) (node : Node)
    (group : Label) : K := ∑ other ∈ nodes.erase node with label other = group, weight node other

variable {label : Node → Label} {node : Node} {target : Label} {resolution : K}

theorem sum_surplus_split (symmetric : ∀ first second, weight first second = weight second first)
    (mem : node ∈ nodes) :
    (∑ first ∈ nodes, ∑ second ∈ nodes,
        if label first = label second then surplus nodes weight resolution first second else 0) =
      surplus nodes weight resolution node node +
        2 * (∑ other ∈ nodes.erase node with label other = label node,
          surplus nodes weight resolution node other) +
        ∑ first ∈ nodes.erase node, ∑ second ∈ nodes.erase node,
          if label first = label second then surplus nodes weight resolution first second else 0 := by
  have row (first : Node) : (∑ second ∈ nodes,
      if label first = label second then surplus nodes weight resolution first second else 0) =
        (if label first = label node then surplus nodes weight resolution first node else 0) +
          ∑ second ∈ nodes.erase node,
            if label first = label second then surplus nodes weight resolution first second else 0 :=
    (add_sum_erase nodes _ mem).symm
  have column : (∑ first ∈ nodes.erase node,
      if label first = label node then surplus nodes weight resolution first node else 0) =
        ∑ other ∈ nodes.erase node with label other = label node,
          surplus nodes weight resolution node other := by
    rw [sum_filter]
    apply sum_congr rfl
    intro first _
    rw [surplus_comm symmetric]
  have line : (∑ second ∈ nodes.erase node,
      if label node = label second then surplus nodes weight resolution node second else 0) =
        ∑ other ∈ nodes.erase node with label other = label node,
          surplus nodes weight resolution node other := by
    rw [sum_filter]
    apply sum_congr rfl
    intro second _
    simp only [eq_comm]
  rw [← add_sum_erase nodes _ mem, row node, if_pos rfl, line]
  simp_rw [row]
  rw [sum_add_distrib, column]
  ring

theorem sum_surplus_group (group : Label) :
    ∑ other ∈ nodes.erase node with label other = group, surplus nodes weight resolution node other =
      attachment nodes weight label node group -
        resolution * weightedDegree nodes weight node *
          (∑ other ∈ nodes.erase node with label other = group, weightedDegree nodes weight other) /
            doubleWeight nodes weight := by
  unfold surplus attachment
  rw [sum_sub_distrib, ← sum_div, ← mul_sum]

/-- Moving a node changes the modularity by what it gains in the new group less what it loses in the
old one. -/
theorem modularity_move (symmetric : ∀ first second, weight first second = weight second first)
    (mem : node ∈ nodes) (apart : target ≠ label node) :
    modularity nodes weight resolution (Function.update label node target) -
        modularity nodes weight resolution label =
      2 * (attachment nodes weight label node target -
          attachment nodes weight label node (label node)) / doubleWeight nodes weight -
        2 * resolution * weightedDegree nodes weight node *
          (groupDegree nodes weight label target -
            (groupDegree nodes weight label (label node) - weightedDegree nodes weight node)) /
              doubleWeight nodes weight ^ 2 := by
  have stays (other : Node) (inside : other ∈ nodes.erase node) :
      update label node target other = label other :=
    update_of_ne (ne_of_mem_erase inside) _ _
  have moved : (∑ other ∈ nodes.erase node with
      update label node target other = update label node target node,
        surplus nodes weight resolution node other) =
      ∑ other ∈ nodes.erase node with label other = target, surplus nodes weight resolution node other := by
    apply sum_congr _ fun _ _ => rfl
    apply filter_congr
    intro other inside
    rw [stays other inside, update_self]
  have rest : (∑ first ∈ nodes.erase node, ∑ second ∈ nodes.erase node,
      if update label node target first = update label node target second then
        surplus nodes weight resolution first second else 0) =
      ∑ first ∈ nodes.erase node, ∑ second ∈ nodes.erase node,
        if label first = label second then surplus nodes weight resolution first second else 0 := by
    apply sum_congr rfl
    intro first inside
    apply sum_congr rfl
    intro second inside'
    rw [stays first inside, stays second inside']
  have entering : ∑ other ∈ nodes.erase node with label other = target,
      weightedDegree nodes weight other = groupDegree nodes weight label target := by
    rw [groupDegree, filter_erase, erase_eq_of_notMem]
    exact fun listed => apart (mem_filter.mp listed).2.symm
  have leaving : ∑ other ∈ nodes.erase node with label other = label node,
      weightedDegree nodes weight other =
        groupDegree nodes weight label (label node) - weightedDegree nodes weight node := by
    rw [groupDegree, filter_erase, eq_sub_iff_add_eq]
    exact sum_erase_add _ _ (mem_filter.mpr ⟨mem, rfl⟩)
  unfold modularity
  rw [sum_surplus_split symmetric mem, sum_surplus_split symmetric mem, moved, rest,
    sum_surplus_group, sum_surplus_group, entering, leaving]
  ring

theorem groupDegree_update (mem : node ∈ nodes) (group : Label) :
    groupDegree nodes weight (Function.update label node target) group =
      groupDegree nodes weight label group -
        (if label node = group then weightedDegree nodes weight node else 0) +
          if target = group then weightedDegree nodes weight node else 0 := by
  have others : (∑ other ∈ nodes.erase node, if update label node target other = group then
      weightedDegree nodes weight other else 0) =
        ∑ other ∈ nodes.erase node, if label other = group then weightedDegree nodes weight other
          else 0 := by
    apply sum_congr rfl
    intro other inside
    rw [update_of_ne (ne_of_mem_erase inside)]
  unfold groupDegree
  rw [sum_filter, sum_filter, ← add_sum_erase nodes _ mem, ← add_sum_erase nodes _ mem,
    update_self, others]
  ring

end Moves

theorem modularity_congr {label label' : Node → Label} (same : ∀ node ∈ nodes, label node = label' node)
    (resolution : K) : modularity nodes weight resolution label = modularity nodes weight resolution label' ∧
      innerWeight nodes weight label = innerWeight nodes weight label' := by
  constructor
  · unfold modularity
    congr 1
    refine sum_congr rfl fun first mem => sum_congr rfl fun second mem' => ?_
    rw [same first mem, same second mem']
  · refine sum_congr rfl fun first mem => sum_congr rfl fun second mem' => ?_
    rw [same first mem, same second mem']

section Merging

variable {Group : Type} [DecidableEq Group] {groups : Finset Group} {merge : Node → Group}
variable {between : Group → Group → K} (covers : ∀ node ∈ nodes, merge node ∈ groups)
  (merged : ∀ first second, between first second = ∑ node ∈ nodes with merge node = first,
    ∑ other ∈ nodes with merge other = second, weight node other)

include covers merged

theorem sum_merged (factor : Group → Group → K) :
    ∑ first ∈ groups, ∑ second ∈ groups, factor first second * between first second =
      ∑ node ∈ nodes, ∑ other ∈ nodes, factor (merge node) (merge other) * weight node other := by
  rw [← sum_fiberwise_of_maps_to covers]
  apply sum_congr rfl
  intro first _
  simp_rw [merged, mul_sum]
  rw [sum_comm]
  apply sum_congr rfl
  intro node mem
  rw [← sum_fiberwise_of_maps_to covers, (mem_filter.mp mem).2]
  apply sum_congr rfl
  intro second _
  apply sum_congr rfl
  intro other mem'
  rw [(mem_filter.mp mem').2]

theorem merged_trans {Coarse : Type} [DecidableEq Coarse] (again : Group → Coarse) (first second : Coarse) :
    ∑ group ∈ groups with again group = first, ∑ other ∈ groups with again other = second,
        between group other =
      ∑ node ∈ nodes with again (merge node) = first, ∑ other ∈ nodes with again (merge other) = second,
        weight node other := by
  have same := sum_merged covers merged fun group other =>
    if again group = first then if again other = second then 1 else 0 else 0
  simpa only [sum_filter, ite_mul, one_mul, zero_mul, sum_ite_irrel, sum_const_zero] using same

theorem groupDegree_merged (label : Group → Label) (group : Label) :
    groupDegree groups between label group =
      groupDegree nodes weight (fun node => label (merge node)) group := by
  have same := sum_merged covers merged fun first _ => if label first = group then 1 else 0
  simpa only [groupDegree, weightedDegree, sum_filter, ite_mul, one_mul, zero_mul,
    sum_ite_irrel, sum_const_zero] using same

theorem innerWeight_merged (label : Group → Label) :
    innerWeight groups between label = innerWeight nodes weight fun node => label (merge node) := by
  have same := sum_merged covers merged fun first second => if label first = label second then 1 else 0
  simpa only [innerWeight, ite_mul, one_mul, zero_mul] using same

theorem doubleWeight_merged : doubleWeight groups between = doubleWeight nodes weight := by
  simpa only [doubleWeight, weightedDegree, one_mul] using sum_merged covers merged fun _ _ => 1

theorem modularity_merged (resolution : K) (label : Group → Label) :
    modularity groups between resolution label =
      modularity nodes weight resolution fun node => label (merge node) := by
  rw [modularity_eq resolution label (groups.image label) fun _ => mem_image_of_mem _,
    modularity_eq resolution _ (groups.image label) fun node mem => mem_image_of_mem _ (covers node mem),
    innerWeight_merged covers merged, doubleWeight_merged covers merged]
  simp_rw [groupDegree_merged covers merged]

end Merging

end Modularity

end Codegraph.Library
