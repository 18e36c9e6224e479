import Codegraph.Graph.Consistency
import Codegraph.Library.Heaps

namespace Codegraph.Dsl

open Library List

/-- A number from a total order that starts at the negative infinity, or the value that is no number. -/
inductive Score (Value : Type) where
  | nan
  | number (value : Value)
deriving DecidableEq

namespace Score

variable {Value : Type} [LinearOrder Value]

/-- The number, below which there is what is no number. -/
def key : Score Value → WithBot Value
  | .nan => ⊥
  | .number value => value

def isNan : Score Value → Bool
  | .nan => true
  | .number _ => false

/-- Only numbers are compared. -/
def partialCmp : Score Value → Score Value → Option Ordering
  | .number first, .number second => some (compare first second)
  | _, _ => none

omit [LinearOrder Value] in
theorem key_injective : Function.Injective (@key Value) := by
  intro first second same
  cases first <;> cases second
  · rfl
  · exact absurd same.symm (WithBot.coe_ne_bot)
  · exact absurd same (WithBot.coe_ne_bot)
  · rw [WithBot.coe_injective same]

/-- What is no number is below every number. -/
instance : LinearOrder (Score Value) := LinearOrder.lift' key key_injective

end Score

variable {Value : Type} [LinearOrder Value]

/-- The order that is wrapped around the scores. -/
def orderedCmp (first second : Score Value) : Ordering :=
  match first.isNan, second.isNan with
  | true, true => .eq
  | true, false => .lt
  | false, true => .gt
  | false, false => (first.partialCmp second).getD .eq

/-- The heap compares the scores the other way round and then the ids. -/
def heapCmp (first second : Score Value × NodeId) : Ordering :=
  (orderedCmp second.1 first.1).then (compare first.2.hash.toNat second.2.hash.toNat)

/-- The final sort takes a score that is no number for equal to every other. -/
def sortCmp (first second : Score Value × NodeId) : Ordering := (second.1.partialCmp first.1).getD .eq

/-- A node without a value that can be read has the negative infinity. -/
def scoreOf [OrderBot Value] (parse : String → Option (Score Value)) (code : CodeGraph) (field : String)
    (id : NodeId) : Score Value :=
  ((code.getNode id).bind fun node => (node.metadata.get field).bind parse).getD (.number ⊥)

/-- The heap holds no more than so many nodes, and they are sorted at the end. -/
def topKBy (runtime : SortRuntime (Score Value × NodeId)) (score : NodeId → Score Value)
    (nodes : List NodeId) (k : Nat) : Option (List NodeId) :=
  if k = 0 then some []
  else
    let heap := nodes.foldl (fun heap id =>
      pushBounded (fun first second => (heapCmp first second).isLE) k heap (score id, id)) []
    (runtime.sortBy sortCmp (runtime.drain heap)).map (List.map Prod.snd)

def streamTopKBy [OrderBot Value] (runtime : SortRuntime (Score Value × NodeId))
    (parse : String → Option (Score Value)) (nodes : List NodeId) (code : CodeGraph) (field : String)
    (k : Nat) : Option (List NodeId) := topKBy runtime (scoreOf parse code field) nodes k

/-- The best nodes of the sequence come in the order of their scores, as if all had been sorted. -/
structure TopKExact (score : NodeId → Score Value) (nodes : List NodeId) (k : Nat) (out : List NodeId) :
    Prop where
  size : out.length = min k nodes.length
  chosen : out.Subperm nodes
  sorted : (out.map score).Pairwise (· ≥ ·)
  best : out.map score = ((nodes.map score).mergeSort fun first second => second ≤ first).take k

section Orders

theorem orderedCmp_eq (first second : Score Value) : orderedCmp first second = compare first second := by
  have order : compare first second = compare first.key second.key := rfl
  rw [order]
  cases first with
  | nan =>
    cases second with
    | nan =>
      rw [compare_eq_iff_eq.mpr rfl]
      rfl
    | number value =>
      change _ = compare (⊥ : WithBot Value) (value : WithBot Value)
      rw [compare_lt_iff_lt.mpr (WithBot.bot_lt_coe value)]
      rfl
  | number value =>
    cases second with
    | nan =>
      change _ = compare (value : WithBot Value) (⊥ : WithBot Value)
      rw [compare_gt_iff_gt.mpr (WithBot.bot_lt_coe value)]
      rfl
    | number value' =>
      change compare value value' = compare (value : WithBot Value) (value' : WithBot Value)
      rcases lt_trichotomy value value' with less | same | more
      · rw [compare_lt_iff_lt.mpr less, compare_lt_iff_lt.mpr (WithBot.coe_lt_coe.mpr less)]
      · rw [same, compare_eq_iff_eq.mpr rfl, compare_eq_iff_eq.mpr rfl]
      · rw [compare_gt_iff_gt.mpr more, compare_gt_iff_gt.mpr (WithBot.coe_lt_coe.mpr more)]

theorem heapCmp_isLE (first second : Score Value × NodeId) :
    (heapCmp first second).isLE = true ↔ second.1 < first.1 ∨
      second.1 = first.1 ∧ first.2.hash.toNat ≤ second.2.hash.toNat := by
  rw [heapCmp, orderedCmp_eq]
  rcases lt_trichotomy second.1 first.1 with less | same | more
  · rw [compare_lt_iff_lt.mpr less]
    simp [less]
  · rw [compare_eq_iff_eq.mpr same]
    simp [same, Nat.isLE_compare]
  · rw [compare_gt_iff_gt.mpr more]
    simp [more.not_gt, more.ne']

end Orders

section Kept

variable (score : NodeId → Score Value) (nodes : List NodeId)

/-- The order of the heap. -/
def Before (first second : Score Value × NodeId) : Prop := (heapCmp first second).isLE = true

instance : DecidableRel (@Before Value _) := fun first second =>
  inferInstanceAs (Decidable ((heapCmp first second).isLE = true))

instance : Std.Total (@Before Value _) where
  total first second := by
    unfold Before
    rw [heapCmp_isLE, heapCmp_isLE]
    rcases lt_trichotomy second.1 first.1 with less | same | more
    · exact Or.inl (Or.inl less)
    · exact (Nat.le_total first.2.hash.toNat second.2.hash.toNat).imp
        (fun low => Or.inr ⟨same, low⟩) fun low => Or.inr ⟨same.symm, low⟩
    · exact Or.inr (Or.inl more)

instance : IsTrans (Score Value × NodeId) Before where
  trans first second third := by
    unfold Before
    rw [heapCmp_isLE, heapCmp_isLE, heapCmp_isLE]
    rintro (less | ⟨same, low⟩) (less' | ⟨same', low'⟩)
    · exact Or.inl (less'.trans less)
    · exact Or.inl (same' ▸ less)
    · exact Or.inl (same ▸ less')
    · exact Or.inr ⟨same'.trans same, low.trans low'⟩

/-- The entries in the order of the heap. -/
def ranked : List (Score Value × NodeId) :=
  (nodes.map fun id => (score id, id)).reverse.insertionSort Before

theorem ranked_perm : (ranked score nodes).Perm (nodes.map fun id => (score id, id)) :=
  (perm_insertionSort Before _).trans (reverse_perm _)

theorem heap_eq (k : Nat) :
    nodes.foldl (fun heap id =>
      pushBounded (fun first second => (heapCmp first second).isLE) k heap (score id, id)) [] =
      (ranked score nodes).take k := by
  rw [ranked, ← foldl_pushBounded, foldl_map]
  rfl

theorem ranked_scores : (ranked score nodes).map Prod.fst =
    (nodes.map score).mergeSort fun first second => second ≤ first := by
  have perm : ((ranked score nodes).map Prod.fst).Perm (nodes.map score) := by
    have mapped := (ranked_perm score nodes).map Prod.fst
    rwa [map_map] at mapped
  have falls : ((ranked score nodes).map Prod.fst).Pairwise (· ≥ ·) := by
    refine pairwise_map.mpr ((pairwise_insertionSort Before _).imp fun first => ?_)
    rcases (heapCmp_isLE _ _).mp first with less | ⟨same, _⟩
    · exact less.le
    · exact same.le
  exact (perm.trans (mergeSort_perm _ _).symm).eq_of_pairwise' falls
    (pairwise_mergeSort' (· ≥ ·) _)

end Kept

section Sorts

/-- No score is compared with one of the other kind. -/
def Uniform (entries : List (Score Value × NodeId)) : Prop :=
  (∀ entry ∈ entries, entry.1.isNan = false) ∨ ∀ entry ∈ entries, entry.1.isNan = true

theorem isLE_compare (first second : Score Value) :
    (compare first second).isLE = decide (first ≤ second) := by
  rcases lt_trichotomy first second with less | same | more
  · rw [compare_lt_iff_lt.mpr less, decide_eq_true less.le]
    rfl
  · rw [compare_eq_iff_eq.mpr same, decide_eq_true same.le]
    rfl
  · rw [compare_gt_iff_gt.mpr more, decide_eq_false more.not_ge]
    rfl

variable {entries : List (Score Value × NodeId)}

/-- Among scores of one kind the final sort follows the order of the scores. -/
theorem Uniform.sortCmp_eq (uniform : Uniform entries)
    {first second : Score Value × NodeId} (mem : first ∈ entries) (mem' : second ∈ entries) :
    sortCmp first second = compare second.1 first.1 := by
  rw [← orderedCmp_eq]
  unfold sortCmp orderedCmp
  rcases uniform with numbers | nans
  · rw [numbers first mem, numbers second mem']
  have here := nans first mem
  have there := nans second mem'
  rw [here, there]
  cases kind : second.1 with
  | nan => rfl
  | number value =>
    rw [kind] at there
    contradiction

theorem Uniform.totalOn (uniform : Uniform entries) : TotalOn sortCmp entries := by
  constructor
  · intro first mem second mem'
    rw [uniform.sortCmp_eq mem mem', uniform.sortCmp_eq mem' mem]
    exact Std.OrientedCmp.eq_swap
  intro first mem second mem' third mem''
  rw [uniform.sortCmp_eq mem mem', uniform.sortCmp_eq mem' mem'',
    uniform.sortCmp_eq mem mem'', isLE_compare, isLE_compare, isLE_compare]
  simp only [decide_eq_true_eq]
  exact fun low low' => low'.trans low

/-- Scores of one kind are sorted whatever the order in which the heap hands them out. -/
theorem Uniform.sorted (runtime : SortRuntime (Score Value × NodeId)) (uniform : Uniform entries) :
    ∃ sorted, runtime.sortBy sortCmp (runtime.drain entries) = some sorted ∧ sorted.Perm entries ∧
      (sorted.map Prod.fst).Pairwise (· ≥ ·) := by
  have drained := runtime.drained entries
  have uniform' : Uniform (runtime.drain entries) :=
    uniform.imp (fun all entry mem => all entry (drained.mem_iff.mp mem))
      fun all entry mem => all entry (drained.mem_iff.mp mem)
  refine ⟨_, runtime.stable sortCmp _ uniform'.totalOn, (mergeSort_perm _ _).trans drained, ?_⟩
  have scores : ((runtime.drain entries).mergeSort fun first second =>
      (sortCmp first second).isLE).map Prod.fst =
      ((runtime.drain entries).map Prod.fst).mergeSort fun first second => second ≤ first :=
    map_mergeSort fun first mem second mem' => by rw [uniform'.sortCmp_eq mem mem', isLE_compare]
  rw [scores]
  exact pairwise_mergeSort' (· ≥ ·) _

variable {score : NodeId → Score Value} {nodes : List NodeId} {k : Nat}

theorem topKExact_of_uniform (runtime : SortRuntime (Score Value × NodeId)) (positive : k ≠ 0)
    (uniform : Uniform ((ranked score nodes).take k)) :
    ∃ out, topKBy runtime score nodes k = some out ∧ TopKExact score nodes k out := by
  obtain ⟨sorted, result, perm, falls⟩ := uniform.sorted runtime
  have subperm := perm.subperm.trans ((take_sublist _ _).subperm.trans (ranked_perm score nodes).subperm)
  have own : ∀ entry ∈ sorted, score entry.2 = entry.1 := by
    intro entry mem
    obtain ⟨id, _, rfl⟩ := mem_map.mp (subperm.subset mem)
    rfl
  have scores : (sorted.map Prod.snd).map score = sorted.map Prod.fst := by
    rw [map_map]
    exact map_congr_left own
  refine ⟨sorted.map Prod.snd, ?_, ?_, ?_, ?_, ?_⟩
  · rw [topKBy, if_neg positive, heap_eq]
    dsimp only
    rw [result, Option.map_some]
  · rw [length_map, perm.length_eq, length_take, (ranked_perm score nodes).length_eq, length_map]
  · obtain ⟨part, perm', sublist⟩ := subperm
    have named := sublist.map Prod.snd
    rw [map_map] at named
    change (part.map Prod.snd).Sublist (nodes.map id) at named
    rw [map_id] at named
    exact ⟨part.map Prod.snd, perm'.map Prod.snd, named⟩
  · rwa [scores]
  · have first : (((ranked score nodes).take k).map Prod.fst).Pairwise (· ≥ ·) := by
      rw [map_take, ranked_scores]
      exact (pairwise_mergeSort' (· ≥ ·) _).sublist (take_sublist _ _)
    rw [scores, (perm.map Prod.fst).eq_of_pairwise' falls first, map_take, ranked_scores]

/-- The scores that are numbers. -/
def numbers (score : NodeId → Score Value) (nodes : List NodeId) : Nat :=
  nodes.countP fun id => !(score id).isNan

theorem nan_le (score : Score Value) : Score.nan ≤ score := by
  change (⊥ : WithBot Value) ≤ score.key
  exact bot_le

omit [LinearOrder Value] in
theorem eq_nan_of_isNan {score : Score Value} (nan : score.isNan = true) : score = .nan := by
  cases score with
  | nan => rfl
  | number value => contradiction

theorem ranked_numbers (score : NodeId → Score Value) (nodes : List NodeId) : (ranked score nodes).countP (fun entry => !entry.1.isNan) =
    numbers score nodes := by
  rw [(ranked_perm score nodes).countP_eq, countP_map]
  rfl

theorem ranked_falls (score : NodeId → Score Value) (nodes : List NodeId) :
    (ranked score nodes).Pairwise fun first second => second.1 ≤ first.1 := by
  have falls : ((ranked score nodes).map Prod.fst).Pairwise (· ≥ ·) := by
    rw [ranked_scores]
    exact pairwise_mergeSort' (· ≥ ·) _
  exact pairwise_map.mp falls

theorem eq_nan_of_le {first second : Score Value} (low : first ≤ second) (nan : second = .nan) :
    first = .nan := le_antisymm (nan ▸ low) (nan_le first)

theorem ranked_falls_across {first second : Score Value × NodeId}
    (mem : first ∈ (ranked score nodes).take k) (mem' : second ∈ (ranked score nodes).drop k) :
    second.1 ≤ first.1 := by
  have falls := ranked_falls score nodes
  rw [← take_append_drop k (ranked score nodes)] at falls
  exact (pairwise_append.mp falls).2.2 first mem second mem'

/-- The heap ends with scores of one kind when there are enough numbers or only one kind. -/
theorem uniform_of (enough : k ≤ numbers score nodes ∨ numbers score nodes = 0 ∨
    numbers score nodes = nodes.length) : Uniform ((ranked score nodes).take k) := by
  have size : (ranked score nodes).length = nodes.length := by
    rw [(ranked_perm score nodes).length_eq, length_map]
  have counted := ranked_numbers score nodes
  rcases enough with many | none' | all
  · left
    intro entry mem
    by_contra nan
    rw [Bool.not_eq_false] at nan
    have short : ((ranked score nodes).take k).countP (fun entry => !entry.1.isNan) <
        ((ranked score nodes).take k).length := by
      refine lt_of_le_of_ne countP_le_length fun full => ?_
      have number := countP_eq_length.mp full entry mem
      rw [nan] at number
      contradiction
    have later : ((ranked score nodes).drop k).countP (fun entry => !entry.1.isNan) = 0 := by
      rw [countP_eq_zero]
      intro other mem'
      rw [eq_nan_of_le (ranked_falls_across mem mem') (eq_nan_of_isNan nan)]
      exact Bool.false_ne_true
    rw [← take_append_drop k (ranked score nodes), countP_append, later] at counted
    have bound := length_take_le k (ranked score nodes)
    omega
  · right
    intro entry mem
    rw [none', countP_eq_zero] at counted
    have nan := counted entry (mem_of_mem_take mem)
    rwa [Bool.not_eq_true, Bool.not_eq_false'] at nan
  left
  intro entry mem
  rw [all, ← size, countP_eq_length] at counted
  have number := counted entry (mem_of_mem_take mem)
  rwa [Bool.not_eq_true'] at number

/-- With scores of both kinds in the heap the best one is a number and the last one is not. -/
theorem mixed_ends (few : numbers score nodes < k) (some' : 0 < numbers score nodes)
    (others : numbers score nodes < nodes.length) :
    (∃ value id, ((ranked score nodes).take k).head? = some (.number value, id)) ∧
      ∃ front id, (ranked score nodes).take k = front ++ [(.nan, id)] := by
  have size : (ranked score nodes).length = nodes.length := by
    rw [(ranked_perm score nodes).length_eq, length_map]
  have counted := ranked_numbers score nodes
  constructor
  · obtain ⟨entry, mem, number⟩ := countP_pos_iff.mp (counted ▸ some')
    obtain ⟨⟨best, id⟩, rest, split⟩ := exists_cons_of_ne_nil (ne_nil_of_mem mem)
    have high : entry.1 ≤ best := by
      have falls := ranked_falls score nodes
      rw [split] at mem falls
      rcases mem_cons.mp mem with same | later
      · rw [same]
      · exact (pairwise_cons.mp falls).1 entry later
    cases best with
    | nan =>
      rw [eq_nan_of_le high rfl] at number
      contradiction
    | number value =>
      refine ⟨value, id, ?_⟩
      rw [split, head?_take, if_neg (by omega)]
      rfl
  obtain ⟨entry, mem, nan⟩ : ∃ entry ∈ (ranked score nodes).take k, entry.1.isNan = true := by
    by_contra none'
    have number (entry : Score Value × NodeId) (mem : entry ∈ (ranked score nodes).take k) :
        entry.1.isNan = false := Bool.eq_false_iff.mpr fun nan => none' ⟨entry, mem, nan⟩
    have all : ((ranked score nodes).take k).countP (fun entry => !entry.1.isNan) =
        ((ranked score nodes).take k).length :=
      countP_eq_length.mpr fun entry mem => by rw [number entry mem]; rfl
    have bound := (take_sublist k (ranked score nodes)).countP_le
      (p := fun entry => !entry.1.isNan)
    rw [counted, all, length_take, size] at bound
    omega
  obtain ⟨front, last, split⟩ := eq_nil_or_concat'  _ |>.resolve_left (ne_nil_of_mem mem)
  refine ⟨front, last.2, ?_⟩
  have low : last.1 ≤ entry.1 := by
    have falls := (ranked_falls score nodes).sublist (take_sublist k _)
    rw [split] at mem falls
    rcases mem_append.mp mem with earlier | here
    · exact (pairwise_append.mp falls).2.2 entry earlier last (mem_singleton_self last)
    · rw [mem_singleton.mp here]
  rw [split, ← eq_nan_of_le low (eq_nan_of_isNan nan)]

theorem lastFirst_not_exact (few : numbers score nodes < k) (some' : 0 < numbers score nodes)
    (others : numbers score nodes < nodes.length) (out : List NodeId)
    (result : topKBy (.lastFirst _) score nodes k = some out) : ¬ TopKExact score nodes k out := by
  intro exact'
  obtain ⟨⟨value, id, head⟩, front, id', last⟩ := mixed_ends few some' others
  have drained : (SortRuntime.lastFirst (Score Value × NodeId)).drain ((ranked score nodes).take k) =
      (.nan, id') :: front.reverse := by
    rw [last]
    exact reverse_concat
  have unsorted : (SortRuntime.lastFirst (Score Value × NodeId)).sortBy sortCmp
      ((.nan, id') :: front.reverse) = some ((.nan, id') :: front.reverse) := by
    change (if TotalOn sortCmp _ then some (List.mergeSort _ _) else some _) = _
    split
    · rename_i total
      congr 1
      apply mergeSort_of_pairwise
      refine pairwise_of_forall_mem_list fun first mem second mem' => ?_
      have low : (sortCmp first (.nan, id')).isLE = true := by cases first.1 <;> rfl
      exact total.chained first mem (.nan, id') mem_cons_self second mem' low
        (by unfold sortCmp; cases second.1 <;> rfl)
    · rfl
  rw [topKBy, if_neg (by omega), heap_eq] at result
  dsimp only at result
  rw [drained, unsorted, Option.map_some] at result
  have best := exact'.best
  rw [← Option.some.inj result, ← ranked_scores, ← map_take] at best
  have first := congrArg List.head? best
  have own : score id' = .nan := by
    have mem : (Score.nan, id') ∈ ranked score nodes := by
      refine mem_of_mem_take (i := k) ?_
      rw [last]
      exact mem_append_right _ (mem_singleton_self _)
    obtain ⟨other, _, same⟩ := mem_map.mp ((ranked_perm score nodes).mem_iff.mp mem)
    obtain ⟨value', other'⟩ := Prod.mk.inj same
    rw [← other', value']
  rw [map_cons, map_cons, head?_cons, head?_map, head, own] at first
  cases first

end Sorts

/-- Whatever the heap and the sort do, the best nodes come in order when there are enough scores that
are numbers, none or only such. -/
theorem streamTopKBy_exact_iff [OrderBot Value] (parse : String → Option (Score Value))
    (nodes : List NodeId) (code : CodeGraph) (field : String) (k : Nat) :
    (∀ runtime : SortRuntime (Score Value × NodeId), ∃ out,
      streamTopKBy runtime parse nodes code field k = some out ∧
        TopKExact (scoreOf parse code field) nodes k out) ↔
      k ≤ numbers (scoreOf parse code field) nodes ∨ numbers (scoreOf parse code field) nodes = 0 ∨
        numbers (scoreOf parse code field) nodes = nodes.length := by
  constructor
  · intro exact'
    by_contra mixed
    rw [not_or, not_or] at mixed
    obtain ⟨out, result, best⟩ := exact' (.lastFirst _)
    have most : numbers (scoreOf parse code field) nodes ≤ nodes.length := countP_le_length
    exact lastFirst_not_exact (by omega) (by omega) (by omega) out result best
  intro enough runtime
  by_cases zero : k = 0
  · refine ⟨[], if_pos zero, ?_⟩
    rw [zero]
    exact ⟨by simp, nil_subperm, List.Pairwise.nil, by simp⟩
  · exact topKExact_of_uniform runtime zero (uniform_of enough)

/-- The scores are numbers written in digits and what is no number. -/
def wholeScore (text : String) : Option (Score (WithBot Nat)) :=
  if text = "NaN" then some .nan
  else if text ≠ "" ∧ ∀ letter ∈ text.toList, letter.isDigit then
    some (.number (text.toList.foldl (fun value letter => value * 10 + (letter.toNat - 48)) 0 : Nat))
  else none

/-- One of two functions has a score that is no number. -/
def scored : CodeGraph :=
  CodeGraph.run .fresh
    ([.addNode { id := ⟨1⟩, kind := .function, name := "a", metadata := Dict.ofList [("score", "NaN")] },
      .addNode { id := ⟨2⟩, kind := .function, name := "b", metadata := Dict.ofList [("score", "1")] }] :
      List (CodeGraph.Operation Unit))

/-- The score that is no number comes before the other one. -/
theorem streamTopKBy_not_exact :
    streamTopKBy (.lastFirst _) wholeScore [⟨1⟩, ⟨2⟩] scored "score" 2 = some [⟨1⟩, ⟨2⟩] ∧
      ¬ ∀ runtime : SortRuntime (Score (WithBot Nat) × NodeId), ∃ out,
        streamTopKBy runtime wholeScore [⟨1⟩, ⟨2⟩] scored "score" 2 = some out ∧
          TopKExact (scoreOf wholeScore scored "score") [⟨1⟩, ⟨2⟩] 2 out := by
  have heap : ([⟨1⟩, ⟨2⟩] : List NodeId).foldl (fun heap id =>
      pushBounded (fun first second => (heapCmp first second).isLE) 2 heap
        (scoreOf wholeScore scored "score" id, id)) [] = [(.number (1 : Nat), ⟨2⟩), (.nan, ⟨1⟩)] := by
    decide +kernel
  have sorted : (SortRuntime.lastFirst (Score (WithBot Nat) × NodeId)).sortBy sortCmp
      [(.nan, ⟨1⟩), (.number (1 : Nat), ⟨2⟩)] = some [(.nan, ⟨1⟩), (.number (1 : Nat), ⟨2⟩)] := by
    have total : TotalOn (@sortCmp (WithBot Nat) _) [(.nan, ⟨1⟩), (.number (1 : Nat), ⟨2⟩)] := by
      decide +kernel
    rw [(SortRuntime.lastFirst _).stable _ _ total]
    congr 1
    apply mergeSort_of_pairwise
    decide +kernel
  refine ⟨?_, fun exact' => ?_⟩
  · rw [streamTopKBy, topKBy, if_neg (by decide)]
    rw [heap]
    exact congrArg (Option.map _) sorted
  obtain ⟨out, result, best⟩ := exact' (.lastFirst _)
  have one : numbers (scoreOf wholeScore scored "score") [⟨1⟩, ⟨2⟩] = 1 := by decide +kernel
  exact lastFirst_not_exact (by rw [one]; decide) (by rw [one]; decide) (by rw [one]; decide) out
    result best

end Codegraph.Dsl
