import Codegraph.TaintFlow.Dominators
import Codegraph.TaintFlow.GuardsSound

namespace Codegraph.Guards.Dominators

open Library Relation List Function

section Meeting

variable {idom : List (Option Nat)} {rank : Nat → Nat} (tree : ParentTree 0 rank (entry idom))
  (least : rank 0 = 0) {fuel limit : Nat} (bounded : ∀ node, (entry idom node).isSome → rank node < limit)
  (enough : limit + limit < fuel)

/-- What the predecessors so far have in common. -/
def Merged (idom : List (Option Nat)) (seen : List Nat) : Option Nat → Prop
  | none => ∀ pred ∈ seen, entry idom pred = none
  | some meet => (entry idom meet).isSome ∧ ∀ above, Under 0 (entry idom) meet above ↔
      ∀ pred ∈ seen, (entry idom pred).isSome → Under 0 (entry idom) pred above

include tree least bounded enough

theorem mergePred_spec {seen : List Nat} {new : Option Nat} (merged : Merged idom seen new)
    (pred : Nat) : ∃ next, mergePred idom rank fuel new pred = some next ∧
      Merged idom (seen ++ [pred]) next := by
  unfold mergePred
  by_cases unknown : entry idom pred = none
  · rw [if_pos (Option.isNone_iff_eq_none.mpr unknown)]
    refine ⟨new, rfl, ?_⟩
    cases new with
    | none =>
      intro other mem
      rcases mem_append.mp mem with old | last
      · exact merged other old
      · rwa [mem_singleton.mp last]
    | some meet =>
      refine ⟨merged.1, fun above => ?_⟩
      rw [merged.2, forall_mem_append, forall_mem_singleton]
      simp [unknown]
  have known := Option.isSome_iff_ne_none.mpr unknown
  rw [if_neg (by simpa using unknown)]
  cases new with
  | none =>
    refine ⟨some pred, rfl, known, fun above => ?_⟩
    rw [forall_mem_append, forall_mem_singleton]
    constructor
    · refine fun under => ⟨fun other mem known' => ?_, fun _ => under⟩
      rw [merged other mem] at known'
      contradiction
    · exact fun both => both.2 known
  | some current =>
    have low := bounded pred known
    have low' := bounded current merged.1
    have fits : rank pred + rank current + 1 < fuel := by omega
    obtain ⟨meet, found, known', both⟩ := intersect_spec tree least known merged.1 fits
    dsimp only
    rw [found]
    refine ⟨some meet, rfl, known', fun above => ?_⟩
    rw [both, merged.2, forall_mem_append, forall_mem_singleton, and_comm]
    exact and_congr_right fun _ => ⟨fun under _ => under, fun under => under known⟩

theorem foldlM_mergePred (preds : List Nat) {seen : List Nat} {new : Option Nat} (merged : Merged idom seen new) :
    ∃ last, preds.foldlM (mergePred idom rank fuel) new = some last ∧ Merged idom (seen ++ preds) last := by
  induction preds generalizing seen new with
  | nil => exact ⟨new, rfl, by rwa [append_nil]⟩
  | cons pred preds ih =>
    obtain ⟨next, step, merged'⟩ := mergePred_spec tree least bounded enough merged pred
    obtain ⟨last, done, merged''⟩ := ih merged'
    rw [foldlM_cons, step]
    exact ⟨last, done, by rwa [append_assoc] at merged''⟩

end Meeting

theorem entry_set {idom : List (Option Nat)} {block meet : Nat} (inside : block < idom.length) :
    entry (idom.set block (some meet)) = ParentTree.moved (entry idom) block meet := by
  funext other
  unfold ParentTree.moved
  by_cases same : other = block
  · subst same
    rw [update_self]
    simp [entry, inside]
  · rw [update_of_ne same]
    simp [entry, Ne.symm same]

section Measure

/-- An entry that is still missing weighs more than any other. -/
def weight (rank : Nat → Nat) (limit : Nat) : Option Nat → Nat
  | none => limit
  | some parent => rank parent

/-- Every change of an entry takes something off. -/
def measure (rank : Nat → Nat) (limit : Nat) (idom : List (Option Nat)) : Nat :=
  ∑ block ∈ Finset.range idom.length, weight rank limit (entry idom block)

theorem measure_set {rank : Nat → Nat} {limit block meet : Nat} {idom : List (Option Nat)}
    (inside : block < idom.length) (less : rank meet < weight rank limit (entry idom block)) :
    measure rank limit (idom.set block (some meet)) < measure rank limit idom := by
  rw [measure, length_set, entry_set inside]
  apply Finset.sum_lt_sum
  · intro other _
    unfold ParentTree.moved
    by_cases same : other = block
    · subst same
      rw [update_self]
      exact less.le
    · rw [update_of_ne same]
  refine ⟨block, Finset.mem_range.mpr inside, ?_⟩
  rwa [ParentTree.moved, update_self]

end Measure

section Passes

variable {blocks : Blocks} (linked : blocks.Linked) {order : List Nat}
  (listed : ResumedSearch.Listed blocks.succsOf 0 order)

theorem rankOf_mem {block : Nat} (mem : block ∈ order) : rankOf order block = order.idxOf block :=
  if_pos mem

include listed

theorem rankOf_lt {block : Nat} (reached : ReachedBy blocks.edge 0 block) :
    rankOf order block < order.length := by
  have mem := (listed.mem block).mpr reached
  rw [rankOf_mem mem]
  exact idxOf_lt_length_iff.mpr mem

theorem rankOf_zero : rankOf order 0 = 0 := by
  rw [rankOf_mem ((listed.mem 0).mpr ⟨_, .start⟩)]
  exact listed.idxOf_root

theorem ranking : Ranking blocks.edge 0 (rankOf order) where
  apart := by
    intro first second reached reached' same
    have mem := (listed.mem first).mpr reached
    have mem' := (listed.mem second).mpr reached'
    rw [rankOf_mem mem, rankOf_mem mem'] at same
    exact (idxOf_inj mem).mp same
  parents := by
    intro block reached proper
    have mem := (listed.mem block).mpr reached
    obtain ⟨before, joined, lower⟩ := listed.parents block mem proper
    have mem' := idxOf_lt_length_iff.mp (lower.trans (idxOf_lt_length_iff.mpr mem))
    refine ⟨before, joined, (listed.mem before).mp mem', ?_⟩
    rwa [rankOf_mem mem, rankOf_mem mem']

/-- The entry of the block is what its predecessors have in common. -/
def Stable (blocks : Blocks) (idom : List (Option Nat)) (block : Nat) : Prop :=
  ∃ meet, entry idom block = some meet ∧
    ParentTree.Nearest 0 (entry idom) (Entered blocks.edge (entry idom) block) meet

include linked

theorem visit_spec {idom : List (Option Nat)} {block next fuel : Nat} (changed : Bool)
    (refining : Refining blocks.edge 0 (rankOf order) next (entry idom))
    (reached : ReachedBy blocks.edge 0 block) (proper : block ≠ 0) (turn : rankOf order block = next)
    (inside : block < idom.length) (enough : order.length + order.length < fuel) :
    ∃ idom' changed', visit blocks (rankOf order) fuel (idom, changed) block = some (idom', changed') ∧
      Refining blocks.edge 0 (rankOf order) (next + 1) (entry idom') ∧ idom'.length = idom.length ∧
      ((idom' = idom ∧ changed' = changed ∧ Stable blocks idom block) ∨ changed' = true ∧
          measure (rankOf order) order.length idom' < measure (rankOf order) order.length idom) := by
  have least := rankOf_zero listed
  have bounded (node : Nat) (known : (entry idom node).isSome) : rankOf order node < order.length :=
    rankOf_lt listed (refining.reached node known)
  have start : Merged idom [] none := fun pred mem => absurd mem not_mem_nil
  obtain ⟨new, merging, merged⟩ := foldlM_mergePred refining.toParentTree least bounded enough
    (blocks.predsOf block) start
  rw [nil_append] at merged
  have entered (pred : Nat) : Entered blocks.edge (entry idom) block pred ↔
      pred ∈ blocks.predsOf block ∧ (entry idom pred).isSome := by
    rw [← linked.mirrored]
    rfl
  rw [visit, merging]
  dsimp only
  cases new with
  | none =>
    obtain ⟨before, joined, reached', lower⟩ := (ranking listed).parents block reached proper
    have known := refining.covered before reached' (turn ▸ lower)
    rw [merged before ((linked.mirrored before block).mp joined)] at known
    contradiction
  | some meet =>
    have nearest : ParentTree.Nearest 0 (entry idom) (Entered blocks.edge (entry idom) block) meet := by
      intro above
      rw [merged.2]
      constructor
      · intro common pred both
        exact common pred ((entered pred).mp both).1 both.2
      · intro common pred mem known
        exact common pred ((entered pred).mpr ⟨mem, known⟩)
    have refined := refining.refine (ranking listed) reached proper turn nearest
    obtain ⟨known, lower⟩ := refining.meet_below (ranking listed) reached proper turn nearest
    by_cases same : entry idom block = some meet
    · rw [if_neg fun both => both.2 same]
      refine ⟨idom, changed, rfl, ?_, rfl, .inl ⟨rfl, rfl, meet, same, nearest⟩⟩
      have still : ParentTree.moved (entry idom) block meet = entry idom := by
        rw [ParentTree.moved, ← same, update_eq_self]
      rwa [still] at refined
    rw [if_pos ⟨rfl, same⟩]
    refine ⟨_, true, rfl, ?_, length_set, .inr ⟨rfl, measure_set inside ?_⟩⟩
    · rwa [entry_set inside]
    cases found : entry idom block with
    | none => exact bounded meet known
    | some parent =>
      have under := refining.upward proper nearest parent found
      apply refining.rank_lt under
      rintro rfl
      exact same found

theorem foldlM_visit {fuel : Nat} (enough : order.length + order.length < fuel) {before rest : List Nat}
    {idom : List (Option Nat)} (changed : Bool) (split : order = before ++ rest) (started : before ≠ [])
    (inside : ∀ block ∈ order, block < idom.length)
    (refining : Refining blocks.edge 0 (rankOf order) before.length (entry idom)) :
    ∃ idom' changed', rest.foldlM (visit blocks (rankOf order) fuel) (idom, changed) =
        some (idom', changed') ∧
      Refining blocks.edge 0 (rankOf order) order.length (entry idom') ∧ idom'.length = idom.length ∧
      ((idom' = idom ∧ changed' = changed ∧ ∀ block ∈ rest, Stable blocks idom block) ∨ changed' = true ∧
          measure (rankOf order) order.length idom' < measure (rankOf order) order.length idom) := by
  induction rest generalizing before idom changed with
  | nil =>
    rw [append_nil] at split
    exact ⟨idom, changed, rfl, split ▸ refining, rfl, .inl ⟨rfl, rfl, fun block mem =>
      absurd mem not_mem_nil⟩⟩
  | cons block rest ih =>
    have mem := split ▸ mem_append_right _ mem_cons_self
    have distinct := listed.nodup
    rw [split] at distinct
    have fresh : block ∉ before := fun old => disjoint_of_nodup_append distinct old mem_cons_self
    have turn : rankOf order block = before.length := by
      rw [rankOf_mem mem, split, idxOf_append_of_notMem fresh, idxOf_cons_self, add_zero]
    have proper : block ≠ 0 := by
      rintro rfl
      rw [rankOf_zero listed] at turn
      exact started (length_eq_zero_iff.mp turn.symm)
    obtain ⟨idom', changed', step, refined, length, either⟩ := visit_spec linked listed
      changed refining ((listed.mem block).mp mem) proper turn (inside block mem) enough
    have split' : order = (before ++ [block]) ++ rest := by rw [split, append_assoc]; rfl
    have refined' : Refining blocks.edge 0 (rankOf order) (before ++ [block]).length (entry idom') := by
      rwa [length_append, length_singleton]
    obtain ⟨idom'', changed'', done, refined'', length', either'⟩ := ih changed'
      split' (append_ne_nil_of_right_ne_nil _ (cons_ne_nil _ _)) (length ▸ inside) refined'
    rw [foldlM_cons, step]
    refine ⟨idom'', changed'', done, refined'', length'.trans length, ?_⟩
    rcases either with ⟨rfl, rfl, stable⟩ | ⟨rfl, less⟩
    · rcases either' with ⟨rfl, rfl, stables⟩ | ⟨rfl, less'⟩
      · exact .inl ⟨rfl, rfl, forall_mem_cons.mpr ⟨stable, stables⟩⟩
      · exact .inr ⟨rfl, less'⟩
    rcases either' with ⟨rfl, rfl, -⟩ | ⟨rfl, less'⟩
    · exact .inr ⟨rfl, less⟩
    · exact .inr ⟨rfl, less'.trans less⟩

/-- The passes end with a table that no visit changes. -/
theorem passes_spec {fuel : Nat} {idom : List (Option Nat)} (inside : ∀ block ∈ order, block < idom.length)
    (refining : Refining blocks.edge 0 (rankOf order) 1 (entry idom))
    (enough : order.length + order.length + measure (rankOf order) order.length idom + 1 < fuel) :
    ∃ last, passes blocks order fuel idom = some last ∧
      Refining blocks.edge 0 (rankOf order) order.length (entry last) ∧ last.length = idom.length ∧
      ∀ block, ReachedBy blocks.edge 0 block → block ≠ 0 → Stable blocks last block := by
  induction fuel generalizing idom with
  | zero => exact absurd enough (Nat.not_lt_zero _)
  | succ fuel ih =>
    obtain ⟨rest, whole⟩ : ∃ rest, order = [0] ++ rest := by
      cases order with
      | nil => exact absurd ((listed.mem 0).mpr ⟨_, .start⟩) not_mem_nil
      | cons head rest =>
        have first := listed.idxOf_root
        by_cases same : head = 0
        · exact ⟨rest, by rw [same]; rfl⟩
        · rw [idxOf_cons_ne _ same] at first
          contradiction
    have fits : order.length + order.length < fuel := by omega
    obtain ⟨idom', changed', done, refined, length, either⟩ := foldlM_visit linked listed fits false
      whole (cons_ne_nil _ _) inside refining
    have dropped : order.drop 1 = rest := by rw [whole]; rfl
    rw [passes, dropped, done]
    rcases either with ⟨rfl, rfl, stable⟩ | ⟨rfl, less⟩
    · refine ⟨idom', rfl, refined, rfl, fun block reached proper => stable block ?_⟩
      have mem := (listed.mem block).mpr reached
      rw [whole] at mem
      exact (mem_cons.mp mem).resolve_left proper
    have again := refined.restart 1 fun node reached => rankOf_lt listed reached
    obtain ⟨last, result, refined', length', stable⟩ := ih (length ▸ inside) again (by omega)
    exact ⟨last, result, refined', length'.trans length, stable⟩

end Passes

section Climbing

variable {idom : List (Option Nat)} {rank : Nat → Nat} (tree : ParentTree 0 rank (entry idom))

include tree

/-- The climb passes the blocks above the start. -/
theorem climb_iff {a current steps : Nat} (known : (entry idom current).isSome)
    (enough : rank current < steps) :
    climb idom a steps current = true ↔ Under 0 (entry idom) current a := by
  induction steps generalizing current with
  | zero => exact absurd enough (Nat.not_lt_zero _)
  | succ steps ih =>
    unfold climb
    by_cases same : current = a
    · subst same
      rw [if_pos rfl]
      exact iff_of_true rfl ReflTransGen.refl
    rw [if_neg same]
    obtain ⟨parent, found⟩ := Option.isSome_iff_exists.mp known
    rw [found]
    dsimp only
    by_cases top : current = 0
    · subst top
      rw [tree.rooted] at found
      rw [if_neg fun other => other (Option.some.inj found).symm]
      exact iff_of_false Bool.false_ne_true fun under => same under.of_root.symm
    have up : ParentOf 0 (entry idom) current parent := ⟨top, found⟩
    have falls := tree.falls _ _ up
    have other : parent ≠ current := by
      rintro rfl
      exact lt_irrefl _ falls
    rw [if_pos other, ih (tree.known _ _ up) (by omega)]
    constructor
    · exact ReflTransGen.head up
    intro under
    rcases under.cases_parent with equal | ⟨parent', up', higher⟩
    · exact absurd equal same
    · rwa [Under.parent_unique up up']

end Climbing

theorem walkTo_iff {blocks : Blocks} {visited : List Nat} {b : Nat} : WalkTo blocks.edge 0 visited b ↔
      ∃ passed, EntryPath blocks.edge 0 b passed ∧ visited = b :: passed.reverse := by
  constructor
  · intro walk
    induction walk with
    | start => exact ⟨[], .entry, rfl⟩
    | next _ last ih =>
      obtain ⟨passed, path, rfl⟩ := ih
      exact ⟨_, path.step last, by simp⟩
  rintro ⟨passed, path, rfl⟩
  induction path with
  | entry => exact .start
  | step _ linked ih =>
    rw [reverse_append]
    exact ih.next linked

theorem dominates_iff (blocks : Blocks) (a b : Nat) :
    blocks.Dominates a b ↔ Library.Dominates blocks.edge 0 a b := by
  have same (passed : List Nat) : a ∈ passed ++ [b] ↔ a ∈ b :: passed.reverse := by
    rw [mem_append, mem_singleton, mem_cons, mem_reverse, or_comm]
  constructor
  · intro dominates visited walk
    obtain ⟨passed, path, rfl⟩ := walkTo_iff.mp walk
    exact (same passed).mp (dominates passed path)
  · intro dominates passed path
    exact (same passed).mpr (dominates _ (walkTo_iff.mpr ⟨passed, path, rfl⟩))

theorem reachedBy_iff (blocks : Blocks) (b : Nat) :
    ReachedBy blocks.edge 0 b ↔ ReflTransGen blocks.edge 0 b := by
  rw [← entryPath_iff]
  constructor
  · rintro ⟨visited, walk⟩
    obtain ⟨passed, path, -⟩ := walkTo_iff.mp walk
    exact ⟨passed, path⟩
  · rintro ⟨passed, path⟩
    exact ⟨_, walkTo_iff.mpr ⟨passed, path, rfl⟩⟩

section Compute

/-- The table before the first pass. -/
def unrefined (blocks : Blocks) : List (Option Nat) :=
  (List.replicate blocks.blockCount none).set 0 (some 0)

@[simp] theorem unrefined_length (blocks : Blocks) : (unrefined blocks).length = blocks.blockCount := by
  rw [unrefined, length_set, length_replicate]

/-- Fuel for the search and for the passes. -/
def enough (blocks : Blocks) : Nat :=
  (ResumedSearch.start 0).cost blocks.succsOf (Finset.range blocks.blockCount) +
    blocks.blockCount * (blocks.blockCount + 2) + 2

variable {blocks : Blocks} (linked : blocks.Linked) (nonempty : 0 < blocks.blockCount)
  {order : List Nat} (listed : ResumedSearch.Listed blocks.succsOf 0 order)

include nonempty

theorem entry_unrefined : entry (unrefined blocks) = fun block => if block = 0 then some 0 else none := by
  funext block
  unfold entry unrefined
  by_cases first : block = 0
  · subst first
    simp [nonempty]
  · rw [if_neg first, getD_eq_getElem?_getD, getElem?_set_ne (Ne.symm first), getElem?_replicate]
    split <;> rfl

include listed

theorem refining_unrefined : Refining blocks.edge 0 (rankOf order) 1 (entry (unrefined blocks)) := by
  rw [entry_unrefined nonempty]
  apply refining_root
  intro block reached low
  apply (ranking listed).apart block 0 reached ⟨_, .start⟩
  rw [rankOf_zero listed]
  omega

include linked

theorem order_lt {block : Nat} (mem : block ∈ order) : block < blocks.blockCount := by
  obtain ⟨visited, walk⟩ := (listed.mem block).mp mem
  cases walk with
  | start => exact nonempty
  | next _ last => exact linked.bounded _ _ last

theorem order_length : order.length ≤ blocks.blockCount := by
  have bound := (subperm_of_subset listed.nodup fun block mem =>
    List.mem_range.mpr (order_lt linked nonempty listed mem)).length_le
  rwa [length_range] at bound

theorem measure_unrefined :
    measure (rankOf order) order.length (unrefined blocks) ≤ blocks.blockCount * blocks.blockCount := by
  rw [measure, unrefined_length, entry_unrefined nonempty]
  have each (block : Nat) (_ : block ∈ Finset.range blocks.blockCount) :
      weight (rankOf order) order.length (if block = 0 then some 0 else none) ≤ blocks.blockCount := by
    split
    · change rankOf order 0 ≤ _
      rw [rankOf_zero listed]
      exact Nat.zero_le _
    · exact order_length linked nonempty listed
  have total := Finset.sum_le_card_nsmul (Finset.range blocks.blockCount) _ _ each
  rwa [Finset.card_range, smul_eq_mul] at total

omit nonempty listed in
/-- The computed tree has the dominators of every reachable block. -/
theorem compute_spec (extra : Nat) : ∃ dominators, compute (enough blocks + extra) blocks = some dominators ∧
      ∀ b, 0 < blocks.blockCount → ReflTransGen blocks.edge 0 b → ∀ a,
        dominators.dominates a b = true ↔ blocks.Dominates a b := by
  unfold compute
  by_cases empty : blocks.blockCount = 0
  · rw [if_pos empty]
    exact ⟨_, rfl, fun b nonempty => absurd empty nonempty.ne'⟩
  have nonempty := pos_of_ne_zero empty
  have inRange (u w : Nat) (mem : w ∈ blocks.succsOf u) : w ∈ Finset.range blocks.blockCount :=
    Finset.mem_range.mpr (linked.bounded u w mem)
  have fits : (ResumedSearch.start 0).cost blocks.succsOf (Finset.range blocks.blockCount) <
      enough blocks + extra := by
    unfold enough
    omega
  obtain ⟨search, found, listed⟩ := ResumedSearch.whileLoop_round inRange fits
  have short := order_length linked nonempty listed
  have weighs := measure_unrefined linked nonempty listed
  have fits' : search.post.length + search.post.length +
      measure (rankOf search.post) search.post.length (unrefined blocks) + 1 < enough blocks + extra := by
    rw [enough, Nat.mul_add]
    omega
  have inside (block : Nat) (mem : block ∈ search.post) : block < (unrefined blocks).length :=
    (unrefined_length blocks).symm ▸ order_lt linked nonempty listed mem
  obtain ⟨last, done, refined, length, stable⟩ := passes_spec linked listed inside
    (refining_unrefined nonempty listed) fits'
  rw [if_neg empty, found]
  unfold unrefined at done
  dsimp only
  rw [done]
  refine ⟨⟨last⟩, rfl, fun b _ reachable a => ?_⟩
  have here := (reachedBy_iff blocks b).mpr reachable
  have all (block : Nat) (reached : ReachedBy blocks.edge 0 block) : (entry last block).isSome :=
    refined.covered block reached (rankOf_lt listed reached)
  have low := rankOf_lt listed here
  have steps : rankOf search.post b < last.length + 1 := by
    rw [length, unrefined_length]
    omega
  rw [dominates, climb_iff refined.toParentTree (all b here) steps, dominates_iff]
  exact refined.under_iff_dominates all stable here

end Compute

/-- A block dominates a reachable one exactly if every path from the entry passes it. -/
theorem compute_dominates (func : IrFunction) (constants : Dict Nat Bool) (extra : Nat) :
    ∃ dominators, compute (enough (Blocks.build func constants) + extra) (Blocks.build func constants) =
        some dominators ∧
      ∀ b, (Blocks.build func constants).reachable b = true → ∀ a,
        dominators.dominates a b = true ↔ (Blocks.build func constants).Dominates a b := by
  obtain ⟨dominators, computed, dominates⟩ := compute_spec (Blocks.build_linked func constants) extra
  refine ⟨dominators, computed, fun b reachable => ?_⟩
  obtain ⟨nonempty, reaches⟩ := (Blocks.build_reachable func constants b).mp reachable
  exact dominates b nonempty reaches

end Codegraph.Guards.Dominators
