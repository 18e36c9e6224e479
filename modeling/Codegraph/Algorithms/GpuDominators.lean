import Codegraph.Library.Dominance

namespace Codegraph

open Library List Option

/-- The predecessors of the nodes in rows and the reverse postorder numbers of the reached nodes. -/
structure DomInput where
  n : Nat
  root : Nat
  predOff : List Nat
  pred : List Nat
  rpo : List (Option Nat)

namespace DomInput

variable (input : DomInput)

/-- An unreached node has the largest number. -/
def rank (v : Nat) : Nat := (input.rpo[v]?.join).getD (2 ^ 32 - 1)

def idomOf (idom : List (Option Nat)) (v : Nat) : Option Nat := idom[v]?.join

/-- The first of the inner loops of the walk. It may take as many steps as the fuel says. -/
def raiseFinger (idom : List (Option Nat)) (bound : Nat) : Nat → Nat → Option Nat
  | 0, _ => none
  | fuel + 1, a =>
    if bound < input.rank a then (idomOf idom a).bind (raiseFinger idom bound fuel) else some a

/-- Both fingers walk up until they meet. -/
def intersect (idom : List (Option Nat)) : Nat → Nat → Nat → Option Nat
  | 0, _, _ => none
  | fuel + 1, a, b =>
    if a = b then some a
    else do
      let a ← input.raiseFinger idom (input.rank b) (input.n + 1) a
      let b ← input.raiseFinger idom (input.rank a) (input.n + 1) b
      intersect idom fuel a b

def row (b : Nat) : List Nat :=
  (input.pred.drop (input.predOff.getD b 0)).take
    (input.predOff.getD (b + 1) 0 - input.predOff.getD b 0)

/-- A predecessor that is not processed yet is skipped. -/
def mergePred (idomIn : List (Option Nat)) (newIdom : Option Nat) (p : Nat) : Option (Option Nat) :=
  match idomOf idomIn p, newIdom with
  | none, _ => some newIdom
  | some _, none => some (some p)
  | some _, some other => (input.intersect idomIn (2 * input.n + 1) p other).map some

/-- The thread of one node. It has no answer if a finger walk does not halt. -/
def domStep (idomIn : List (Option Nat)) (b : Nat) : Option (Option Nat) :=
  if b = input.root ∨ input.rpo[b]?.join = none then some (idomOf idomIn b)
  else (input.row b).foldlM (input.mergePred idomIn) none

def sweep (idomIn : List (Option Nat)) : Option (List (Option Nat)) :=
  (List.range input.n).mapM (input.domStep idomIn)

/-- The sweeps stop early when nothing changes. -/
def sweeps : Nat → List (Option Nat) → Option (List (Option Nat))
  | 0, idom => some idom
  | count + 1, idom => do
    let next ← input.sweep idom
    if next = idom then return next else sweeps count next

/-- The root dominates itself while the sweeps run. -/
def initial : List (Option Nat) := (List.replicate input.n none).set input.root (some input.root)

/-- The root and the unreached nodes have no dominator. -/
def dominatorsGpu : Option (List (Option Nat)) :=
  if input.n = 0 then some []
  else (input.sweeps (input.n + 1) input.initial).map fun idom =>
    (idom.set input.root none).zipIdx.map fun (dom, v) =>
      if input.rpo[v]?.join = none then none else dom

end DomInput

section Sweeping

variable {input : DomInput} {step : Nat → Nat → Prop}

/-- The rows list the predecessors, and dominators come first in the numbering. -/
structure Ranked (input : DomInput) (step : Nat → Nat → Prop) : Prop where
  root : input.root < input.n
  inside : ∀ first second, step first second → first < input.n ∧ second < input.n
  rows : ∀ b < input.n, ∀ p, p ∈ input.row b ↔ step p b
  numbered : ∀ v, input.rpo[v]?.join ≠ none ↔ ReachedBy step input.root v
  apart : ∀ first second, ReachedBy step input.root first → ReachedBy step input.root second →
    input.rank first = input.rank second → first = second
  rootFirst : input.rank input.root = 0
  ordered : ∀ dominator node, ReachedBy step input.root node →
    Dominates step input.root dominator node → input.rank dominator ≤ input.rank node

/-- The nodes on the way up from a node. -/
inductive Chain (root : Nat) (idom : List (Option Nat)) : Nat → Nat → Prop
  | refl (b : Nat) : Chain root idom b b
  | up {b m x : Nat} (other : b ≠ root) (parent : DomInput.idomOf idom b = some m)
      (rest : Chain root idom m x) : Chain root idom b x

variable {idom : List (Option Nat)}

theorem Chain.trans {root : Nat} {a b c : Nat}
    (first : Chain root idom a b) (second : Chain root idom b c) : Chain root idom a c := by
  induction first with
  | refl => exact second
  | up other parent _ ih => exact .up other parent (ih second)

/-- After so many sweeps the way up from a node has all nodes that dominate it and only nodes that
every short walk to it passes. -/
structure Stage (input : DomInput) (step : Nat → Nat → Prop) (t : Nat) (idom : List (Option Nat)) : Prop where
  length : idom.length = input.n
  defined : ∀ v, DomInput.idomOf idom v ≠ none ↔ Within step input.root t v
  rootSelf : DomInput.idomOf idom input.root = some input.root
  lower : ∀ b m, DomInput.idomOf idom b = some m → b ≠ input.root → ∀ k,
    Within step input.root (k + 1) b → Within step input.root k m
  below : ∀ b m, DomInput.idomOf idom b = some m → b ≠ input.root → ∀ d,
    StrictlyDominates step input.root d b → Dominates step input.root d m
  passed : ∀ b x, Chain input.root idom b x → Within step input.root t b → ∀ visited,
    WalkTo step input.root visited b → visited.length ≤ t + 1 → x ∈ visited

theorem Ranked.walk_inside (numbered : Ranked input step) {visited : List Nat} {node : Nat}
    (walk : WalkTo step input.root visited node) : visited ⊆ List.range input.n := by
  induction walk with
  | start => simpa using numbered.root
  | next _ last ih =>
    exact cons_subset.mpr
      ⟨List.mem_range.mpr (numbered.inside _ _ last).2, ih⟩

theorem Ranked.within_n (numbered : Ranked input step) {node : Nat}
    (reached : ReachedBy step input.root node) : Within step input.root input.n node := by
  obtain ⟨visited, walk⟩ := reached
  obtain ⟨shorter, inside, distinct, walk'⟩ := walk.simple
  have short := (subperm_of_subset distinct (numbered.walk_inside walk')).length_le
  rw [length_range] at short
  exact ⟨shorter, walk', short.trans (Nat.le_succ _)⟩

theorem Ranked.within_min (numbered : Ranked input step) {node t : Nat}
    (within : Within step input.root t node) : Within step input.root (min t input.n) node := by
  rcases le_total t input.n with less | more
  · rwa [min_eq_left less]
  rw [min_eq_right more]
  obtain ⟨visited, walk, -⟩ := within
  exact numbered.within_n ⟨visited, walk⟩

namespace Stage

variable {t : Nat} {idom : List (Option Nat)}

/-- The way up does not lead away from the root. -/
theorem chain_within (stage : Stage input step t idom) {b x : Nat}
    (chain : Chain input.root idom b x) {k : Nat} (within : Within step input.root k b) :
    Within step input.root k x := by
  induction chain generalizing k with
  | refl => exact within
  | up other parent _ ih =>
    cases k with
    | zero => exact absurd (within_zero.mp within) other
    | succ k => exact (ih (stage.lower _ _ parent other k within)).mono (Nat.le_succ k)

theorem raiseFinger_spec (numbered : Ranked input step) (stage : Stage input step t idom)
    (bound : Nat) (fuel k a : Nat) (enough : k < fuel) (early : k ≤ t)
    (within : Within step input.root k a) :
    ∃ a', input.raiseFinger idom bound fuel a = some a' ∧ Chain input.root idom a a' ∧
      input.rank a' ≤ bound ∧ (input.rank a ≤ bound → a' = a) ∧
      (∃ k' ≤ k, Within step input.root k' a' ∧ (bound < input.rank a → k' < k)) ∧
      ∀ d b, input.rank b = bound → ReachedBy step input.root b → Dominates step input.root d b →
        Dominates step input.root d a → Dominates step input.root d a' := by
  induction fuel generalizing k a with
  | zero => exact absurd enough (Nat.not_lt_zero k)
  | succ fuel ih =>
    unfold DomInput.raiseFinger
    by_cases above : bound < input.rank a
    · rw [if_pos above]
      have other : a ≠ input.root := by
        rintro rfl
        rw [numbered.rootFirst] at above
        exact Nat.not_lt_zero bound above
      obtain ⟨m, parent⟩ := ne_none_iff_exists'.mp
        ((stage.defined a).mpr (within.mono early))
      rw [parent, bind_some]
      cases k with
      | zero => exact absurd (within_zero.mp within) other
      | succ k =>
        have next := stage.lower a m parent other k within
        obtain ⟨a', raised, chain, stops, -, ⟨k', less, within', -⟩, dominated⟩ :=
          ih k m (Nat.lt_of_succ_lt_succ enough) (Nat.le_of_succ_le early) next
        refine ⟨a', raised, .up other parent chain, stops, fun kept => absurd above (Nat.not_lt_of_le kept),
          ⟨k', less.trans (Nat.le_succ k), within', fun _ => Nat.lt_succ_of_le less⟩, ?_⟩
        intro d b same reached dominates here
        refine dominated d b same reached dominates (stage.below a m parent other d ⟨?_, here⟩)
        rintro rfl
        have lowest := numbered.ordered d b reached dominates
        omega
    rw [if_neg above]
    exact ⟨a, rfl, .refl a, Nat.le_of_not_lt above, fun _ => rfl,
      ⟨k, le_rfl, within, fun impossible => absurd impossible above⟩, fun _ _ _ _ _ here => here⟩

/-- The fingers meet on both ways up, not above a common dominator. -/
theorem intersect_spec (numbered : Ranked input step) (stage : Stage input step t idom)
    (fuel ka kb a b : Nat) (enough : ka + kb < fuel) (earlyA : ka ≤ min t input.n)
    (earlyB : kb ≤ min t input.n) (withinA : Within step input.root ka a)
    (withinB : Within step input.root kb b) :
    ∃ m, input.intersect idom fuel a b = some m ∧ Chain input.root idom a m ∧
      Chain input.root idom b m ∧ ∀ d, Dominates step input.root d a →
        Dominates step input.root d b → Dominates step input.root d m := by
  have reach {k v : Nat} (within : Within step input.root k v) : ReachedBy step input.root v := by
    obtain ⟨visited, walk, -⟩ := within
    exact ⟨visited, walk⟩
  induction fuel generalizing ka kb a b with
  | zero => exact absurd enough (Nat.not_lt_zero _)
  | succ fuel ih =>
    unfold DomInput.intersect
    by_cases same : a = b
    · subst same
      rw [if_pos rfl]
      exact ⟨a, rfl, .refl a, .refl a, fun _ here _ => here⟩
    rw [if_neg same]
    obtain ⟨a', raised, chainA, -, kept, ⟨ka', lessA, withinA', movedA⟩, dominatedA⟩ :=
      raiseFinger_spec numbered stage (input.rank b) (input.n + 1) ka a
        (by omega) (by omega) withinA
    obtain ⟨b', raised', chainB, -, -, ⟨kb', lessB, withinB', movedB⟩, dominatedB⟩ :=
      raiseFinger_spec numbered stage (input.rank a') (input.n + 1) kb b
        (by omega) (by omega) withinB
    have moved : ka' + kb' < ka + kb := by
      rcases Nat.lt_trichotomy (input.rank a) (input.rank b) with less | equal | more
      · have := movedB (by rw [kept less.le]; exact less)
        omega
      · exact absurd (numbered.apart a b (reach withinA) (reach withinB) equal) same
      · have := movedA more
        omega
    obtain ⟨m, met, upA, upB, dominated⟩ := ih ka' kb' a' b' (by omega) (by omega)
      (by omega) withinA' withinB'
    refine ⟨m, ?_, chainA.trans upA, chainB.trans upB, fun d overA overB => ?_⟩
    · rwa [raised, bind_eq_bind, bind_some, raised', bind_some]
    · have overA' := dominatedA d b rfl (reach withinB) overB overA
      exact dominated d overA' (dominatedB d a' rfl (reach withinA') overA' overB)

/-- What is known of the merged predecessors. -/
structure Merged (input : DomInput) (step : Nat → Nat → Prop) (t : Nat)
    (idom : List (Option Nat)) (done : List Nat) (merged : Option Nat) : Prop where
  absent : merged = none ↔ ∀ p ∈ done, DomInput.idomOf idom p = none
  chains : ∀ m, merged = some m → ∀ p ∈ done, DomInput.idomOf idom p ≠ none → Chain input.root idom p m
  dominated : ∀ m, merged = some m → ∀ d, (∀ p ∈ done, DomInput.idomOf idom p ≠ none →
    Dominates step input.root d p) → Dominates step input.root d m
  early : ∀ m, merged = some m → Within step input.root (min t input.n) m

theorem merge (numbered : Ranked input step) (stage : Stage input step t idom)
    {done : List Nat} {merged : Option Nat} (known : Merged input step t idom done merged)
    (p : Nat) : ∃ next, input.mergePred idom merged p = some next ∧
      Merged input step t idom (done ++ [p]) next := by
  unfold DomInput.mergePred
  cases defined : DomInput.idomOf idom p with
  | none =>
    refine ⟨merged, rfl, ?_, ?_, ?_, known.early⟩
    · rw [known.absent]
      constructor
      · intro skipped q mem
        rcases mem_append.mp mem with old | new
        · exact skipped q old
        · rw [mem_singleton.mp new, defined]
      · exact fun skipped q mem => skipped q (mem_append_left _ mem)
    · intro m found q mem processed
      rcases mem_append.mp mem with old | new
      · exact known.chains m found q old processed
      · rw [mem_singleton.mp new] at processed
        exact absurd defined processed
    · intro m found d above
      exact known.dominated m found d fun q mem => above q (mem_append_left _ mem)
  | some parent =>
    have within : Within step input.root t p :=
      (stage.defined p).mp (by rw [defined]; exact some_ne_none parent)
    have processed : DomInput.idomOf idom p ≠ none := by
      rw [defined]
      exact some_ne_none parent
    cases merged with
    | none =>
      have skipped := known.absent.mp rfl
      refine ⟨some p, rfl, ?_, ?_, ?_, ?_⟩
      · refine iff_of_false (some_ne_none p) fun none => ?_
        exact processed (none p (mem_append_right _ mem_cons_self))
      · intro m found q mem defined'
        obtain rfl := some.inj found
        rcases mem_append.mp mem with old | new
        · exact absurd (skipped q old) defined'
        · rw [mem_singleton.mp new]
          exact .refl p
      · intro m found d above
        obtain rfl := some.inj found
        exact above p (mem_append_right _ mem_cons_self) processed
      · intro m found
        obtain rfl := some.inj found
        exact numbered.within_min within
    | some other =>
      obtain ⟨m, met, chain, chain', dominated⟩ := intersect_spec numbered stage
        (2 * input.n + 1) (min t input.n) (min t input.n) p other (by omega) le_rfl le_rfl
        (numbered.within_min within) (known.early other rfl)
      refine ⟨some m, by dsimp only; rw [met]; rfl, ?_, ?_, ?_, ?_⟩
      · refine iff_of_false (some_ne_none m) fun none => ?_
        exact processed (none p (mem_append_right _ mem_cons_self))
      · intro m' found q mem defined'
        obtain rfl := some.inj found
        rcases mem_append.mp mem with old | new
        · exact (known.chains other rfl q old defined').trans chain'
        · rwa [mem_singleton.mp new]
      · intro m' found d above
        obtain rfl := some.inj found
        refine dominated d (above p (mem_append_right _ mem_cons_self) processed) ?_
        exact known.dominated other rfl d fun q mem => above q (mem_append_left _ mem)
      · intro m' found
        obtain rfl := some.inj found
        exact stage.chain_within chain (numbered.within_min within)

theorem foldlM_mergePred (numbered : Ranked input step) (stage : Stage input step t idom)
    (rest done : List Nat) (merged : Option Nat) (known : Merged input step t idom done merged) :
    ∃ next, rest.foldlM (input.mergePred idom) merged = some next ∧
      Merged input step t idom (done ++ rest) next := by
  induction rest generalizing done merged with
  | nil => exact ⟨merged, rfl, (append_nil done).symm ▸ known⟩
  | cons p rest ih =>
    obtain ⟨next, merges, known'⟩ := merge numbered stage known p
    obtain ⟨final, folded, known''⟩ := ih _ next known'
    refine ⟨final, ?_, ?_⟩
    · rwa [foldlM_cons, merges]
    · rw [append_assoc, singleton_append] at known''
      exact known''

/-- The thread of a reached node answers with what its predecessors share. -/
theorem domStep_spec (numbered : Ranked input step) (stage : Stage input step t idom) {b : Nat}
    (other : b ≠ input.root) (reached : ReachedBy step input.root b) :
    ∃ next, input.domStep idom b = some next ∧ (next = none ↔ ∀ p, step p b → ¬Within step input.root t p) ∧
      (∀ m, next = some m → ∀ p, step p b → Within step input.root t p → Chain input.root idom p m) ∧
      ∀ m, next = some m → ∀ d, (∀ p, step p b → Within step input.root t p →
        Dominates step input.root d p) → Dominates step input.root d m := by
  have start : Merged input step t idom [] none :=
    ⟨iff_of_true rfl fun _ absent => absurd absent not_mem_nil, by simp, by simp, by simp⟩
  obtain ⟨next, folded, known⟩ := foldlM_mergePred numbered stage (input.row b) [] none start
  have inside : b < input.n := by
    obtain ⟨visited, walk⟩ := reached
    exact List.mem_range.mp (numbered.walk_inside walk walk.mem)
  have rows := numbered.rows b inside
  have stepped : input.domStep idom b = some next := by
    rw [DomInput.domStep, if_neg]
    · exact folded
    · exact not_or.mpr ⟨other, (numbered.numbered b).mpr reached⟩
  rw [nil_append] at known
  refine ⟨next, stepped, ?_, ?_, ?_⟩
  · rw [known.absent]
    refine forall_congr' fun p => imp_congr (rows p) ?_
    rw [← stage.defined p, not_not]
  · intro m found p last within
    exact known.chains m found p ((rows p).mpr last) ((stage.defined p).mpr within)
  intro m found d above
  refine known.dominated m found d fun p mem processed => ?_
  exact above p ((rows p).mp mem) ((stage.defined p).mp processed)

theorem domStep_root (stage : Stage input step t idom) :
    input.domStep idom input.root = some (some input.root) := by
  rw [DomInput.domStep, if_pos (.inl rfl), stage.rootSelf]

theorem domStep_unreached (numbered : Ranked input step) (stage : Stage input step t idom)
    {b : Nat} (unreached : ¬ReachedBy step input.root b) : input.domStep idom b = some none := by
  have absent : DomInput.idomOf idom b = none := by
    by_contra defined
    obtain ⟨visited, walk, -⟩ := (stage.defined b).mp defined
    exact unreached ⟨visited, walk⟩
  rw [DomInput.domStep, if_pos, absent]
  exact .inr (by_contra fun numbered' => unreached ((numbered.numbered b).mp numbered'))

theorem sweep (numbered : Ranked input step) (stage : Stage input step t idom) :
    ∃ next, input.sweep idom = some next ∧ Stage input step (t + 1) next := by
  have answered (v : Nat) : input.domStep idom v = some ((input.domStep idom v).getD none) := by
    by_cases other : v = input.root
    · subst other
      rw [stage.domStep_root]
      rfl
    by_cases reached : ReachedBy step input.root v
    · obtain ⟨next, stepped, -⟩ := domStep_spec numbered stage other reached
      rw [stepped]
      rfl
    · rw [domStep_unreached numbered stage reached]
      rfl
  let next := (List.range input.n).map fun v => (input.domStep idom v).getD none
  have swept : input.sweep idom = some next := by
    unfold DomInput.sweep
    rw [funext answered]
    exact mapM_pure
  have value (v : Nat) (inside : v < input.n) :
      DomInput.idomOf next v = (input.domStep idom v).getD none := by
    rw [DomInput.idomOf, getElem?_map, getElem?_range inside]
    rfl
  have outside (v : Nat) (beyond : ¬v < input.n) : DomInput.idomOf next v = none := by
    rw [DomInput.idomOf, getElem?_eq_none (by simpa [next] using Nat.le_of_not_lt beyond)]
    rfl
  have inside {v k : Nat} (within : Within step input.root k v) : v < input.n := by
    obtain ⟨visited, walk, -⟩ := within
    exact List.mem_range.mp (numbered.walk_inside walk walk.mem)
  have atRoot : DomInput.idomOf next input.root = some input.root := by
    rw [value input.root numbered.root, stage.domStep_root]
    rfl
  -- A node with a dominator is reached, and its predecessors decide.
  have merged (b : Nat) (other : b ≠ input.root) (reached : ReachedBy step input.root b) :
      (DomInput.idomOf next b = none ↔ ∀ p, step p b → ¬Within step input.root t p) ∧
      (∀ m, DomInput.idomOf next b = some m → ∀ p, step p b → Within step input.root t p →
        Chain input.root idom p m) ∧
      ∀ m, DomInput.idomOf next b = some m → ∀ d, (∀ p, step p b →
        Within step input.root t p → Dominates step input.root d p) →
        Dominates step input.root d m := by
    obtain ⟨final, stepped, spec⟩ := domStep_spec numbered stage other reached
    obtain ⟨visited, walk⟩ := reached
    rw [value b (List.mem_range.mp (numbered.walk_inside walk walk.mem)), stepped]
    exact spec
  have reached {b m : Nat} (found : DomInput.idomOf next b = some m) : ReachedBy step input.root b := by
    by_contra unreached
    by_cases within : b < input.n
    · rw [value b within, domStep_unreached numbered stage unreached] at found
      cases found
    · rw [outside b within] at found
      cases found
  have defined (v : Nat) : DomInput.idomOf next v ≠ none ↔ Within step input.root (t + 1) v := by
    by_cases other : v = input.root
    · subst other
      rw [atRoot]
      exact iff_of_true (some_ne_none _) ⟨_, .start, Nat.le_add_left 1 _⟩
    rw [within_succ other]
    by_cases reach : ReachedBy step input.root v
    · rw [Ne, (merged v other reach).1]
      push Not
      exact exists_congr fun p => and_comm
    refine iff_of_false (fun found => ?_) ?_
    · obtain ⟨m, found⟩ := ne_none_iff_exists'.mp found
      exact reach (reached found)
    · rintro ⟨p, ⟨visited, walk, -⟩, last⟩
      exact reach ⟨_, walk.next last⟩
  have lower : ∀ b m, DomInput.idomOf next b = some m → b ≠ input.root → ∀ k,
      Within step input.root (k + 1) b → Within step input.root k m := by
    intro b m found other k within
    have early : Within step input.root (min k t + 1) b := by
      have late := (defined b).mp (by rw [found]; exact some_ne_none m)
      rcases le_total k t with less | more
      · rw [min_eq_left less]
        exact within
      · rw [min_eq_right more]
        exact late
    obtain ⟨p, before, last⟩ := (within_succ other).mp early
    have chain := (merged b other (reached found)).2.1 m found p last
      (before.mono (min_le_right k t))
    exact (stage.chain_within chain before).mono (min_le_left k t)
  have passed : ∀ k b x, Within step input.root k b → Chain input.root next b x →
      Within step input.root (t + 1) b → ∀ visited, WalkTo step input.root visited b →
      visited.length ≤ t + 1 + 1 → x ∈ visited := by
    intro k
    induction k with
    | zero =>
      intro b x near chain _ visited walk _
      cases chain with
      | refl => exact walk.mem
      | up other => exact absurd (within_zero.mp near) other
    | succ k ih =>
      intro b x near chain within visited walk short
      cases chain with
      | refl => exact walk.mem
      | @up _ m _ other parent rest =>
        obtain ⟨before, p, rfl, walk', last⟩ := walk.enter other
        rw [length_cons] at short
        have early : Within step input.root t p := ⟨before, walk', by omega⟩
        have chain := (merged b other (reached parent)).2.1 m parent p last early
        have mem := stage.passed p m chain early before walk' (by omega)
        obtain ⟨shorter, part, walk''⟩ := walk'.suffix mem
        have length := part.length_le
        refine mem_cons_of_mem b (part.subset (ih m x ?_ rest ?_ shorter walk''
          (by omega)))
        · exact lower b m parent other k near
        · exact (lower b m parent other t within).mono (Nat.le_succ t)
  refine ⟨next, swept, ?_, defined, atRoot, lower, ?_, ?_⟩
  · simp [next]
  · intro b m found other d strict
    exact (merged b other (reached found)).2.2 m found d fun p last _ => strict.before last
  · exact fun b x chain within => passed (t + 1) b x within chain within

end Stage

theorem idomOf_initial (inside : input.root < input.n) (v : Nat) :
    DomInput.idomOf input.initial v = if v = input.root then some input.root else none := by
  unfold DomInput.idomOf DomInput.initial
  by_cases same : v = input.root
  · rw [if_pos same, same, getElem?_set_self (by simpa using inside)]
    rfl
  rw [if_neg same, getElem?_set_ne (Ne.symm same), getElem?_replicate]
  by_cases early : v < input.n
  · rw [if_pos early]
    rfl
  · rw [if_neg early]
    rfl

section

variable (numbered : Ranked input step)
include numbered

/-- Before the first sweep only the root is processed. -/
theorem Stage.initial : Stage input step 0 input.initial := by
  have value := idomOf_initial numbered.root
  have undefined {b m : Nat} (found : DomInput.idomOf input.initial b = some m)
      (other : b ≠ input.root) : False := by
    rw [value, if_neg other] at found
    cases found
  refine ⟨?_, fun v => ?_, ?_, ?_, ?_, ?_⟩
  · simp [DomInput.initial]
  · rw [value, within_zero]
    by_cases same : v = input.root
    · rw [if_pos same]
      exact iff_of_true (some_ne_none _) same
    · rw [if_neg same]
      exact iff_of_false (fun defined => defined rfl) same
  · rw [value, if_pos rfl]
  · exact fun b m found other => (undefined found other).elim
  · exact fun b m found other => (undefined found other).elim
  · intro b x chain within visited walk _
    cases chain with
    | refl => exact walk.mem
    | up other => exact absurd (within_zero.mp within) other

/-- Values that a sweep keeps are those of every later sweep. -/
theorem Stage.steady {t : Nat}
    (stage : Stage input step t idom) (kept : input.sweep idom = some idom) (count : Nat) :
    Stage input step (t + count) idom := by
  induction count with
  | zero => exact stage
  | succ count ih =>
    obtain ⟨next, swept, later⟩ := ih.sweep numbered
    rw [kept] at swept
    rwa [some.inj swept]

/-- The sweeps halt, and stopping early changes nothing. -/
theorem Stage.sweeps {t : Nat} (stage : Stage input step t idom) (count : Nat) :
    ∃ final, input.sweeps count idom = some final ∧ Stage input step (t + count) final := by
  induction count generalizing t idom with
  | zero => exact ⟨idom, rfl, stage⟩
  | succ count ih =>
    obtain ⟨next, swept, later⟩ := stage.sweep numbered
    rw [DomInput.sweeps, swept, bind_eq_bind, bind_some]
    by_cases same : next = idom
    · rw [if_pos same]
      rw [same] at swept ⊢
      exact ⟨idom, rfl, stage.steady numbered swept (count + 1)⟩
    rw [if_neg same]
    obtain ⟨final, ends, last⟩ := ih later
    refine ⟨final, ends, ?_⟩
    rwa [add_comm count 1, ← add_assoc]

/-- Once all walks without detours are considered, the values are the immediate dominators. -/
theorem Stage.immediate {t : Nat}
    (stage : Stage input step t idom) (enough : input.n ≤ t) {b : Nat} (other : b ≠ input.root)
    (reached : ReachedBy step input.root b) :
    ∃ m, DomInput.idomOf idom b = some m ∧ ImmediatelyDominates step input.root m b := by
  have within := (numbered.within_n reached).mono enough
  obtain ⟨m, found⟩ := ne_none_iff_exists'.mp ((stage.defined b).mpr within)
  have lower := stage.lower b m found other
  have apart : m ≠ b := by
    rintro rfl
    have never (k : Nat) : ¬Within step input.root k m := by
      induction k with
      | zero => exact fun near => other (within_zero.mp near)
      | succ k ih => exact fun near => ih (lower k near)
    exact never t within
  refine ⟨m, found, reached, ⟨apart, ?_⟩, stage.below b m found other⟩
  refine dominates_of_short (fun _ _ walk => numbered.walk_inside walk) fun visited walk short => ?_
  rw [length_range] at short
  exact stage.passed b m (.up other found (.refl m)) within visited walk (by omega)

/-- The GPU path always ends, with the immediate dominators of all nodes that have one. -/
theorem dominatorsGpu_spec : ∃ out, input.dominatorsGpu = some out ∧ out.length = input.n ∧
      ∀ v d, DomInput.idomOf out v = some d ↔ ImmediatelyDominates step input.root d v := by
  obtain ⟨final, ends, stage⟩ := (Stage.initial numbered).sweeps numbered (input.n + 1)
  rw [zero_add] at stage
  refine ⟨_, by
    unfold DomInput.dominatorsGpu
    rw [if_neg (ne_of_gt (Nat.zero_lt_of_lt numbered.root)), ends, map_some], ?_, ?_⟩
  · simp [stage.length]
  intro v d
  have value : DomInput.idomOf ((final.set input.root none).zipIdx.map fun (dom, v) =>
      if input.rpo[v]?.join = none then none else dom) v =
      if input.rpo[v]?.join = none ∨ v = input.root then none
      else DomInput.idomOf final v := by
    unfold DomInput.idomOf
    rw [getElem?_map, getElem?_zipIdx, zero_add]
    by_cases unreached : input.rpo[v]?.join = none
    · rw [if_pos (.inl unreached)]
      cases (final.set input.root none)[v]? with
      | none => rfl
      | some dom => simp [unreached]
    by_cases same : v = input.root
    · rw [if_pos (.inr same), same, getElem?_set_self (by
        rw [stage.length]
        exact numbered.root)]
      simp
    rw [if_neg (not_or.mpr ⟨unreached, same⟩), getElem?_set_ne (Ne.symm same)]
    cases final[v]? with
    | none => rfl
    | some dom => simp [unreached]
  rw [value]
  by_cases same : v = input.root
  · rw [if_pos (.inr same)]
    refine iff_of_false (fun found => nomatch found) fun immediate => ?_
    rw [same] at immediate
    exact immediate.2.1.1 (mem_singleton.mp (immediate.2.1.2 _ .start))
  by_cases reached : ReachedBy step input.root v
  · rw [if_neg (not_or.mpr ⟨(numbered.numbered v).mpr reached, same⟩)]
    obtain ⟨m, found, immediate⟩ := stage.immediate numbered (Nat.le_succ input.n) same reached
    rw [found]
    constructor
    · intro equal
      exact some.inj equal ▸ immediate
    · exact fun other => congrArg some (immediate.unique other)
  have unreached := not_not.mp fun numbered' => reached ((numbered.numbered v).mp numbered')
  rw [if_pos (.inl unreached)]
  exact iff_of_false (fun found => nomatch found) fun immediate => reached immediate.1

end

end Sweeping

end Codegraph
