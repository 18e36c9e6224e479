import Codegraph.Library.Positions
import Codegraph.Strata.Components
import Mathlib.Order.Bounds.Basic

namespace Codegraph.Strata

open Library Relation List

/-- A rule mentions its head and the predicates of its body. -/
def Mentioned (rules : List Rule) (pred : PredicateName) : Prop :=
  ∃ rule ∈ rules, pred = rule.head ∨ pred ∈ rule.pos ∨ pred ∈ rule.neg

/-- A head lies no lower than its positive predicates and higher than its negated ones. -/
def Layering (rules : List Rule) (level : PredicateName → Nat) : Prop :=
  ∀ rule ∈ rules, (∀ body ∈ rule.pos, level body ≤ level rule.head) ∧
    ∀ body ∈ rule.neg, level body < level rule.head

/-- The head of a rule depends on the predicates of its body. -/
def RuleDepends (rules : List Rule) (head body : PredicateName) : Prop :=
  ∃ rule ∈ rules, rule.head = head ∧ (body ∈ rule.pos ∨ body ∈ rule.neg)

/-- A cycle of dependencies goes through a negated one. -/
def NegationCycle (rules : List Rule) : Prop :=
  ∃ rule ∈ rules, ∃ body ∈ rule.neg, ReflTransGen (RuleDepends rules) body rule.head

variable (rules : List Rule)

theorem mem_allPreds (pred : PredicateName) : pred ∈ (allPreds rules).members ↔ Mentioned rules pred := by
  unfold allPreds Mentioned
  induction rules using List.reverseRecOn with
  | nil => simp
  | append_singleton rules rule ih =>
    rw [foldl_append, foldl_cons, foldl_nil, ListSet.mem_extend, ListSet.mem_insert, ih, mem_append]
    constructor
    · intro either
      rcases either with body | head | ⟨other, listed, mentioned⟩
      · exact ⟨rule, by simp, .inr body⟩
      · exact ⟨rule, by simp, .inl head⟩
      · exact ⟨other, mem_append_left _ listed, mentioned⟩
    intro ⟨other, listed, mentioned⟩
    rcases mem_append.mp listed with old | last
    · exact .inr (.inr ⟨other, old, mentioned⟩)
    rw [mem_singleton.mp last] at mentioned
    rcases mentioned with head | body
    · exact .inr (.inl head)
    · exact .inl body

theorem mem_edgesOf (head body : PredicateName) (negated : Bool) :
    (body, negated) ∈ edgesOf (adjacency rules) head ↔
      ∃ rule ∈ rules, rule.head = head ∧ body ∈ if negated then rule.neg else rule.pos := by
  unfold adjacency edgesOf
  induction rules using List.reverseRecOn with
  | nil =>
    rw [foldl_nil, Dict.getD_empty]
    simp
  | append_singleton rules rule ih =>
    have listed : (∃ other ∈ rules ++ [rule], other.head = head ∧
          body ∈ if negated then other.neg else other.pos) ↔
        (∃ other ∈ rules, other.head = head ∧ body ∈ if negated then other.neg else other.pos) ∨
          (rule.head = head ∧ body ∈ if negated then rule.neg else rule.pos) := by
      constructor
      · intro ⟨other, mem, found⟩
        rcases mem_append.mp mem with old | last
        · exact .inl ⟨other, old, found⟩
        · rw [mem_singleton.mp last] at found
          exact .inr found
      intro either
      rcases either with ⟨other, old, found⟩ | found
      · exact ⟨other, mem_append_left _ old, found⟩
      · exact ⟨rule, mem_append_right _ (mem_singleton.mpr rfl), found⟩
    rw [foldl_append, foldl_cons, foldl_nil, Dict.getD_update, listed, ← ih]
    split
    · rename_i same
      rw [same, append_assoc, mem_append]
      cases negated <;> simp
    · rename_i other
      rw [or_iff_left fun found => other found.1.symm]

theorem depends_adjacency : Depends (adjacency rules) = RuleDepends rules := by
  funext head body
  apply propext
  constructor
  · intro ⟨negated, mem⟩
    obtain ⟨rule, listed, same, found⟩ := (mem_edgesOf rules head body negated).mp mem
    refine ⟨rule, listed, same, ?_⟩
    cases negated with
    | false => exact .inl found
    | true => exact .inr found
  intro ⟨rule, listed, same, found⟩
  rcases found with positive | negative
  · exact ⟨false, (mem_edgesOf rules head body false).mpr ⟨rule, listed, same, positive⟩⟩
  · exact ⟨true, (mem_edgesOf rules head body true).mpr ⟨rule, listed, same, negative⟩⟩

section Check

variable {adj : Adjacency}

/-- Both checks look for a negated dependency inside the component. -/
theorem negatedInside_eq (scc : List PredicateName) (nonempty : scc ≠ []) : negatedInside adj scc =
      scc.find? fun mem => (edgesOf adj mem).any fun edge => edge.2 && decide (edge.1 ∈ scc) := by
  unfold negatedInside
  split
  · rename_i small
    obtain ⟨only, rfl⟩ : ∃ only, scc = [only] := by
      rw [← length_eq_one_iff]
      have positive := length_pos_of_ne_nil nonempty
      omega
    rw [head?_cons, find?_singleton]
    simp only [Option.filter, mem_singleton]
  · rfl

theorem findSome_negatedInside {preds : List PredicateName} {sccs : List (List PredicateName)}
    (condenses : Condenses adj preds sccs) :
    (sccs.findSome? (negatedInside adj)).isSome ↔
      ∃ head ∈ preds, ∃ body, (body, true) ∈ edgesOf adj head ∧ Reaches adj body head := by
  rw [findSome?_isSome_iff]
  constructor
  · intro ⟨scc, listed, found⟩
    rw [negatedInside_eq scc (condenses.nonempty scc listed), find?_isSome] at found
    obtain ⟨head, mem, negated⟩ := found
    obtain ⟨⟨body, mark⟩, edge, inside⟩ := any_eq_true.mp negated
    rw [Bool.and_eq_true, decide_eq_true_eq] at inside
    obtain ⟨rfl, inside⟩ := inside
    exact ⟨head, (condenses.covers head).mp (mem_flatten_of_mem listed mem), body, edge,
      ((condenses.components scc listed head mem body).mp inside).2⟩
  intro ⟨head, known, body, edge, reaches⟩
  obtain ⟨scc, listed, mem⟩ := mem_flatten.mp ((condenses.covers head).mpr known)
  refine ⟨scc, listed, ?_⟩
  rw [negatedInside_eq scc (condenses.nonempty scc listed), find?_isSome]
  refine ⟨head, mem, any_eq_true.mpr ⟨(body, true), edge, ?_⟩⟩
  rw [Bool.and_eq_true, decide_eq_true_eq]
  exact ⟨rfl, (condenses.components scc listed head mem body).mpr ⟨.single ⟨true, edge⟩, reaches⟩⟩

end Check

section Sweep

variable {adj : Adjacency}

theorem get_foldl_set (preds : List PredicateName) (dict : Dict PredicateName Nat) (i : Nat)
    (pred : PredicateName) :
    (preds.foldl (fun dict pred => dict.set pred i) dict).get pred =
      if pred ∈ preds then some i else dict.get pred := by
  induction preds generalizing dict with
  | nil => rfl
  | cons first preds ih =>
    rw [foldl_cons, ih, Dict.get_set]
    by_cases inside : pred ∈ preds
    · rw [if_pos inside, if_pos (mem_cons_of_mem first inside)]
    rw [if_neg inside]
    by_cases same : pred = first
    · rw [if_pos same, if_pos (by rw [same]; exact mem_cons_self)]
    · rw [if_neg same, if_neg (by simp [same, inside])]

variable {sccs : List (List PredicateName)}

/-- A predicate is numbered with the component that lists it. -/
theorem get_sccOf (distinct : sccs.Pairwise fun first second => ∀ u ∈ first, u ∉ second)
    (pred : PredicateName) (i : Nat) :
    (sccOf sccs).get pred = some i ↔ ∃ scc, sccs[i]? = some scc ∧ pred ∈ scc := by
  unfold sccOf
  induction sccs using List.reverseRecOn with
  | nil => simp
  | append_singleton sccs last ih =>
    rw [pairwise_append] at distinct
    obtain ⟨distinct, _, apart⟩ := distinct
    rw [zipIdx_append, foldl_append, zipIdx_singleton, foldl_cons, foldl_nil, get_foldl_set, zero_add]
    have inside (scc : List PredicateName) (found : sccs[i]? = some scc) : i < sccs.length :=
      (List.getElem?_eq_some_iff.mp found).1
    have split (scc : List PredicateName) : (sccs ++ [last])[i]? = some scc ↔
        sccs[i]? = some scc ∨ (i = sccs.length ∧ scc = last) := getElem?_concat_eq_some
    split
    · rename_i mem
      rw [Option.some.injEq]
      constructor
      · intro same
        exact ⟨last, (split last).mpr (.inr ⟨same.symm, rfl⟩), mem⟩
      intro ⟨scc, found, listed⟩
      rcases (split scc).mp found with old | ⟨same, _⟩
      · exact absurd mem (apart scc (mem_of_getElem? old) last
          (mem_singleton.mpr rfl) pred listed)
      · exact same.symm
    rename_i absent
    rw [ih distinct]
    constructor
    · intro ⟨scc, found, listed⟩
      exact ⟨scc, (split scc).mpr (.inl found), listed⟩
    intro ⟨scc, found, listed⟩
    rcases (split scc).mp found with old | ⟨_, same⟩
    · exact ⟨scc, old, listed⟩
    · exact absurd (same ▸ listed) absent

/-- A running maximum is bounded when its start and each candidate are. -/
theorem foldl_le_iff {Item : Type} {step : Int → Item → Int} (Below : Item → Int → Prop)
    (bounds : ∀ highest item bound, step highest item ≤ bound ↔ highest ≤ bound ∧ Below item bound)
    (items : List Item) (highest bound : Int) :
    items.foldl step highest ≤ bound ↔ highest ≤ bound ∧ ∀ item ∈ items, Below item bound := by
  induction items generalizing highest with
  | nil => simp
  | cons item items ih => rw [foldl_cons, ih, bounds, forall_mem_cons, and_assoc]

variable (components : Dict PredicateName Nat)

theorem maxDepStratum_le (strata : List Nat) (i : Nat) (scc : List PredicateName) (bound : Nat) :
    (maxDepStratum adj components strata i scc).toNat ≤ bound ↔
      ∀ mem ∈ scc, ∀ edge ∈ edgesOf adj mem, components.getD edge.1 0 ≠ i →
        strata.getD (components.getD edge.1 0) 0 + (if edge.2 then 1 else 0) ≤ bound := by
  rw [Int.toNat_le]
  unfold maxDepStratum
  rw [foldl_le_iff fun mem bound => ∀ edge ∈ edgesOf adj mem, components.getD edge.1 0 ≠ i →
      ((strata.getD (components.getD edge.1 0) 0 : Int) + if edge.2 then 1 else 0) ≤ bound]
  · rw [and_iff_right (by omega)]
    apply forall₂_congr
    intro mem _
    apply forall₂_congr
    intro edge _
    apply imp_congr_right
    intro _
    split <;> omega
  · intro highest mem bound
    apply foldl_le_iff fun (edge : PredicateName × Bool) (bound : Int) => components.getD edge.1 0 ≠ i →
      ((strata.getD (components.getD edge.1 0) 0 : Int) + if edge.2 then 1 else 0) ≤ bound
    intro highest edge bound
    simp only
    split
    · rename_i same
      simp [same]
    rename_i other
    rw [show (components.getD edge.1 0 ≠ i → _ ≤ bound) ↔ _ from forall_prop_of_true other]
    split <;> omega

variable {scc : List PredicateName}

theorem maxDepStratum_congr {strata strata' : List Nat} {i : Nat}
    (same : ∀ mem ∈ scc, ∀ edge ∈ edgesOf adj mem, components.getD edge.1 0 ≠ i →
      strata.getD (components.getD edge.1 0) 0 = strata'.getD (components.getD edge.1 0) 0) :
    (maxDepStratum adj components strata i scc).toNat =
      (maxDepStratum adj components strata' i scc).toNat := by
  apply eq_of_forall_ge_iff
  intro bound
  rw [maxDepStratum_le, maxDepStratum_le]
  apply forall₂_congr
  intro mem listed
  apply forall₂_congr
  intro edge found
  apply forall_congr'
  intro other
  rw [same mem listed edge found other]

/-- The sweep leaves each component with the stratum that its dependencies ask for, because they
were swept before it. -/
theorem sweep_spec (sccs : List (List PredicateName)) (n : Nat) (small : sccs.length ≤ n)
    (earlier : ∀ (i : Nat) (scc : List PredicateName), sccs[i]? = some scc → ∀ mem ∈ scc,
      ∀ edge ∈ edgesOf adj mem, components.getD edge.1 0 ≤ i) :
    let strata := sccs.zipIdx.foldl (fun strata scc =>
      let highest := maxDepStratum adj components strata scc.2 scc.1
      strata.set scc.2 (if highest < 0 then 0 else highest.toNat)) (List.replicate n 0)
    strata.length = n ∧ ∀ (i : Nat) (scc : List PredicateName), sccs[i]? = some scc →
      strata.getD i 0 = (maxDepStratum adj components strata i scc).toNat := by
  induction sccs using List.reverseRecOn with
  | nil => exact ⟨length_replicate, by simp⟩
  | append_singleton sccs last ih =>
    have split (i : Nat) (scc : List PredicateName) : (sccs ++ [last])[i]? = some scc ↔
        sccs[i]? = some scc ∨ (i = sccs.length ∧ scc = last) := getElem?_concat_eq_some
    rw [length_append, length_singleton] at small
    obtain ⟨length, swept⟩ := ih (by omega) fun i scc found =>
      earlier i scc ((split i scc).mpr (.inl found))
    rw [zipIdx_append, foldl_append, zipIdx_singleton, foldl_cons, foldl_nil, zero_add]
    generalize sccs.zipIdx.foldl _ _ = strata at length swept ⊢
    have value (highest : Int) : (if highest < 0 then 0 else highest.toNat) = highest.toNat := by
      split <;> omega
    simp only [value]
    have old (i : Nat) (before : i ≠ sccs.length) (stratum : Nat) :
        (strata.set sccs.length stratum).getD i 0 = strata.getD i 0 := by
      rw [getD_eq_getElem?_getD, getElem?_set_ne before.symm, ← getD_eq_getElem?_getD]
    refine ⟨by rw [length_set, length], ?_⟩
    intro i scc found
    have kept (within : i ≤ sccs.length) : (maxDepStratum adj components strata i scc).toNat =
        (maxDepStratum adj components (strata.set sccs.length
          (maxDepStratum adj components strata sccs.length last).toNat) i scc).toNat := by
      apply maxDepStratum_congr
      intro mem listed edge mem' other
      have lower := earlier i scc found mem listed edge mem'
      rw [old _ (by omega)]
    rcases (split i scc).mp found with before | ⟨here, same⟩
    · have inside := (List.getElem?_eq_some_iff.mp before).1
      rw [old i (by omega), swept i scc before]
      exact kept (le_of_lt inside)
    · rw [← kept (Nat.le_of_eq here), here, same, getD_eq_getElem?_getD, getElem?_set_self (by omega)]
      rfl

theorem getD_sccOf {preds : List PredicateName} (condenses : Condenses adj preds sccs) {i : Nat}
    (found : sccs[i]? = some scc) {pred : PredicateName} (mem : pred ∈ scc) :
    (sccOf sccs).getD pred 0 = i := by
  rw [Dict.getD, (get_sccOf condenses.distinct pred i).mpr ⟨scc, found, mem⟩]
  rfl

/-- A component depends on itself and on components with smaller numbers. -/
theorem dependency_earlier {preds : List PredicateName} (condenses : Condenses adj preds sccs) {i : Nat}
    (found : sccs[i]? = some scc) {head body : PredicateName} (mem : head ∈ scc)
    (depends : Depends adj head body) :
    body ∈ scc ∨ ∃ (j : Nat) (scc' : List PredicateName), j < i ∧ sccs[j]? = some scc' ∧ body ∈ scc' := by
  obtain ⟨inside, here⟩ := List.getElem?_eq_some_iff.mp found
  have parts : sccs = sccs.take i ++ scc :: sccs.drop (i + 1) := by
    rw [← here, getElem_cons_drop, take_append_drop]
  apply (condenses.ordered _ scc _ parts head mem body depends).imp_right
  intro earlier
  obtain ⟨scc', listed, mem'⟩ := mem_flatten.mp earlier
  obtain ⟨j, found'⟩ := getElem?_of_mem listed
  rw [getElem?_take] at found'
  split at found'
  · rename_i less
    exact ⟨j, scc', less, found', mem'⟩
  · contradiction

/-- The strata of the components are the least ones that their dependencies allow. -/
theorem strataOfSccs_le {preds : List PredicateName} (condenses : Condenses adj preds sccs) {i : Nat}
    (found : sccs[i]? = some scc) (bound : Nat) :
    (strataOfSccs adj (sccOf sccs) sccs).getD i 0 ≤ bound ↔
      ∀ mem ∈ scc, ∀ edge ∈ edgesOf adj mem, (sccOf sccs).getD edge.1 0 ≠ i →
        (strataOfSccs adj (sccOf sccs) sccs).getD ((sccOf sccs).getD edge.1 0) 0 +
          (if edge.2 then 1 else 0) ≤ bound := by
  have earlier (i : Nat) (scc : List PredicateName) (found : sccs[i]? = some scc)
      (head : PredicateName) (mem : head ∈ scc) (edge : PredicateName × Bool)
      (listed : edge ∈ edgesOf adj head) : (sccOf sccs).getD edge.1 0 ≤ i := by
    rcases dependency_earlier condenses found mem ⟨edge.2, listed⟩ with
      same | ⟨j, scc', less, found', mem'⟩
    · rw [getD_sccOf condenses found same]
    · rw [getD_sccOf condenses found' mem']
      exact le_of_lt less
  have swept := (sweep_spec (sccOf sccs) sccs sccs.length (le_refl _) earlier).2 i scc found
  change (strataOfSccs adj (sccOf sccs) sccs).getD i 0 = _ at swept
  rw [swept, maxDepStratum_le]
  rfl

end Sweep

/-- The stratum of a predicate is the one of its component. -/
def stratumOf (adj : Adjacency) (sccs : List (List PredicateName)) (pred : PredicateName) : Nat :=
  (strataOfSccs adj (sccOf sccs) sccs).getD ((sccOf sccs).getD pred 0) 0

theorem stratumOf_layering {adj : Adjacency} {preds : List PredicateName}
    {sccs : List (List PredicateName)} (condenses : Condenses adj preds sccs)
    (acyclic : ∀ head ∈ preds, ∀ body, (body, true) ∈ edgesOf adj head → ¬ Reaches adj body head)
    {head : PredicateName} (known : head ∈ preds) {edge : PredicateName × Bool}
    (listed : edge ∈ edgesOf adj head) :
    stratumOf adj sccs edge.1 + (if edge.2 then 1 else 0) ≤ stratumOf adj sccs head := by
  obtain ⟨scc, mem, inside⟩ := mem_flatten.mp ((condenses.covers head).mpr known)
  obtain ⟨i, found⟩ := getElem?_of_mem mem
  have here := getD_sccOf condenses found inside
  unfold stratumOf
  by_cases same : (sccOf sccs).getD edge.1 0 = i
  · have together : edge.1 ∈ scc := by
      rcases dependency_earlier condenses found inside ⟨edge.2, listed⟩ with
        together | ⟨j, scc', less, found', mem'⟩
      · exact together
      · rw [getD_sccOf condenses found' mem'] at same
        omega
    have positive : edge.2 = false := by
      apply Bool.eq_false_iff.mpr
      intro negated
      rw [show edge = (edge.1, true) from Prod.ext rfl negated] at listed
      exact acyclic head known edge.1 listed
        ((condenses.components scc mem head inside edge.1).mp together).2
    rw [same, here, positive]
    simp
  · rw [here]
    exact (strataOfSccs_le condenses found _).mp (le_refl _) head inside edge listed same

theorem stratumOf_least {adj : Adjacency} {preds : List PredicateName}
    {sccs : List (List PredicateName)} (condenses : Condenses adj preds sccs)
    {level : PredicateName → Nat}
    (layering : ∀ head, ∀ edge ∈ edgesOf adj head, level edge.1 + (if edge.2 then 1 else 0) ≤ level head)
    {pred : PredicateName} (known : pred ∈ preds) : stratumOf adj sccs pred ≤ level pred := by
  have descends {head body : PredicateName} (reaches : Reaches adj head body) :
      level body ≤ level head := by
    induction reaches with
    | refl => exact le_refl _
    | tail _ step ih =>
      obtain ⟨negated, listed⟩ := step
      exact le_trans (le_trans (Nat.le_add_right _ _) (layering _ _ listed)) ih
  obtain ⟨scc, mem, inside⟩ := mem_flatten.mp ((condenses.covers pred).mpr known)
  obtain ⟨i, found⟩ := getElem?_of_mem mem
  clear known
  induction i using Nat.strong_induction_on generalizing pred scc with
  | _ i ih =>
    rw [stratumOf, getD_sccOf condenses found inside, strataOfSccs_le condenses found]
    intro head mem' edge listed other
    have together := (condenses.components scc mem pred inside head).mp mem'
    apply le_trans _ (descends together.1)
    apply le_trans _ (layering head edge listed)
    apply Nat.add_le_add_right
    rcases dependency_earlier condenses found mem' ⟨edge.2, listed⟩ with
      same | ⟨j, scc', less, found', inside'⟩
    · exact absurd (getD_sccOf condenses found same) other
    · exact ih j less scc' (mem_of_getElem? found') inside' found'

/-- The predicates in the order in which they are visited. -/
def predsOf (rules : List Rule) : List PredicateName :=
  (allPreds rules).members.mergeSort fun first second => decide (first ≤ second)

theorem mem_predsOf (pred : PredicateName) : pred ∈ predsOf rules ↔ Mentioned rules pred := by
  rw [predsOf, (mergeSort_perm _ _).mem_iff, mem_allPreds]

theorem computeSccs_rules :
    Condenses (adjacency rules) (predsOf rules) (computeSccs (predsOf rules) (adjacency rules)) := by
  apply computeSccs_condenses
  intro head body depends
  rw [depends_adjacency] at depends
  obtain ⟨rule, listed, _, found⟩ := depends
  exact (mem_predsOf rules body).mpr ⟨rule, listed, .inr found⟩

theorem negationCycle_iff : ((computeSccs (predsOf rules) (adjacency rules)).findSome?
        (negatedInside (adjacency rules))).isSome ↔ NegationCycle rules := by
  rw [findSome_negatedInside (computeSccs_rules rules)]
  rw [NegationCycle, Reaches, depends_adjacency]
  constructor
  · intro ⟨head, _, body, negated, reaches⟩
    obtain ⟨rule, listed, same, found⟩ := (mem_edgesOf rules head body true).mp negated
    exact ⟨rule, listed, body, found, same ▸ reaches⟩
  intro ⟨rule, listed, body, found, reaches⟩
  exact ⟨rule.head, (mem_predsOf rules rule.head).mpr ⟨rule, listed, .inl rfl⟩, body,
    (mem_edgesOf rules rule.head body true).mpr ⟨rule, listed, rfl, found⟩, reaches⟩

theorem layering_iff (level : PredicateName → Nat) :
    Layering rules level ↔ ∀ head, ∀ edge ∈ edgesOf (adjacency rules) head,
      level edge.1 + (if edge.2 then 1 else 0) ≤ level head := by
  constructor
  · intro layering head (body, negated) listed
    obtain ⟨rule, mem, same, found⟩ := (mem_edgesOf rules head body negated).mp listed
    rw [← same]
    cases negated with
    | false => exact (layering rule mem).1 body found
    | true => exact (layering rule mem).2 body found
  intro bounds rule mem
  constructor
  · intro body found
    exact bounds rule.head (body, false)
      ((mem_edgesOf rules rule.head body false).mpr ⟨rule, mem, rfl, found⟩)
  intro body found
  exact bounds rule.head (body, true)
    ((mem_edgesOf rules rule.head body true).mpr ⟨rule, mem, rfl, found⟩)

/-- The rules are rejected when a cycle goes through a negated dependency, and otherwise the strata
are the least ones that the rules allow. -/
theorem stratify_least (rules : List Rule) :
    ((∃ predicate, stratify rules = .error (.negationCycle predicate)) ↔ NegationCycle rules) ∧
    (¬ NegationCycle rules → ∃ strata, stratify rules = .ok strata) ∧
    ∀ strata, stratify rules = .ok strata → (∀ pred, (strata.get pred).isSome ↔ Mentioned rules pred) ∧
      IsLeast {level | Layering rules level} fun pred => strata.getD pred 0 := by
  have cycle := negationCycle_iff rules
  have condenses := computeSccs_rules rules
  have rejects (predicate : PredicateName) : (computeSccs (predsOf rules) (adjacency rules)).findSome?
        (negatedInside (adjacency rules)) = some predicate →
      stratify rules = .error (.negationCycle predicate) := by
    intro checked
    unfold predsOf at checked
    unfold stratify
    dsimp only
    rw [checked]
  have accepts : (computeSccs (predsOf rules) (adjacency rules)).findSome?
        (negatedInside (adjacency rules)) = none →
      stratify rules = .ok (.ofList ((predsOf rules).map fun pred => (pred,
          stratumOf (adjacency rules) (computeSccs (predsOf rules) (adjacency rules)) pred))) := by
    intro checked
    unfold predsOf at checked
    unfold stratify
    dsimp only
    rw [checked]
    rfl
  generalize computeSccs (predsOf rules) (adjacency rules) = sccs at cycle condenses rejects accepts
  cases checked : sccs.findSome? (negatedInside (adjacency rules)) with
  | some predicate =>
    have found : NegationCycle rules := cycle.mp (by rw [checked]; rfl)
    rw [rejects predicate checked]
    exact ⟨⟨fun _ => found, fun _ => ⟨predicate, rfl⟩⟩, fun without => absurd found without,
      fun strata accepted => by contradiction⟩
  | none =>
    have without : ¬ NegationCycle rules := fun found => by
      have rejected := cycle.mpr found
      rw [checked] at rejected
      contradiction
    rw [accepts checked]
    refine ⟨⟨fun rejected => absurd rejected (by simp), fun found => absurd found without⟩,
      fun _ => ⟨_, rfl⟩, ?_⟩
    intro strata accepted
    cases accepted
    have distinct : (((predsOf rules).map fun pred =>
        (pred, stratumOf (adjacency rules) sccs pred)).map Prod.fst).Nodup := by
      rw [List.map_map]
      change ((predsOf rules).map id).Nodup
      rw [map_id]
      exact (mergeSort_perm _ _).nodup_iff.mpr (allPreds rules).nodup
    have entry (pred : PredicateName) (stratum : Nat) :
        (Dict.ofList ((predsOf rules).map fun pred =>
          (pred, stratumOf (adjacency rules) sccs pred))).get pred = some stratum ↔
        pred ∈ predsOf rules ∧ stratumOf (adjacency rules) sccs pred = stratum := by
      rw [Dict.get_ofList distinct, mem_map]
      constructor
      · rintro ⟨other, listed, same⟩
        cases same
        exact ⟨listed, rfl⟩
      · rintro ⟨listed, same⟩
        exact ⟨pred, listed, by rw [same]⟩
    generalize Dict.ofList ((predsOf rules).map fun pred =>
      (pred, stratumOf (adjacency rules) sccs pred)) = strata at entry
    have value {pred : PredicateName} (listed : pred ∈ predsOf rules) :
        strata.getD pred 0 = stratumOf (adjacency rules) sccs pred := by
      rw [Dict.getD, (entry pred _).mpr ⟨listed, rfl⟩]
      rfl
    constructor
    · intro pred
      rw [Option.isSome_iff_exists, ← mem_predsOf]
      constructor
      · rintro ⟨stratum, found⟩
        exact ((entry pred stratum).mp found).1
      · exact fun listed => ⟨_, (entry pred _).mpr ⟨listed, rfl⟩⟩
    constructor
    · apply (layering_iff rules _).mpr
      intro head edge listed
      obtain ⟨rule, mem, same, found⟩ := (mem_edgesOf rules head edge.1 edge.2).mp listed
      have known := (mem_predsOf rules head).mpr ⟨rule, mem, .inl same.symm⟩
      have known' : edge.1 ∈ predsOf rules := by
        apply (mem_predsOf rules edge.1).mpr
        refine ⟨rule, mem, .inr ?_⟩
        split at found
        · exact .inr found
        · exact .inl found
      change strata.getD edge.1 0 + _ ≤ strata.getD head 0
      rw [value known, value known']
      apply stratumOf_layering condenses _ known listed
      intro head known body negated reaches
      apply without
      apply cycle.mp
      exact (findSome_negatedInside condenses).mpr ⟨head, known, body, negated, reaches⟩
    intro level layering pred
    change strata.getD pred 0 ≤ level pred
    by_cases known : pred ∈ predsOf rules
    · rw [value known]
      exact stratumOf_least condenses ((layering_iff rules level).mp layering) known
    have absent : strata.get pred = none := by
      cases found : strata.get pred with
      | none => rfl
      | some stratum => exact absurd ((entry pred stratum).mp found).1 known
    rw [Dict.getD, absent]
    exact Nat.zero_le _

end Codegraph.Strata
