import Codegraph.Csr.Multigraph
import Codegraph.LabelReachability.Targets

namespace Codegraph

open Library Relation List Nfa EdgeMatcher

/-- A repetition reads any number of matching edges. -/
theorem EdgeMatcher.mem_kstar (matcher : EdgeMatcher) (word : List EdgeKind) :
    word ∈ KStar.kstar matcher.language ↔ ∀ kind ∈ word, matcher.matches kind := by
  rw [Language.mem_kstar]
  constructor
  · intro ⟨parts, joined, each⟩ kind mem
    rw [joined, mem_flatten] at mem
    obtain ⟨part, listed, mem⟩ := mem
    obtain ⟨only, matched, single⟩ := each part listed
    rw [single, mem_singleton] at mem
    rwa [mem]
  intro matched
  refine ⟨word.map fun kind => [kind], ?_, ?_⟩
  · induction word with
    | nil => rfl
    | cons kind word ih =>
      have rest := ih fun other mem => matched other (mem_cons_of_mem kind mem)
      rw [map_cons, flatten_cons, ← rest]
      rfl
  intro part listed
  obtain ⟨kind, mem, single⟩ := mem_map.mp listed
  exact ⟨kind, matched kind mem, single.symm⟩

theorem PatternAtom.language_snoc {atom : PatternAtom} (repeated : atom.rep ≠ .one)
    {word : List EdgeKind} (read : word ∈ atom.language) {kind : EdgeKind}
    (matched : atom.matcher.matches kind) : word ++ [kind] ∈ atom.language := by
  have grown (word : List EdgeKind) (read : word ∈ KStar.kstar atom.matcher.language) :
      word ++ [kind] ∈ KStar.kstar atom.matcher.language := by
    rw [mem_kstar] at read ⊢
    intro other mem
    rcases mem_append.mp mem with old | new
    · exact read other old
    · rwa [mem_singleton.mp new]
  unfold language at read ⊢
  cases rep : atom.rep with
  | one => exact absurd rep repeated
  | star =>
    rw [rep] at read
    exact grown word read
  | plus =>
    rw [rep] at read
    obtain ⟨first, single, rest, starred, joined⟩ := Language.mem_mul.mp read
    rw [← joined, append_assoc]
    exact Language.append_mem_mul single (grown rest starred)

theorem patternLanguage_concat (pattern : List PatternAtom) (atom : PatternAtom) :
    patternLanguage (pattern ++ [atom]) = patternLanguage pattern * atom.language := by
  unfold patternLanguage
  rw [map_append, prod_append, map_singleton, prod_singleton]

theorem take_concat (pattern : List PatternAtom) {q : Nat} {atom : PatternAtom}
    (found : pattern[q]? = some atom) : pattern.take (q + 1) = pattern.take q ++ [atom] := by
  rw [take_add_one, found]
  rfl

variable {code : CodeGraph} {direction : ClosureDirection}

section Compiled

variable (pattern : List PatternAtom)

/-- A repeated atom keeps its state along matching edges. -/
theorem loop_reaches (consistent : CodeGraph.Consistent code) {q : Nat} {atom : PatternAtom}
    (found : pattern[q]? = some atom) (repeated : atom.rep ≠ .one) {source target : NodeId}
    {word : List EdgeKind} (walk : Walk (code.Labelled direction) source word target)
    (read : ∀ kind ∈ word, atom.matcher.matches kind) :
    ReflTransGen (fun first second => second ∈ productNext code (.compile pattern) direction first)
      (source, q + 1) (target, q + 1) := by
  induction walk with
  | nil => exact .refl
  | snoc before last ih =>
    rename_i labels middle target label
    have first := ih fun kind mem => read kind (mem_append_left _ mem)
    apply first.tail
    rw [mem_productNext consistent]
    refine .inr ⟨atom.matcher, label, ?_, read label (mem_append_right _ (mem_singleton.mpr rfl)), last⟩
    exact (mem_movesOf pattern (q + 1) _).mpr (.inr ⟨q, atom, rfl, found, repeated, rfl⟩)

theorem atom_reaches (consistent : CodeGraph.Consistent code) {q : Nat} {atom : PatternAtom}
    (found : pattern[q]? = some atom) {source target : NodeId} {word : List EdgeKind}
    (walk : Walk (code.Labelled direction) source word target) (read : word ∈ atom.language) :
    ReflTransGen (fun first second => second ∈ productNext code (.compile pattern) direction first)
      (source, q) (target, q + 1) := by
  have step (middle : NodeId) (plain : atom.rep ≠ .star) (first : List EdgeKind)
      (single : first ∈ atom.matcher.language)
      (before : Walk (code.Labelled direction) source first middle) :
      (middle, q + 1) ∈ productNext code (.compile pattern) direction (source, q) := by
    obtain ⟨kind, matched, only⟩ := single
    rw [only, Walk.single_iff] at before
    rw [mem_productNext consistent]
    refine .inr ⟨atom.matcher, kind, ?_, matched, before⟩
    exact (mem_movesOf pattern q _).mpr (.inl ⟨atom, found, by rw [if_neg plain]⟩)
  unfold PatternAtom.language at read
  cases rep : atom.rep with
  | one =>
    rw [rep] at read
    exact .single (step target (by rw [rep]; decide) word read walk)
  | star =>
    rw [rep] at read
    have free : (source, q + 1) ∈ productNext code (.compile pattern) direction (source, q) := by
      rw [mem_productNext consistent]
      refine .inl ⟨(mem_movesOf pattern q _).mpr (.inl ⟨atom, found, ?_⟩), rfl⟩
      rw [if_pos rep]
    exact (loop_reaches pattern consistent found (by rw [rep]; decide) walk
      ((mem_kstar _ _).mp read)).head free
  | plus =>
    rw [rep] at read
    obtain ⟨first, single, rest, starred, joined⟩ := Language.mem_mul.mp read
    rw [← joined] at walk
    obtain ⟨middle, left, right⟩ := walk.split
    exact (loop_reaches pattern consistent found (by rw [rep]; decide) right
      ((mem_kstar _ _).mp starred)).head
      (step middle (by rw [rep]; decide) first single left)

/-- A state is reached with a node that ends a walk which the atoms before the state read. -/
theorem reaches_iff (consistent : CodeGraph.Consistent code) (source target : NodeId) (q : Nat) :
    ReflTransGen (fun first second => second ∈ productNext code (.compile pattern) direction first)
        (source, 0) (target, q) ↔
      q ≤ pattern.length ∧ ∃ word ∈ patternLanguage (pattern.take q),
        Walk (code.Labelled direction) source word target := by
  constructor
  · intro reached
    generalize final : (target, q) = pair at reached
    induction reached generalizing target q with
    | refl =>
      cases final
      exact ⟨Nat.zero_le _, [], Language.nil_mem_one, .nil⟩
    | @tail before after _ step ih =>
      subst final
      obtain ⟨node, state⟩ := before
      obtain ⟨small, word, read, walk⟩ := ih node state rfl
      have next (atom : PatternAtom) (found : pattern[state]? = some atom) (last : List EdgeKind)
          (ended : last ∈ atom.language) (later : q = state + 1)
          (rest : Walk (code.Labelled direction) node last target) :
          q ≤ pattern.length ∧ ∃ word ∈ patternLanguage (pattern.take q),
            Walk (code.Labelled direction) source word target := by
        obtain ⟨inside, _⟩ := List.getElem?_eq_some_iff.mp found
        rw [later, take_concat pattern found, patternLanguage_concat]
        exact ⟨inside, word ++ last, Language.append_mem_mul read ended, walk.append rest⟩
      rcases (mem_productNext consistent _ _ _ _ _).mp step with
        ⟨move, same⟩ | ⟨matcher, kind, move, matched, labelled⟩
      · rw [same]
        rcases (mem_movesOf _ _ _).mp move with
          ⟨atom, found, moved⟩ | ⟨_, _, _, _, _, moved⟩
        · split at moved
          · rename_i starred
            cases moved
            refine same ▸ next atom found [] ?_ rfl (same ▸ .nil)
            rw [PatternAtom.language, starred]
            exact Language.nil_mem_kstar _
          · contradiction
        · contradiction
      rcases (mem_movesOf _ _ _).mp move with
        ⟨atom, found, moved⟩ | ⟨before, atom, position, found, repeated, moved⟩
      · split at moved
        · contradiction
        rename_i plain
        cases moved
        refine next atom found [kind] ?_ rfl (.single labelled)
        unfold PatternAtom.language
        cases rep : atom.rep with
        | one => exact ⟨kind, matched, rfl⟩
        | star => exact absurd rep plain
        | plus =>
          have single : [kind] ∈ atom.matcher.language := ⟨kind, matched, rfl⟩
          have alone := Language.append_mem_mul single
            (Language.nil_mem_kstar atom.matcher.language)
          rwa [append_nil] at alone
      cases moved
      rw [position, take_concat pattern found, patternLanguage_concat] at read ⊢
      obtain ⟨first, earlier, last, read, joined⟩ := Language.mem_mul.mp read
      refine ⟨position ▸ small, first ++ (last ++ [kind]),
        Language.append_mem_mul earlier (PatternAtom.language_snoc repeated read matched), ?_⟩
      rw [← append_assoc, joined]
      exact .snoc walk labelled
  · intro ⟨small, word, read, walk⟩
    induction q generalizing target word with
    | zero =>
      rw [take_zero] at read
      have empty := (Language.mem_one word).mp read
      rw [empty, Walk.nil_iff] at walk
      rw [walk]
    | succ q ih =>
      obtain ⟨atom, found⟩ : ∃ atom, pattern[q]? = some atom := ⟨pattern[q], getElem?_eq_getElem small⟩
      rw [take_concat pattern found, patternLanguage_concat] at read
      obtain ⟨first, earlier, last, ended, joined⟩ := Language.mem_mul.mp read
      rw [← joined] at walk
      obtain ⟨middle, left, right⟩ := walk.split
      exact (ih middle (Nat.le_of_succ_le small) first earlier left).trans
        (atom_reaches pattern consistent found right ended)

end Compiled

section

variable (consistent : CodeGraph.Consistent code)
include consistent

theorem CodeGraph.Labelled.stored {source target : NodeId}
    {kind : EdgeKind} (labelled : code.Labelled direction source kind target) :
    code.containsNode target := by
  obtain ⟨edge, mem, _, ends⟩ := labelled
  obtain ⟨link, _, first, last, found, found', joined⟩ := (CodeGraph.mem_edges edge).mp mem
  unfold CodeGraph.containsNode
  cases direction with
  | outgoing =>
    rw [← ends.2, joined, consistent.slot found']
    rfl
  | incoming =>
    rw [← ends.1, joined, consistent.slot found]
    rfl

theorem productNext_stored (pattern : List PatternAtom) : ∀ pair ∈ productPairs code (.compile pattern),
      ∀ next ∈ productNext code (.compile pattern) direction pair,
        next ∈ productPairs code (.compile pattern) := by
  intro (node, q) known (target, state) next
  rw [mem_productPairs] at known ⊢
  rw [mem_productNext consistent] at next
  obtain ⟨states, _⟩ := compile_size pattern
  constructor
  · rcases next with ⟨_, same⟩ | ⟨_, _, _, _, labelled⟩
    · rw [same]
      exact known.1
    · exact labelled.stored consistent
  have moved : ∃ move, move ∈ (Nfa.compile pattern).movesOf q ∧
      (move = .eps state ∨ ∃ matcher, move = .on matcher state) := by
    rcases next with ⟨move, _⟩ | ⟨matcher, _, move, _⟩
    · exact ⟨_, move, .inl rfl⟩
    · exact ⟨_, move, .inr ⟨matcher, rfl⟩⟩
  obtain ⟨move, mem, shape⟩ := moved
  rcases (mem_movesOf _ _ _).mp mem with
    ⟨atom, found, moved⟩ | ⟨before, atom, position, found, _, moved⟩
  · obtain ⟨inside, _⟩ := List.getElem?_eq_some_iff.mp found
    split at moved <;> subst moved <;> simp at shape <;> omega
  subst moved
  simp at shape
  omega

theorem mem_compiledBfs (pattern : List PatternAtom)
    {source : NodeId} (stored : code.containsNode source) (target : NodeId)
    {stopAt : Option NodeId} (wanted : stopAt = none ∨ stopAt = some target) :
    target ∈ (productBfs code source (.compile pattern) direction stopAt).members ↔
      ∃ word ∈ patternLanguage pattern, Walk (code.Labelled direction) source word target := by
  obtain ⟨states, last⟩ := compile_size pattern
  have known : (source, (Nfa.compile pattern).start) ∈ productPairs code (.compile pattern) := by
    rw [mem_productPairs, states]
    exact ⟨stored, Nat.succ_pos _⟩
  rw [mem_productBfs (productNext_stored consistent pattern) known target wanted, last]
  change ReflTransGen _ (source, 0) _ ↔ _
  rw [reaches_iff pattern consistent, take_length]
  exact and_iff_right (le_refl _)

theorem mem_reachableTargets (source target : NodeId) (pattern : List PatternAtom) :
    target ∈ reachableTargets code source pattern direction ↔ code.containsNode source ∧
      ∃ word ∈ patternLanguage pattern, Walk (code.Labelled direction) source word target := by
  unfold reachableTargets
  split
  · rename_i stored
    rw [(mergeSort_perm _ _).mem_iff, mem_compiledBfs consistent pattern stored target (.inl rfl)]
    exact (and_iff_right stored).symm
  · rename_i absent
    simp [absent]

theorem walk_stored {source target : NodeId}
    {word : List EdgeKind} (walk : Walk (code.Labelled direction) source word target)
    (stored : code.containsNode source) : code.containsNode target := by
  cases walk with
  | nil => exact stored
  | snoc _ last => exact last.stored consistent

theorem reachable_iff (source target : NodeId) (pattern : List PatternAtom) :
    reachable code source target pattern direction ↔ code.containsNode source ∧ code.containsNode target ∧
      ∃ word ∈ patternLanguage pattern, Walk (code.Labelled direction) source word target := by
  rw [reachable, Bool.and_eq_true, Bool.and_eq_true, and_assoc, decide_eq_true_eq]
  apply and_congr_right
  intro stored
  rw [mem_compiledBfs consistent pattern stored target (.inr rfl)]

end

theorem PatternAtom.language_reverse (atom : PatternAtom) : atom.language.reverse = atom.language := by
  have single : atom.matcher.language.reverse = atom.matcher.language := by
    ext word
    rw [Language.mem_reverse]
    constructor
    · intro ⟨kind, matched, only⟩
      exact ⟨kind, matched, reverse_eq_iff.mp only⟩
    · intro ⟨kind, matched, only⟩
      exact ⟨kind, matched, reverse_eq_iff.mpr only⟩
  unfold language
  cases atom.rep with
  | one => exact single
  | star => rw [Language.reverse_kstar, single]
  | plus => rw [Language.reverse_mul, Language.reverse_kstar, single, Language.mul_self_kstar_comm]

theorem patternLanguage_reverse (pattern : List PatternAtom) :
    patternLanguage pattern.reverse = (patternLanguage pattern).reverse := by
  induction pattern with
  | nil => exact Language.reverse_one.symm
  | cons atom pattern ih =>
    have first : patternLanguage (atom :: pattern) = atom.language * patternLanguage pattern :=
      prod_cons
    rw [reverse_cons, patternLanguage_concat, ih, first, Language.reverse_mul, PatternAtom.language_reverse]

theorem walk_turn (source target : NodeId) (word : List EdgeKind) :
    Walk (code.Labelled .outgoing) source word target ↔
      Walk (code.Labelled .incoming) target word.reverse source := by
  constructor
  · exact fun walk => walk.reverse fun _ _ _ edge => edge
  intro walk
  have back := walk.reverse fun _ _ _ edge => edge
  rwa [reverse_reverse] at back

/-- The targets are the ends of the walks that spell a word of the pattern, the search for one
target decides whether it is among them, and a search against the edges reads the pattern backwards. -/
theorem reachableTargets_walks (consistent : CodeGraph.Consistent code) (source : NodeId)
    (pattern : List PatternAtom) :
    (∀ direction, (reachableTargets code source pattern direction).Nodup ∧
      (∀ target, target ∈ reachableTargets code source pattern direction ↔
        code.containsNode source ∧ ∃ word ∈ patternLanguage pattern,
          Walk (code.Labelled direction) source word target) ∧
      ∀ target, reachable code source target pattern direction ↔
        target ∈ reachableTargets code source pattern direction) ∧
    ∀ target, reachable code source target pattern .outgoing ↔
      reachable code target source pattern.reverse .incoming := by
  constructor
  · intro direction
    refine ⟨?_, fun target => mem_reachableTargets consistent source target pattern, ?_⟩
    · unfold reachableTargets
      split
      · exact (mergeSort_perm _ _).nodup_iff.mpr (ListSet.nodup _)
      · exact nodup_nil
    intro target
    rw [reachable_iff consistent, mem_reachableTargets consistent]
    apply and_congr_right
    intro stored
    apply and_iff_right_of_imp
    intro ⟨word, _, walk⟩
    exact walk_stored consistent walk stored
  intro target
  rw [reachable_iff consistent, reachable_iff consistent, and_left_comm, patternLanguage_reverse]
  apply and_congr_right
  intro _
  apply and_congr_right
  intro _
  constructor
  · intro ⟨word, read, walk⟩
    exact ⟨word.reverse, Language.reverse_mem_reverse.mpr read, (walk_turn source target word).mp walk⟩
  intro ⟨word, read, walk⟩
  refine ⟨word.reverse, read, (walk_turn source target _).mpr ?_⟩
  rwa [reverse_reverse]

/-- A recursive function is found again through its own calls. -/
theorem reachableTargets_walks_recursion :
    ⟨1⟩ ∈ reachableTargets (CodeGraph.run .fresh CsrSnapshot.recursion) ⟨1⟩
      [⟨.exactly .calls, .plus⟩] .outgoing :=
  (((reachableTargets_walks (CodeGraph.run_consistent .fresh CsrSnapshot.recursion) ⟨1⟩
    [⟨.exactly .calls, .plus⟩]).1 .outgoing).2.2 ⟨1⟩).mp (by decide +kernel)

end Codegraph
