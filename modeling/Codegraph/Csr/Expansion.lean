import Codegraph.Csr.DirectedBfs

namespace Codegraph

open Library List

namespace BfsMarks

variable {B : Type} [Bitmap B]

/-- The second vertex is marked from the first unless it has a mark. -/
def reach (newDepth : Nat) (marks : BfsMarks B) (pair : Nat × Nat) : BfsMarks B :=
  if (marks.depthOf pair.2).isNone then marks.discover newDepth pair.1 pair.2 else marks

/-- The edges out of the frontier. -/
def pushPairs (snapshot : CsrSnapshot) (current : Frontier B) (cfg : BfsConfig) : List (Nat × Nat) :=
  current.vertices.flatMap fun v =>
    ((snapshot.forwardRow cfg v).filter fun other => edgeMatches cfg.edgeFilter other.2).map
      fun other => (v, other.1)

/-- The first edge out of the frontier into each vertex. -/
def pullPairs (snapshot : CsrSnapshot) (current : Frontier B) (cfg : BfsConfig) : List (Nat × Nat) :=
  (List.range snapshot.n).filterMap fun v =>
    ((snapshot.backwardRow cfg v).find? fun other =>
      edgeMatches cfg.edgeFilter other.2 && current.contains other.1).map
      fun other => (other.1, v)

theorem pushStep_eq (snapshot : CsrSnapshot) (current : Frontier B) (newDepth : Nat)
    (cfg : BfsConfig) (marks : BfsMarks B) :
    marks.pushStep snapshot current newDepth cfg =
      (pushPairs snapshot current cfg).foldl (reach newDepth) marks := by
  rw [pushStep, pushPairs, foldl_flatMap]
  congr 1
  funext marks v
  rw [foldl_map, foldl_filter]
  congr 1
  funext marks other
  cases edgeMatches cfg.edgeFilter other.2 <;> rfl

theorem pullStep_eq (snapshot : CsrSnapshot) (current : Frontier B) (newDepth : Nat)
    (cfg : BfsConfig) (marks : BfsMarks B) :
    marks.pullStep snapshot current newDepth cfg =
      (pullPairs snapshot current cfg).foldl (reach newDepth) marks := by
  rw [pullStep, pullPairs, foldl_filterMap]
  congr 1
  funext marks v
  cases (snapshot.backwardRow cfg v).find? fun other =>
      edgeMatches cfg.edgeFilter other.2 && current.contains other.1 with
  | none => simp
  | some other =>
    rw [Option.map_some]
    unfold reach
    cases found : marks.depthOf v <;> simp [found]

/-- The unmarked ends of the pairs got the new mark. -/
structure Expanded (pairs : List (Nat × Nat)) (newDepth : Nat) (before after : BfsMarks B) : Prop where
  size : after.depth.length = before.depth.length ∧ after.parent.length = before.parent.length
  depth : ∀ v d, after.depthOf v = some d ↔ before.depthOf v = some d ∨
    (before.depthOf v = none ∧ d = newDepth ∧ ∃ p, (p, v) ∈ pairs)
  next : ∀ v, v ∈ after.next.vertices ↔ v ∈ before.next.vertices ∨
    (before.depthOf v = none ∧ ∃ p, (p, v) ∈ pairs)
  kept : ∀ v, before.depthOf v ≠ none → after.parentOf v = before.parentOf v
  parent : ∀ v, before.depthOf v = none → (∃ p, (p, v) ∈ pairs) →
    ∃ p, (p, v) ∈ pairs ∧ after.parentOf v = some p
  other : ∀ v, (∀ p, (p, v) ∉ pairs) → after.parentOf v = before.parentOf v

theorem discover_depthOf (marks : BfsMarks B) (newDepth p : Nat) {v : Nat} (inside : v < marks.depth.length)
    (other : Nat) : (marks.discover newDepth p v).depthOf other =
      if other = v then some newDepth else marks.depthOf other := by
  unfold discover depthOf
  rw [getD_eq_getElem?_getD, getElem?_set, getD_eq_getElem?_getD]
  by_cases same : v = other
  · subst same
    simp [inside]
  · have apart : other ≠ v := fun equal => same equal.symm
    rw [if_neg same, if_neg apart]

theorem discover_parentOf (marks : BfsMarks B) (newDepth p : Nat) {v : Nat}
    (inside : v < marks.parent.length) (other : Nat) :
    (marks.discover newDepth p v).parentOf other = if other = v then some p else marks.parentOf other := by
  unfold discover parentOf
  rw [getD_eq_getElem?_getD, getElem?_set, getD_eq_getElem?_getD]
  by_cases same : v = other
  · subst same
    simp [inside]
  · have apart : other ≠ v := fun equal => same equal.symm
    rw [if_neg same, if_neg apart]

theorem Expanded.refl (newDepth : Nat) (marks : BfsMarks B) : Expanded [] newDepth marks marks := by
  constructor <;> simp

theorem Expanded.skip {pairs : List (Nat × Nat)} {newDepth : Nat} {before after : BfsMarks B}
    (expanded : Expanded pairs newDepth before after) {pair : Nat × Nat}
    (marked : before.depthOf pair.2 ≠ none) : Expanded (pair :: pairs) newDepth before after := by
  have same {v : Nat} (unmarked : before.depthOf v = none) (p : Nat) :
      (p, v) ∈ pair :: pairs ↔ (p, v) ∈ pairs := by
    rw [mem_cons, or_iff_right]
    intro equal
    rw [← equal] at marked
    exact marked unmarked
  refine ⟨expanded.size, ?_, ?_, expanded.kept, ?_, ?_⟩
  · intro v d
    rw [expanded.depth, or_congr_right]
    apply and_congr_right
    intro unmarked
    simp only [same unmarked]
  · intro v
    rw [expanded.next, or_congr_right]
    apply and_congr_right
    intro unmarked
    simp only [same unmarked]
  · intro v unmarked listed
    simp only [same unmarked] at listed ⊢
    exact expanded.parent v unmarked listed
  · intro v absent
    exact expanded.other v fun p mem => absent p (mem_cons_of_mem pair mem)

theorem Expanded.mark {pairs : List (Nat × Nat)} {newDepth : Nat} {before after : BfsMarks B}
    {pair : Nat × Nat} (inside : pair.2 < before.depth.length)
    (inside' : pair.2 < before.parent.length) (unmarked : before.depthOf pair.2 = none)
    (expanded : Expanded pairs newDepth (before.discover newDepth pair.1 pair.2) after) :
    Expanded (pair :: pairs) newDepth before after := by
  have depth := before.discover_depthOf newDepth pair.1 inside
  have parent := before.discover_parentOf newDepth pair.1 inside'
  have apart {v : Nat} (different : v ≠ pair.2) (p : Nat) : (p, v) ∈ pair :: pairs ↔ (p, v) ∈ pairs := by
    rw [mem_cons, or_iff_right]
    intro equal
    rw [← equal] at different
    exact different rfl
  refine ⟨?_, ?_, ?_, ?_, ?_, ?_⟩
  · rw [expanded.size.1, expanded.size.2]
    simp [discover]
  · intro v d
    rw [expanded.depth, depth]
    by_cases same : v = pair.2
    · subst same
      rw [if_pos rfl, unmarked]
      have here : ∃ p, (p, pair.2) ∈ pair :: pairs := ⟨pair.1, mem_cons_self⟩
      simp only [here, and_true, true_and, reduceCtorEq, false_and, or_false, false_or, Option.some.injEq]
      exact eq_comm
    · rw [if_neg same]
      simp only [apart same]
  · intro v
    rw [expanded.next, depth]
    change v ∈ (before.next.insert pair.2).vertices ∨ _ ↔ _
    rw [Frontier.mem_insert]
    by_cases same : v = pair.2
    · subst same
      have here : ∃ p, (p, pair.2) ∈ pair :: pairs := ⟨pair.1, mem_cons_self⟩
      simp only [unmarked, here, true_or, and_true, or_true]
    · rw [if_neg same, or_iff_right same]
      simp only [apart same]
  · intro v marked
    have same : v ≠ pair.2 := fun equal => marked (equal ▸ unmarked)
    rw [expanded.kept v (by rw [depth, if_neg same]; exact marked), parent, if_neg same]
  · intro v free listed
    by_cases same : v = pair.2
    · subst same
      refine ⟨pair.1, mem_cons_self, ?_⟩
      rw [expanded.kept pair.2 (by rw [depth, if_pos rfl]; simp), parent, if_pos rfl]
    · simp only [apart same] at listed ⊢
      exact expanded.parent v (by rw [depth, if_neg same]; exact free) listed
  · intro v absent
    have same : v ≠ pair.2 := fun equal => absent pair.1 (equal ▸ mem_cons_self)
    rw [expanded.other v fun p mem => absent p (mem_cons_of_mem pair mem), parent, if_neg same]

theorem expanded_foldl (newDepth : Nat) (pairs : List (Nat × Nat)) (marks : BfsMarks B)
    (sizes : marks.parent.length = marks.depth.length)
    (inside : ∀ pair ∈ pairs, pair.2 < marks.depth.length) :
    Expanded pairs newDepth marks (pairs.foldl (reach newDepth) marks) := by
  induction pairs generalizing marks with
  | nil => exact .refl newDepth marks
  | cons pair pairs ih =>
    have here := inside pair mem_cons_self
    rw [foldl_cons]
    unfold reach
    cases found : marks.depthOf pair.2 with
    | some d =>
      apply Expanded.skip _ (by rw [found]; simp)
      exact ih marks sizes fun other mem => inside other (mem_cons_of_mem _ mem)
    | none =>
      apply Expanded.mark here (by omega) found
      apply ih
      · simpa [discover] using sizes
      · intro other mem
        simpa [discover] using inside other (mem_cons_of_mem _ mem)

end BfsMarks

namespace CsrSnapshot

/-- The search may step from the first vertex to the second. -/
def Allows (snapshot : CsrSnapshot) (cfg : BfsConfig) (p v : Nat) : Prop :=
  p < snapshot.n ∧ ∃ kind, (v, kind) ∈ snapshot.forwardRow cfg p ∧ edgeMatches cfg.edgeFilter kind

namespace Represents

variable {snapshot : CsrSnapshot} {code : CodeGraph}

section

variable (represents : snapshot.Represents code)
include represents

/-- Rows list vertices only. -/
theorem row_inside {v : Nat} (inside : v < snapshot.n)
    {entry : Nat × EdgeKindTag} (mem : entry ∈ snapshot.outRow v ∨ entry ∈ snapshot.inRow v) :
    entry.1 < snapshot.n := by
  rw [represents.count] at inside ⊢
  have here := getElem?_eq_getElem inside
  have known {row ends : List (Nat × EdgeKindTag)} (listed : (row.map fun other =>
      ((bfsRelabel code.graph)[other.1]?, other.2)).Perm
        (ends.map fun other => (some other.1, other.2))) (mem : entry ∈ row) :
      entry.1 < (bfsRelabel code.graph).length := by
    have mapped := listed.mem_iff.mp (mem_map_of_mem mem)
    obtain ⟨other, _, same⟩ := mem_map.mp mapped
    have found := congrArg Prod.fst same.symm
    exact (List.getElem?_eq_some_iff.mp found).1
  rcases mem with out | inc
  · exact known (represents.outgoing v _ here) out
  · exact known (represents.incoming v _ here) inc

/-- An edge is listed at both of its ends. -/
theorem mem_outRow_iff {u v : Nat} (insideU : u < snapshot.n) (insideV : v < snapshot.n) (tag : EdgeKindTag) :
    (v, tag) ∈ snapshot.outRow u ↔ (u, tag) ∈ snapshot.inRow v := by
  rw [represents.count] at insideU insideV
  have hereU := getElem?_eq_getElem insideU
  have hereV := getElem?_eq_getElem insideV
  rw [← count_pos_iff, ← count_pos_iff,
    count_ends code (represents.outgoing u _ hereU) hereV, count_outEnds,
    count_ends code (represents.incoming v _ hereV) hereU, count_inEnds]

theorem forward_iff (cfg : BfsConfig) {u v : Nat}
    (insideU : u < snapshot.n) (insideV : v < snapshot.n) (tag : EdgeKindTag) :
    (v, tag) ∈ snapshot.forwardRow cfg u ↔ (u, tag) ∈ snapshot.backwardRow cfg v := by
  unfold forwardRow backwardRow
  split
  · exact (represents.mem_outRow_iff insideV insideU tag).symm
  · exact represents.mem_outRow_iff insideU insideV tag

theorem allows_inside {cfg : BfsConfig} {p v : Nat} (allows : snapshot.Allows cfg p v) : v < snapshot.n := by
  obtain ⟨inside, kind, mem, _⟩ := allows
  unfold forwardRow at mem
  split at mem
  · exact represents.row_inside inside (.inr mem)
  · exact represents.row_inside inside (.inl mem)

end

variable {B : Type} [Bitmap B]

theorem mem_pushPairs (current : Frontier B) (cfg : BfsConfig)
    (inside : ∀ p ∈ current.vertices, p < snapshot.n) (p v : Nat) :
    (p, v) ∈ BfsMarks.pushPairs snapshot current cfg ↔ p ∈ current.vertices ∧ snapshot.Allows cfg p v := by
  simp only [BfsMarks.pushPairs, Allows, mem_flatMap, mem_map, mem_filter, Prod.mk.injEq]
  constructor
  · rintro ⟨p', mem, other, ⟨listed, matched⟩, same, same'⟩
    subst same same'
    exact ⟨mem, inside p' mem, other.2, listed, matched⟩
  · rintro ⟨mem, _, kind, listed, matched⟩
    exact ⟨p, mem, (v, kind), ⟨listed, matched⟩, rfl, rfl⟩

/-- A pulled vertex takes one of the vertices that could push it. -/
theorem mem_pullPairs (represents : snapshot.Represents code) (current : Frontier B)
    (cfg : BfsConfig) (inside : ∀ p ∈ current.vertices, p < snapshot.n) {p v : Nat}
    (mem : (p, v) ∈ BfsMarks.pullPairs snapshot current cfg) :
    p ∈ current.vertices ∧ snapshot.Allows cfg p v := by
  obtain ⟨v', listed, found⟩ := mem_filterMap.mp mem
  obtain ⟨other, first, same⟩ := Option.map_eq_some_iff.mp found
  cases same
  have insideV := List.mem_range.mp listed
  have matched := find?_some first
  rw [Bool.and_eq_true, Frontier.contains_iff] at matched
  have insideP := inside other.1 matched.2
  exact ⟨matched.2, insideP, other.2,
    (represents.forward_iff cfg insideP insideV other.2).mpr (mem_of_find?_eq_some first),
    matched.1⟩

theorem exists_pullPairs (represents : snapshot.Represents code) (current : Frontier B)
    (cfg : BfsConfig) {p v : Nat} (mem : p ∈ current.vertices) (allows : snapshot.Allows cfg p v) :
    ∃ p', (p', v) ∈ BfsMarks.pullPairs snapshot current cfg := by
  have insideV := represents.allows_inside allows
  obtain ⟨insideP, kind, listed, matched⟩ := allows
  have backward := (represents.forward_iff cfg insideP insideV kind).mp listed
  have found : ((snapshot.backwardRow cfg v).find? fun other =>
      edgeMatches cfg.edgeFilter other.2 && current.contains other.1).isSome := by
    rw [find?_isSome]
    refine ⟨(p, kind), backward, ?_⟩
    rw [Bool.and_eq_true, Frontier.contains_iff]
    exact ⟨matched, mem⟩
  obtain ⟨other, first⟩ := Option.isSome_iff_exists.mp found
  exact ⟨other.1, mem_filterMap.mpr
    ⟨v, List.mem_range.mpr insideV, by rw [first]; rfl⟩⟩

end Represents

end CsrSnapshot

end Codegraph
