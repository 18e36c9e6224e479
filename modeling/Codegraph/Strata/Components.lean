import Codegraph.Strata.Tarjan

namespace Codegraph.Strata

open Library Relation List

namespace SccState

theorem popUntil_spec {v : PredicateName} (new rest : List PredicateName) (outside : v ∉ new)
    (onStack : ListSet PredicateName) :
    (popUntil v onStack (new ++ v :: rest)).1 = new ++ [v] ∧
      (∀ u, u ∈ (popUntil v onStack (new ++ v :: rest)).2.1.members ↔
        u ∉ new ++ [v] ∧ u ∈ onStack.members) ∧
      (popUntil v onStack (new ++ v :: rest)).2.2 = rest := by
  induction new generalizing onStack with
  | nil =>
    rw [nil_append, popUntil, if_pos rfl]
    refine ⟨rfl, ?_, rfl⟩
    intro u
    rw [ListSet.mem_erase, nil_append, mem_singleton]
  | cons first new ih =>
    rw [mem_cons, not_or] at outside
    obtain ⟨popped, marks, left⟩ := ih outside.2 (onStack.erase first)
    rw [cons_append, popUntil, if_neg fun same => outside.1 same.symm]
    refine ⟨congrArg (first :: ·) popped, ?_, left⟩
    intro u
    rw [marks, ListSet.mem_erase, cons_append, mem_cons, not_or]
    tauto

variable {adj : Adjacency} {path : List PredicateName}

/-- A call numbers its predicate and leaves on the stack what leads below its predicate. -/
structure Explored (adj : Adjacency) (path : List PredicateName) (v : PredicateName)
    (before after : SccState) : Prop where
  valid : after.Valid adj path
  grows : Grows before after
  known : after.Known v
  reached : ∀ u, after.Known u → before.Known u ∨ Reaches adj v u
  segment : ∃ new, after.stack = new ++ before.stack ∧
    ∀ u ∈ new, ∀ w ∈ before.stack, Depends adj u w → after.low v ≤ before.number w
  back : before.index ≤ after.low v ∨ ∃ y ∈ before.stack, before.number y = after.low v ∧ Reaches adj v y

/-- The bodies of the predicate up to here are explored. -/
structure Exploring (adj : Adjacency) (path : List PredicateName) (v : PredicateName)
    (done : List (PredicateName × Bool)) (before during : SccState) : Prop where
  started : before.Valid adj path
  fresh : ¬ before.Known v
  valid : during.Valid adj (v :: path)
  grows : Grows before during
  entered : during.indexOf.get v = some before.index
  reached : ∀ u, during.Known u → before.Known u ∨ Reaches adj v u
  segment : ∃ new, during.stack = new ++ v :: before.stack ∧
    ∀ u ∈ new, ∀ w ∈ before.stack, Depends adj u w → during.low v ≤ before.number w
  lowest : during.low v ≤ before.index
  back : ∃ y ∈ during.stack, during.number y = during.low v ∧ Reaches adj v y
  bounded : ∀ edge ∈ done, edge.1 ∈ before.stack → during.low v ≤ before.number edge.1
  processed : ∀ edge ∈ done, during.Known edge.1

theorem Valid.enter_exploring {state : SccState} (valid : state.Valid adj path) {v : PredicateName}
    (fresh : ¬ state.Known v) (leads : ∀ x ∈ path, Reaches adj x v) :
    Exploring adj path v [] state (state.enter v) where
  started := valid
  fresh := fresh
  valid := valid.enter fresh leads
  grows := grows_enter fresh
  entered := Dict.get_set_self _ _ _
  reached u known := by
    rcases (known_enter _ _ _).mp known with same | old
    · rw [same]
      exact .inr .refl
    · exact .inl old
  segment := ⟨[], rfl, fun _ absent => absurd absent not_mem_nil⟩
  lowest := by rw [low_enter, if_pos rfl]
  back := ⟨v, mem_cons_self, by rw [low_enter, number_enter, if_pos rfl, if_pos rfl], .refl⟩
  bounded _ absent := absurd absent not_mem_nil
  processed _ absent := absurd absent not_mem_nil

namespace Exploring

variable {v : PredicateName} {done : List (PredicateName × Bool)} {before during : SccState}

section

variable (exploring : Exploring adj path v done before during)
include exploring

theorem number_entered : during.number v = before.index := by
  rw [SccState.number, Dict.getD, exploring.entered]
  rfl

theorem known_entered : during.Known v := by
  rw [Known, exploring.entered]
  rfl

theorem mem_stack {u : PredicateName} (mem : u ∈ before.stack) : u ∈ during.stack := by
  obtain ⟨new, stack, _⟩ := exploring.segment
  rw [stack]
  exact mem_append_right new (mem_cons_of_mem v mem)

theorem number_below {u : PredicateName} (mem : u ∈ before.stack) : during.number u = before.number u :=
  exploring.grows.number (exploring.started.known_of_stack mem)

theorem grows_lower {after : SccState}
    (grows : Grows during after) (bound : Nat) : Grows before (after.lower v bound) := by
  have all := exploring.grows.trans grows
  refine ⟨all.numbers, ?_, all.index⟩
  intro u known
  have other : u ≠ v := by
    intro same
    rw [same] at known
    exact exploring.fresh known
  change (after.lowlink.set v _).get u = _
  rw [Dict.get_set_ne _ _ other, all.lowlinks u known]

/-- A body on the stack bounds the low link by its number. -/
theorem lower {edge : PredicateName × Bool} (mem : edge ∈ edgesOf adj v) (inStack : edge.1 ∈ during.stack) :
    Exploring adj path v (done ++ [edge]) before (during.lower v (during.number edge.1)) where
  started := exploring.started
  fresh := exploring.fresh
  valid := exploring.valid.lower v _
  grows := exploring.grows_lower (.refl _) _
  entered := exploring.entered
  reached := exploring.reached
  segment := by
    obtain ⟨new, stack, low⟩ := exploring.segment
    refine ⟨new, stack, ?_⟩
    intro u mem w below depends
    rw [low_lower]
    exact le_trans (min_le_left _ _) (low u mem w below depends)
  lowest := by
    rw [low_lower]
    exact le_trans (min_le_left _ _) exploring.lowest
  back := by
    rw [low_lower]
    by_cases lower : during.number edge.1 < during.low v
    · rw [min_eq_right (le_of_lt lower)]
      exact ⟨edge.1, inStack, rfl, .single ⟨edge.2, mem⟩⟩
    · rw [min_eq_left (Nat.le_of_not_lt lower)]
      exact exploring.back
  bounded := by
    intro other mem below
    rw [low_lower]
    rcases mem_append.mp mem with old | new
    · exact le_trans (min_le_left _ _) (exploring.bounded other old below)
    rw [mem_singleton] at new
    subst new
    rw [exploring.number_below below]
    exact min_le_right _ _
  processed := by
    intro other mem
    rcases mem_append.mp mem with old | new
    · exact exploring.processed other old
    rw [mem_singleton] at new
    subst new
    exact exploring.valid.known_of_stack inStack

/-- A body in a complete component changes nothing. -/
theorem skip {edge : PredicateName × Bool} (known : during.Known edge.1) (outside : edge.1 ∉ during.stack) :
    Exploring adj path v (done ++ [edge]) before during :=
  { exploring with
    bounded := by
      intro other mem below
      rcases mem_append.mp mem with old | new
      · exact exploring.bounded other old below
      rw [mem_singleton] at new
      subst new
      exact absurd (exploring.mem_stack below) outside
    processed := by
      intro other mem
      rcases mem_append.mp mem with old | new
      · exact exploring.processed other old
      rw [mem_singleton] at new
      subst new
      exact known }

/-- The call for a body bounds the low link by the one of the body. -/
theorem call {edge : PredicateName × Bool}
    (mem : edge ∈ edgesOf adj v) (unknown : ¬ during.Known edge.1) {after : SccState}
    (explored : Explored adj (v :: path) edge.1 during after) :
    Exploring adj path v (done ++ [edge]) before (after.lower v (after.low edge.1)) := by
  have same := explored.grows.low exploring.known_entered
  obtain ⟨new, stack, low⟩ := exploring.segment
  obtain ⟨new', stack', low'⟩ := explored.segment
  refine ⟨exploring.started, exploring.fresh, explored.valid.lower v _,
    exploring.grows_lower explored.grows _, ?_, ?_, ?_, ?_, ?_, ?_, ?_⟩
  · change after.indexOf.get v = _
    rw [explored.grows.numbers v exploring.known_entered]
    exact exploring.entered
  · intro u known
    rcases explored.reached u known with old | new
    · exact exploring.reached u old
    · exact .inr (new.head ⟨edge.2, mem⟩)
  · refine ⟨new' ++ new, ?_, ?_⟩
    · change after.stack = _
      rw [stack', stack, append_assoc]
    intro u segment w below depends
    rw [low_lower, same]
    rcases mem_append.mp segment with first | second
    · have bound := low' u first w (exploring.mem_stack below) depends
      rw [exploring.number_below below] at bound
      exact le_trans (min_le_right _ _) bound
    · exact le_trans (min_le_left _ _) (low u second w below depends)
  · rw [low_lower, same]
    exact le_trans (min_le_left _ _) exploring.lowest
  · have kept (y : PredicateName) (inStack : y ∈ during.stack) :
        y ∈ (after.lower v (after.low edge.1)).stack ∧
          (after.lower v (after.low edge.1)).number y = during.number y := by
      refine ⟨?_, explored.grows.number (exploring.valid.known_of_stack inStack)⟩
      change y ∈ after.stack
      rw [stack']
      exact mem_append_right new' inStack
    rw [low_lower, same]
    by_cases lower : after.low edge.1 < during.low v
    · rw [min_eq_right (le_of_lt lower)]
      rcases explored.back with high | ⟨y, inStack, number, reaches⟩
      · have first := exploring.valid.below v (exploring.valid.active v mem_cons_self)
        rw [exploring.number_entered] at first
        have lowest := exploring.lowest
        omega
      · exact ⟨y, (kept y inStack).1, (kept y inStack).2.trans number, reaches.head ⟨edge.2, mem⟩⟩
    rw [min_eq_left (Nat.le_of_not_lt lower)]
    obtain ⟨y, inStack, number, reaches⟩ := exploring.back
    exact ⟨y, (kept y inStack).1, (kept y inStack).2.trans number, reaches⟩
  · intro other listed below
    rw [low_lower, same]
    rcases mem_append.mp listed with old | new
    · exact le_trans (min_le_left _ _) (exploring.bounded other old below)
    rw [mem_singleton] at new
    subst new
    exact absurd (exploring.valid.known_of_stack (exploring.mem_stack below)) unknown
  · intro other listed
    rcases mem_append.mp listed with old | new
    · exact explored.grows.known (exploring.processed other old)
    rw [mem_singleton] at new
    subst new
    exact explored.known

end

/-- The predicates above the older part of the stack lead to each other. -/
structure Segment (adj : Adjacency) (v : PredicateName) (before during : SccState)
    (new : List PredicateName) : Prop where
  stack : during.stack = new ++ v :: before.stack
  outside : v ∉ new
  above : ∀ u ∈ new ++ [v], before.index ≤ during.number u
  beneath : ∀ w ∈ before.stack, during.number w < before.index
  known : ∀ u ∈ new ++ [v], ∀ w, Depends adj u w → during.Known w
  bounded : ∀ u ∈ new ++ [v], ∀ w ∈ before.stack, Depends adj u w → during.low v ≤ before.number w
  down : ∀ u ∈ new ++ [v], Reaches adj v u
  up : ∀ u ∈ new ++ [v], Reaches adj u v

section

variable (exploring : Exploring adj path v (edgesOf adj v) before during)
include exploring

theorem explored_segment : ∃ new, Segment adj v before during new := by
  obtain ⟨new, stack, low⟩ := exploring.segment
  have descending := exploring.valid.descending
  rw [stack, pairwise_append, pairwise_cons] at descending
  obtain ⟨_, ⟨first, _⟩, across⟩ := descending
  have number := exploring.number_entered
  have higher (u : PredicateName) (mem : u ∈ new) : before.index < during.number u := by
    rw [← number]
    exact across u mem v mem_cons_self
  have beneath (w : PredicateName) (mem : w ∈ before.stack) : during.number w < before.index := by
    rw [← number]
    exact first w mem
  have outside : v ∉ new := fun mem => absurd (higher v mem) (by omega)
  have above (u : PredicateName) (mem : u ∈ new ++ [v]) : before.index ≤ during.number u := by
    rcases mem_append.mp mem with inside | last
    · exact le_of_lt (higher u inside)
    · rw [mem_singleton.mp last, number]
  have inStack (u : PredicateName) (mem : u ∈ new ++ [v]) : u ∈ during.stack := by
    rw [stack, append_cons]
    exact mem_append_left _ mem
  have edge (w : PredicateName) (depends : Depends adj v w) : ∃ edge ∈ edgesOf adj v, edge.1 = w := by
    obtain ⟨negated, mem⟩ := depends
    exact ⟨(w, negated), mem, rfl⟩
  refine ⟨new, stack, outside, above, beneath, ?_, ?_, ?_, ?_⟩
  · intro u mem w depends
    rcases mem_append.mp mem with inside | last
    · refine exploring.valid.finished u (exploring.valid.known_of_stack (inStack u mem)) ?_ w depends
      intro active
      rcases mem_cons.mp active with same | active
      · exact outside (same ▸ inside)
      have lower := beneath u (exploring.started.active u active)
      have higher := higher u inside
      omega
    rw [mem_singleton.mp last] at depends
    obtain ⟨edge, listed, same⟩ := edge w depends
    exact same ▸ exploring.processed edge listed
  · intro u mem w below depends
    rcases mem_append.mp mem with inside | last
    · exact low u inside w below depends
    rw [mem_singleton.mp last] at depends
    obtain ⟨edge, listed, same⟩ := edge w depends
    rw [← same] at below ⊢
    exact exploring.bounded edge listed below
  · intro u mem
    apply exploring.valid.descends v mem_cons_self u (inStack u mem)
    rw [number]
    exact above u mem
  · intro u mem
    obtain ⟨x, active, _, reaches⟩ := exploring.valid.ascends u (inStack u mem)
    rcases mem_cons.mp active with same | older
    · exact same ▸ reaches
    apply reaches.trans
    apply exploring.valid.descends x active v (exploring.valid.active v mem_cons_self)
    rw [number]
    exact le_of_lt (beneath x (exploring.started.active x older))

/-- A predicate that leads below itself stays on the stack for the calls that wait. -/
theorem leave (lower : during.low v ≠ during.number v) : Explored adj path v before during := by
  obtain ⟨new, segment⟩ := exploring.explored_segment
  have number := exploring.number_entered
  have lowest := exploring.lowest
  obtain ⟨target, inStack, bound, reaches⟩ := exploring.back
  have older (y : PredicateName) (mem : y ∈ during.stack)
      (below : during.number y < before.index) : y ∈ before.stack := by
    rw [segment.stack, append_cons] at mem
    rcases mem_append.mp mem with inside | old
    · have := segment.above y inside
      omega
    · exact old
  have valid : during.Valid adj path := by
    refine { exploring.valid with active := ?_, finished := ?_, descends := ?_, ascends := ?_ }
    · exact fun x active => exploring.valid.active x (mem_cons_of_mem v active)
    · intro u known outside w depends
      by_cases same : u = v
      · exact segment.known u (mem_append_right new (mem_singleton.mpr same)) w depends
      · exact exploring.valid.finished u known (by simp [same, outside]) w depends
    · exact fun x active => exploring.valid.descends x (mem_cons_of_mem v active)
    · intro y mem
      obtain ⟨x, active, order, climb⟩ := exploring.valid.ascends y mem
      rcases mem_cons.mp active with same | active
      · obtain ⟨x', active', order', climb'⟩ := exploring.valid.ascends target inStack
        have apart : x' ≠ v := by
          intro same'
          rw [same'] at order'
          omega
        refine ⟨x', (mem_cons.mp active').resolve_left apart, ?_, ?_⟩
        · rw [same] at order
          omega
        · rw [same] at climb
          exact (climb.trans reaches).trans climb'
      · exact ⟨x, active, order, climb⟩
  refine ⟨valid, exploring.grows, exploring.known_entered, exploring.reached,
    ⟨new ++ [v], ?_, segment.bounded⟩, ?_⟩
  · rw [← append_cons]
    exact segment.stack
  have below := older target inStack (by omega)
  refine .inr ⟨target, below, ?_, reaches⟩
  rw [← exploring.number_below below, bound]

theorem complete_components {new : List PredicateName} (segment : Segment adj v before during new)
    (complete : during.low v = during.number v) {u : PredicateName} (mem : u ∈ new ++ [v]) :
    (∀ w, Depends adj u w → w ∈ new ++ [v] ∨ w ∈ during.sccs.flatten) ∧
      ∀ w, w ∈ new ++ [v] ↔ Reaches adj u w ∧ Reaches adj w u := by
  have inside (u : PredicateName) (mem : u ∈ new ++ [v]) (w : PredicateName)
      (depends : Depends adj u w) : w ∈ new ++ [v] ∨ w ∈ during.sccs.flatten := by
    rcases (exploring.valid.known w).mp (segment.known u mem w depends) with inStack | done
    · rw [segment.stack, append_cons] at inStack
      rcases mem_append.mp inStack with inside | below
      · exact .inl inside
      have bound := segment.bounded u mem w below depends
      have lower := segment.beneath w below
      rw [exploring.number_below below] at lower
      rw [complete, exploring.number_entered] at bound
      omega
    · exact .inr done
  refine ⟨inside u mem, ?_⟩
  intro w
  constructor
  · intro mem'
    exact ⟨(segment.up u mem).trans (segment.down w mem'), (segment.up w mem').trans (segment.down u mem)⟩
  intro ⟨there, back⟩
  have closed (first second : PredicateName)
      (either : first ∈ new ++ [v] ∨ first ∈ during.sccs.flatten) (depends : Depends adj first second) :
      second ∈ new ++ [v] ∨ second ∈ during.sccs.flatten := by
    rcases either with inSegment | done
    · exact inside first inSegment second depends
    · exact .inr (exploring.valid.flatten_closed first done second depends)
  apply (closed_of_reaches closed (.inl mem) there).resolve_right
  intro done
  apply exploring.valid.separate u
  · rw [segment.stack, append_cons]
    exact mem_append_left _ mem
  · exact closed_of_reaches
      (fun first second done => exploring.valid.flatten_closed first done second) done back

/-- A predicate that leads to nothing below itself completes its component. -/
theorem complete
    (complete : during.low v = during.number v) : Explored adj path v before (during.close v) := by
  obtain ⟨new, segment⟩ := exploring.explored_segment
  obtain ⟨popped, marks, left⟩ := popUntil_spec new before.stack segment.outside during.onStack
  have number := exploring.number_entered
  have inSegment (u : PredicateName) (mem : u ∈ new ++ [v]) : u ∈ during.stack := by
    rw [segment.stack, append_cons]
    exact mem_append_left _ mem
  have below (u : PredicateName) (mem : u ∈ before.stack) : u ∈ during.stack := exploring.mem_stack mem
  have apart (u : PredicateName) (mem : u ∈ before.stack) : u ∉ new ++ [v] := fun inside => by
    have lower := segment.beneath u mem
    have higher := segment.above u inside
    omega
  have split (u : PredicateName) : u ∈ during.stack ↔ u ∈ new ++ [v] ∨ u ∈ before.stack := by
    rw [segment.stack, append_cons, mem_append]
  rw [← segment.stack] at popped left
  have closed : during.close v =
      { during with
        onStack := (popUntil v during.onStack during.stack).2.1
        stack := before.stack
        sccs := during.sccs ++ [new ++ [v]] } := by
    rw [close, if_pos complete]
    simp only [popped, left]
  rw [closed]
  have flatten (u : PredicateName) : u ∈ (during.sccs ++ [new ++ [v]]).flatten ↔
      u ∈ during.sccs.flatten ∨ u ∈ new ++ [v] := by
    rw [flatten_append, mem_append, flatten_singleton]
  have valid : SccState.Valid adj path { during with
      onStack := (popUntil v during.onStack during.stack).2.1
      stack := before.stack
      sccs := during.sccs ++ [new ++ [v]] } := by
    refine ⟨?_, ?_, ?_, ?_, ?_, exploring.started.active, ?_, ?_, ?_, ?_, ?_, ?_, ?_⟩
    · intro u
      change during.Known u ↔ u ∈ before.stack ∨ u ∈ (during.sccs ++ [new ++ [v]]).flatten
      rw [exploring.valid.known, split, flatten]
      tauto
    · have descending := exploring.valid.descending
      rw [segment.stack, append_cons, pairwise_append] at descending
      exact descending.2.1
    · exact fun u mem => exploring.valid.below u (below u mem)
    · intro u
      rw [segment.stack, marks, exploring.valid.marked, split]
      constructor
      · exact fun ⟨outside, either⟩ => either.resolve_left outside
      · exact fun mem => ⟨apart u mem, .inr mem⟩
    · intro u mem
      rw [flatten, not_or]
      exact ⟨exploring.valid.separate u (below u mem), apart u mem⟩
    · intro u known outside w depends
      by_cases same : u = v
      · exact segment.known u (mem_append_right new (mem_singleton.mpr same)) w depends
      · exact exploring.valid.finished u known (by simp [same, outside]) w depends
    · intro x active y mem
      exact exploring.valid.descends x (mem_cons_of_mem v active) y (below y mem)
    · intro y mem
      obtain ⟨x, active, order, climb⟩ := exploring.valid.ascends y (below y mem)
      have lower := segment.beneath y mem
      rcases mem_cons.mp active with same | active
      · rw [same] at order
        omega
      · exact ⟨x, active, order, climb⟩
    · intro scc listed u mem
      rcases mem_append.mp listed with old | last
      · exact exploring.valid.components scc old u mem
      rw [mem_singleton] at last
      subst last
      exact (exploring.complete_components segment complete mem).2
    · intro scc listed
      rcases mem_append.mp listed with old | last
      · exact exploring.valid.nonempty scc old
      · rw [mem_singleton.mp last]
        simp
    · apply pairwise_append.mpr
      refine ⟨exploring.valid.distinct, pairwise_singleton _ _, ?_⟩
      intro scc old last listed u mem inside
      rw [mem_singleton.mp listed] at inside
      exact exploring.valid.separate u (inSegment u inside) (mem_flatten_of_mem old mem)
    · intro first scc rest parts u mem w depends
      rcases eq_nil_or_concat rest with empty | ⟨rest', last, longer⟩
      · rw [empty] at parts
        obtain ⟨same, same'⟩ := append_inj' parts rfl
        cases same'
        rw [← same]
        exact (exploring.complete_components segment complete mem).1 w depends
      rw [longer, concat_eq_append, ← cons_append, ← append_assoc] at parts
      obtain ⟨same, _⟩ := append_inj' parts rfl
      exact exploring.valid.ordered first scc rest' same u mem w depends
  refine ⟨valid, ⟨exploring.grows.numbers, exploring.grows.lowlinks, exploring.grows.index⟩,
    exploring.known_entered, exploring.reached, ⟨[], rfl, fun _ absent => absurd absent not_mem_nil⟩, .inl ?_⟩
  change before.index ≤ during.low v
  rw [complete, number]

theorem close : Explored adj path v before (during.close v) := by
  by_cases complete : during.low v = during.number v
  · exact exploring.complete complete
  rw [SccState.close, if_neg complete]
  exact exploring.leave complete

end

end Exploring

instance (state : SccState) (pred : PredicateName) : Decidable (state.Known pred) :=
  inferInstanceAs (Decidable (_ = true))

/-- The number of predicates without a number. -/
def remaining (preds : List PredicateName) (state : SccState) : Nat :=
  preds.countP fun pred => ¬ state.Known pred

theorem remaining_lt {before after : SccState} (grows : Grows before after)
    {preds : List PredicateName} {v : PredicateName} (mem : v ∈ preds) (fresh : ¬ before.Known v)
    (known : after.Known v) : after.remaining preds < before.remaining preds := by
  have fewer (part : List PredicateName) : after.remaining part ≤ before.remaining part := by
    apply countP_mono_left
    intro pred _ unknown
    rw [decide_eq_true_eq] at unknown ⊢
    exact fun old => unknown (grows.known old)
  obtain ⟨first, last, split⟩ := append_of_mem mem
  have left := fewer first
  have right := fewer last
  have fewest : after.remaining (v :: last) = after.remaining last := by
    apply countP_cons_of_neg
    rw [decide_eq_true_eq]
    exact fun unknown => unknown known
  have more : before.remaining (v :: last) = before.remaining last + 1 := by
    apply countP_cons_of_pos
    rwa [decide_eq_true_eq]
  unfold remaining at *
  rw [split, countP_append, countP_append]
  omega

theorem isNone_iff (state : SccState) (pred : PredicateName) :
    (state.indexOf.get pred).isNone ↔ ¬ state.Known pred := by
  rw [Known, Option.isNone_iff_eq_none, Option.not_isSome_iff_eq_none]

theorem Exploring.leads {adj : Adjacency} {path : List PredicateName} {v : PredicateName}
    {done : List (PredicateName × Bool)} {before during : SccState}
    (exploring : Exploring adj path v done before during) :
    ∀ x ∈ v :: path, Reaches adj x v := by
  intro x active
  apply exploring.valid.descends x active v (exploring.valid.active v mem_cons_self)
  rcases mem_cons.mp active with same | older
  · rw [same]
  have inStack := exploring.started.active x older
  have lower := exploring.started.below x inStack
  rw [exploring.number_entered, exploring.number_below inStack]
  exact le_of_lt lower

end SccState

open SccState

variable {adj : Adjacency} {preds : List PredicateName}

/-- Each call has the fuel for the predicates that are left to number. -/
theorem strong_explored (closed : ∀ u w, Depends adj u w → w ∈ preds) (fuel : Nat)
    (v : PredicateName) (path : List PredicateName) (before : SccState)
    (valid : before.Valid adj path) (mem : v ∈ preds) (fresh : ¬ before.Known v)
    (leads : ∀ x ∈ path, Reaches adj x v) (enough : before.remaining preds ≤ fuel) :
    Explored adj path v before (strong adj fuel v before) := by
  induction fuel generalizing v path before with
  | zero =>
    have fewer := remaining_lt (grows_enter fresh) mem fresh
      ((known_enter before v v).mpr (.inl rfl))
    omega
  | succ fuel ih =>
    apply Exploring.close
    have folded (todo done : List (PredicateName × Bool)) (during : SccState)
        (split : edgesOf adj v = done ++ todo)
        (exploring : Exploring adj path v done before during) :
        Exploring adj path v (edgesOf adj v) before (todo.foldl (fun state edge =>
          if (state.indexOf.get edge.1).isNone then
            let explored := strong adj fuel edge.1 state
            explored.lower v (explored.low edge.1)
          else if edge.1 ∈ state.onStack.members then state.lower v (state.number edge.1)
          else state) during) := by
      induction todo generalizing done during with
      | nil =>
        rw [append_nil] at split
        rwa [split]
      | cons edge todo rest =>
        have listed : edge ∈ edgesOf adj v := by
          rw [split]
          exact mem_append_right done mem_cons_self
        have shifted : edgesOf adj v = done ++ [edge] ++ todo := by rw [split, ← append_cons]
        have fewer := remaining_lt exploring.grows mem fresh exploring.known_entered
        rw [foldl_cons]
        apply rest (done ++ [edge]) _ shifted
        split
        · rename_i unknown
          have new := (isNone_iff during edge.1).mp unknown
          apply exploring.call listed new
          apply ih edge.1 (v :: path) during exploring.valid
            (closed v edge.1 ⟨edge.2, listed⟩) new _ (by omega)
          exact fun x active => (exploring.leads x active).tail ⟨edge.2, listed⟩
        rename_i numbered
        rw [isNone_iff, not_not] at numbered
        split
        · rename_i marked
          exact exploring.lower listed ((exploring.valid.marked _).mp marked)
        rename_i unmarked
        exact exploring.skip numbered fun inStack => unmarked ((exploring.valid.marked _).mpr inStack)
    exact folded (edgesOf adj v) [] (before.enter v) rfl (valid.enter_exploring fresh leads)

theorem start_valid (adj : Adjacency) : ({} : SccState).Valid adj [] := by
  have unknown (u : PredicateName) : ¬ ({} : SccState).Known u := by
    change ¬ ((∅ : Dict PredicateName Nat).get u).isSome
    rw [Dict.get_empty]
    exact Bool.false_ne_true
  refine ⟨?_, List.Pairwise.nil, ?_, ?_, ?_, ?_, ?_, ?_, ?_, ?_, ?_, List.Pairwise.nil, ?_⟩
  · intro u
    apply iff_of_false (unknown u)
    simp
  · exact fun _ absent => absurd absent not_mem_nil
  · exact fun _ => Iff.rfl
  · exact fun _ absent => absurd absent not_mem_nil
  · exact fun _ absent => absurd absent not_mem_nil
  · exact fun u known => absurd known (unknown u)
  · exact fun _ absent => absurd absent not_mem_nil
  · exact fun _ absent => absurd absent not_mem_nil
  · exact fun _ absent => absurd absent not_mem_nil
  · exact fun _ absent => absurd absent not_mem_nil
  · intro before scc after split
    simp at split

/-- The components list every predicate once, are the classes of predicates that lead to each
other, and depend on themselves and on earlier components only. -/
structure Condenses (adj : Adjacency) (preds : List PredicateName)
    (sccs : List (List PredicateName)) : Prop where
  covers : ∀ pred, pred ∈ sccs.flatten ↔ pred ∈ preds
  components : ∀ scc ∈ sccs, ∀ u ∈ scc, ∀ w, w ∈ scc ↔ Reaches adj u w ∧ Reaches adj w u
  nonempty : ∀ scc ∈ sccs, scc ≠ []
  distinct : sccs.Pairwise fun first second => ∀ u ∈ first, u ∉ second
  ordered : ∀ before scc after, sccs = before ++ scc :: after →
    ∀ u ∈ scc, ∀ w, Depends adj u w → w ∈ scc ∨ w ∈ before.flatten

theorem computeSccs_condenses (closed : ∀ u w, Depends adj u w → w ∈ preds) :
    Condenses adj preds (computeSccs preds adj) := by
  have folded (todo : List PredicateName) (state : SccState) (inside : todo ⊆ preds)
      (valid : state.Valid adj []) (within : ∀ u, state.Known u → u ∈ preds) :
      let final := todo.foldl (fun state pred =>
        if (state.indexOf.get pred).isNone then strong adj preds.length pred state else state) state
      final.Valid adj [] ∧ (∀ u, final.Known u → u ∈ preds) ∧
        ∀ u, u ∈ todo ∨ state.Known u → final.Known u := by
    induction todo generalizing state with
    | nil => exact ⟨valid, within, by simp⟩
    | cons pred todo ih =>
      have mem := inside mem_cons_self
      have later := fun other listed => inside (mem_cons_of_mem pred (a := other) listed)
      rw [foldl_cons]
      split
      · rename_i unknown
        have explored := strong_explored closed preds.length pred [] state valid mem
          ((isNone_iff state pred).mp unknown) (fun _ absent => absurd absent not_mem_nil)
          countP_le_length
        obtain ⟨valid', within', known'⟩ := ih (strong adj preds.length pred state) later
          explored.valid (by
            intro u known
            rcases explored.reached u known with old | new
            · exact within u old
            · exact closed_of_reaches (fun first second _ depends => closed first second depends)
                mem new)
        refine ⟨valid', within', ?_⟩
        intro u either
        apply known' u
        rcases either with listed | old
        · rcases mem_cons.mp listed with same | listed
          · rw [same]
            exact .inr explored.known
          · exact .inl listed
        · exact .inr (explored.grows.known old)
      rename_i numbered
      rw [isNone_iff, not_not] at numbered
      obtain ⟨valid', within', known'⟩ := ih state later valid within
      refine ⟨valid', within', ?_⟩
      intro u either
      apply known' u
      rcases either with listed | old
      · rcases mem_cons.mp listed with same | listed
        · rw [same]
          exact .inr numbered
        · exact .inl listed
      · exact .inr old
  obtain ⟨valid, within, known⟩ := folded preds {} (fun _ listed => listed) (start_valid adj)
    (fun u known => by simp [SccState.Known] at known)
  unfold computeSccs
  generalize preds.foldl _ _ = final at *
  have empty : final.stack = [] := by
    apply eq_nil_iff_forall_not_mem.mpr
    intro y inStack
    obtain ⟨x, active, _⟩ := valid.ascends y inStack
    exact absurd active not_mem_nil
  refine ⟨?_, valid.components, valid.nonempty, valid.distinct, valid.ordered⟩
  intro pred
  have listed := valid.known pred
  rw [empty] at listed
  constructor
  · exact fun done => within pred (listed.mpr (.inr done))
  · exact fun mem => (listed.mp (known pred (.inl mem))).resolve_left not_mem_nil

end Codegraph.Strata
