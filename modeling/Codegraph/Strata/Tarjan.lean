import Codegraph.Library.Dict
import Codegraph.Library.ListSet
import Codegraph.Library.Walks

namespace Codegraph.Strata

open Library Relation List Dict

abbrev PredicateName := String

/-- The head holds when the positive predicates do and the negated ones do not. -/
structure Rule where
  head : PredicateName
  pos : List PredicateName := []
  neg : List PredicateName := []
deriving DecidableEq

inductive StrataError where
  | negationCycle (predicate : PredicateName)
deriving DecidableEq

/-- The bodies that each head depends on, with the mark of a negated one. -/
abbrev Adjacency := Dict PredicateName (List (PredicateName × Bool))

def allPreds (rules : List Rule) : ListSet PredicateName :=
  rules.foldl (fun preds rule => (preds.insert rule.head).extend (rule.pos ++ rule.neg)) .empty

def adjacency (rules : List Rule) : Adjacency :=
  rules.foldl (fun adj rule => adj.update rule.head [] fun entry =>
    entry ++ rule.pos.map (fun body => (body, false)) ++ rule.neg.map fun body => (body, true)) ∅

def edgesOf (adj : Adjacency) (pred : PredicateName) : List (PredicateName × Bool) := adj.getD pred []

/-- The first predicate of the stack is its top. -/
structure SccState where
  indexOf : Dict PredicateName Nat := ∅
  lowlink : Dict PredicateName Nat := ∅
  onStack : ListSet PredicateName := .empty
  stack : List PredicateName := []
  index : Nat := 0
  sccs : List (List PredicateName) := []

namespace SccState

def number (state : SccState) (pred : PredicateName) : Nat := state.indexOf.getD pred 0

def low (state : SccState) (pred : PredicateName) : Nat := state.lowlink.getD pred 0

def enter (state : SccState) (v : PredicateName) : SccState where
  indexOf := state.indexOf.set v state.index
  lowlink := state.lowlink.set v state.index
  onStack := state.onStack.insert v
  stack := v :: state.stack
  index := state.index + 1
  sccs := state.sccs

def lower (state : SccState) (v : PredicateName) (bound : Nat) : SccState :=
  { state with lowlink := state.lowlink.set v (min (state.low v) bound) }

/-- The predicates above one on the stack are popped with it. -/
def popUntil (v : PredicateName) (onStack : ListSet PredicateName) :
    List PredicateName → List PredicateName × ListSet PredicateName × List PredicateName
  | [] => ([], onStack, [])
  | popped :: stack =>
    if popped = v then ([popped], onStack.erase popped, stack)
    else
      let rest := popUntil v (onStack.erase popped) stack
      (popped :: rest.1, rest.2)

/-- A predicate that reaches nothing below it on the stack completes a component. -/
def close (state : SccState) (v : PredicateName) : SccState :=
  if state.low v = state.number v then
    let popped := popUntil v state.onStack state.stack
    { state with onStack := popped.2.1, stack := popped.2.2, sccs := state.sccs ++ [popped.1] }
  else state

end SccState

/-- A call is made for a predicate without a number, so the fuel pays for each predicate once. -/
def strong (adj : Adjacency) : Nat → PredicateName → SccState → SccState
  | 0, _, state => state
  | fuel + 1, v, state =>
    ((edgesOf adj v).foldl (fun state edge =>
      if (state.indexOf.get edge.1).isNone then
        let explored := strong adj fuel edge.1 state
        explored.lower v (explored.low edge.1)
      else if edge.1 ∈ state.onStack.members then state.lower v (state.number edge.1)
      else state) (state.enter v)).close v

def computeSccs (preds : List PredicateName) (adj : Adjacency) : List (List PredicateName) :=
  (preds.foldl (fun state pred =>
    if (state.indexOf.get pred).isNone then strong adj preds.length pred state else state)
    ({} : SccState)).sccs

/-- A component of one predicate is looked up by its only one. -/
def negatedInside (adj : Adjacency) (scc : List PredicateName) : Option PredicateName :=
  if scc.length < 2 then
    scc.head?.filter fun only => (edgesOf adj only).any fun edge => edge.2 && edge.1 = only
  else
    scc.find? fun member => (edgesOf adj member).any fun edge => edge.2 && decide (edge.1 ∈ scc)

def sccOf (sccs : List (List PredicateName)) : Dict PredicateName Nat :=
  sccs.zipIdx.foldl (fun dict scc => scc.1.foldl (fun dict pred => dict.set pred scc.2) dict) ∅

/-- The highest stratum that a component depends on, one higher for a negated dependency. -/
def maxDepStratum (adj : Adjacency) (components : Dict PredicateName Nat) (strata : List Nat)
    (i : Nat) (scc : List PredicateName) : Int :=
  scc.foldl (fun highest member => (edgesOf adj member).foldl (fun highest edge =>
    let bodyScc := components.getD edge.1 0
    if bodyScc = i then highest
    else
      let bumped : Int := strata.getD bodyScc 0 + if edge.2 then 1 else 0
      if bumped > highest then bumped else highest) highest) (-1)

/-- The components are numbered with what they depend on first. -/
def strataOfSccs (adj : Adjacency) (components : Dict PredicateName Nat)
    (sccs : List (List PredicateName)) : List Nat :=
  sccs.zipIdx.foldl (fun strata scc =>
    let highest := maxDepStratum adj components strata scc.2 scc.1
    strata.set scc.2 (if highest < 0 then 0 else highest.toNat))
    (List.replicate sccs.length 0)

/-- The predicates are visited in alphabetical order. -/
def stratify (rules : List Rule) : Except StrataError (Dict PredicateName Nat) :=
  let preds := (allPreds rules).members.mergeSort fun first second => decide (first ≤ second)
  let adj := adjacency rules
  let sccs := computeSccs preds adj
  match sccs.findSome? (negatedInside adj) with
  | some predicate => .error (.negationCycle predicate)
  | none =>
    let components := sccOf sccs
    let strata := strataOfSccs adj components sccs
    .ok (.ofList (preds.map fun pred => (pred, strata.getD (components.getD pred 0) 0)))

def Depends (adj : Adjacency) (head body : PredicateName) : Prop :=
  ∃ negated, (body, negated) ∈ edgesOf adj head

abbrev Reaches (adj : Adjacency) : PredicateName → PredicateName → Prop := ReflTransGen (Depends adj)

namespace SccState

def Known (state : SccState) (pred : PredicateName) : Prop := (state.indexOf.get pred).isSome

/-- The calls of the path have not returned, and the stack holds what reaches one of them. -/
structure Valid (adj : Adjacency) (path : List PredicateName) (state : SccState) : Prop where
  known : ∀ u, state.Known u ↔ u ∈ state.stack ∨ u ∈ state.sccs.flatten
  descending : state.stack.Pairwise fun first second => state.number second < state.number first
  below : ∀ u ∈ state.stack, state.number u < state.index
  marked : ∀ u, u ∈ state.onStack.members ↔ u ∈ state.stack
  separate : ∀ u ∈ state.stack, u ∉ state.sccs.flatten
  active : ∀ x ∈ path, x ∈ state.stack
  finished : ∀ u, state.Known u → u ∉ path → ∀ w, Depends adj u w → state.Known w
  descends : ∀ x ∈ path, ∀ y ∈ state.stack, state.number x ≤ state.number y → Reaches adj x y
  ascends : ∀ y ∈ state.stack, ∃ x ∈ path, state.number x ≤ state.number y ∧ Reaches adj y x
  components : ∀ scc ∈ state.sccs, ∀ u ∈ scc, ∀ w, w ∈ scc ↔ Reaches adj u w ∧ Reaches adj w u
  nonempty : ∀ scc ∈ state.sccs, scc ≠ []
  distinct : state.sccs.Pairwise fun first second => ∀ u ∈ first, u ∉ second
  ordered : ∀ before scc after, state.sccs = before ++ scc :: after →
    ∀ u ∈ scc, ∀ w, Depends adj u w → w ∈ scc ∨ w ∈ before.flatten

/-- The predicates with a number keep it, and their low links stay. -/
structure Grows (before after : SccState) : Prop where
  numbers : ∀ u, before.Known u → after.indexOf.get u = before.indexOf.get u
  lowlinks : ∀ u, before.Known u → after.lowlink.get u = before.lowlink.get u
  index : before.index ≤ after.index

namespace Grows

theorem refl (state : SccState) : Grows state state := ⟨fun _ _ => rfl, fun _ _ => rfl, Nat.le_refl _⟩

theorem known {before after : SccState} (grows : Grows before after) {u : PredicateName}
    (known : before.Known u) : after.Known u := by
  rwa [Known, grows.numbers u known]

theorem trans {first second third : SccState} (left : Grows first second)
    (right : Grows second third) : Grows first third where
  numbers u known := (right.numbers u (left.known known)).trans (left.numbers u known)
  lowlinks u known := (right.lowlinks u (left.known known)).trans (left.lowlinks u known)
  index := le_trans left.index right.index

theorem number {before after : SccState} (grows : Grows before after) {u : PredicateName}
    (known : before.Known u) : after.number u = before.number u := by
  unfold SccState.number Dict.getD
  rw [grows.numbers u known]

theorem low {before after : SccState} (grows : Grows before after) {u : PredicateName}
    (known : before.Known u) : after.low u = before.low u := by
  unfold SccState.low Dict.getD
  rw [grows.lowlinks u known]

end Grows

variable (state : SccState)

variable (v u : PredicateName)

theorem number_enter :
    (state.enter v).number u = if u = v then state.index else state.number u :=
  getD_set _ _ _ _ _

theorem low_enter :
    (state.enter v).low u = if u = v then state.index else state.low u :=
  getD_set _ _ _ _ _

theorem known_enter :
    (state.enter v).Known u ↔ u = v ∨ state.Known u := by
  unfold Known
  change ((state.indexOf.set v state.index).get u).isSome ↔ _
  rw [get_set]
  split
  · rename_i same
    simp [same]
  · rename_i other
    simp [other]

variable {state : SccState}

theorem grows_enter {v : PredicateName} (fresh : ¬ state.Known v) : Grows state (state.enter v) := by
  have other (u : PredicateName) (known : state.Known u) : u ≠ v := fun same => fresh (same ▸ known)
  refine ⟨?_, ?_, Nat.le_succ _⟩
  · intro u known
    exact get_set_ne _ _ (other u known)
  · intro u known
    exact get_set_ne _ _ (other u known)

variable {adj : Adjacency} {path : List PredicateName}

section

variable (valid : state.Valid adj path)
include valid

theorem Valid.known_of_stack {u : PredicateName}
    (mem : u ∈ state.stack) : state.Known u := (valid.known u).mpr (.inl mem)

/-- The stack holds what the calls of the path lead to, so it holds the new call as well. -/
theorem Valid.enter {v : PredicateName} (fresh : ¬ state.Known v) (leads : ∀ x ∈ path, Reaches adj x v) :
    (state.enter v).Valid adj (v :: path) := by
  have other {u : PredicateName} (mem : u ∈ state.stack) : u ≠ v := fun same =>
    fresh (same ▸ valid.known_of_stack mem)
  have old {u : PredicateName} (mem : u ∈ state.stack) : (state.enter v).number u = state.number u := by
    rw [number_enter, if_neg (other mem)]
  have new : (state.enter v).number v = state.index := by rw [number_enter, if_pos rfl]
  refine ⟨?_, ?_, ?_, ?_, ?_, ?_, ?_, ?_, ?_, valid.components, valid.nonempty,
    valid.distinct, valid.ordered⟩
  · intro u
    rw [known_enter, valid.known]
    change _ ↔ u ∈ v :: state.stack ∨ _
    rw [mem_cons, or_assoc]
    rfl
  · change (v :: state.stack).Pairwise _
    rw [pairwise_cons]
    constructor
    · intro u mem
      rw [old mem, new]
      exact valid.below u mem
    apply valid.descending.imp_of_mem
    intro first second mem mem' less
    rwa [old mem, old mem']
  · intro u mem
    rcases mem_cons.mp mem with same | mem
    · rw [same, new]
      exact Nat.lt_succ_self _
    · rw [old mem]
      exact Nat.lt_succ_of_lt (valid.below u mem)
  · intro u
    change u ∈ (state.onStack.insert v).members ↔ u ∈ v :: state.stack
    rw [ListSet.mem_insert, mem_cons, valid.marked]
  · intro u mem
    rcases mem_cons.mp mem with same | mem
    · rw [same]
      exact fun listed => fresh ((valid.known v).mpr (.inr listed))
    · exact valid.separate u mem
  · intro x mem
    rcases mem_cons.mp mem with same | mem
    · rw [same]
      exact mem_cons_self
    · exact mem_cons_of_mem v (valid.active x mem)
  · intro u known outside w depends
    rw [mem_cons, not_or] at outside
    obtain ⟨apart, outside⟩ := outside
    exact (grows_enter fresh).known
      (valid.finished u (((known_enter _ _ _).mp known).resolve_left apart) outside w depends)
  · intro x inPath y inStack order
    rcases mem_cons.mp inPath with same | inPath
    · rcases mem_cons.mp inStack with same' | inStack
      · rw [same, same']
      · rw [same, new, old inStack] at order
        exact absurd (valid.below y inStack) (not_lt.mpr order)
    rcases mem_cons.mp inStack with same | inStack
    · rw [same]
      exact leads x inPath
    · rw [old (valid.active x inPath), old inStack] at order
      exact valid.descends x inPath y inStack order
  · intro y inStack
    rcases mem_cons.mp inStack with same | inStack
    · exact ⟨v, mem_cons_self, by rw [same], by rw [same]⟩
    obtain ⟨x, inPath, order, reaches⟩ := valid.ascends y inStack
    refine ⟨x, mem_cons_of_mem v inPath, ?_, reaches⟩
    rwa [old (valid.active x inPath), old inStack]

/-- A complete component depends on complete components only. -/
theorem Valid.flatten_closed (u : PredicateName)
    (done : u ∈ state.sccs.flatten) (w : PredicateName) (depends : Depends adj u w) :
    w ∈ state.sccs.flatten := by
  obtain ⟨scc, listed, mem⟩ := mem_flatten.mp done
  obtain ⟨before, after, split⟩ := append_of_mem listed
  rw [split, flatten_append, flatten_cons]
  rcases valid.ordered before scc after split u mem w depends with same | earlier
  · exact mem_append_right _ (mem_append_left _ same)
  · exact mem_append_left _ earlier

theorem Valid.lower (v : PredicateName) (bound : Nat) : (state.lower v bound).Valid adj path :=
  { valid with }

end

theorem low_lower (state : SccState) (v : PredicateName) (bound : Nat) :
    (state.lower v bound).low v = min (state.low v) bound := by
  change (state.lowlink.set v _).getD v 0 = _
  rw [getD_set, if_pos rfl]

end SccState

end Codegraph.Strata
