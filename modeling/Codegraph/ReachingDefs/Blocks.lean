import Codegraph.Ir.Model
import Codegraph.Library.Iteration
import Codegraph.Library.Positions
import Codegraph.Library.Walks

namespace Codegraph

open Library Relation List

/-- Control leaves the block after a branch, jump or return. -/
def IrOp.endsBlock : IrOp → Bool
  | .branch _ _ | .jump _ | .ret _ => true
  | _ => false

def IrOp.isLabel : IrOp → Bool
  | .label _ => true
  | _ => false

/-- Block `b` holds the operations from its start up to the next start. -/
structure Blocks where
  starts : List Nat
  len : Nat
  succs : List (List Nat)
  preds : List (List Nat)
  reached : List Bool
deriving DecidableEq

namespace Blocks

/-- The leaders are the first operation, every label, and what follows a jump. -/
def isLeader (body : List IrOp) (index : Nat) : Bool :=
  index = 0 || (body[index]?.map IrOp.isLabel).getD false ||
    (index ≠ 0 && (body[index - 1]?.map IrOp.endsBlock).getD false)

def startsOf (body : List IrOp) : List Nat := (List.range body.length).filter (isLeader body)

def blockCount (blocks : Blocks) : Nat := blocks.starts.length

/-- A block ends where the next one starts. -/
def endOf (blocks : Blocks) (block : Nat) : Nat := blocks.starts.getD (block + 1) blocks.len

def startOf (blocks : Blocks) (block : Nat) : Nat := blocks.starts.getD block 0

/-- The operation indices of a block. -/
def range (blocks : Blocks) (block : Nat) : List Nat :=
  List.range' (blocks.startOf block) (blocks.endOf block - blocks.startOf block)

/-- The block that holds an operation is found by binary search. -/
def blockOf (blocks : Blocks) (op : Nat) : Option Nat :=
  if blocks.len ≤ op then none
  else
    match upTo blocks.starts op with
    | 0 => none
    | next + 1 => some next

def succsOf (blocks : Blocks) (block : Nat) : List Nat := blocks.succs.getD block []

def predsOf (blocks : Blocks) (block : Nat) : List Nat := blocks.preds.getD block []

def reachable (blocks : Blocks) (block : Nat) : Bool := blocks.reached.getD block false

/-- The block a label leads to. -/
def targetBlock (blocks : Blocks) (func : IrFunction) (label : Label) : Option Nat :=
  (func.labels.get label).bind blocks.blockOf

def fallthrough (blocks : Blocks) (block : Nat) : Option Nat :=
  if block + 1 < blocks.blockCount then some (block + 1) else none

/-- A branch on a constant condition keeps only the edge it takes. -/
def targetsOf (blocks : Blocks) (func : IrFunction) (constants : Dict Nat Bool) (block : Nat) : List Nat :=
  let last := blocks.endOf block - 1
  match func.body[last]? with
  | some (.jump target) => (blocks.targetBlock func target).toList
  | some (.branch _ target) =>
    let taken := constants.get last
    (if taken ≠ some false then (blocks.targetBlock func target).toList else []) ++
      (if taken ≠ some true then (blocks.fallthrough block).toList else [])
  | some (.ret _) => []
  | _ => (blocks.fallthrough block).toList

def edgesOf (blocks : Blocks) (func : IrFunction) (constants : Dict Nat Bool) : List (Nat × Nat) :=
  (List.range blocks.blockCount).flatMap fun block =>
    (blocks.targetsOf func constants block).map fun target => (block, target)

/-- An edge is recorded once, at both of its ends. -/
def addEdge (blocks : Blocks) (edge : Nat × Nat) : Blocks :=
  if edge.2 ∈ blocks.succsOf edge.1 then blocks
  else
    { blocks with
      succs := blocks.succs.modify edge.1 fun list => list ++ [edge.2]
      preds := blocks.preds.modify edge.2 fun list => list ++ [edge.1] }

/-- The depth-first search marks a block when it leaves the stack. -/
def reachStep (blocks : Blocks) : List Nat × List Bool → Option (List Nat × List Bool)
  | ([], _) => none
  | (block :: stack, marks) =>
    if marks.getD block false then some (stack, marks)
    else some ((blocks.succsOf block).reverse ++ stack, marks.set block true)

def reachStart (blocks : Blocks) : List Nat × List Bool :=
  (if 0 < blocks.blockCount then [0] else [], List.replicate blocks.blockCount false)

/-- The fuel pays for every block and every edge. -/
def markReachable (blocks : Blocks) : Blocks :=
  { blocks with
    reached := (loop blocks.reachStep (worklistMeasure blocks.blockCount blocks.blockCount 1)
      blocks.reachStart).2 }

def layout (func : IrFunction) : Blocks :=
  let starts := startsOf func.body
  { starts := starts
    len := func.body.length
    succs := List.replicate starts.length []
    preds := List.replicate starts.length []
    reached := List.replicate starts.length false }

def linked (func : IrFunction) (constants : Dict Nat Bool) : Blocks :=
  ((layout func).edgesOf func constants).foldl addEdge (layout func)

/-- The constants say which branches are always or never taken. -/
def build (func : IrFunction) (constants : Dict Nat Bool) : Blocks :=
  (linked func constants).markReachable

theorem startsOf_sorted (body : List IrOp) : (startsOf body).Pairwise (· < ·) :=
  pairwise_lt_range.filter _

theorem mem_startsOf {body : List IrOp} {index : Nat} :
    index ∈ startsOf body ↔ index < body.length ∧ isLeader body index = true := by
  simp [startsOf]

variable {blocks : Blocks}

theorem startOf_eq {block : Nat} (inside : block < blocks.starts.length) :
    blocks.startOf block = blocks.starts[block] := by
  rw [startOf, getD_eq_getElem?_getD, getElem?_eq_getElem inside, Option.getD_some]

theorem endOf_eq {block : Nat} (next : block + 1 < blocks.starts.length) :
    blocks.endOf block = blocks.starts[block + 1] := by
  rw [endOf, getD_eq_getElem?_getD, getElem?_eq_getElem next, Option.getD_some]

theorem endOf_last {block : Nat} (last : blocks.starts.length ≤ block + 1) :
    blocks.endOf block = blocks.len := by
  rw [endOf, getD_eq_getElem?_getD, getElem?_eq_none last, Option.getD_none]

theorem blockOf_eq_some (sorted : blocks.starts.Pairwise (· < ·)) {op block : Nat} :
    blocks.blockOf op = some block ↔ op < blocks.len ∧ block < blocks.blockCount ∧
      blocks.startOf block ≤ op ∧ op < blocks.endOf block := by
  have searched : blocks.blockOf op = some block ↔ op < blocks.len ∧ upTo blocks.starts op = block + 1 := by
    unfold blockOf
    by_cases outside : blocks.len ≤ op
    · simp [outside, not_lt.mpr outside]
    · rw [if_neg outside]
      cases upTo blocks.starts op <;> simp [not_le.mp outside]
  rw [searched]
  constructor
  · rintro ⟨within, ended⟩
    have inside : block < blocks.starts.length := by
      have := upTo_le_length blocks.starts op
      omega
    have below := (getElem_le_iff_lt_upTo sorted op block inside).mpr (by omega)
    refine ⟨within, inside, ?_, ?_⟩
    · rwa [startOf_eq inside]
    by_cases next : block + 1 < blocks.starts.length
    · have above := mt (getElem_le_iff_lt_upTo sorted op (block + 1) next).mp (by omega)
      rw [endOf_eq next]
      omega
    · rwa [endOf_last (Nat.le_of_not_lt next)]
  rintro ⟨within, inside, below, above⟩
  have inside' : block < blocks.starts.length := inside
  refine ⟨within, upTo_eq_succ sorted inside' ?_ fun next => ?_⟩
  · rwa [← startOf_eq inside']
  · rwa [← endOf_eq next]

/-- The graph records each edge once at both ends, between existing blocks. -/
structure Linked (blocks : Blocks) : Prop where
  succsLength : blocks.succs.length = blocks.blockCount
  predsLength : blocks.preds.length = blocks.blockCount
  mirrored : ∀ first second, second ∈ blocks.succsOf first ↔ first ∈ blocks.predsOf second
  nodup : ∀ block, (blocks.succsOf block).Nodup
  bounded : ∀ first second, second ∈ blocks.succsOf first → second < blocks.blockCount

theorem addEdge_succsOf_new (linked : blocks.Linked) {edge : Nat × Nat}
    (source : edge.1 < blocks.blockCount) (absent : edge.2 ∉ blocks.succsOf edge.1) (block : Nat) :
    (blocks.addEdge edge).succsOf block =
      blocks.succsOf block ++ if edge.1 = block then [edge.2] else [] := by
  rw [addEdge, if_neg absent]
  exact getD_modify_append _ _ _ _ (linked.succsLength.symm ▸ source)

theorem addEdge_predsOf_new (linked : blocks.Linked) {edge : Nat × Nat}
    (target : edge.2 < blocks.blockCount) (absent : edge.2 ∉ blocks.succsOf edge.1) (block : Nat) :
    (blocks.addEdge edge).predsOf block =
      blocks.predsOf block ++ if edge.2 = block then [edge.1] else [] := by
  rw [addEdge, if_neg absent]
  exact getD_modify_append _ _ _ _ (linked.predsLength.symm ▸ target)

theorem addEdge_succsOf (linked : blocks.Linked) {edge : Nat × Nat}
    (source : edge.1 < blocks.blockCount) (first second : Nat) :
    second ∈ (blocks.addEdge edge).succsOf first ↔
      second ∈ blocks.succsOf first ∨ (first, second) = edge := by
  by_cases present : edge.2 ∈ blocks.succsOf edge.1
  · rw [addEdge, if_pos present]
    constructor
    · exact .inl
    rintro (mem | rfl)
    · exact mem
    · exact present
  rw [addEdge_succsOf_new linked source present, mem_append, Prod.ext_iff]
  by_cases same : edge.1 = first
  · simp [same]
  · simp [same, Ne.symm same]

theorem addEdge_linked (linked : blocks.Linked) {edge : Nat × Nat}
    (source : edge.1 < blocks.blockCount) (target : edge.2 < blocks.blockCount) :
    (blocks.addEdge edge).Linked := by
  by_cases present : edge.2 ∈ blocks.succsOf edge.1
  · simpa [addEdge, present] using linked
  have successors := addEdge_succsOf linked source
  have count : (blocks.addEdge edge).blockCount = blocks.blockCount := by
    rw [addEdge, if_neg present]; rfl
  refine ⟨?_, ?_, ?_, ?_, ?_⟩
  · rw [count, addEdge, if_neg present]
    simpa using linked.succsLength
  · rw [count, addEdge, if_neg present]
    simpa using linked.predsLength
  · intro first second
    rw [successors, linked.mirrored, addEdge_predsOf_new linked target present, mem_append, Prod.ext_iff]
    by_cases same : edge.2 = second
    · simp [same]
    · simp [same, Ne.symm same]
  · intro block
    rw [addEdge_succsOf_new linked source present]
    by_cases same : edge.1 = block
    · subst same
      rw [if_pos rfl, nodup_append]
      refine ⟨linked.nodup _, nodup_singleton _, ?_⟩
      intro mem found other single
      rw [mem_singleton.mp single]
      rintro rfl
      exact present found
    · simpa [same] using linked.nodup block
  · intro first second mem
    rw [count]
    rcases (successors first second).mp mem with old | new
    · exact linked.bounded first second old
    · rwa [← new] at target

@[simp] theorem addEdge_starts (blocks : Blocks) (edge : Nat × Nat) :
    (blocks.addEdge edge).starts = blocks.starts := by unfold addEdge; split <;> rfl

@[simp] theorem addEdge_len (blocks : Blocks) (edge : Nat × Nat) :
    (blocks.addEdge edge).len = blocks.len := by unfold addEdge; split <;> rfl

/-- Adding the edges in turn records exactly them. -/
theorem foldl_addEdge (linked : blocks.Linked) (edges : List (Nat × Nat))
    (inside : ∀ edge ∈ edges, edge.1 < blocks.blockCount ∧ edge.2 < blocks.blockCount) :
    (edges.foldl addEdge blocks).Linked ∧ (edges.foldl addEdge blocks).starts = blocks.starts ∧
      (edges.foldl addEdge blocks).len = blocks.len ∧
      ∀ first second, second ∈ (edges.foldl addEdge blocks).succsOf first ↔
        second ∈ blocks.succsOf first ∨ (first, second) ∈ edges := by
  induction edges generalizing blocks with
  | nil => exact ⟨linked, rfl, rfl, by simp⟩
  | cons edge edges ih =>
    obtain ⟨source, target⟩ := inside edge (by simp)
    have count : (blocks.addEdge edge).blockCount = blocks.blockCount := by simp [blockCount]
    obtain ⟨linked', starts, len, successors⟩ := ih (addEdge_linked linked source target) (by
      intro other mem
      rw [count]
      exact inside other (by simp [mem]))
    refine ⟨linked', by simp [starts], by simp [len], fun first second => ?_⟩
    rw [foldl_cons, successors, addEdge_succsOf linked source]
    simp [or_assoc]

variable (func : IrFunction)

theorem layout_succsOf (block : Nat) : (layout func).succsOf block = [] := replicate_nil_getD _ _

theorem layout_predsOf (block : Nat) : (layout func).predsOf block = [] := replicate_nil_getD _ _

theorem layout_linked : (layout func).Linked := by
  refine ⟨by simp [layout, blockCount], by simp [layout, blockCount], ?_, ?_, ?_⟩ <;>
    simp [layout_succsOf, layout_predsOf]

theorem targetBlock_lt (sorted : blocks.starts.Pairwise (· < ·))
    {func : IrFunction} {label : Label} {block : Nat}
    (found : blocks.targetBlock func label = some block) : block < blocks.blockCount := by
  obtain ⟨index, -, here⟩ := Option.bind_eq_some_iff.mp found
  exact ((blockOf_eq_some sorted).mp here).2.1

theorem fallthrough_eq_some {block next : Nat} :
    blocks.fallthrough block = some next ↔ next = block + 1 ∧ next < blocks.blockCount := by
  unfold fallthrough
  split
  · rename_i inside
    constructor
    · rintro ⟨⟩; exact ⟨rfl, inside⟩
    · rintro ⟨rfl, -⟩; rfl
  rename_i outside
  constructor
  · intro absent; contradiction
  · rintro ⟨rfl, inside⟩; exact absurd inside outside

theorem targetsOf_lt (sorted : blocks.starts.Pairwise (· < ·))
    {func : IrFunction} {constants : Dict Nat Bool} {block target : Nat}
    (mem : target ∈ blocks.targetsOf func constants block) : target < blocks.blockCount := by
  have jump (label : Label) (found : target ∈ (blocks.targetBlock func label).toList) :
      target < blocks.blockCount :=
    targetBlock_lt sorted (Option.mem_toList.mp found)
  have next (found : target ∈ (blocks.fallthrough block).toList) : target < blocks.blockCount :=
    (fallthrough_eq_some.mp (Option.mem_toList.mp found)).2
  unfold targetsOf at mem
  dsimp only at mem
  split at mem
  · exact jump _ mem
  · rcases mem_append.mp mem with taken | fell
    · split at taken
      · exact jump _ taken
      · contradiction
    split at fell
    · exact next fell
    · contradiction
  · contradiction
  · exact next mem

theorem mem_edgesOf {func : IrFunction} {constants : Dict Nat Bool}
    {first second : Nat} : (first, second) ∈ blocks.edgesOf func constants ↔
      first < blocks.blockCount ∧ second ∈ blocks.targetsOf func constants first := by
  simp [edgesOf]

theorem linked_spec (constants : Dict Nat Bool) :
    (linked func constants).Linked ∧ (linked func constants).starts = startsOf func.body ∧
      (linked func constants).len = func.body.length ∧
      ∀ first second, second ∈ (linked func constants).succsOf first ↔ first < (layout func).blockCount ∧
          second ∈ (layout func).targetsOf func constants first := by
  have sorted := startsOf_sorted func.body
  obtain ⟨linked', starts, len, successors⟩ := foldl_addEdge (layout_linked func)
    ((layout func).edgesOf func constants) (by
      rintro ⟨first, second⟩ mem
      obtain ⟨inside, target⟩ := mem_edgesOf.mp mem
      exact ⟨inside, targetsOf_lt sorted target⟩)
  refine ⟨linked', starts, len, fun first second => ?_⟩
  rw [linked, successors, mem_edgesOf, layout_succsOf]
  simp

def edge (blocks : Blocks) (first second : Nat) : Prop := second ∈ blocks.succsOf first

/-- The search has marked only reachable blocks and still holds what the marked ones lead to. -/
structure Reaching (blocks : Blocks) (search : List Nat × List Bool) : Prop where
  marksLength : search.2.length = blocks.blockCount
  sound : ∀ block, search.2.getD block false = true ∨ block ∈ search.1 →
    block < blocks.blockCount ∧ ReflTransGen blocks.edge 0 block
  closed : ∀ first second, search.2.getD first false = true → blocks.edge first second →
    search.2.getD second false = true ∨ second ∈ search.1
  root : 0 < blocks.blockCount → search.2.getD 0 false = true ∨ 0 ∈ search.1

theorem getD_set_true (marks : List Bool) (block other : Nat) (inside : block < marks.length) :
    (marks.set block true).getD other false = true ↔ other = block ∨ marks.getD other false = true := by
  rw [getD_eq_getElem?_getD, getD_eq_getElem?_getD, getElem?_set]
  by_cases same : block = other
  · simp [same, same ▸ inside]
  · simp [same, Ne.symm same]

theorem reachStart_reaching (blocks : Blocks) : blocks.Reaching blocks.reachStart := by
  have unmarked (block : Nat) : (List.replicate blocks.blockCount false).getD block false = false := by
    rw [getD_eq_getElem?_getD, getElem?_replicate]
    split <;> rfl
  refine ⟨by simp [reachStart], ?_, ?_, ?_⟩
  · intro block found
    simp only [reachStart, unmarked] at found
    by_cases some : 0 < blocks.blockCount
    · simp only [if_pos some, mem_singleton, Bool.false_eq_true, false_or] at found
      subst found
      exact ⟨some, ReflTransGen.refl⟩
    · simp [some] at found
  · intro first second marked
    rw [reachStart, unmarked] at marked
    contradiction
  · intro some
    exact .inr (by simp [reachStart, some])

theorem reachStep_reaching (linked : blocks.Linked)
    (before after : List Nat × List Bool) (reaching : blocks.Reaching before)
    (moved : blocks.reachStep before = some after) : blocks.Reaching after := by
  obtain ⟨stack, marks⟩ := before
  cases stack with
  | nil => simp [reachStep] at moved
  | cons block stack =>
    obtain ⟨inside, reached⟩ := reaching.sound block (.inr (by simp))
    by_cases marked : marks.getD block false = true
    · obtain rfl : (stack, marks) = after := by simpa [reachStep, ← getD_eq_getElem?_getD, marked] using moved
      refine ⟨reaching.marksLength, ?_, ?_, ?_⟩
      · intro other found
        exact reaching.sound other (found.imp_right fun mem => by simp [mem])
      · intro first second old next
        rcases reaching.closed first second old next with marked' | mem
        · exact .inl marked'
        rcases mem_cons.mp mem with rfl | mem
        · exact .inl marked
        · exact .inr mem
      intro some
      rcases reaching.root some with marked' | mem
      · exact .inl marked'
      rcases mem_cons.mp mem with rfl | mem
      · exact .inl marked
      · exact .inr mem
    obtain rfl : ((blocks.succsOf block).reverse ++ stack, marks.set block true) = after := by
      simpa [reachStep, ← getD_eq_getElem?_getD, marked] using moved
    have inMarks := reaching.marksLength.symm ▸ inside
    have marks' (other : Nat) := getD_set_true marks block other inMarks
    refine ⟨by simpa using reaching.marksLength, ?_, ?_, ?_⟩
    · intro other found
      simp only [marks', mem_append, mem_reverse] at found
      rcases found with (rfl | old) | next | mem
      · exact ⟨inside, reached⟩
      · exact reaching.sound other (.inl old)
      · exact ⟨linked.bounded block other next, reached.tail next⟩
      · exact reaching.sound other (.inr (by simp [mem]))
    · intro first second old next
      simp only [marks', mem_append, mem_reverse] at old ⊢
      rcases old with rfl | old
      · exact .inr (.inl next)
      rcases reaching.closed first second old next with marked' | mem
      · exact .inl (.inr marked')
      rcases mem_cons.mp mem with rfl | mem
      · exact .inl (.inl rfl)
      · exact .inr (.inr mem)
    intro some
    simp only [marks', mem_append, mem_reverse]
    rcases reaching.root some with marked' | mem
    · exact .inl (.inr marked')
    rcases mem_cons.mp mem with same | mem
    · exact .inl (.inl same)
    · exact .inr (.inr mem)

/-- The capacity of the search is the number of unmarked blocks. -/
def reachMeasure (blocks : Blocks) (search : List Nat × List Bool) : Nat :=
  worklistMeasure blocks.blockCount (search.2.countP (!·)) search.1.length

theorem succsOf_length_le (linked : blocks.Linked) (block : Nat) :
    (blocks.succsOf block).length ≤ blocks.blockCount := by
  have inside : blocks.succsOf block ⊆ List.range blocks.blockCount := fun next mem =>
    List.mem_range.mpr (linked.bounded block next mem)
  simpa using (subperm_of_subset (linked.nodup block) inside).length_le

theorem reachStep_falls (linked : blocks.Linked)
    (before after : List Nat × List Bool) (reaching : blocks.Reaching before)
    (moved : blocks.reachStep before = some after) :
    blocks.reachMeasure after < blocks.reachMeasure before := by
  obtain ⟨stack, marks⟩ := before
  cases stack with
  | nil => simp [reachStep] at moved
  | cons block stack =>
    have inMarks := reaching.marksLength.symm ▸ (reaching.sound block (.inr (by simp))).1
    by_cases marked : marks.getD block false = true
    · obtain rfl : (stack, marks) = after := by simpa [reachStep, ← getD_eq_getElem?_getD, marked] using moved
      exact worklistMeasure_idle (le_refl _) (by simp)
    obtain rfl : ((blocks.succsOf block).reverse ++ stack, marks.set block true) = after := by
      simpa [reachStep, ← getD_eq_getElem?_getD, marked] using moved
    have unmarked : marks[block] = false := by
      rw [getD_eq_getElem?_getD, getElem?_eq_getElem inMarks] at marked
      simpa using marked
    have positive : 0 < marks.countP (!·) :=
      countP_pos_iff.mpr ⟨_, getElem_mem inMarks, by simp [unmarked]⟩
    apply worklistMeasure_productive
    · rw [countP_set inMarks]
      simp [unmarked, positive]
    have := succsOf_length_le linked block
    simp only [length_append, length_reverse, length_cons]
    omega

theorem markReachable_reachable (linked : blocks.Linked) (block : Nat) :
    blocks.markReachable.reachable block = true ↔
      0 < blocks.blockCount ∧ ReflTransGen blocks.edge 0 block := by
  have halts := halts_loop (reachStep_reaching linked) (reachStep_falls linked)
    (worklistMeasure blocks.blockCount blocks.blockCount 1) blocks.reachStart
    (reachStart_reaching blocks) (by
      have short : (if 0 < blocks.blockCount then [0] else []).length ≤ 1 := by split <;> simp
      simpa [reachMeasure, reachStart, worklistMeasure, countP_replicate] using short)
  have final := halts.preserves (reachStep_reaching linked) (reachStart_reaching blocks)
  have ended := halts.ended
  change (loop blocks.reachStep _ blocks.reachStart).2.getD block false = true ↔ _
  generalize loop blocks.reachStep _ blocks.reachStart = search at final ended
  obtain ⟨stack, marks⟩ := search
  have drained : stack = [] := by
    cases stack with
    | nil => rfl
    | cons block stack =>
      simp only [reachStep] at ended
      split at ended <;> contradiction
  subst drained
  constructor
  · intro marked
    obtain ⟨inside, reached⟩ := final.sound block (.inl marked)
    exact ⟨by omega, reached⟩
  rintro ⟨some, reached⟩
  have root : marks.getD 0 false = true := by simpa using final.root some
  have closed (first second : Nat) (marked : marks.getD first false = true)
      (next : blocks.edge first second) : marks.getD second false = true := by
    simpa using final.closed first second marked next
  exact @closed_of_reaches Nat blocks.edge (fun block => marks.getD block false = true) 0 block
    closed root reached

theorem markReachable_linked (linked : blocks.Linked) : blocks.markReachable.Linked :=
  ⟨linked.succsLength, linked.predsLength, linked.mirrored, linked.nodup, linked.bounded⟩

section

variable (constants : Dict Nat Bool)
include constants

theorem build_linked : (build func constants).Linked := markReachable_linked (linked_spec func constants).1

@[simp] theorem build_starts :
    (build func constants).starts = startsOf func.body := (linked_spec func constants).2.1

@[simp] theorem build_len :
    (build func constants).len = func.body.length := (linked_spec func constants).2.2.1

theorem build_sorted : (build func constants).starts.Pairwise (· < ·) := by
  rw [build_starts]
  exact startsOf_sorted func.body

theorem build_reachable (block : Nat) : (build func constants).reachable block = true ↔
      0 < (build func constants).blockCount ∧ ReflTransGen (build func constants).edge 0 block :=
  markReachable_reachable (linked_spec func constants).1 block

end

end Blocks

end Codegraph
