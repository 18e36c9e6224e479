import Codegraph.Library.WorkQueue
import Codegraph.ReachingDefs.Blocks
import Codegraph.ReachingDefs.Consts

namespace Codegraph

open Library List

/-- The set stores its members as bits of 64-bit words. -/
structure BitSet where
  words : List (BitVec 64)
deriving DecidableEq

namespace BitSet

def new (len : Nat) : BitSet := ⟨List.replicate ((len + 63) / 64) 0⟩

def bit (index : Nat) : BitVec 64 := BitVec.twoPow 64 (index % 64)

def insert (set : BitSet) (index : Nat) : BitSet :=
  ⟨set.words.modify (index / 64) fun word => word ||| bit index⟩

def contains (set : BitSet) (index : Nat) : Bool :=
  match set.words[index / 64]? with
  | some word => word &&& bit index ≠ 0
  | none => false

/-- The zip ends with the shorter list and leaves the other words of the first. -/
def zipWords (combine : BitVec 64 → BitVec 64 → BitVec 64) :
    List (BitVec 64) → List (BitVec 64) → List (BitVec 64)
  | word :: words, other :: others => combine word other :: zipWords combine words others
  | words, _ => words

def differenceWith (set other : BitSet) : BitSet :=
  ⟨zipWords (fun word other => word &&& ~~~other) set.words other.words⟩

def unionWith (set other : BitSet) : BitSet :=
  ⟨zipWords (fun word other => word ||| other) set.words other.words⟩

/-- The members are read off the words in ascending order. -/
def iter (set : BitSet) : List Nat := (List.range (64 * set.words.length)).filter set.contains

variable (set : BitSet)

theorem contains_eq_getLsbD (index : Nat) :
    set.contains index = (set.words.getD (index / 64) 0).getLsbD (index % 64) := by
  rw [contains, bit, getD_eq_getElem?_getD]
  have small : index % 64 < 64 := Nat.mod_lt _ (by decide)
  cases set.words[index / 64]? with
  | none => simp
  | some word =>
    simp only [BitVec.and_twoPow, Option.getD_some]
    cases word.getLsbD (index % 64) with
    | false => simp
    | true =>
      have nonzero : BitVec.twoPow 64 (index % 64) ≠ 0#64 := by
        intro zero
        have bits := congrArg (fun word => word.getLsbD (index % 64)) zero
        simp [small] at bits
      simpa using nonzero

@[simp] theorem words_new (len : Nat) : (new len).words.length = (len + 63) / 64 := by simp [new]

@[simp] theorem words_insert (index : Nat) :
    (set.insert index).words.length = set.words.length := by simp [insert]

variable (combine : BitVec 64 → BitVec 64 → BitVec 64)

theorem zipWords_length (words others : List (BitVec 64)) :
    (zipWords combine words others).length = words.length := by
  induction words generalizing others with
  | nil => rfl
  | cons word words ih => cases others <;> simp [zipWords, ih]

@[simp] theorem words_differenceWith (set other : BitSet) :
    (set.differenceWith other).words.length = set.words.length := zipWords_length _ _ _

@[simp] theorem words_unionWith (set other : BitSet) :
    (set.unionWith other).words.length = set.words.length := zipWords_length _ _ _

@[simp] theorem contains_new (len index : Nat) : (new len).contains index = false := by
  rw [contains_eq_getLsbD, getD_eq_getElem?_getD]
  simp only [new, getElem?_replicate]
  split <;> simp

theorem contains_insert (index other : Nat) (inside : index / 64 < set.words.length) :
    (set.insert index).contains other = (decide (other = index) || set.contains other) := by
  simp only [contains_eq_getLsbD, insert, getD_eq_getElem?_getD, getElem?_modify]
  by_cases sameWord : index / 64 = other / 64
  · have present : other / 64 < set.words.length := by omega
    have small : index % 64 < 64 := Nat.mod_lt _ (by decide)
    have sameBit : index % 64 = other % 64 ↔ other = index := by omega
    rw [getElem?_eq_getElem present]
    change (if index / 64 = other / 64 then set.words[other / 64] ||| bit index
      else set.words[other / 64]).getLsbD (other % 64) = _
    rw [if_pos sameWord, BitVec.getLsbD_or, bit, BitVec.getLsbD_twoPow, Bool.or_comm]
    simp [small, sameBit]
  · have different : other ≠ index := by rintro rfl; exact sameWord rfl
    cases set.words[other / 64]? <;> simp [sameWord, different]

theorem zipWords_getD (words others : List (BitVec 64)) (same : words.length = others.length)
    (zero : combine 0 0 = 0) (index : Nat) :
    (zipWords combine words others).getD index 0 = combine (words.getD index 0) (others.getD index 0) := by
  induction words generalizing others index with
  | nil =>
    obtain rfl : others = [] := eq_nil_of_length_eq_zero (by simpa using same.symm)
    simpa [zipWords] using zero.symm
  | cons word words ih =>
    cases others with
    | nil => simp at same
    | cons other others =>
      cases index with
      | zero => simp [zipWords]
      | succ index => simpa [zipWords] using ih others (by simpa using same) index

theorem contains_differenceWith (set other : BitSet)
    (same : set.words.length = other.words.length) (index : Nat) :
    (set.differenceWith other).contains index = (set.contains index && !other.contains index) := by
  have small : index % 64 < 64 := Nat.mod_lt _ (by decide)
  simp only [contains_eq_getLsbD, differenceWith]
  rw [zipWords_getD _ _ _ same (by decide), BitVec.getLsbD_and, BitVec.getLsbD_not]
  simp [small]

theorem contains_unionWith (set other : BitSet) (same : set.words.length = other.words.length) (index : Nat) :
    (set.unionWith other).contains index = (set.contains index || other.contains index) := by
  simp only [contains_eq_getLsbD, unionWith]
  rw [zipWords_getD _ _ _ same (by decide), BitVec.getLsbD_or]

theorem ext_contains {first second : BitSet} (width : first.words.length = second.words.length)
    (members : ∀ index, first.contains index = second.contains index) : first = second := by
  have words : first.words = second.words := by
    refine ext_getElem width fun position inside inside' => ?_
    apply BitVec.eq_of_getLsbD_eq
    intro offset small
    have mem := members (64 * position + offset)
    have quotient : (64 * position + offset) / 64 = position := by omega
    have remainder : (64 * position + offset) % 64 = offset := by omega
    simpa only [contains_eq_getLsbD, quotient, remainder, getD_eq_getElem?_getD,
      getElem?_eq_getElem inside, getElem?_eq_getElem inside', Option.getD_some]
      using mem
  cases first
  cases second
  simp_all

theorem contains_lt {set : BitSet} {index : Nat} (mem : set.contains index = true) :
    index < 64 * set.words.length := by
  unfold contains at mem
  split at mem
  · rename_i word found
    have inside := (List.getElem?_eq_some_iff.mp found).1
    omega
  · contradiction

theorem mem_iter (index : Nat) : index ∈ set.iter ↔ set.contains index = true := by
  simp only [iter, mem_filter, List.mem_range]
  exact ⟨And.right, fun mem => ⟨contains_lt mem, mem⟩⟩

theorem iter_nodup : set.iter.Nodup := nodup_range.filter _

theorem iter_length_le : set.iter.length ≤ 64 * set.words.length := by
  simpa [iter] using length_filter_le set.contains (List.range (64 * set.words.length))

/-- A set that gains members and changes holds strictly more of them. -/
theorem iter_length_lt {first second : BitSet}
    (width : first.words.length = second.words.length) (different : second ≠ first)
    (grows : ∀ index, first.contains index = true → second.contains index = true) :
    first.iter.length < second.iter.length := by
  obtain ⟨index, present, absent⟩ :
      ∃ index, second.contains index = true ∧ first.contains index = false := by
    by_contra none
    refine different (ext_contains width.symm fun index => ?_)
    cases inFirst : first.contains index with
    | true => exact grows index inFirst
    | false =>
      by_contra inSecond
      exact none ⟨index, by simpa using inSecond, inFirst⟩
  have subset : index :: first.iter ⊆ second.iter := by
    intro mem found
    rcases mem_cons.mp found with rfl | found
    · exact (mem_iter second mem).mpr present
    · exact (mem_iter second mem).mpr (grows mem ((mem_iter first mem).mp found))
  have fresh : (index :: first.iter).Nodup :=
    nodup_cons.mpr ⟨by rw [mem_iter, absent]; simp, iter_nodup first⟩
  simpa using (subperm_of_subset fresh subset).length_le

end BitSet

/-- A definition comes from the entry, an operation, or the caller's list. -/
inductive DefOrigin where
  | entry
  | op (index : Nat)
  | extra (index : Nat)
deriving DecidableEq

/-- A strong definition overwrites its place and a weak one adds to it. -/
structure Def where
  place : Place
  strong : Bool
  origin : DefOrigin
deriving DecidableEq

/-- The caller adds a definition after an operation or at entry. -/
structure ExtraDef where
  after : Option Nat
  place : Place
  strong : Bool
deriving DecidableEq

structure Options where
  pruneConstantBranches : Bool := true
deriving DecidableEq

/-- A temporary that holds a field read names the place it read. -/
def nameTemp (places : Dict Var Place) : IrOp → Dict Var Place
  | .fieldRead dst base field =>
    if isTemp dst then
      let basePlace :=
        match base with
        | .var var => if isTemp var then places.get var else some (Place.var var)
        | _ => none
      match basePlace with
      | some place => places.set dst (place.field field).1
      | none => places
    else places
  | _ => places

def tempPlaces (func : IrFunction) : Dict Var Place := func.body.foldl nameTemp ∅

/-- The place a written operand designates. -/
def writtenPlace (temps : Dict Var Place) : Operand → Option Place
  | .var var => (temps.get var).orElse fun _ => if isTemp var then none else some (Place.var var)
  | _ => none

/-- The places an operation writes, and whether each write is strong. -/
def opWrites (func : IrFunction) (index : Nat) (op : IrOp) (temps : Dict Var Place) : List (Place × Bool) :=
  match op with
  | .assign dst _ | .binOp dst _ _ _ | .fieldRead dst _ _ => [(Place.var dst, true)]
  | .call dst _ receiver _ =>
    let receiverPlace := ((func.callPlacesAt index).bind CallPlaces.receiver).orElse fun _ =>
      receiver.bind (writtenPlace temps)
    -- A method call may mutate its receiver.
    (dst.toList.map fun dst => (Place.var dst, true)) ++
      receiverPlace.toList.map fun place => (place, false)
  | .fieldWrite base field _ =>
    match writtenPlace temps base with
    | some base =>
      let written := base.field field
      [(written.1, written.2 && field ≠ "[]" && written.1.fields.length ≤ maxPlaceDepth)]
    | none => []
  | _ => []

/-- Definitions are numbered in the order in which they are added. -/
structure Numbering where
  defs : List Def
  opDefs : List (List Nat)
  entryDefs : List Nat
deriving DecidableEq

namespace Numbering

def atEntry (numbering : Numbering) (added : Def) : Numbering :=
  { numbering with
    defs := numbering.defs ++ [added]
    entryDefs := numbering.entryDefs ++ [numbering.defs.length] }

def atOp (numbering : Numbering) (op : Nat) (added : Def) : Numbering :=
  { numbering with
    defs := numbering.defs ++ [added]
    opDefs := numbering.opDefs.modify op fun ids => ids ++ [numbering.defs.length] }

/-- An entry without an operation of the body counts as an entry definition. -/
def place (numbering : Numbering) (site : Option Nat) (added : Def) : Numbering :=
  match site with
  | some op => if op < numbering.opDefs.length then numbering.atOp op added
      else numbering.atEntry added
  | none => numbering.atEntry added

end Numbering

/-- Each definition with the operation it is made after. -/
def entryPlacements (func : IrFunction) : List (Option Nat × Def) :=
  (func.receiver.toList ++ func.params).map fun var => (none, ⟨Place.var var, true, .entry⟩)

def opPlacements (func : IrFunction) (temps : Dict Var Place) : List (Option Nat × Def) :=
  func.body.zipIdx.flatMap fun entry =>
    (opWrites func entry.2 entry.1 temps).map fun write =>
      (some entry.2, ⟨write.1, write.2, .op entry.2⟩)

def extraPlacements (extras : List ExtraDef) : List (Option Nat × Def) :=
  extras.zipIdx.map fun entry => (entry.1.after, ⟨entry.1.place, entry.1.strong, .extra entry.2⟩)

def placements (func : IrFunction) (extras : List ExtraDef) : List (Option Nat × Def) :=
  entryPlacements func ++ opPlacements func (tempPlaces func) ++ extraPlacements extras

def numberDefs (func : IrFunction) (extras : List ExtraDef) : Numbering :=
  (placements func extras).foldl (fun numbering entry => numbering.place entry.1 entry.2)
    { defs := [], opDefs := List.replicate func.body.length [], entryDefs := [] }

/-- The definitions of each variable and of the fields below it. -/
def groupByBase (defs : List Def) : Dict Var (List Nat) :=
  defs.zipIdx.foldl (fun groups entry =>
    groups.update entry.1.place.base [] fun ids => ids ++ [entry.2]) ∅

/-- The definitions a strong write to the place kills. -/
def killSet (defs : List Def) (byBase : Dict Var (List Nat)) (place : Place) : BitSet :=
  (byBase.getD place.base []).foldl (fun set other =>
    if (defs[other]?.map fun killed => place.covers killed.place).getD false then set.insert other
    else set) (BitSet.new defs.length)

/-- Definitions of one place share a kill set. -/
structure KillIndex where
  index : Dict Place Nat
  sets : List BitSet
  killOf : List (Option Nat)

def KillIndex.add (defs : List Def) (byBase : Dict Var (List Nat)) (kills : KillIndex)
    (added : Def) : KillIndex :=
  if added.strong then
    match kills.index.get added.place with
    | some position => { kills with killOf := kills.killOf ++ [some position] }
    | none =>
      { index := kills.index.set added.place kills.sets.length
        sets := kills.sets ++ [killSet defs byBase added.place]
        killOf := kills.killOf ++ [some kills.sets.length] }
  else { kills with killOf := kills.killOf ++ [none] }

def killIndex (defs : List Def) (byBase : Dict Var (List Nat)) : KillIndex :=
  defs.foldl (KillIndex.add defs byBase) ⟨∅, [], []⟩

/-- The analysis keeps what is live at the start of each block. -/
structure ReachingDefs where
  defs : List Def
  blocks : Blocks
  opDefs : List (List Nat)
  entryDefs : List Nat
  tempPlaces : Dict Var Place
  byBase : Dict Var (List Nat)
  killOf : List (Option Nat)
  killSets : List BitSet
  ins : List BitSet

/-- The loop keeps the live definitions at both ends of each block. -/
structure SolveState where
  ins : List BitSet
  outs : List BitSet
  work : WorkQueue

namespace ReachingDefs

def constants (func : IrFunction) (options : Options) : Dict Nat Bool :=
  if options.pruneConstantBranches then Consts.branchOutcomes func else ∅

/-- Everything but the solution is known before the loop starts. -/
def prepare (func : IrFunction) (extras : List ExtraDef) (options : Options) : ReachingDefs :=
  let numbering := numberDefs func extras
  let byBase := groupByBase numbering.defs
  let kills := killIndex numbering.defs byBase
  let blocks := Blocks.build func (constants func options)
  { defs := numbering.defs
    blocks := blocks
    opDefs := numbering.opDefs
    entryDefs := numbering.entryDefs
    tempPlaces := Codegraph.tempPlaces func
    byBase := byBase
    killOf := kills.killOf
    killSets := kills.sets
    ins := List.replicate blocks.blockCount (BitSet.new numbering.defs.length) }

def empty (rd : ReachingDefs) : BitSet := BitSet.new rd.defs.length

/-- A definition kills what its kill set holds and is live itself. -/
def genDef (rd : ReachingDefs) (state : BitSet) (id : Nat) : BitSet :=
  match rd.killOf.getD id none with
  | some kills => (state.differenceWith (rd.killSets.getD kills rd.empty)).insert id
  | none => state.insert id

def applyEntry (rd : ReachingDefs) (state : BitSet) : BitSet := rd.entryDefs.foldl rd.genDef state

/-- The definitions an operation makes, then the extras placed after it. -/
def defsAt (rd : ReachingDefs) (op : Nat) : List Nat := rd.opDefs.getD op []

def applyOp (rd : ReachingDefs) (state : BitSet) (op : Nat) : BitSet :=
  (rd.defsAt op).foldl rd.genDef state

/-- The entry definitions and the ends of the reachable predecessors meet at a block. -/
def join (rd : ReachingDefs) (outs : List BitSet) (block : Nat) : BitSet :=
  let state := if block = 0 then rd.applyEntry rd.empty else rd.empty
  (rd.blocks.predsOf block).foldl (fun state pred =>
    if rd.blocks.reachable pred then state.unionWith (outs.getD pred rd.empty) else state) state

def transfer (rd : ReachingDefs) (block : Nat) (state : BitSet) : BitSet :=
  (rd.blocks.range block).foldl rd.applyOp state

def solveStep (rd : ReachingDefs) (state : SolveState) : Option SolveState :=
  state.work.pop.map fun popped =>
    let live := rd.join state.outs popped.1
    let left := rd.transfer popped.1 live
    if left ≠ state.outs.getD popped.1 rd.empty then
      { ins := state.ins.set popped.1 live
        outs := state.outs.set popped.1 left
        work := popped.2.pushAll ((rd.blocks.succsOf popped.1).filter rd.blocks.reachable) }
    else { state with ins := state.ins.set popped.1 live, work := popped.2 }

def solveStart (rd : ReachingDefs) : SolveState where
  ins := rd.ins
  outs := List.replicate rd.blocks.blockCount rd.empty
  work := (WorkQueue.idle rd.blocks.blockCount).pushAll
    ((List.range rd.blocks.blockCount).filter rd.blocks.reachable)

/-- The number of bits of all blocks bounds how often an end can grow. -/
def solveFuel (rd : ReachingDefs) : Nat :=
  worklistMeasure rd.blocks.blockCount (rd.blocks.blockCount * (64 * rd.empty.words.length))
    rd.blocks.blockCount

def solve (rd : ReachingDefs) : ReachingDefs :=
  { rd with ins := (loop rd.solveStep rd.solveFuel rd.solveStart).ins }

def compute (func : IrFunction) (extras : List ExtraDef) (options : Options) : ReachingDefs :=
  (prepare func extras options).solve

/-- The point before the operation can execute. -/
def isReachable (rd : ReachingDefs) (position : Nat) : Bool :=
  (rd.blocks.blockOf position).any rd.blocks.reachable

/-- The definitions live at the point before an operation. -/
def liveBefore (rd : ReachingDefs) (position : Nat) : BitSet :=
  match rd.blocks.blockOf position with
  | none => rd.empty
  | some block =>
    if rd.blocks.reachable block then
      (List.range' (rd.blocks.startOf block) (position - rd.blocks.startOf block)).foldl
        rd.applyOp (rd.ins.getD block rd.empty)
    else rd.empty

/-- The live definitions of storage that overlaps the place. -/
def overlapping (rd : ReachingDefs) (live : BitSet) (place : Place) : List Nat :=
  (rd.byBase.getD place.base []).filter fun id =>
    live.contains id &&
      (rd.defs[id]?.map fun known => known.place.overlaps place).getD false

def reaching (rd : ReachingDefs) (position : Nat) (place : Place) : List Nat :=
  rd.overlapping (rd.liveBefore position) place

end ReachingDefs

end Codegraph
