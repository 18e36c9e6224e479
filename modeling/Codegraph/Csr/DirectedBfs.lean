import Codegraph.Csr.Multigraph

namespace Codegraph

open Library

/-- A bitmap answers and lists the numbers that were inserted. -/
class Bitmap (B : Type) where
  new : B
  insert : B → Nat → B
  contains : B → Nat → Bool
  members : B → List Nat
  clear : B → B
  members_new : members new = []
  mem_insert : ∀ bitmap v other, other ∈ members (insert bitmap v) ↔ other = v ∨ other ∈ members bitmap
  contains_iff : ∀ bitmap v, contains bitmap v = true ↔ v ∈ members bitmap
  members_clear : ∀ bitmap, members (clear bitmap) = []

instance : Bitmap (ListSet Nat) where
  new := .empty
  insert := ListSet.insert
  contains set v := v ∈ set.members
  members := ListSet.members
  clear _ := .empty
  members_new := rfl
  mem_insert := ListSet.mem_insert
  contains_iff _ _ := decide_eq_true_iff
  members_clear _ := rfl

inductive FrontierInner (B : Type) where
  | sparse (vertices : List Nat)
  | dense (bitmap : B)

structure Frontier (B : Type) where
  n : Nat
  inner : FrontierInner B

namespace Frontier

variable {B : Type} [Bitmap B]

def new (n : Nat) : Frontier B := ⟨n, .sparse []⟩

def singleton (n v : Nat) : Frontier B := ⟨n, .sparse [v]⟩

/-- The vertices in the order in which they are iterated. -/
def vertices (frontier : Frontier B) : List Nat :=
  match frontier.inner with
  | .sparse vertices => vertices
  | .dense bitmap => Bitmap.members bitmap

def contains (frontier : Frontier B) (v : Nat) : Bool :=
  match frontier.inner with
  | .sparse vertices => v ∈ vertices
  | .dense bitmap => Bitmap.contains bitmap v

def len (frontier : Frontier B) : Nat := frontier.vertices.length

def isEmpty (frontier : Frontier B) : Bool := frontier.vertices.isEmpty

def promoteToDense (frontier : Frontier B) : Frontier B :=
  match frontier.inner with
  | .sparse vertices => { frontier with inner := .dense (vertices.foldl Bitmap.insert Bitmap.new) }
  | .dense _ => frontier

/-- A list becomes a bitmap when it holds more than a sixteenth of the vertices. -/
def maybePromote (frontier : Frontier B) : Frontier B :=
  match frontier.inner with
  | .sparse vertices =>
    if frontier.n / 16 < vertices.length ∧ 0 < frontier.n then frontier.promoteToDense
    else frontier
  | .dense _ => frontier

def insert (frontier : Frontier B) (v : Nat) : Frontier B :=
  maybePromote { frontier with
    inner := match frontier.inner with
      | .sparse vertices => .sparse (if v ∈ vertices then vertices else vertices ++ [v])
      | .dense bitmap => .dense (Bitmap.insert bitmap v) }

/-- A cleared bitmap stays a bitmap. -/
def clear (frontier : Frontier B) : Frontier B :=
  { frontier with
    inner := match frontier.inner with
      | .sparse _ => .sparse []
      | .dense bitmap => .dense (Bitmap.clear bitmap) }

def pushWorkload (frontier : Frontier B) (degOf : Nat → Nat) : Nat := (frontier.vertices.map degOf).sum

variable (frontier : Frontier B)

theorem contains_iff (v : Nat) : frontier.contains v = true ↔ v ∈ frontier.vertices := by
  unfold contains vertices
  split
  · exact decide_eq_true_iff
  · exact Bitmap.contains_iff _ v

@[simp] theorem vertices_clear : frontier.clear.vertices = [] := by
  unfold clear vertices
  cases frontier.inner with
  | sparse _ => rfl
  | dense bitmap => exact Bitmap.members_clear bitmap

theorem mem_promoteToDense (v : Nat) : v ∈ frontier.promoteToDense.vertices ↔ v ∈ frontier.vertices := by
  have inserted (vertices : List Nat) (bitmap : B) :
      v ∈ Bitmap.members (vertices.foldl Bitmap.insert bitmap) ↔
        v ∈ vertices ∨ v ∈ Bitmap.members bitmap := by
    induction vertices generalizing bitmap with
    | nil => simp
    | cons first rest ih =>
      rw [List.foldl_cons, ih, Bitmap.mem_insert, List.mem_cons, or_left_comm, or_assoc]
  obtain ⟨n, inner⟩ := frontier
  cases inner with
  | sparse vertices =>
    change v ∈ Bitmap.members (vertices.foldl Bitmap.insert Bitmap.new) ↔ _
    rw [inserted, Bitmap.members_new]
    simp [Frontier.vertices]
  | dense bitmap => rfl

theorem mem_maybePromote (v : Nat) : v ∈ frontier.maybePromote.vertices ↔ v ∈ frontier.vertices := by
  unfold maybePromote
  split
  · split
    · exact mem_promoteToDense frontier v
    · rfl
  · rfl

/-- In either form an insertion adds the vertex and nothing else. -/
theorem mem_insert (v other : Nat) :
    other ∈ (frontier.insert v).vertices ↔ other = v ∨ other ∈ frontier.vertices := by
  rw [insert, mem_maybePromote]
  unfold vertices
  cases frontier.inner with
  | sparse vertices =>
    change other ∈ (if v ∈ vertices then vertices else vertices ++ [v]) ↔ _
    split
    · rename_i present
      constructor
      · exact .inr
      intro either
      rcases either with same | old
      · rwa [same]
      · exact old
    · simp [or_comm]
  | dense bitmap => exact Bitmap.mem_insert bitmap v other

theorem isEmpty_iff : frontier.isEmpty = true ↔ frontier.vertices = [] := List.isEmpty_iff

end Frontier

/-- The divisor of the edge count above which a layer is pulled. -/
def bfsAlpha : Nat := 14

/-- The divisor of the vertex count below which a layer is pushed again. -/
def bfsBeta : Nat := 24

inductive BfsDirection where
  | push
  | pull
deriving DecidableEq

structure BfsConfig where
  maxDepth : Nat
  edgeFilter : Option (List EdgeKindTag) := none
  reverse : Bool := false

def edgeMatches (filter : Option (List EdgeKindTag)) (kind : EdgeKindTag) : Bool :=
  match filter with
  | none => true
  | some allowed => kind ∈ allowed

structure DirectedBfsResult where
  depth : List (Option Nat)
  parent : List (Option Nat)
  maxDepthReached : Nat
deriving DecidableEq

/-- The part of the state that the expansion of a layer writes. -/
structure BfsMarks (B : Type) where
  depth : List (Option Nat)
  parent : List (Option Nat)
  next : Frontier B

structure BfsState (B : Type) where
  marks : BfsMarks B
  current : Frontier B
  currentDepth : Nat
  maxDepthReached : Nat
  direction : BfsDirection

namespace CsrSnapshot

/-- The edges on which the search leaves a vertex. -/
def forwardRow (snapshot : CsrSnapshot) (cfg : BfsConfig) (v : Nat) : List (Nat × EdgeKindTag) :=
  if cfg.reverse then snapshot.inRow v else snapshot.outRow v

/-- The edges on which the search enters a vertex. -/
def backwardRow (snapshot : CsrSnapshot) (cfg : BfsConfig) (v : Nat) : List (Nat × EdgeKindTag) :=
  if cfg.reverse then snapshot.outRow v else snapshot.inRow v

end CsrSnapshot

namespace BfsMarks

variable {B : Type} [Bitmap B]

def depthOf (marks : BfsMarks B) (v : Nat) : Option Nat := marks.depth.getD v none

def parentOf (marks : BfsMarks B) (v : Nat) : Option Nat := marks.parent.getD v none

def discover (newDepth : Nat) (marks : BfsMarks B) (p v : Nat) : BfsMarks B :=
  ⟨marks.depth.set v (some newDepth), marks.parent.set v (some p), marks.next.insert v⟩

/-- Every vertex of the frontier marks its unmarked neighbours. -/
def pushStep (snapshot : CsrSnapshot) (current : Frontier B) (newDepth : Nat) (cfg : BfsConfig)
    (marks : BfsMarks B) : BfsMarks B :=
  current.vertices.foldl (fun marks v =>
    (snapshot.forwardRow cfg v).foldl (fun marks other =>
      if !edgeMatches cfg.edgeFilter other.2 then marks
      else if (marks.depthOf other.1).isNone then marks.discover newDepth v other.1
      else marks) marks) marks

/-- Every unmarked vertex looks for a neighbour in the frontier. -/
def pullStep (snapshot : CsrSnapshot) (current : Frontier B) (newDepth : Nat) (cfg : BfsConfig)
    (marks : BfsMarks B) : BfsMarks B :=
  (List.range snapshot.n).foldl (fun marks v =>
    if (marks.depthOf v).isSome then marks
    else
      match (snapshot.backwardRow cfg v).find? fun other =>
        edgeMatches cfg.edgeFilter other.2 && current.contains other.1 with
      | some other => marks.discover newDepth other.1 v
      | none => marks) marks

end BfsMarks

section

variable {B : Type} [Bitmap B]

def pickDirection (current : BfsDirection) (frontier : Frontier B) (snapshot : CsrSnapshot)
    (cfg : BfsConfig) : BfsDirection :=
  let m := max snapshot.m 1
  if snapshot.n = 0 then .push
  else
    let frontierEdges := frontier.pushWorkload fun v =>
      if cfg.reverse then snapshot.inDegree v else snapshot.outDegree v
    match current with
    | .push => if m / bfsAlpha < frontierEdges then .pull else .push
    | .pull => if frontier.len < snapshot.n / bfsBeta then .push else .pull

def expandLayer (snapshot : CsrSnapshot) (cfg : BfsConfig) (state : BfsState B)
    (direction : BfsDirection) : BfsMarks B :=
  match direction with
  | .push => state.marks.pushStep snapshot state.current (state.currentDepth + 1) cfg
  | .pull => state.marks.pullStep snapshot state.current (state.currentDepth + 1) cfg

/-- The frontiers are swapped, and a layer that found a vertex is counted. -/
def BfsState.advance (state : BfsState B) (direction : BfsDirection) (marks : BfsMarks B) : BfsState B where
  marks := { marks with next := state.current.clear }
  current := marks.next
  currentDepth := if marks.next.isEmpty then state.currentDepth else state.currentDepth + 1
  maxDepthReached := if marks.next.isEmpty then state.maxDepthReached else state.currentDepth + 1
  direction := direction

def bfsStep (snapshot : CsrSnapshot) (cfg : BfsConfig) (state : BfsState B) : Option (BfsState B) :=
  if state.current.isEmpty || cfg.maxDepth ≤ state.currentDepth then none
  else
    let direction := pickDirection state.direction state.current snapshot cfg
    some (state.advance direction (expandLayer snapshot cfg state direction))

def bfsStart (n source : Nat) : BfsState B where
  marks := ⟨(List.replicate n none).set source (some 0), List.replicate n none, .new n⟩
  current := .singleton n source
  currentDepth := 0
  maxDepthReached := 0
  direction := .push

/-- Every layer but the last goes one step deeper. -/
def bfsRun (snapshot : CsrSnapshot) (source : Nat) (cfg : BfsConfig) : BfsState B :=
  loop (bfsStep snapshot cfg) (cfg.maxDepth + 1) (bfsStart snapshot.n source)

variable (B) in
def bfs (snapshot : CsrSnapshot) (source : Nat) (cfg : BfsConfig) : DirectedBfsResult :=
  if snapshot.n = 0 || snapshot.n ≤ source then
    ⟨List.replicate snapshot.n none, List.replicate snapshot.n none, 0⟩
  else
    let final : BfsState B := bfsRun snapshot source cfg
    ⟨final.marks.depth, final.marks.parent, final.maxDepthReached⟩

end

end Codegraph
