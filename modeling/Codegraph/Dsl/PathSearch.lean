import Codegraph.Dsl.Plan
import Mathlib.Data.Finset.Basic

namespace Codegraph.Dsl

open Library List

/-- The slots that lead to each other one, the slots that wait with their depth and the end of the
search. -/
structure PathState where
  parents : Dict Nat Nat
  queue : List (Nat × Nat)
  found : Bool := false

/-- A slot with a parent is not visited again, and the target ends the search. -/
def PathState.visit (target current depth : Nat) (blocked : Option Nat) (state : PathState)
    (neighbor : Nat) : PathState :=
  if state.found then state
  else if blocked = some neighbor ∨ (state.parents.get neighbor).isSome then state
  else
    let parents := state.parents.set neighbor current
    if neighbor = target then { state with parents := parents, found := true }
    else { state with parents := parents, queue := state.queue ++ [(neighbor, depth + 1)] }

def pathStep (code : CodeGraph) (target maxDepth : Nat) (blocked : Option Nat) (state : PathState) :
    Option PathState :=
  if state.found then none
  else
    match state.queue with
    | [] => none
    | (current, depth) :: queue =>
      let popped := { state with queue := queue }
      if maxDepth ≤ depth then some popped
      else some ((code.graph.successors current).foldl
        (PathState.visit target current depth blocked) popped)

/-- The slots from a start to one, backwards. -/
def parentChain (parents : Dict Nat Nat) (isStart : Nat → Bool) : Nat → Nat → Option (List Nat)
  | 0, cursor => if isStart cursor then some [] else none
  | fuel + 1, cursor =>
    if isStart cursor then some []
    else
      match parents.get cursor with
      | none => none
      | some parent => (parentChain parents isStart fuel parent).map (parent :: ·)

def reconstructPath (code : CodeGraph) (parents : Dict Nat Nat) (isStart : Nat → Bool)
    (target : Nat) : Option (List NodeId) :=
  (parentChain parents isStart parents.keys.length target).map fun chain =>
    (target :: chain).reverse.filterMap code.nodeIdFor

/-- Each slot waits at most once, so the number of nodes bounds the rounds. -/
def findPath (code : CodeGraph) (source target : NodeId) (maxDepth : Nat) : Option (List NodeId) :=
  match code.resolve source, code.resolve target with
  | some sourceIdx, some targetIdx =>
    if sourceIdx = targetIdx then some [source]
    else
      let final := loop (pathStep code targetIdx maxDepth (some sourceIdx))
        (code.graph.nodeCount + 1) ⟨∅, [(sourceIdx, 0)], false⟩
      if final.found then
        reconstructPath code final.parents (fun slot => decide (slot = sourceIdx)) targetIdx
      else none
  | _, _ => none

/-- Every source starts as its own parent. The first one that is the target ends the search. -/
def seedSources (code : CodeGraph) (target : Nat) (state : PathState) : List NodeId → NodeId ⊕ PathState
  | [] => .inr state
  | source :: sources =>
    match code.resolve source with
    | none => seedSources code target state sources
    | some idx =>
      if idx = target then .inl source
      else if (state.parents.get idx).isSome then seedSources code target state sources
      else
        seedSources code target
          { state with parents := state.parents.set idx idx, queue := state.queue ++ [(idx, 0)] }
          sources

def findPathMultiSource (code : CodeGraph) (sources : List NodeId) (target : NodeId)
    (maxDepth : Nat) : Option (List NodeId) :=
  match code.resolve target with
  | none => none
  | some targetIdx =>
    match seedSources code targetIdx ⟨∅, [], false⟩ sources with
    | .inl source => some [source]
    | .inr seeded =>
      let final := loop (pathStep code targetIdx maxDepth none) (code.graph.nodeCount + 1) seeded
      if final.found then
        reconstructPath code final.parents
          (fun slot => decide (final.parents.get slot = some slot)) targetIdx
      else none

/-- The paths found so far and the nodes on them. -/
structure SimplePathSearch where
  results : List (List NodeId) := []
  totalNodesEmitted : Finset NodeId := ∅

/-- The nodes that are not on the stack are searched in turn until the paths hold as many nodes as
are allowed. -/
def searchEdges (dfs : NodeId → SimplePathSearch → SimplePathSearch) (stack : List NodeId)
    (nodeBudget : Nat) : List (NodeId × EdgeData) → SimplePathSearch → SimplePathSearch
  | [], search => search
  | edge :: edges, search =>
    if edge.1 ∈ stack then searchEdges dfs stack nodeBudget edges search
    else
      let searched := dfs edge.1 search
      if nodeBudget ≤ searched.totalNodesEmitted.card then searched
      else searchEdges dfs stack nodeBudget edges searched

/-- The stack grows by one node at each call, so the fuel is the room that it has left. The last node
of the stack is its top. -/
def simplePathDfs (code : CodeGraph) (target : NodeId) (nodeBudget : Nat) :
    Nat → NodeId → List NodeId → SimplePathSearch → SimplePathSearch
  | 0, _, _, search => search
  | room + 1, current, stack, search =>
    if current = target then
      { results := search.results ++ [stack]
        totalNodesEmitted := search.totalNodesEmitted ∪ stack.toFinset }
    else if nodeBudget ≤ search.totalNodesEmitted.card then search
    else
      searchEdges (fun next => simplePathDfs code target nodeBudget room next (stack ++ [next]))
        stack nodeBudget (code.getEdgesFrom current) search

/-- A stack of more than one node above the maximal depth is not looked at. -/
def allSimplePathsBounded (code : CodeGraph) (source target : NodeId) (maxDepth nodeBudget : Nat) :
    List (List NodeId) :=
  (simplePathDfs code target nodeBudget (maxDepth + 1) source [source] {}).results

/-- A path visits no node twice and each step of it follows an edge. -/
structure SimplePath (code : CodeGraph) (maxDepth : Nat) (source target : NodeId)
    (path : List NodeId) : Prop where
  starts : path.head? = some source
  ends : path.getLast? = some target
  linked : path.IsChain fun first second => ∃ data, (second, data) ∈ code.getEdgesFrom first
  distinct : path.Nodup
  short : path.length ≤ maxDepth + 1

/-- The found paths are simple and the emitted nodes are the ones on them. -/
structure SimplePathSearch.Sound (code : CodeGraph) (maxDepth : Nat) (source target : NodeId)
    (search : SimplePathSearch) : Prop where
  simple : ∀ path ∈ search.results, SimplePath code maxDepth source target path
  emitted : ∀ id, id ∈ search.totalNodesEmitted ↔ ∃ path ∈ search.results, id ∈ path

/-- The search keeps its paths and finds the wanted ones unless the budget is used up. -/
structure SimplePathSearch.Extends (code : CodeGraph) (maxDepth : Nat) (source target : NodeId)
    (nodeBudget : Nat) (wanted : List NodeId → Prop) (before after : SimplePathSearch) : Prop where
  sound : after.Sound code maxDepth source target
  kept : ∀ path ∈ before.results, path ∈ after.results
  complete : nodeBudget ≤ after.totalNodesEmitted.card ∨
    ∀ path, SimplePath code maxDepth source target path → wanted path → path ∈ after.results

/-- The stack is the start of a path that has not reached the target. -/
structure OnStack (code : CodeGraph) (source target : NodeId) (stack : List NodeId) : Prop where
  starts : stack.head? = some source
  linked : stack.IsChain fun first second => ∃ data, (second, data) ∈ code.getEdgesFrom first
  distinct : stack.Nodup
  missing : target ∉ stack.dropLast

variable {code : CodeGraph} {maxDepth nodeBudget : Nat} {source target : NodeId}

theorem OnStack.push {stack : List NodeId} (onStack : OnStack code source target stack)
    {current next : NodeId} {data : EdgeData} (top : stack.getLast? = some current)
    (other : current ≠ target) (edge : (next, data) ∈ code.getEdgesFrom current)
    (fresh : next ∉ stack) : OnStack code source target (stack ++ [next]) := by
  have nonempty : stack ≠ [] := by
    intro empty
    rw [empty] at top
    contradiction
  refine ⟨?_, ?_, ?_, ?_⟩
  · rw [head?_append_of_ne_nil _ nonempty]
    exact onStack.starts
  · rw [isChain_append]
    refine ⟨onStack.linked, isChain_singleton next, ?_⟩
    intro last isLast first isFirst
    rw [Option.mem_def, top, Option.some.injEq] at isLast
    rw [head?_cons, Option.mem_def, Option.some.injEq] at isFirst
    rw [← isLast, ← isFirst]
    exact ⟨data, edge⟩
  · rw [nodup_append]
    refine ⟨onStack.distinct, nodup_singleton next, ?_⟩
    intro first mem second single same
    rw [mem_singleton.mp single] at same
    exact fresh (same ▸ mem)
  · rw [dropLast_concat]
    intro mem
    rw [← dropLast_append_getLast nonempty, mem_append, mem_singleton] at mem
    rcases mem with before | last
    · exact onStack.missing before
    · rw [getLast?_eq_some_getLast nonempty, Option.some.injEq] at top
      exact other (top.symm.trans last.symm)

theorem SimplePath.beyond {path stack : List NodeId}
    (simple : SimplePath code maxDepth source target path) (start : stack <+: path)
    {current : NodeId} (top : stack.getLast? = some current) :
    (current = target ∧ path = stack) ∨ (current ≠ target ∧ ∃ next data,
      (next, data) ∈ code.getEdgesFrom current ∧ next ∉ stack ∧ stack ++ [next] <+: path) := by
  obtain ⟨rest, rfl⟩ := start
  cases rest with
  | nil =>
    have same := simple.ends
    rw [append_nil, top, Option.some.injEq] at same
    exact .inl ⟨same, append_nil stack⟩
  | cons next rest =>
    have apart := nodup_append.mp simple.distinct
    right
    constructor
    · intro same
      have last := simple.ends
      rw [getLast?_append_of_ne_nil _ (cons_ne_nil next rest)] at last
      exact apart.2.2 current (mem_of_getLast? top) target (mem_of_getLast? last) same
    obtain ⟨data, edge⟩ := (isChain_append.mp simple.linked).2.2 current top next rfl
    refine ⟨next, data, edge, fun mem => ?_, rest, by simp⟩
    exact apart.2.2 next mem next mem_cons_self rfl

theorem searchEdges_extends {dfs : NodeId → SimplePathSearch → SimplePathSearch}
    {stack : List NodeId} (edges : List (NodeId × EdgeData))
    (searched : ∀ edge ∈ edges, edge.1 ∉ stack → ∀ search : SimplePathSearch,
      search.Sound code maxDepth source target →
        search.Extends code maxDepth source target nodeBudget (fun path => stack ++ [edge.1] <+: path)
          (dfs edge.1 search))
    (search : SimplePathSearch) (sound : search.Sound code maxDepth source target) :
    search.Extends code maxDepth source target nodeBudget
      (fun path => ∃ edge ∈ edges, edge.1 ∉ stack ∧ stack ++ [edge.1] <+: path)
      (searchEdges dfs stack nodeBudget edges search) := by
  induction edges generalizing search with
  | nil =>
    refine ⟨sound, fun _ mem => mem, .inr ?_⟩
    intro path _ ⟨edge, mem, _⟩
    exact absurd mem not_mem_nil
  | cons edge edges ih =>
    have later := ih fun other mem => searched other (mem_cons_of_mem edge mem)
    rw [searchEdges]
    split
    · rename_i visited
      have rest := later search sound
      refine ⟨rest.sound, rest.kept, rest.complete.imp id fun complete => ?_⟩
      intro path simple ⟨other, mem, fresh, start⟩
      rcases mem_cons.mp mem with same | mem
      · exact absurd (same ▸ visited) fresh
      · exact complete path simple ⟨other, mem, fresh, start⟩
    rename_i fresh
    have first := searched edge mem_cons_self fresh search sound
    change search.Extends _ _ _ _ _ _ (if nodeBudget ≤ (dfs edge.1 search).totalNodesEmitted.card
      then dfs edge.1 search else searchEdges dfs stack nodeBudget edges (dfs edge.1 search))
    split
    · rename_i full
      exact ⟨first.sound, first.kept, .inl full⟩
    rename_i left
    have rest := later _ first.sound
    refine ⟨rest.sound, fun path mem => rest.kept path (first.kept path mem),
      rest.complete.imp id fun complete => ?_⟩
    intro path simple ⟨other, mem, fresh', start⟩
    rcases mem_cons.mp mem with same | mem
    · subst same
      exact rest.kept path (first.complete.resolve_left left path simple start)
    · exact complete path simple ⟨other, mem, fresh', start⟩

theorem simplePathDfs_extends (room : Nat) (current : NodeId) (stack : List NodeId)
    (search : SimplePathSearch) (sound : search.Sound code maxDepth source target)
    (onStack : OnStack code source target stack) (top : stack.getLast? = some current)
    (size : stack.length + room = maxDepth + 2) :
    search.Extends code maxDepth source target nodeBudget (fun path => stack <+: path)
      (simplePathDfs code target nodeBudget room current stack search) := by
  induction room generalizing current stack search with
  | zero =>
    refine ⟨sound, fun _ mem => mem, .inr ?_⟩
    intro path simple start
    have long := start.length_le
    have short := simple.short
    omega
  | succ room ih =>
    rw [simplePathDfs]
    split
    · rename_i reached
      have simple : SimplePath code maxDepth source target stack :=
        ⟨onStack.starts, reached ▸ top, onStack.linked, onStack.distinct, by omega⟩
      refine ⟨⟨?_, ?_⟩, ?_, .inr ?_⟩
      · intro path mem
        rcases mem_append.mp mem with old | new
        · exact sound.simple path old
        · rwa [mem_singleton.mp new]
      · intro id
        rw [Finset.mem_union, sound.emitted, mem_toFinset]
        simp [or_and_right, exists_or]
      · exact fun path mem => mem_append_left [stack] mem
      · intro path simple' start
        rcases simple'.beyond start top with ⟨_, same⟩ | ⟨other, _⟩
        · exact mem_append_right search.results (mem_singleton.mpr same)
        · exact absurd reached other
    rename_i other
    split
    · rename_i full
      exact ⟨sound, fun _ mem => mem, .inl full⟩
    have searched : search.Extends code maxDepth source target nodeBudget
        (fun path => ∃ edge ∈ code.getEdgesFrom current, edge.1 ∉ stack ∧ stack ++ [edge.1] <+: path)
        (searchEdges (fun next => simplePathDfs code target nodeBudget room next
          (stack ++ [next])) stack nodeBudget (code.getEdgesFrom current) search) := by
      apply searchEdges_extends _ _ search sound
      intro edge listed fresh search sound
      apply ih edge.1 (stack ++ [edge.1]) search sound
        (onStack.push top other listed fresh) getLast?_concat
      rw [length_append, length_singleton]
      omega
    refine ⟨searched.sound, searched.kept, searched.complete.imp id fun complete => ?_⟩
    intro path simple start
    rcases simple.beyond start top with ⟨reached, _⟩ | ⟨_, next, data, edge, fresh, longer⟩
    · exact absurd reached other
    · exact complete path simple ⟨(next, data), edge, fresh, longer⟩

theorem allSimplePathsBounded_spec (code : CodeGraph) (source target : NodeId) (maxDepth nodeBudget : Nat) :
    let found := allSimplePathsBounded code source target maxDepth nodeBudget
    (∀ path ∈ found, SimplePath code maxDepth source target path) ∧
      ((∀ path, SimplePath code maxDepth source target path → path ∈ found) ∨
        ∃ nodes : Finset NodeId, nodeBudget ≤ nodes.card ∧
          ∀ id, id ∈ nodes ↔ ∃ path ∈ found, id ∈ path) := by
  have searched : SimplePathSearch.Extends code maxDepth source target nodeBudget
      (fun path => [source] <+: path) {}
      (simplePathDfs code target nodeBudget (maxDepth + 1) source [source] {}) := by
    apply simplePathDfs_extends (maxDepth + 1) source [source] {} ⟨by simp, by simp⟩
      ⟨rfl, isChain_singleton source, nodup_singleton source, by simp⟩ rfl
    rw [length_singleton]
    omega
  refine ⟨searched.sound.simple, ?_⟩
  rcases searched.complete with full | complete
  · exact .inr ⟨_, full, searched.sound.emitted⟩
  left
  intro path simple
  apply complete path simple
  obtain ⟨rest, same⟩ := head?_eq_some_iff.mp simple.starts
  exact ⟨rest, same.symm⟩

theorem SimplePath.stays {path : List NodeId} (simple : SimplePath code maxDepth source source path) :
    path = [source] := by
  obtain ⟨rest, rfl⟩ := head?_eq_some_iff.mp simple.starts
  cases rest with
  | nil => rfl
  | cons next rest =>
    have last := simple.ends
    rw [getLast?_cons_cons] at last
    exact absurd (mem_of_getLast? last) (nodup_cons.mp simple.distinct).1

theorem allSimplePathsBounded_stays (code : CodeGraph) (source : NodeId) (maxDepth nodeBudget : Nat) :
    allSimplePathsBounded code source source maxDepth nodeBudget = [[source]] := by
  rw [allSimplePathsBounded, simplePathDfs, if_pos rfl]
  rfl

end Codegraph.Dsl
