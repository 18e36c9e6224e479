import Codegraph.Algorithms.CascadeWalk
import Codegraph.Dsl.PathSearch
import Codegraph.Library.DepthSearch

namespace Codegraph.Dsl

open Library List Dict CodeGraph

/-- One round of a search whose steps lead from each slot to others. -/
def pathStepAlong (next : Nat → List Nat) (target maxDepth : Nat) (blocked : Option Nat)
    (state : PathState) : Option PathState :=
  if state.found then none
  else
    match state.queue with
    | [] => none
    | (current, depth) :: queue =>
      let popped := { state with queue := queue }
      if maxDepth ≤ depth then some popped
      else some ((next current).foldl (PathState.visit target current depth blocked) popped)

/-- Whether a node at a slot is to be avoided. -/
def avoidsSlot (code : CodeGraph) (avoidNode : NodeId → NodeData → Bool) (slot : Nat) : Bool :=
  match code.graph.node slot, code.nodeIdFor slot with
  | some data, some id => avoidNode id data
  | _, _ => false

/-- The target was looked at before the search starts. -/
def successorsAvoiding (code : CodeGraph) (avoidNode : NodeId → NodeData → Bool) (target slot : Nat) :
    List Nat :=
  (code.graph.successors slot).filter fun neighbor =>
    decide (neighbor = target) || !avoidsSlot code avoidNode neighbor

def successorsAvoidingEdge (code : CodeGraph) (avoidEdge : EdgeData → Bool) (slot : Nat) : List Nat :=
  ((code.graph.edgesFrom slot).filter fun link => !avoidEdge link.weight).map Link.target

/-- The search from one slot, which is not entered again. -/
def searchPath (code : CodeGraph) (next : Nat → List Nat) (sourceIdx targetIdx maxDepth : Nat) :
    Option (List NodeId) :=
  let final := loop (pathStepAlong next targetIdx maxDepth (some sourceIdx))
    (code.graph.nodeCount + 1) ⟨∅, [(sourceIdx, 0)], false⟩
  if final.found then
    reconstructPath code final.parents (fun slot => decide (slot = sourceIdx)) targetIdx
  else none

def avoidsAt (code : CodeGraph) (avoidNode : NodeId → NodeData → Bool) (id : NodeId) (slot : Nat) : Bool :=
  match code.graph.node slot with
  | some data => avoidNode id data
  | none => false

def findPathAvoiding (code : CodeGraph) (source target : NodeId) (maxDepth : Nat)
    (avoidNode : NodeId → NodeData → Bool) : Option (List NodeId) :=
  match code.resolve source, code.resolve target with
  | some sourceIdx, some targetIdx =>
    if avoidsAt code avoidNode source sourceIdx then none
    else if avoidsAt code avoidNode target targetIdx then none
    else if sourceIdx = targetIdx then some [source]
    else searchPath code (successorsAvoiding code avoidNode targetIdx) sourceIdx targetIdx maxDepth
  | _, _ => none

def findPathAvoidingEdge (code : CodeGraph) (source target : NodeId) (maxDepth : Nat)
    (avoidEdge : EdgeData → Bool) : Option (List NodeId) :=
  match code.resolve source, code.resolve target with
  | some sourceIdx, some targetIdx =>
    if sourceIdx = targetIdx then some [source]
    else searchPath code (successorsAvoidingEdge code avoidEdge) sourceIdx targetIdx maxDepth
  | _, _ => none

section Rounds

variable {next : Nat → List Nat} {target maxDepth : Nat} {blocked : Option Nat}

/-- A slot that is not visited again. -/
def PathState.Known (blocked : Option Nat) (state : PathState) (slot : Nat) : Prop :=
  blocked = some slot ∨ (state.parents.get slot).isSome = true

instance (blocked : Option Nat) (state : PathState) (slot : Nat) : Decidable (state.Known blocked slot) :=
  inferInstanceAs (Decidable (_ ∨ _))

/-- The new slots were met from the current one. The target is the last of them or not among them. -/
structure Visited (target current depth : Nat) (blocked : Option Nat) (neighbors new : List Nat)
    (before after : PathState) : Prop where
  listed : ∀ slot ∈ new, slot ∈ neighbors
  placed : new.Pairwise fun first second => neighbors.idxOf first < neighbors.idxOf second
  fresh : ∀ slot ∈ new, ¬ before.Known blocked slot
  led : ∀ slot ∈ new, after.parents.get slot = some current
  kept : ∀ slot ∉ new, after.parents.get slot = before.parents.get slot
  outcome : after.found = true ∧ target ∈ new ∨
    after.found = false ∧ target ∉ new ∧ (∀ slot ∈ neighbors, slot ∈ new ∨ before.Known blocked slot) ∧
      after.queue = before.queue ++ new.map fun slot => (slot, depth + 1)

variable {before after : PathState}

theorem Visited.known {current depth : Nat} {neighbors new : List Nat}
    (visited : Visited target current depth blocked neighbors new before after) (slot : Nat) :
    after.Known blocked slot ↔ slot ∈ new ∨ before.Known blocked slot := by
  unfold PathState.Known
  by_cases mem : slot ∈ new
  · rw [visited.led slot mem]
    simp [mem]
  · rw [visited.kept slot mem]
    simp [mem]

theorem placed_append {neighbors new : List Nat} (listed : ∀ slot ∈ new, slot ∈ neighbors)
    (placed : new.Pairwise fun first second => neighbors.idxOf first < neighbors.idxOf second)
    (rest : List Nat) : new.Pairwise fun first second =>
      (neighbors ++ rest).idxOf first < (neighbors ++ rest).idxOf second := by
  refine placed.imp_of_mem fun mem mem' less => ?_
  rwa [idxOf_append_of_mem (listed _ mem), idxOf_append_of_mem (listed _ mem')]

theorem foldl_visit (target current depth : Nat) (blocked : Option Nat) (neighbors : List Nat)
    {before : PathState} (searching : before.found = false) : ∃ new, Visited target current depth blocked neighbors new before
      (neighbors.foldl (PathState.visit target current depth blocked) before) := by
  induction neighbors using List.reverseRecOn with
  | nil => exact ⟨[], ⟨by simp, by simp, by simp, by simp, by simp, by simp [searching]⟩⟩
  | append_singleton neighbors slot ih =>
    obtain ⟨new, visited⟩ := ih
    rw [foldl_append, foldl_cons, foldl_nil]
    generalize neighbors.foldl (PathState.visit target current depth blocked) before = middle
      at visited ⊢
    have wider (other : Nat) (mem : other ∈ new) : other ∈ neighbors ++ [slot] :=
      mem_append_left _ (visited.listed other mem)
    rcases visited.outcome with ⟨found, mem⟩ | ⟨open', apart, all, queue⟩
    · have unchanged : PathState.visit target current depth blocked middle slot = middle := if_pos found
      rw [unchanged]
      exact ⟨new, wider, placed_append visited.listed visited.placed [slot], visited.fresh, visited.led,
        visited.kept, .inl ⟨found, mem⟩⟩
    rw [PathState.visit, open', if_neg Bool.false_ne_true]
    split
    · rename_i known
      refine ⟨new, wider, placed_append visited.listed visited.placed [slot], visited.fresh,
        visited.led, visited.kept, .inr ⟨open', apart, ?_, queue⟩⟩
      intro other mem
      rcases mem_append.mp mem with earlier | last
      · exact all other earlier
      · rw [mem_singleton.mp last]
        exact (visited.known slot).mp known
    rename_i unknown
    have outside : slot ∉ new := fun mem => unknown ((visited.known slot).mpr (.inl mem))
    have led (other : Nat) (mem : other ∈ new ++ [slot]) :
        (middle.parents.set slot current).get other = some current := by
      rw [get_set]
      split
      · rfl
      rename_i differs
      rcases mem_append.mp mem with earlier | last
      · exact visited.led other earlier
      · exact absurd (mem_singleton.mp last) differs
    have kept (other : Nat) (mem : other ∉ new ++ [slot]) :
        (middle.parents.set slot current).get other = before.parents.get other := by
      rw [mem_append, not_or, mem_singleton] at mem
      rw [get_set_ne _ _ mem.2]
      exact visited.kept other mem.1
    have listed (other : Nat) (mem : other ∈ new ++ [slot]) : other ∈ neighbors ++ [slot] := by
      rcases mem_append.mp mem with earlier | last
      · exact wider other earlier
      · exact mem_append_right _ last
    have fresh (other : Nat) (mem : other ∈ new ++ [slot]) : ¬ before.Known blocked other := by
      rcases mem_append.mp mem with earlier | last
      · exact visited.fresh other earlier
      · rw [mem_singleton.mp last]
        exact fun known => unknown ((visited.known slot).mpr (.inr known))
    have placed : (new ++ [slot]).Pairwise fun first second =>
        (neighbors ++ [slot]).idxOf first < (neighbors ++ [slot]).idxOf second := by
      rw [pairwise_append]
      refine ⟨placed_append visited.listed visited.placed [slot], pairwise_singleton _ _, ?_⟩
      intro first mem second last
      have absent : slot ∉ neighbors := fun inside =>
        (all slot inside).elim outside fun known => unknown ((visited.known slot).mpr (.inr known))
      rw [mem_singleton.mp last, idxOf_append_of_mem (visited.listed first mem),
        idxOf_append_of_notMem absent]
      exact Nat.lt_add_right _ (idxOf_lt_length_iff.mpr (visited.listed first mem))
    refine ⟨new ++ [slot], ?_⟩
    split
    · rename_i here
      refine ⟨listed, placed, fresh, led, kept, .inl ⟨rfl, ?_⟩⟩
      rw [here]
      exact mem_append_right _ (mem_singleton_self target)
    rename_i differs
    refine ⟨listed, placed, fresh, led, kept, .inr ⟨rfl, ?_, ?_, ?_⟩⟩
    · rw [mem_append, mem_singleton]
      exact fun either => either.elim apart fun same => differs same.symm
    · intro other mem
      rcases mem_append.mp mem with earlier | last
      · exact (all other earlier).imp_left (mem_append_left _)
      · exact .inl (mem_append_right _ last)
    rw [queue, map_append, append_assoc]
    rfl

/-- A round passes over the first slot that waits or visits what it leads to. -/
theorem pathStepAlong_cases (moved : pathStepAlong next target maxDepth blocked before = some after) :
    before.found = false ∧ ∃ current depth queue, before.queue = (current, depth) :: queue ∧
      (maxDepth ≤ depth ∧ after = { before with queue := queue } ∨
        depth < maxDepth ∧ ∃ new, Visited target current depth blocked (next current) new
          { before with queue := queue } after) := by
  unfold pathStepAlong at moved
  split at moved
  · contradiction
  rename_i searching
  rw [Bool.not_eq_true] at searching
  refine ⟨searching, ?_⟩
  split at moved
  · contradiction
  rename_i current depth queue waits
  refine ⟨current, depth, queue, waits, ?_⟩
  split at moved
  · rename_i beyond
    exact .inl ⟨beyond, (Option.some.inj moved).symm⟩
  rename_i within
  have open' : PathState.found { before with queue := queue } = false := searching
  obtain ⟨new, visited⟩ := foldl_visit target current depth blocked (next current) open'
  rw [Option.some.inj moved] at visited
  exact .inr ⟨Nat.lt_of_not_le within, new, visited⟩

/-- The found target is met at the least depth. -/
structure TargetFound (next : Nat → List Nat) (roots : Nat → Prop) (target maxDepth : Nat)
    (depth : Nat → Option Nat) (parents : Dict Nat Nat) : Prop where
  led : Led (fun first second => second ∈ next first) roots depth parents.get
  met : ∃ count ≤ maxDepth, depth target = some count ∧ ∀ root other, roots root →
    Hops (fun first second => second ∈ next first) root other target → count ≤ other

/-- The known slots are those that the search has met. -/
structure PathState.Sound (next : Nat → List Nat) (roots : Nat → Prop) (target maxDepth : Nat)
    (blocked : Option Nat) (depth : Nat → Option Nat) (state : PathState) : Prop where
  known : ∀ slot, state.Known blocked slot ↔ (depth slot).isSome = true
  unled : ∀ slot, depth slot = some 0 → blocked = some slot ∨ state.parents.get slot = some slot
  searching : state.found = false → DepthSearch (fun first second => second ∈ next first) roots target
    maxDepth depth state.parents.get state.queue
  found : state.found = true → TargetFound next roots target maxDepth depth state.parents

variable {depth : Nat → Option Nat} {roots : Nat → Prop} {state : PathState}

section

variable (sound : state.Sound next roots target maxDepth blocked depth)
include sound

theorem PathState.Sound.led :
    Led (fun first second => second ∈ next first) roots depth state.parents.get := by
  cases found : state.found with
  | false => exact (sound.searching found).toLed
  | true => exact (sound.found found).led

/-- A slot that waits at the limit is passed over. -/
theorem PathState.Sound.skip (searching : state.found = false)
    {current level : Nat} {queue : List (Nat × Nat)} (waits : state.queue = (current, level) :: queue)
    (beyond : maxDepth ≤ level) :
    PathState.Sound next roots target maxDepth blocked depth { state with queue := queue } := by
  have search := sound.searching searching
  rw [waits] at search
  exact ⟨sound.known, sound.unled, fun _ => search.skip beyond,
    fun found => absurd (searching.symm.trans found) Bool.false_ne_true⟩

theorem PathState.Sound.fresh {current level : Nat}
    {queue : List (Nat × Nat)} {after : PathState} {new : List Nat}
    (visited : Visited target current level blocked (next current) new { state with queue := queue } after)
    (slot : Nat) (mem : slot ∈ new) : depth slot = none := by
  rw [← Option.not_isSome_iff_eq_none, ← sound.known slot]
  exact visited.fresh slot mem

theorem PathState.Sound.visit (searching : state.found = false)
    {current level : Nat} {queue : List (Nat × Nat)} (waits : state.queue = (current, level) :: queue)
    (within : level < maxDepth) {after : PathState} {new : List Nat}
    (visited : Visited target current level blocked (next current) new { state with queue := queue }
      after) :
    after.Sound next roots target maxDepth blocked
      (fun slot => if slot ∈ new then some (level + 1) else depth slot) := by
  have search := sound.searching searching
  rw [waits] at search
  have here := search.waiting (current, level) mem_cons_self
  have fresh := sound.fresh visited
  refine ⟨?_, ?_, ?_, ?_⟩
  · intro slot
    rw [visited.known slot]
    split
    · rename_i mem
      simp [mem]
    rename_i outside
    rw [or_iff_right outside]
    exact sound.known slot
  · intro slot met
    split at met
    · exact absurd (Option.some.inj met) (Nat.succ_ne_zero level)
    rename_i outside
    rw [visited.kept slot outside]
    exact sound.unled slot met
  · intro open'
    rcases visited.outcome with ⟨found, _⟩ | ⟨_, apart, all, queue'⟩
    · exact absurd (open'.symm.trans found) Bool.false_ne_true
    rw [queue']
    refine search.expand fresh visited.listed ?_ apart visited.led visited.kept
    intro slot mem
    exact (all slot mem).imp_right (sound.known slot).mp
  · intro found
    rcases visited.outcome with ⟨_, mem⟩ | ⟨open', _⟩
    · refine ⟨search.toLed.meet here fresh visited.listed visited.led visited.kept, level + 1,
        within, if_pos mem, ?_⟩
      intro root other start hops
      exact search.farther within start hops
    · exact absurd (open'.symm.trans found) Bool.false_ne_true

end

theorem pathStepAlong_sound (sound : before.Sound next roots target maxDepth blocked depth)
    (moved : pathStepAlong next target maxDepth blocked before = some after) :
    ∃ depth', after.Sound next roots target maxDepth blocked depth' := by
  obtain ⟨searching, current, level, queue, waits, step⟩ := pathStepAlong_cases moved
  rcases step with ⟨beyond, rfl⟩ | ⟨within, new, visited⟩
  · exact ⟨depth, sound.skip searching waits beyond⟩
  · exact ⟨_, sound.visit searching waits within visited⟩

/-- The slots that wait and those that are not known yet. -/
def PathState.cost (slots : List Nat) (blocked : Option Nat) (state : PathState) : Nat :=
  state.queue.length + (slots.filter fun slot => !decide (state.Known blocked slot)).length

theorem known_set (state : PathState) (slot current : Nat) (queue : List (Nat × Nat)) (found : Bool)
    (other : Nat) : PathState.Known blocked ⟨state.parents.set slot current, queue, found⟩ other ↔
      other = slot ∨ state.Known blocked other := by
  unfold PathState.Known
  rw [get_set]
  split
  · rename_i same
    simp [same]
  · rename_i differs
    simp [differs]

variable {slots : List Nat}

theorem cost_set {slot : Nat} (stored : slot ∈ slots)
    (unknown : ¬ state.Known blocked slot) (current : Nat) (queue : List (Nat × Nat)) (found : Bool) :
    PathState.cost slots blocked ⟨state.parents.set slot current, queue, found⟩ + state.queue.length <
      state.cost slots blocked + queue.length := by
  have narrowed : (slots.filter fun other => !decide (PathState.Known blocked
      ⟨state.parents.set slot current, queue, found⟩ other)) =
      (slots.filter fun other => !decide (state.Known blocked other)).filter (· ≠ slot) := by
    rw [filter_filter]
    refine filter_congr fun other _ => ?_
    simp [known_set]
  have less : ((slots.filter fun other => !decide (state.Known blocked other)).filter
      (· ≠ slot)).length < (slots.filter fun other => !decide (state.Known blocked other)).length := by
    rw [length_filter_lt_length_iff_exists]
    refine ⟨slot, mem_filter.mpr ⟨stored, ?_⟩, by simp⟩
    rwa [Bool.not_eq_true', decide_eq_false_iff_not]
  unfold PathState.cost
  rw [narrowed]
  change queue.length + _ + _ < _ + queue.length
  omega

/-- A visited slot waits for its own round at most. -/
theorem visit_cost (current depth : Nat) (state : PathState) {slot : Nat} (stored : slot ∈ slots) :
    (PathState.visit target current depth blocked state slot).cost slots blocked ≤
      state.cost slots blocked := by
  unfold PathState.visit
  split
  · exact le_refl _
  split
  · exact le_refl _
  rename_i unknown
  split
  · exact le_of_lt (Nat.lt_of_add_lt_add_right (cost_set stored unknown current state.queue true))
  have low := cost_set stored unknown current (state.queue ++ [(slot, depth + 1)]) state.found
  rw [length_append, length_singleton, Nat.add_comm state.queue.length 1, ← Nat.add_assoc] at low
  exact Nat.le_of_lt_succ (Nat.lt_of_add_lt_add_right low)

theorem foldl_visit_cost (current depth : Nat) {neighbors : List Nat}
    (stored : ∀ slot ∈ neighbors, slot ∈ slots) (state : PathState) :
    (neighbors.foldl (PathState.visit target current depth blocked) state).cost slots blocked ≤
      state.cost slots blocked := by
  induction neighbors generalizing state with
  | nil => exact le_refl _
  | cons slot neighbors ih =>
    have first : (PathState.visit target current depth blocked state slot).cost slots blocked ≤
        state.cost slots blocked := visit_cost current depth state (stored slot mem_cons_self)
    exact (ih (fun other mem => stored other (mem_cons_of_mem _ mem)) _).trans first

theorem pathStepAlong_cost (stored : ∀ first, ∀ second ∈ next first, second ∈ slots)
    (moved : pathStepAlong next target maxDepth blocked before = some after) :
    after.cost slots blocked < before.cost slots blocked := by
  have popped {current depth : Nat} {queue : List (Nat × Nat)}
      (waits : before.queue = (current, depth) :: queue) :
      PathState.cost slots blocked { before with queue := queue } < before.cost slots blocked := by
    unfold PathState.cost
    rw [waits, length_cons]
    exact Nat.add_lt_add_right (Nat.lt_succ_self _) _
  unfold pathStepAlong at moved
  split at moved
  · contradiction
  split at moved
  · contradiction
  rename_i current depth queue waits
  split at moved
  · rw [← Option.some.inj moved]
    exact popped waits
  · rw [← Option.some.inj moved]
    exact (foldl_visit_cost current depth (stored current) _).trans_lt (popped waits)

/-- A search that is not over has slots that wait. -/
theorem pathStepAlong_ended
    (ended : pathStepAlong next target maxDepth blocked state = none) (open' : state.found = false) :
    state.queue = [] := by
  rw [pathStepAlong, open', if_neg Bool.false_ne_true] at ended
  split at ended
  · assumption
  · split at ended <;> contradiction

theorem loop_sound (stored : ∀ first, ∀ second ∈ next first, second ∈ slots)
    (sound : state.Sound next roots target maxDepth blocked depth) {fuel : Nat}
    (enough : state.cost slots blocked ≤ fuel) :
    ∃ depth', (loop (pathStepAlong next target maxDepth blocked) fuel state).Sound next roots target
        maxDepth blocked depth' ∧
      ((loop (pathStepAlong next target maxDepth blocked) fuel state).found = false →
        (loop (pathStepAlong next target maxDepth blocked) fuel state).queue = []) := by
  let Inv (state : PathState) := ∃ depth, state.Sound next roots target maxDepth blocked depth
  have keeps (before after : PathState) (inv : Inv before)
      (moved : pathStepAlong next target maxDepth blocked before = some after) : Inv after := by
    obtain ⟨depth, sound⟩ := inv
    exact pathStepAlong_sound sound moved
  have halts := halts_loop keeps (fun before after _ moved => pathStepAlong_cost stored moved) fuel state
    ⟨depth, sound⟩ enough
  obtain ⟨depth', sound'⟩ := halts.preserves keeps ⟨depth, sound⟩
  exact ⟨depth', sound', pathStepAlong_ended halts.ended⟩

theorem parentChain_spec {parents : Dict Nat Nat}
    {edge : Nat → Nat → Prop} (led : Led edge roots depth parents.get) {isStart : Nat → Bool}
    (starts : ∀ slot count, depth slot = some count → (isStart slot = true ↔ count = 0)) {slot count : Nat}
    (met : depth slot = some count) {fuel : Nat} (enough : count ≤ fuel) :
    ∃ chain, parentChain parents isStart fuel slot = some chain ∧ chain.length = count ∧
      Trail roots edge slot (slot :: chain).reverse := by
  induction count generalizing slot fuel with
  | zero =>
    have here := (starts slot 0 met).mpr rfl
    refine ⟨[], ?_, rfl, ⟨slot, rfl, (led.rooted slot).mp met⟩, rfl, isChain_singleton slot⟩
    cases fuel <;> simp [parentChain, here]
  | succ count ih =>
    obtain ⟨before, found, met', step⟩ := led.led slot count met
    have passed : ¬ isStart slot = true := fun here =>
      absurd ((starts slot _ met).mp here) (Nat.succ_ne_zero count)
    cases fuel with
    | zero => omega
    | succ fuel =>
      obtain ⟨chain, traced, length, route⟩ := ih met' (Nat.le_of_succ_le_succ enough)
      refine ⟨before :: chain, ?_, congrArg Nat.succ length, ?_, ?_, ?_⟩
      · rw [parentChain, if_neg passed, found]
        dsimp only
        rw [traced]
        rfl
      · rw [reverse_cons, head?_append_of_ne_nil _ (by simp)]
        exact route.head
      · rw [reverse_cons, getLast?_concat]
      · rw [reverse_cons, isChain_append]
        refine ⟨route.steps, isChain_singleton slot, ?_⟩
        intro last inside first inside'
        rw [route.last] at inside
        cases inside
        cases inside'
        exact step

end Rounds

/-- A path of stored nodes from one of the starts to the target that comes by no node and no edge to
avoid. -/
structure Admissible (code : CodeGraph) (avoidNode : NodeId → NodeData → Bool)
    (avoidEdge : EdgeData → Bool) (starts : NodeId → Prop) (target : NodeId) (path : List NodeId) :
    Prop where
  head : ∃ start, path.head? = some start ∧ starts start
  last : path.getLast? = some target
  nodes : ∀ id ∈ path, ∃ slot data, code.resolve id = some slot ∧ code.graph.node slot = some data ∧
    avoidNode id data = false
  steps : path.IsChain fun first second =>
    ∃ data, (first, second, data) ∈ code.edges ∧ avoidEdge data = false

/-- The result is a path with the fewest nodes, or there is no path within the depth. -/
def Shortest (paths : List NodeId → Prop) (maxDepth : Nat) : Option (List NodeId) → Prop
  | none => ∀ path, paths path → maxDepth + 1 < path.length
  | some path => paths path ∧ path.length ≤ maxDepth + 1 ∧ ∀ other, paths other → path.length ≤ other.length

section Names

variable {code : CodeGraph} {avoidNode : NodeId → NodeData → Bool} {avoidEdge : EdgeData → Bool}

/-- The steps lead along the edges that are not to be avoided to the target and to the slots of nodes
that are not to be avoided. -/
def Follows (code : CodeGraph) (avoidNode : NodeId → NodeData → Bool) (avoidEdge : EdgeData → Bool)
    (target : Nat) (next : Nat → List Nat) : Prop :=
  ∀ first second, second ∈ next first ↔ ∃ link ∈ code.graph.links, link.source = first ∧
    link.target = second ∧ avoidEdge link.weight = false ∧
      (second = target ∨ avoidsSlot code avoidNode second = false)

/-- A stored node that is not to be avoided. -/
def CodeGraph.Allowed (code : CodeGraph) (avoidNode : NodeId → NodeData → Bool) (id : NodeId) : Prop :=
  ∃ slot data, code.resolve id = some slot ∧ code.graph.node slot = some data ∧ avoidNode id data = false

theorem allowed_iff (consistent : CodeGraph.Consistent code) (id : NodeId) :
    CodeGraph.Allowed code avoidNode id ↔ ∃ slot ∈ code.graph.slots, code.nameOf slot = id ∧
      avoidsSlot code avoidNode slot = false := by
  constructor
  · rintro ⟨slot, data, resolved, found, kept⟩
    obtain ⟨stored, rfl⟩ := (resolve_eq_some_iff consistent id slot).mp resolved
    refine ⟨slot, stored, rfl, ?_⟩
    rwa [avoidsSlot, found, nodeIdFor_eq stored]
  rintro ⟨slot, stored, rfl, kept⟩
  obtain ⟨data, found⟩ := Option.isSome_iff_exists.mp ((code.graph.mem_slots slot).mp stored)
  refine ⟨slot, data, (resolve_eq_some_iff consistent _ slot).mpr ⟨stored, rfl⟩, found, ?_⟩
  rwa [avoidsSlot, found, nodeIdFor_eq stored] at kept

theorem admissible_iff {starts : NodeId → Prop} {target : NodeId} {path : List NodeId} :
    Admissible code avoidNode avoidEdge starts target path ↔
      Trail (fun id => starts id ∧ CodeGraph.Allowed code avoidNode id) (fun first second =>
        (∃ data, (first, second, data) ∈ code.edges ∧ avoidEdge data = false) ∧
          CodeGraph.Allowed code avoidNode second) target path := by
  constructor
  · rintro ⟨⟨start, head, allowed⟩, last, nodes, steps⟩
    refine ⟨⟨start, head, allowed, nodes start (mem_of_mem_head? head)⟩, last, ?_⟩
    have paired := steps.imp_of_mem_imp (fun first second _ mem step =>
      (⟨step, nodes second mem⟩ : _ ∧ CodeGraph.Allowed code avoidNode second))
    exact paired
  rintro ⟨⟨start, head, allowed, here⟩, last, steps⟩
  refine ⟨⟨start, head, allowed⟩, last, ?_, steps.imp fun _ _ step => step.1⟩
  refine steps.induction (CodeGraph.Allowed code avoidNode) path (fun _ _ step _ => step.2) ?_
  intro nonempty
  rw [head?_eq_some_head nonempty] at head
  rwa [Option.some.inj head]

theorem Follows.stored {target : Nat} {next : Nat → List Nat}
    (follows : Follows code avoidNode avoidEdge target next) (first second : Nat)
    (mem : second ∈ next first) : second ∈ code.graph.slots := by
  obtain ⟨link, listed, _, rfl, _⟩ := (follows first second).mp mem
  exact (link_slots listed).2

variable (consistent : CodeGraph.Consistent code) {target : Nat} {next : Nat → List Nat}
  (follows : Follows code avoidNode avoidEdge target next) {roots : Nat → Prop} {starts : NodeId → Prop}
  (rooted : ∀ slot, roots slot ↔ slot ∈ code.graph.slots ∧ starts (code.nameOf slot) ∧
    avoidsSlot code avoidNode slot = false)

include consistent follows rooted

theorem Admissible.hops {path : List NodeId} (inside : target ∈ code.graph.slots)
    (admissible : Admissible code avoidNode avoidEdge starts (code.nameOf target) path) :
    ∃ root count, roots root ∧ path.length = count + 1 ∧
      Hops (fun first second => second ∈ next first) root count target := by
  obtain ⟨start, count, ⟨begins, allowed⟩, length, hops⟩ := (admissible_iff.mp admissible).hops
  obtain ⟨root, stored, rfl, kept⟩ := (allowed_iff consistent start).mp allowed
  have follow (first second : NodeId) (slot : Nat)
      (here : slot ∈ code.graph.slots ∧ code.nameOf slot = first)
      (step : (∃ data, (first, second, data) ∈ code.edges ∧ avoidEdge data = false) ∧
        CodeGraph.Allowed code avoidNode second) :
      ∃ slot', (slot' ∈ code.graph.slots ∧ code.nameOf slot' = second) ∧ slot' ∈ next slot := by
    obtain ⟨stored, rfl⟩ := here
    obtain ⟨⟨data, edge, admitted⟩, allowed⟩ := step
    obtain ⟨link, listed, source, rfl, rfl⟩ := (mem_edges_iff _ _ _).mp edge
    obtain ⟨left, right⟩ := link_slots listed
    obtain ⟨slot', stored', named, kept'⟩ := (allowed_iff consistent _).mp allowed
    rw [nameOf_injOn consistent stored' right named] at kept'
    exact ⟨link.target, ⟨right, rfl⟩, (follows _ _).mpr ⟨link, listed,
      nameOf_injOn consistent left stored source, rfl, admitted, .inr kept'⟩⟩
  obtain ⟨image, ⟨stored', named⟩, walk⟩ := hops.follow
    (fun id slot => slot ∈ code.graph.slots ∧ code.nameOf slot = id) follow ⟨stored, rfl⟩
  rw [nameOf_injOn consistent stored' inside named] at walk
  exact ⟨root, count, (rooted root).mpr ⟨stored, begins, kept⟩, length, walk⟩

theorem admissible_names (open' : avoidsSlot code avoidNode target = false) {way : List Nat}
    (route : Trail roots (fun first second => second ∈ next first) target way) :
    way.filterMap code.nodeIdFor = way.map code.nameOf ∧
      Admissible code avoidNode avoidEdge starts (code.nameOf target) (way.map code.nameOf) := by
  obtain ⟨⟨root, head, begins⟩, last, steps⟩ := route
  have nonempty : way ≠ [] := by
    intro empty
    rw [empty] at head
    contradiction
  have stored : ∀ slot ∈ way, slot ∈ code.graph.slots := by
    refine steps.induction (· ∈ code.graph.slots) way
      (fun first second step _ => follows.stored first second step) fun nonempty => ?_
    rw [head?_eq_some_head nonempty] at head
    rw [Option.some.inj head]
    exact ((rooted root).mp begins).1
  have named : way.filterMap code.nodeIdFor = way.map code.nameOf := by
    rw [← filterMap_eq_map]
    exact filterMap_congr fun slot mem => nodeIdFor_eq (stored slot mem)
  refine ⟨named, admissible_iff.mpr ⟨⟨code.nameOf root, ?_, ?_⟩, ?_, ?_⟩⟩
  · rw [head?_map, head]
    rfl
  · obtain ⟨inside, starts, kept⟩ := (rooted root).mp begins
    exact ⟨starts, (allowed_iff consistent _).mpr ⟨root, inside, rfl, kept⟩⟩
  · rw [getLast?_map, last]
    rfl
  · rw [isChain_map]
    refine steps.imp fun first second step => ?_
    obtain ⟨link, listed, rfl, rfl, admitted, kept⟩ := (follows _ _).mp step
    refine ⟨⟨link.weight, (mem_edges_iff _ _ _).mpr ⟨link, listed, rfl, rfl, rfl⟩, admitted⟩,
      (allowed_iff consistent _).mpr ⟨link.target, (link_slots listed).2, rfl, ?_⟩⟩
    rcases kept with here | kept
    · rwa [here]
    · exact kept

theorem search_shortest (inside : target ∈ code.graph.slots)
    (open' : avoidsSlot code avoidNode target = false) {maxDepth : Nat} {blocked : Option Nat}
    {state : PathState} {depth : Nat → Option Nat}
    (sound : state.Sound next roots target maxDepth blocked depth)
    (enough : state.cost code.graph.slots blocked ≤ code.graph.nodeCount + 1)
    (isStart : Dict Nat Nat → Nat → Bool)
    (marked : ∀ (final : PathState) (depth' : Nat → Option Nat),
      final.Sound next roots target maxDepth blocked depth' → ∀ slot count, depth' slot = some count →
        (isStart final.parents slot = true ↔ count = 0)) :
    Shortest (Admissible code avoidNode avoidEdge starts (code.nameOf target)) maxDepth
      (let final := loop (pathStepAlong next target maxDepth blocked) (code.graph.nodeCount + 1) state
        if final.found then reconstructPath code final.parents (isStart final.parents) target
        else none) := by
  obtain ⟨depth', sound', ended⟩ := loop_sound follows.stored sound enough
  dsimp only
  generalize loop (pathStepAlong next target maxDepth blocked) (code.graph.nodeCount + 1) state = final
    at sound' ended ⊢
  cases found : final.found with
  | false =>
    have search := sound'.searching found
    rw [ended found] at search
    intro path admissible
    obtain ⟨root, count, begins, length, hops⟩ := admissible.hops consistent follows rooted inside
    have far := search.none_within begins hops
    omega
  | true =>
    obtain ⟨led, count, within, met, least⟩ := sound'.found found
    have enough' := led.depth_le met fun other before parent => (mem_keys_iff _ _).mpr ⟨before, parent⟩
    obtain ⟨chain, traced, length, route⟩ :=
      parentChain_spec led (marked final depth' sound') met enough'
    obtain ⟨named, admissible⟩ := admissible_names consistent follows rooted open' route
    have answer : reconstructPath code final.parents (isStart final.parents) target =
        some ((target :: chain).reverse.map code.nameOf) := by
      rw [reconstructPath, traced]
      exact congrArg some named
    have size : ((target :: chain).reverse.map code.nameOf).length = count + 1 := by
      rw [length_map, length_reverse, length_cons, length]
    rw [if_pos rfl, answer]
    refine ⟨admissible, by omega, fun other admissible' => ?_⟩
    obtain ⟨root, count', begins, length', hops⟩ := admissible'.hops consistent follows rooted inside
    have := least root count' begins hops
    omega

omit consistent follows rooted in
/-- At the start only the source is met. -/
theorem source_sound (next : Nat → List Nat) {sourceIdx : Nat}
    (only : ∀ slot, roots slot ↔ slot = sourceIdx) (differs : sourceIdx ≠ target) (maxDepth : Nat) :
    PathState.Sound next roots target maxDepth (some sourceIdx)
      (fun slot => if slot = sourceIdx then some 0 else none) ⟨∅, [(sourceIdx, 0)], false⟩ := by
  have met (slot count : Nat) : (if slot = sourceIdx then some 0 else none) = some count ↔
      slot = sourceIdx ∧ count = 0 := by
    split
    · rename_i here
      simp [here, eq_comm]
    · rename_i other
      simp [other]
  refine ⟨?_, ?_, ?_, fun found => absurd found Bool.false_ne_true⟩
  · intro slot
    rw [Option.isSome_iff_exists]
    simp only [PathState.Known, met, get_empty, Option.some.injEq]
    simp [eq_comm]
  · exact fun slot here => .inl (congrArg some ((met slot 0).mp here).1.symm)
  intro _
  refine DepthSearch.start ?_ ?_ ?_ ?_
  · exact fun slot => ((met slot 0).trans (and_iff_left rfl)).trans (only slot).symm
  · exact fun slot count here => ((met slot count).mp here).2
  · intro slot count
    rw [met]
    simp
  · exact if_neg differs.symm

omit consistent follows rooted in
theorem source_cost (code : CodeGraph) (sourceIdx : Nat) :
    PathState.cost code.graph.slots (some sourceIdx) ⟨∅, [(sourceIdx, 0)], false⟩ ≤
      code.graph.nodeCount + 1 := by
  rw [← code.graph.length_slots]
  have := length_filter_le (fun slot => !decide (PathState.Known (some sourceIdx)
    ⟨∅, [(sourceIdx, 0)], false⟩ slot)) code.graph.slots
  change 1 + _ ≤ _
  omega

omit consistent follows rooted in
theorem PathState.Sound.source_iff {sourceIdx maxDepth : Nat} {blocked : Option Nat}
    (only : ∀ slot, roots slot ↔ slot = sourceIdx) {state : PathState} {depth : Nat → Option Nat}
    (sound : state.Sound next roots target maxDepth blocked depth) (slot count : Nat)
    (here : depth slot = some count) : decide (slot = sourceIdx) = true ↔ count = 0 := by
  rw [decide_eq_true_eq, ← only, ← sound.led.rooted, here, Option.some.injEq]

theorem searchPath_shortest {sourceIdx : Nat} (only : ∀ slot, roots slot ↔ slot = sourceIdx)
    (inside : target ∈ code.graph.slots) (open' : avoidsSlot code avoidNode target = false)
    (differs : sourceIdx ≠ target) (maxDepth : Nat) :
    Shortest (Admissible code avoidNode avoidEdge starts (code.nameOf target)) maxDepth
      (searchPath code next sourceIdx target maxDepth) :=
  search_shortest consistent follows rooted inside open' (source_sound next only differs maxDepth)
    (source_cost code sourceIdx) (fun _ slot => decide (slot = sourceIdx)) fun _ _ sound' =>
      sound'.source_iff only

end Names

section Variants

variable {code : CodeGraph}

/-- What the sources are while the search is seeded. -/
structure Seeded (code : CodeGraph) (target : Nat) (seeds : List NodeId) (state : PathState) : Prop where
  searching : state.found = false
  parents : ∀ slot parent, state.parents.get slot = some parent ↔
    parent = slot ∧ ∃ seed ∈ seeds, code.resolve seed = some slot
  queue : ∀ slot depth, (slot, depth) ∈ state.queue ↔
    depth = 0 ∧ ∃ seed ∈ seeds, code.resolve seed = some slot
  apart : ∀ seed ∈ seeds, code.resolve seed ≠ some target
  cost : state.cost code.graph.slots none ≤ code.graph.nodeCount

/-- A source is the target, or all sources are seeded. -/
def SeedAnswer (code : CodeGraph) (target : Nat) (seeds sources : List NodeId) : NodeId ⊕ PathState → Prop
  | .inl source => source ∈ sources ∧ code.resolve source = some target
  | .inr final => Seeded code target (seeds ++ sources) final

theorem seedSources_spec (consistent : CodeGraph.Consistent code) {target : Nat} (sources : List NodeId)
    {seeds : List NodeId} {state : PathState} (seeded : Seeded code target seeds state) :
    SeedAnswer code target seeds sources (seedSources code target state sources) := by
  induction sources generalizing seeds state with
  | nil =>
    change Seeded code target (seeds ++ []) state
    rwa [append_nil]
  | cons source sources ih =>
    have later {state' : PathState} (seeded' : Seeded code target (seeds ++ [source]) state') :
        SeedAnswer code target seeds (source :: sources) (seedSources code target state' sources) := by
      have rest := ih seeded'
      cases answer : seedSources code target state' sources with
      | inl source' =>
        rw [answer] at rest
        exact ⟨mem_cons_of_mem _ rest.1, rest.2⟩
      | inr final =>
        rw [answer] at rest
        change Seeded code target (seeds ++ [source] ++ sources) final at rest
        rwa [append_assoc] at rest
    rw [seedSources]
    cases resolved : code.resolve source with
    | none =>
      refine later ⟨seeded.searching, ?_, ?_, ?_, seeded.cost⟩
      · intro slot parent
        rw [seeded.parents]
        simp [resolved]
      · intro slot depth
        rw [seeded.queue]
        simp [resolved]
      intro seed mem
      rcases mem_append.mp mem with earlier | last
      · exact seeded.apart seed earlier
      · rw [mem_singleton.mp last, resolved]
        exact (Option.some_ne_none target).symm
    | some idx =>
      dsimp only
      split
      · rename_i here
        rw [here] at resolved
        exact ⟨mem_cons_self, resolved⟩
      rename_i differs
      have apart : ∀ seed ∈ seeds ++ [source], code.resolve seed ≠ some target := by
        intro seed mem
        rcases mem_append.mp mem with earlier | last
        · exact seeded.apart seed earlier
        · rw [mem_singleton.mp last, resolved]
          exact fun same => differs (Option.some.inj same)
      have wider (slot : Nat) : (∃ seed ∈ seeds ++ [source], code.resolve seed = some slot) ↔
          (∃ seed ∈ seeds, code.resolve seed = some slot) ∨ slot = idx := by
        simp [or_and_right, exists_or, resolved, eq_comm]
      split
      · rename_i present
        obtain ⟨parent, found⟩ := Option.isSome_iff_exists.mp present
        have old := ((seeded.parents idx parent).mp found).2
        have same (slot : Nat) : (∃ seed ∈ seeds ++ [source], code.resolve seed = some slot) ↔
            ∃ seed ∈ seeds, code.resolve seed = some slot := by
          rw [wider]
          refine or_iff_left_of_imp fun here => ?_
          rwa [here]
        refine later ⟨seeded.searching, ?_, ?_, apart, seeded.cost⟩
        · intro slot parent
          rw [seeded.parents, same]
        · intro slot depth
          rw [seeded.queue, same]
      rename_i absent
      refine later ⟨seeded.searching, ?_, ?_, apart, ?_⟩
      · intro slot parent
        rw [get_set, wider]
        split
        · rename_i here
          simp [here, eq_comm]
        · rename_i other
          rw [seeded.parents, or_iff_left other]
      · intro slot depth
        rw [mem_append, seeded.queue, wider, mem_singleton, Prod.mk.injEq, and_or_left]
        exact or_congr_right and_comm
      have stored := ((resolve_eq_some_iff consistent source idx).mp resolved).1
      have unknown : ¬ state.Known none idx := by simpa [PathState.Known] using absent
      have paid := cost_set stored unknown idx (state.queue ++ [(idx, 0)]) state.found
      have before := seeded.cost
      rw [length_append, length_singleton] at paid
      omega

theorem avoidsSlot_never (code : CodeGraph) (slot : Nat) :
    avoidsSlot code (fun _ _ => false) slot = false := by
  unfold avoidsSlot
  split <;> rfl

theorem follows_successors (code : CodeGraph) (target : Nat) :
    Follows code (fun _ _ => false) (fun _ => false) target code.graph.successors := by
  intro first second
  rw [StableGraph.successors, mem_map]
  simp only [StableGraph.mem_edgesFrom, avoidsSlot_never]
  constructor
  · rintro ⟨link, ⟨listed, here⟩, there⟩
    exact ⟨link, listed, here, there, trivial, .inr trivial⟩
  · rintro ⟨link, listed, here, there, -⟩
    exact ⟨link, ⟨listed, here⟩, there⟩

theorem follows_successorsAvoiding (code : CodeGraph) (avoidNode : NodeId → NodeData → Bool)
    (target : Nat) : Follows code avoidNode (fun _ => false) target
      (successorsAvoiding code avoidNode target) := by
  intro first second
  rw [successorsAvoiding, mem_filter, follows_successors code target]
  simp only [avoidsSlot_never, or_true, and_true, Bool.or_eq_true, decide_eq_true_eq, Bool.not_eq_true']
  constructor
  · rintro ⟨⟨link, listed, here, there⟩, kept⟩
    exact ⟨link, listed, here, there, trivial, kept⟩
  · rintro ⟨link, listed, here, there, -, kept⟩
    exact ⟨⟨link, listed, here, there⟩, kept⟩

theorem follows_successorsAvoidingEdge (code : CodeGraph) (avoidEdge : EdgeData → Bool)
    (target : Nat) : Follows code (fun _ _ => false) avoidEdge target
      (successorsAvoidingEdge code avoidEdge) := by
  intro first second
  rw [successorsAvoidingEdge, mem_map]
  simp only [mem_filter, StableGraph.mem_edgesFrom, avoidsSlot_never, Bool.not_eq_true']
  constructor
  · rintro ⟨link, ⟨⟨listed, here⟩, kept⟩, there⟩
    exact ⟨link, listed, here, there, kept, .inr trivial⟩
  · rintro ⟨link, listed, here, there, kept, -⟩
    exact ⟨link, ⟨⟨listed, here⟩, kept⟩, there⟩

variable {avoidNode : NodeId → NodeData → Bool} {avoidEdge : EdgeData → Bool} {source target : NodeId}

theorem none_shortest {starts : NodeId → Prop} (maxDepth : Nat)
    (excluded : (∀ start, starts start → ¬ CodeGraph.Allowed code avoidNode start) ∨
      ¬ CodeGraph.Allowed code avoidNode target) :
    Shortest (Admissible code avoidNode avoidEdge starts target) maxDepth none := by
  intro path admissible
  rcases excluded with closed | closed
  · obtain ⟨start, head, begins⟩ := admissible.head
    exact absurd (admissible.nodes start (mem_of_mem_head? head)) (closed start begins)
  · exact absurd (admissible.nodes target (mem_of_getLast? admissible.last)) closed

/-- A path of one node is as short as a path can be. -/
theorem single_shortest {starts : NodeId → Prop} (maxDepth : Nat) (begins : starts target)
    (allowed : CodeGraph.Allowed code avoidNode target) :
    Shortest (Admissible code avoidNode avoidEdge starts target) maxDepth (some [target]) := by
  refine ⟨⟨⟨target, rfl, begins⟩, rfl, ?_, isChain_singleton target⟩, ?_, ?_⟩
  · intro id mem
    rwa [mem_singleton.mp mem]
  · simp
  intro other admissible
  refine length_pos_iff.mpr fun empty => ?_
  have last := admissible.last
  rw [empty] at last
  contradiction

theorem between_shortest (consistent : CodeGraph.Consistent code) {sourceIdx targetIdx : Nat}
    (here : code.resolve source = some sourceIdx) (there : code.resolve target = some targetIdx)
    (open' : avoidsSlot code avoidNode sourceIdx = false)
    (open'' : avoidsSlot code avoidNode targetIdx = false) {next : Nat → List Nat}
    (follows : Follows code avoidNode avoidEdge targetIdx next) (maxDepth : Nat) :
    Shortest (Admissible code avoidNode avoidEdge (· = source) target) maxDepth
      (if sourceIdx = targetIdx then some [source]
        else searchPath code next sourceIdx targetIdx maxDepth) := by
  obtain ⟨stored, rfl⟩ := (resolve_eq_some_iff consistent source sourceIdx).mp here
  obtain ⟨stored', rfl⟩ := (resolve_eq_some_iff consistent target targetIdx).mp there
  split
  · rename_i same
    rw [same]
    exact single_shortest maxDepth rfl ((allowed_iff consistent _).mpr ⟨targetIdx, stored', rfl, open''⟩)
  rename_i differs
  refine searchPath_shortest consistent follows ?_
    (fun slot => (Iff.rfl : slot = sourceIdx ↔ slot = sourceIdx)) stored' open'' differs maxDepth
  intro slot
  constructor
  · rintro rfl
    exact ⟨stored, rfl, open'⟩
  · rintro ⟨inside, named, -⟩
    exact nameOf_injOn consistent inside stored named

theorem not_allowed_of_unresolved {id : NodeId} (unresolved : code.resolve id = none) :
    ¬ CodeGraph.Allowed code avoidNode id := by
  rintro ⟨slot, data, resolved, -⟩
  rw [unresolved] at resolved
  contradiction

theorem avoidsAt_eq (consistent : CodeGraph.Consistent code) {id : NodeId} {slot : Nat}
    (resolved : code.resolve id = some slot) :
    avoidsAt code avoidNode id slot = avoidsSlot code avoidNode slot := by
  obtain ⟨stored, rfl⟩ := (resolve_eq_some_iff consistent id slot).mp resolved
  rw [avoidsAt, avoidsSlot, nodeIdFor_eq stored]
  cases code.graph.node slot <;> rfl

theorem not_allowed_of_avoided (consistent : CodeGraph.Consistent code) {id : NodeId} {slot : Nat}
    (resolved : code.resolve id = some slot) (avoided : avoidsSlot code avoidNode slot = true) :
    ¬ CodeGraph.Allowed code avoidNode id := by
  intro allowed
  obtain ⟨slot', stored, named, kept⟩ := (allowed_iff consistent id).mp allowed
  rw [(resolve_eq_some_iff consistent id slot').mpr ⟨stored, named⟩] at resolved
  rw [Option.some.inj resolved, avoided] at kept
  contradiction

theorem findPathAvoiding_shortest (consistent : CodeGraph.Consistent code) (source target : NodeId)
    (maxDepth : Nat) (avoidNode : NodeId → NodeData → Bool) :
    Shortest (Admissible code avoidNode (fun _ => false) (· = source) target) maxDepth
      (findPathAvoiding code source target maxDepth avoidNode) := by
  unfold findPathAvoiding
  cases here : code.resolve source with
  | none =>
    refine none_shortest maxDepth (.inl ?_)
    rintro start rfl
    exact not_allowed_of_unresolved here
  | some sourceIdx =>
    cases there : code.resolve target with
    | none => exact none_shortest maxDepth (.inr (not_allowed_of_unresolved there))
    | some targetIdx =>
      dsimp only
      rw [avoidsAt_eq consistent here, avoidsAt_eq consistent there]
      cases left : avoidsSlot code avoidNode sourceIdx with
      | true =>
        refine none_shortest maxDepth (.inl ?_)
        rintro start rfl
        exact not_allowed_of_avoided consistent here left
      | false =>
        cases right : avoidsSlot code avoidNode targetIdx with
        | true => exact none_shortest maxDepth (.inr (not_allowed_of_avoided consistent there right))
        | false =>
          exact between_shortest consistent here there left right
            (follows_successorsAvoiding code avoidNode targetIdx) maxDepth

theorem findPathAvoidingEdge_shortest (consistent : CodeGraph.Consistent code) (source target : NodeId)
    (maxDepth : Nat) (avoidEdge : EdgeData → Bool) :
    Shortest (Admissible code (fun _ _ => false) avoidEdge (· = source) target) maxDepth
      (findPathAvoidingEdge code source target maxDepth avoidEdge) := by
  unfold findPathAvoidingEdge
  cases here : code.resolve source with
  | none =>
    refine none_shortest maxDepth (.inl ?_)
    rintro start rfl
    exact not_allowed_of_unresolved here
  | some sourceIdx =>
    cases there : code.resolve target with
    | none => exact none_shortest maxDepth (.inr (not_allowed_of_unresolved there))
    | some targetIdx =>
      exact between_shortest consistent here there (avoidsSlot_never code sourceIdx)
        (avoidsSlot_never code targetIdx) (follows_successorsAvoidingEdge code avoidEdge targetIdx)
        maxDepth

/-- The plain search is the one that avoids no edge. -/
theorem findPath_shortest (consistent : CodeGraph.Consistent code) (source target : NodeId) (maxDepth : Nat) :
    Shortest (Admissible code (fun _ _ => false) (fun _ => false) (· = source) target) maxDepth
      (findPath code source target maxDepth) := by
  unfold findPath
  cases here : code.resolve source with
  | none =>
    refine none_shortest maxDepth (.inl ?_)
    rintro start rfl
    exact not_allowed_of_unresolved here
  | some sourceIdx =>
    cases there : code.resolve target with
    | none => exact none_shortest maxDepth (.inr (not_allowed_of_unresolved there))
    | some targetIdx =>
      exact between_shortest consistent here there (avoidsSlot_never code sourceIdx)
        (avoidsSlot_never code targetIdx) (follows_successors code targetIdx) maxDepth

theorem findPathMultiSource_shortest (consistent : CodeGraph.Consistent code) (sources : List NodeId)
    (target : NodeId) (maxDepth : Nat) :
    Shortest (Admissible code (fun _ _ => false) (fun _ => false) (· ∈ sources) target) maxDepth
      (findPathMultiSource code sources target maxDepth) := by
  unfold findPathMultiSource
  cases there : code.resolve target with
  | none => exact none_shortest maxDepth (.inr (not_allowed_of_unresolved there))
  | some targetIdx =>
    obtain ⟨stored, rfl⟩ := (resolve_eq_some_iff consistent target targetIdx).mp there
    have start : Seeded code targetIdx [] ⟨∅, [], false⟩ := by
      refine ⟨rfl, by simp, by simp, by simp, ?_⟩
      rw [← code.graph.length_slots]
      change 0 + _ ≤ _
      rw [Nat.zero_add]
      exact length_filter_le _ _
    have answer := seedSources_spec consistent sources start
    dsimp only
    generalize seedSources code targetIdx ⟨∅, [], false⟩ sources = seeding at answer ⊢
    cases seeding with
    | inl source =>
      obtain ⟨mem, resolved⟩ := answer
      obtain ⟨-, rfl⟩ := (resolve_eq_some_iff consistent source targetIdx).mp resolved
      exact single_shortest maxDepth mem
        ((allowed_iff consistent _).mpr ⟨targetIdx, stored, rfl, avoidsSlot_never code targetIdx⟩)
    | inr seeded =>
      replace answer : Seeded code targetIdx sources seeded := answer
      let roots (slot : Nat) : Prop := ∃ seed ∈ sources, code.resolve seed = some slot
      let depth (slot : Nat) : Option Nat := (seeded.parents.get slot).map fun _ => 0
      have met (slot count : Nat) : depth slot = some count ↔ count = 0 ∧ roots slot := by
        rw [Option.map_eq_some_iff]
        constructor
        · rintro ⟨parent, found, rfl⟩
          exact ⟨rfl, ((answer.parents slot parent).mp found).2⟩
        · rintro ⟨rfl, root⟩
          exact ⟨slot, (answer.parents slot slot).mpr ⟨rfl, root⟩, rfl⟩
      have rooted (slot : Nat) : depth slot = some 0 ↔ roots slot := by rw [met, and_iff_right rfl]
      have sound : seeded.Sound code.graph.successors roots targetIdx maxDepth none depth := by
        refine ⟨?_, ?_, ?_, fun found => ?_⟩
        · intro slot
          change none = some slot ∨ _ ↔ ((seeded.parents.get slot).map fun _ => 0).isSome = true
          simp
        · exact fun slot here => .inr ((answer.parents slot slot).mpr ⟨rfl, (rooted slot).mp here⟩)
        · intro _
          refine DepthSearch.start rooted (fun slot count here => ((met slot count).mp here).1) ?_ ?_
          · exact fun slot count => (answer.queue slot count).trans (met slot count).symm
          by_contra known
          obtain ⟨count, here⟩ := Option.ne_none_iff_exists'.mp known
          obtain ⟨seed, mem, resolved⟩ := ((met targetIdx count).mp here).2
          exact answer.apart seed mem resolved
        · rw [answer.searching] at found
          contradiction
      refine search_shortest consistent (follows_successors code targetIdx) ?_ stored
        (avoidsSlot_never code targetIdx) sound (answer.cost.trans (Nat.le_succ _))
        (fun parents slot => decide (parents.get slot = some slot)) ?_
      · intro slot
        constructor
        · rintro ⟨seed, mem, resolved⟩
          obtain ⟨inside, rfl⟩ := (resolve_eq_some_iff consistent seed slot).mp resolved
          exact ⟨inside, mem, avoidsSlot_never code slot⟩
        · rintro ⟨inside, mem, -⟩
          exact ⟨_, mem, (resolve_eq_some_iff consistent _ slot).mpr ⟨inside, rfl⟩⟩
      intro final depth' sound' slot count here
      rw [decide_eq_true_eq]
      cases count with
      | zero =>
        have own := (sound'.unled slot here).resolve_left (Option.some_ne_none slot).symm
        exact iff_of_true own rfl
      | succ count =>
        obtain ⟨before, found, here', -⟩ := sound'.led.led slot count here
        refine iff_of_false ?_ (Nat.succ_ne_zero count)
        intro own
        rw [found] at own
        rw [Option.some.inj own, here] at here'
        exact absurd (Option.some.inj here') (Nat.succ_ne_self count)

/-- The search from several sources is as short as the best of the searches from each. -/
theorem findPathMultiSource_min (consistent : CodeGraph.Consistent code) (sources : List NodeId)
    (target : NodeId) (maxDepth : Nat) :
    (findPathMultiSource code sources target maxDepth).map List.length =
      (sources.filterMap fun source =>
        (findPath code source target maxDepth).map List.length).min? := by
  have single (source : NodeId) := findPath_shortest consistent source target maxDepth
  have several := findPathMultiSource_shortest consistent sources target maxDepth
  have from' {source : NodeId} (mem : source ∈ sources) {path : List NodeId}
      (admissible : Admissible code (fun _ _ => false) (fun _ => false) (· = source) target path) :
      Admissible code (fun _ _ => false) (fun _ => false) (· ∈ sources) target path := by
    obtain ⟨start, head, begins⟩ := admissible.head
    exact ⟨⟨start, head, begins ▸ mem⟩, admissible.last, admissible.nodes, admissible.steps⟩
  cases answer : findPathMultiSource code sources target maxDepth with
  | none =>
    rw [answer] at several
    have empty : (sources.filterMap fun source =>
        (findPath code source target maxDepth).map List.length) = [] := by
      refine filterMap_eq_nil_iff.mpr fun source mem => ?_
      have short := single source
      cases found : findPath code source target maxDepth with
      | none => rfl
      | some path =>
        rw [found] at short
        have far := several path (from' mem short.1)
        have near := short.2.1
        omega
    rw [empty]
    rfl
  | some path =>
    rw [answer] at several
    obtain ⟨admissible, within, least⟩ := several
    symm
    rw [Option.map_some, min?_eq_some_iff]
    constructor
    · obtain ⟨source, head, mem⟩ := admissible.head
      have own : Admissible code (fun _ _ => false) (fun _ => false) (· = source) target path :=
        ⟨⟨source, head, rfl⟩, admissible.last, admissible.nodes, admissible.steps⟩
      refine mem_filterMap.mpr ⟨source, mem, ?_⟩
      have short := single source
      cases found : findPath code source target maxDepth with
      | none =>
        rw [found] at short
        have far := short path own
        omega
      | some other =>
        rw [found] at short
        have low := least other (from' mem short.1)
        have high := short.2.2 path own
        exact congrArg some (le_antisymm high low)
    intro size listed
    obtain ⟨source, mem, measured⟩ := mem_filterMap.mp listed
    obtain ⟨other, found, rfl⟩ := Option.map_eq_some_iff.mp measured
    have short := single source
    rw [found] at short
    exact least other (from' mem short.1)

end Variants

/-- Each search answers with a shortest admissible path within the depth when there is one, and the
search from several sources is as short as the best of those from each. -/
theorem paths_shortest {code : CodeGraph} (consistent : CodeGraph.Consistent code) (target : NodeId)
    (maxDepth : Nat) :
    (∀ source, Shortest (Admissible code (fun _ _ => false) (fun _ => false) (· = source) target) maxDepth
      (findPath code source target maxDepth)) ∧
    (∀ sources, Shortest (Admissible code (fun _ _ => false) (fun _ => false) (· ∈ sources) target)
      maxDepth (findPathMultiSource code sources target maxDepth)) ∧
    (∀ source avoidNode, Shortest (Admissible code avoidNode (fun _ => false) (· = source) target)
      maxDepth (findPathAvoiding code source target maxDepth avoidNode)) ∧
    (∀ source avoidEdge, Shortest (Admissible code (fun _ _ => false) avoidEdge (· = source) target)
      maxDepth (findPathAvoidingEdge code source target maxDepth avoidEdge)) ∧
    ∀ sources, (findPathMultiSource code sources target maxDepth).map List.length =
      (sources.filterMap fun source => (findPath code source target maxDepth).map List.length).min? :=
  ⟨fun source => findPath_shortest consistent source target maxDepth,
    fun sources => findPathMultiSource_shortest consistent sources target maxDepth,
    fun source avoidNode => findPathAvoiding_shortest consistent source target maxDepth avoidNode,
    fun source avoidEdge => findPathAvoidingEdge_shortest consistent source target maxDepth avoidEdge,
    fun sources => findPathMultiSource_min consistent sources target maxDepth⟩

/-- The first function calls the third one itself and by way of the second one. -/
def detour : List (CodeGraph.Operation Unit) :=
  [.addNode { id := ⟨1⟩, kind := .function, name := "a" },
    .addNode { id := ⟨2⟩, kind := .function, name := "b" },
    .addNode { id := ⟨3⟩, kind := .function, name := "c" },
    .addEdge ⟨1⟩ ⟨3⟩ { kind := .calls, weight := 0 }, .addEdge ⟨1⟩ ⟨2⟩ { kind := .calls, weight := 0 },
    .addEdge ⟨2⟩ ⟨3⟩ { kind := .calls, weight := 0 }]

/-- The direct call is the shortest path that does not come by the second function. -/
theorem paths_shortest_detour :
    Shortest (Admissible (CodeGraph.run .fresh detour) (fun id _ => decide (id = ⟨2⟩)) (fun _ => false)
      (· = ⟨1⟩) ⟨3⟩) 2 (some [⟨1⟩, ⟨3⟩]) := by
  have answer : findPathAvoiding (CodeGraph.run .fresh detour) ⟨1⟩ ⟨3⟩ 2
      (fun id _ => decide (id = ⟨2⟩)) = some [⟨1⟩, ⟨3⟩] := by
    decide +kernel
  rw [← answer]
  exact (paths_shortest (run_consistent .fresh detour) ⟨3⟩ 2).2.2.1 ⟨1⟩ _

end Codegraph.Dsl
