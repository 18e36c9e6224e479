import Codegraph.ReachingDefs.BranchOutcomes
import Codegraph.ReachingDefs.LiveBefore

namespace Codegraph

open Library List Option Blocks

/-- Reads of the place below the safe block are clean while they see only checked definitions. -/
structure Guard where
  place : Place
  safe : Nat
  checked : List Nat
deriving DecidableEq

namespace Guards

def nameDefinition (defs : Dict Var Nat) (entry : IrOp × Nat) : Dict Var Nat :=
  match entry.1 with
  | .assign dst _ | .binOp dst _ _ _ => if isTemp dst then defs.set dst entry.2 else defs
  | _ => defs

/-- The last assignment of each temporary. -/
def tempDefs (func : IrFunction) : Dict Var Nat := func.body.zipIdx.foldl nameDefinition ∅

/-- The walk follows this many definitions below a condition. -/
def maxDepth : Nat := 17

/-- The variables an operation's truth depends on, with the truth they have when its own is as
given. Both sides of a conjunction hold when it does, and `!x` is written `x == false`. -/
def below (op : IrOp) (holds : Bool) : List (Var × Bool) :=
  match op with
  | .assign _ (.var src) => [(src, holds)]
  | .binOp _ lhs .and rhs =>
    if holds then
      [lhs, rhs].filterMap fun side =>
        match side with
        | .var side => some (side, true)
        | _ => none
    else []
  | .binOp _ (.var inner) .eq (.const c) => if c = "false" then [(inner, !holds)] else []
  | .binOp _ (.const c) .eq (.var inner) => if c = "false" then [(inner, !holds)] else []
  | _ => []

/-- The stack is popped from its end, so the right side of a conjunction comes first. -/
def walk (func : IrFunction) (check : Var) : Nat → Var → Bool → List Bool
  | depth, var, holds =>
    if var = check then [holds]
    else
      match depth with
      | 0 => []
      | depth + 1 =>
        match ((tempDefs func).get var).bind fun index => func.body[index]? with
        | some op => (below op holds).reverse.flatMap fun side => walk func check depth side.1 side.2
        | none => []

/-- The branches whose condition is the check, and whether it holds when they are taken. -/
def branchesOn (func : IrFunction) (check : Operand) : List (Nat × Bool) :=
  match check with
  | .var check =>
    func.body.zipIdx.flatMap fun entry =>
      match entry.1 with
      | .branch (.var cond) _ => (walk func check maxDepth cond true).map fun holds => (entry.2, holds)
      | _ => []
  | _ => []

/-- An edge dominates what its target dominates only when it is the target's one way in. -/
def guardOf (func : IrFunction) (rd : ReachingDefs) (place : Place) (safeWhenTrue : Bool)
    (found : Nat × Bool) : Option Guard :=
  match rd.blocks.blockOf found.1, func.body[found.1]? with
  | some block, some (.branch _ target) =>
    let taken := rd.blocks.targetBlock func target
    let fallthrough := rd.blocks.fallthrough block
    let safe := if found.2 = safeWhenTrue then taken else fallthrough
    (safe.filter fun safe => rd.blocks.predsOf safe = [block]).map fun safe =>
      { place := place, safe := safe, checked := rd.reaching found.1 place }
  | _, _ => none

def resolve (func : IrFunction) (rd : ReachingDefs) (check : Operand) (place : Place)
    (safeWhenTrue : Bool) : List Guard :=
  (branchesOn func check).filterMap (guardOf func rd place safeWhenTrue)

end Guards

/-- Every path from the entry to the second block passes the first. -/
def Blocks.Dominates (blocks : Blocks) (first second : Nat) : Prop :=
  ∀ passed, EntryPath blocks.edge 0 second passed → first ∈ passed ++ [second]

namespace Guards

def isConjunction : IrOp → Bool
  | .binOp _ _ .and _ => true
  | _ => false

/-- The truth of the condition decides that of the last variable along these definitions, and the
flag says whether a conjunction is among them. -/
inductive Chain (func : IrFunction) : Var → Bool → Var → Bool → List Var → Bool → Prop
  | here (var : Var) (holds : Bool) : Chain func var holds var holds [] false
  | next {var side last : Var} {holds sideHolds lastHolds conjunction : Bool} {index : Nat} {op : IrOp}
      {temps : List Var} (defined : (tempDefs func).get var = some index)
      (fetched : func.body[index]? = some op) (reads : (side, sideHolds) ∈ below op holds)
      (rest : Chain func side sideHolds last lastHolds temps conjunction) :
      Chain func var holds last lastHolds (var :: temps)
        (conjunction || isConjunction op)

theorem walk_chain {func : IrFunction} {check : Var} {depth : Nat} {var : Var} {holds found : Bool}
    (mem : found ∈ walk func check depth var holds) :
    ∃ temps conjunction, Chain func var holds check found temps conjunction := by
  induction depth generalizing var holds with
  | zero =>
    unfold walk at mem
    split at mem
    · rename_i same
      obtain rfl : found = holds := by simpa using mem
      exact ⟨[], false, same ▸ Chain.here var found⟩
    · simp at mem
  | succ depth ih =>
    unfold walk at mem
    split at mem
    · rename_i same
      obtain rfl : found = holds := by simpa using mem
      exact ⟨[], false, same ▸ Chain.here var found⟩
    dsimp only at mem
    split at mem
    · rename_i op definition
      obtain ⟨index, defined, fetched⟩ := bind_eq_some_iff.mp definition
      obtain ⟨⟨side, sideHolds⟩, reads, further⟩ := mem_flatMap.mp mem
      obtain ⟨temps, conjunction, rest⟩ := ih further
      exact ⟨_, _, Chain.next defined fetched (mem_reverse.mp reads) rest⟩
    · simp at mem

end Guards

namespace Exec

open Guards

/-- The temporaries hold what their definitions would compute now. -/
def Fresh (interp : Interp) (func : IrFunction) (env : Env) (temps : List Var) : Prop :=
  ∀ temp ∈ temps, ∀ (index : Nat) op, (tempDefs func).get temp = some index →
    func.body[index]? = some op → interp.Result env op (env temp)

theorem isTrue_ofBool (interp : Interp) (value : Bool) : interp.isTrue (ofBool value) = value := by
  cases value <;> rfl

theorem below_sound {interp : Interp} {env : Env} {op : IrOp} {holds sideHolds : Bool} {side : Var}
    {value : Value} (reads : (side, sideHolds) ∈ below op holds)
    (computed : interp.Result env op value) :
    (interp.isTrue value = holds → interp.isTrue (env side) = sideHolds) ∧ (isConjunction op = false →
        interp.isTrue (env side) = sideHolds → interp.isTrue value = holds) := by
  have negation {inner : Var} (found : (side, sideHolds) ∈ [(inner, !holds)])
      (negates : value = ofBool (!interp.isTrue (env inner))) :
      interp.isTrue value = holds ↔ interp.isTrue (env side) = sideHolds := by
    obtain ⟨rfl, rfl⟩ := Prod.mk.inj (mem_singleton.mp found)
    rw [negates, isTrue_ofBool]
    cases interp.isTrue (env side) <;> cases holds <;> decide
  unfold below at reads
  split at reads
  · obtain ⟨rfl, rfl⟩ := Prod.mk.inj (mem_singleton.mp reads)
    have copied : value = env side := computed
    rw [copied]
    exact ⟨id, fun _ => id⟩
  · rename_i dst lhs rhs
    split at reads
    · rename_i taken
      subst taken
      have conjunction : value = ofBool (interp.isTrue (interp.operand env lhs) &&
          interp.isTrue (interp.operand env rhs)) := by
        simpa [Interp.Result, negated, Interp.BinOpResult] using computed
      refine ⟨fun holds => ?_, fun other => by simp [isConjunction] at other⟩
      rw [conjunction, isTrue_ofBool, Bool.and_eq_true] at holds
      obtain ⟨operand, listed, found⟩ := mem_filterMap.mp reads
      cases operand with
      | var inner =>
        cases found
        rcases mem_cons.mp listed with rfl | listed
        · exact holds.1
        · obtain rfl := mem_singleton.mp listed
          exact holds.2
      | const text => contradiction
      | temp number => contradiction
    · simp at reads
  · rename_i dst inner c
    split at reads
    · rename_i literal
      subst literal
      have negates : value = ofBool (!interp.isTrue (interp.operand env (.var inner))) := by
        simpa [Interp.Result, negated] using computed
      have same := negation reads negates
      exact ⟨same.mp, fun _ => same.mpr⟩
    · simp at reads
  · rename_i dst c inner
    split at reads
    · rename_i literal
      subst literal
      have negates : value = ofBool (!interp.isTrue (interp.operand env (.var inner))) := by
        simpa [Interp.Result, negated] using computed
      have same := negation reads negates
      exact ⟨same.mp, fun _ => same.mpr⟩
    · simp at reads
  · simp at reads

/-- The same along a chain of definitions whose temporaries are fresh. -/
theorem chain_sound {interp : Interp} {func : IrFunction} {env : Env} {var last : Var}
    {holds lastHolds conjunction : Bool} {temps : List Var}
    (chain : Guards.Chain func var holds last lastHolds temps conjunction)
    (fresh : Fresh interp func env temps) :
    (interp.isTrue (env var) = holds → interp.isTrue (env last) = lastHolds) ∧
      (conjunction = false → interp.isTrue (env last) = lastHolds → interp.isTrue (env var) = holds) := by
  induction chain with
  | here var holds => exact ⟨id, fun _ => id⟩
  | @next var side last holds sideHolds lastHolds conjunction index op temps defined fetched reads
      rest ih =>
      have computed := fresh var (by simp) index op defined fetched
      obtain ⟨down, up⟩ := below_sound reads computed
      obtain ⟨down', up'⟩ := ih fun temp mem => fresh temp (by simp [mem])
      refine ⟨fun held => down' (down held), fun none held => ?_⟩
      obtain ⟨noneRest, noneHere⟩ := Bool.or_eq_false_iff.mp none
      exact up noneHere (up' noneRest held)

/-- The execution last left the branch for the safe block, in a configuration with the property. -/
def LastLeft (blocks : Blocks) (branch safe : Nat) (property : Config → Prop)
    (history : List Config) (config : Config) : Prop :=
  ∃ earlier current later, history = earlier ++ current :: later ∧ current.pc = branch ∧
    (∀ other ∈ later, other.pc ≠ branch) ∧
    (((later ++ [config]).head?).bind fun next => blocks.blockOf next.pc) = some safe ∧
    property current

/-- A path from the entry reaches the block without the safe one. -/
def Avoids (blocks : Blocks) (safe block : Nat) : Prop :=
  ∃ passed, EntryPath blocks.edge 0 block passed ∧ safe ∉ passed ++ [block]

theorem avoids_step {blocks : Blocks} {safe block next : Nat} (avoids : Avoids blocks safe block)
    (linked : blocks.edge block next) (different : next ≠ safe) : Avoids blocks safe next := by
  obtain ⟨passed, path, absent⟩ := avoids
  refine ⟨passed ++ [block], path.step linked, ?_⟩
  rw [mem_append, not_or]
  exact ⟨absent, by simpa using different.symm⟩

/-- The branch at the end of a block is the one way into the safe block. -/
structure OneWayIn (func : IrFunction) (blocks : Blocks) (branch block safe : Nat) (cond : Operand)
    (target : Label) (taken : Bool) : Prop where
  fetched : func.body[branch]? = some (.branch cond target)
  here : blocks.blockOf branch = some block
  preds : blocks.predsOf safe = [block]
  notEntry : safe ≠ 0
  goes : (if taken then blocks.targetBlock func target else blocks.fallthrough block) = some safe
  twoWays : blocks.targetBlock func target ≠ blocks.fallthrough block

section OneWay

variable {interp : Interp} {func : IrFunction} {constants : Dict Nat Bool} {branch block safe : Nat}
  {cond : Operand} {target : Label} {taken : Bool}
  (way : OneWayIn func (Blocks.build func constants) branch block safe cond target taken)

include way

theorem edge_truth {config next : Config} (here : config.pc = branch) (moved : Step interp func config next)
    (entered : (Blocks.build func constants).blockOf next.pc = some safe) :
    interp.isTrue (interp.operand config.env cond) = taken := by
  have fetched := way.fetched
  have ended := endOf_of_endsBlock func constants fetched rfl way.here
  have goes := way.goes
  subst here
  cases moved with
  | define fetched' defines _ =>
    rw [fetched] at fetched'
    cases fetched'
    contradiction
  | pass fetched' _ stays =>
    rw [fetched] at fetched'
    cases fetched'
    contradiction
  | jump fetched' _ =>
    rw [fetched] at fetched'
    cases fetched'
  | taken fetched' holds found =>
    rw [fetched] at fetched'
    cases fetched'
    have targeted : (Blocks.build func constants).targetBlock func target = some safe := by
      rwa [Blocks.targetBlock, found]
    cases taken with
    | true => exact holds
    | false => exact absurd (targeted.trans goes.symm) way.twoWays
  | fallthrough fetched' fails =>
    rw [fetched] at fetched'
    cases fetched'
    have fell : (Blocks.build func constants).fallthrough block = some safe := by
      rcases blockOf_succ func constants way.here entered with ⟨-, within⟩ | ⟨rfl, -⟩
      · omega
      · have sorted := build_sorted func constants
        exact fallthrough_eq_some.mpr ⟨rfl, ((blockOf_eq_some sorted).mp entered).2.1⟩
    cases taken with
    | true => exact absurd (goes.trans fell.symm) way.twoWays
    | false => exact fails

/-- An execution outside the blocks, before the safe block, or behind it. -/
def Behind (interp : Interp) (blocks : Blocks) (branch block safe : Nat) (cond : Operand)
    (taken : Bool) (history : List Config) (config : Config) : Prop :=
  blocks.blockOf config.pc = none ∨
    (∃ here, blocks.blockOf config.pc = some here ∧ Avoids blocks safe here) ∨
    (Avoids blocks safe block ∧ LastLeft blocks branch safe
      (fun current => interp.isTrue (interp.operand current.env cond) = taken) history config)

theorem step_behind {history : List Config} {config next : Config}
    (agrees : Agrees interp func constants config) (moved : Step interp func config next)
    (behind : Behind interp (Blocks.build func constants) branch block safe cond taken history config) :
    Behind interp (Blocks.build func constants) branch block safe cond taken
      (history ++ [config]) next := by
  have linked := build_linked func constants
  have ended := endOf_of_endsBlock func constants way.fetched rfl way.here
  cases there : (Blocks.build func constants).blockOf next.pc with
  | none => exact .inl there
  | some block' =>
    right
    obtain ⟨here, hereBlock, follows⟩ := step_follows agrees moved block' there
    -- Only the branch leaves its block, and only its block leads to the safe one.
    have leaving (avoids : Avoids (Blocks.build func constants) safe here)
        (ends : (Blocks.build func constants).endOf here = config.pc + 1)
        (edge : (Blocks.build func constants).edge here block') :
        (∃ here, (Blocks.build func constants).blockOf next.pc = some here ∧
            Avoids (Blocks.build func constants) safe here) ∨
          (Avoids (Blocks.build func constants) safe block ∧
            LastLeft (Blocks.build func constants) branch safe
              (fun current => interp.isTrue (interp.operand current.env cond) = taken)
              (history ++ [config]) next) := by
      by_cases into : block' = safe
      · subst into
        have pred := (linked.mirrored here block').mp edge
        rw [way.preds, mem_singleton] at pred
        subst pred
        have atBranch : config.pc = branch := by omega
        exact .inr ⟨avoids, history, config, [], rfl, atBranch, by simp, there,
          edge_truth way atBranch moved there⟩
      · exact .inl ⟨block', there, avoids_step avoids edge into⟩
    rcases behind with outside | ⟨here', hereBlock', avoids⟩ | ⟨avoids, earlier, current, later,
      split, atBranch, none, entered, truth⟩
    · rw [hereBlock] at outside
      contradiction
    · rw [hereBlock] at hereBlock'
      cases hereBlock'
      rcases follows with ⟨rfl, -, -⟩ | ⟨ends, edge⟩
      · exact .inl ⟨block', there, avoids⟩
      · exact leaving avoids ends edge
    by_cases again : config.pc = branch
    · rw [again, way.here] at hereBlock
      cases hereBlock
      rcases follows with ⟨-, advanced, within⟩ | ⟨ends, edge⟩
      · omega
      · exact leaving avoids ends edge
    refine .inr ⟨avoids, earlier, current, later ++ [config], by simp [split], atBranch, ?_, ?_, truth⟩
    · intro other mem
      rcases mem_append.mp mem with old | new
      · exact none other old
      · rwa [mem_singleton.mp new]
    · rwa [head?_append, or_of_isSome (by simp)]

theorem run_behind {history : List Config} {config : Config} (run : Run interp func history config)
    (always : Throughout (fun _ config => Agrees interp func constants config) history config) :
    Behind interp (Blocks.build func constants) branch block safe cond taken history config := by
  induction run with
  | entry env =>
    cases there : (Blocks.build func constants).blockOf 0 with
    | none => exact .inl there
    | some first =>
      have zero : first = 0 := by
        have sorted := build_sorted func constants
        obtain ⟨-, inside, below, -⟩ := (blockOf_eq_some sorted).mp there
        by_contra later
        have inside' : first < (Blocks.build func constants).starts.length := inside
        rw [startOf_eq inside'] at below
        have := pairwise_iff_getElem.mp sorted 0 first (by omega) inside' (by omega)
        omega
      subst zero
      refine .inr (.inl ⟨0, there, [], EntryPath.entry, ?_⟩)
      simpa using way.notEntry
  | step run moved ih =>
    have before := throughout_before always
    exact step_behind way (throughout_last before) moved (ih before)

end OneWay

/-- The guard's safe block is not the entry, its branch has two ways, and a check below a conjunction
is wanted as it is on the taken way. -/
structure Trusted (func : IrFunction) (blocks : Blocks) (check : Operand) (safeWhenTrue : Bool)
    (found : Nat × Bool) (safe : Nat) : Prop where
  notEntry : safe ≠ 0
  twoWays : ∀ cond target block, func.body[found.1]? = some (.branch cond target) →
    blocks.blockOf found.1 = some block →
    blocks.targetBlock func target ≠ blocks.fallthrough block
  conjunction : ∀ cond target checked temps,
    func.body[found.1]? = some (.branch (.var cond) target) → check = .var checked →
    Guards.Chain func cond true checked found.2 temps true → found.2 = safeWhenTrue

/-- The execution agrees with the constants, and at the branch no temporary between the check and the
condition is stale. -/
def Undisturbed (interp : Interp) (func : IrFunction) (constants : Dict Nat Bool) (check : Operand)
    (found : Nat × Bool) (_ : List Config) (config : Config) : Prop :=
  Agrees interp func constants config ∧ (config.pc = found.1 → ∀ cond target checked temps conjunction,
      func.body[found.1]? = some (.branch (.var cond) target) → check = .var checked →
      Guards.Chain func cond true checked found.2 temps conjunction →
      Fresh interp func config.env temps)

/-- The execution last left the guard's branch for its safe block, with the check as wanted. -/
def PassedGuard (interp : Interp) (blocks : Blocks) (check : Operand) (safeWhenTrue : Bool)
    (found : Nat × Bool) (guard : Guard) : List Config → Config → Prop :=
  LastLeft blocks found.1 guard.safe
    fun current => interp.isTrue (interp.operand current.env check) = safeWhenTrue

theorem guardOf_eq_some {func : IrFunction} {rd : ReachingDefs} {place : Place}
    {safeWhenTrue : Bool} {found : Nat × Bool} {guard : Guard}
    (resolved : guardOf func rd place safeWhenTrue found = some guard) :
    ∃ block cond target, rd.blocks.blockOf found.1 = some block ∧
      func.body[found.1]? = some (.branch cond target) ∧
      rd.blocks.predsOf guard.safe = [block] ∧
      (if decide (found.2 = safeWhenTrue) then rd.blocks.targetBlock func target
        else rd.blocks.fallthrough block) = some guard.safe := by
  unfold guardOf at resolved
  split at resolved
  · rename_i block cond target here fetched
    obtain ⟨safe, filtered, rfl⟩ := map_eq_some_iff.mp resolved
    obtain ⟨goes, alone⟩ := filter_eq_some_iff.mp filtered
    exact ⟨block, cond, target, here, fetched, by simpa using alone, by simpa using goes⟩
  · contradiction

theorem branchesOn_chain {func : IrFunction} {check : Operand} {found : Nat × Bool}
    (listed : found ∈ branchesOn func check) :
    ∃ checked cond target temps conjunction, check = .var checked ∧
      func.body[found.1]? = some (.branch (.var cond) target) ∧
      Guards.Chain func cond true checked found.2 temps conjunction := by
  cases check with
  | const text => simp [branchesOn] at listed
  | temp number => simp [branchesOn] at listed
  | var checked =>
    obtain ⟨⟨op, index⟩, mem, further⟩ := mem_flatMap.mp listed
    have fetched := mem_zipIdx_iff_getElem?.mp mem
    dsimp only at further
    split at further
    · rename_i cond target
      obtain ⟨holds, walked, rfl⟩ := mem_map.mp further
      obtain ⟨temps, conjunction, chain⟩ := walk_chain walked
      exact ⟨checked, cond, target, temps, conjunction, rfl, fetched, chain⟩
    · simp at further

/-- An execution that is undisturbed and has reached a block behind a trusted guard has passed it. -/
theorem guard_sound (interp : Interp) (func : IrFunction) (extras : List ExtraDef)
    (options : Options) (check : Operand) (place : Place) (safeWhenTrue : Bool) (found : Nat × Bool)
    (guard : Guard) (history : List Config) (config : Config) (block : Nat)
    (listed : found ∈ branchesOn func check)
    (resolved : guardOf func (ReachingDefs.compute func extras options) place safeWhenTrue found =
      some guard)
    (trusted : Trusted func (ReachingDefs.compute func extras options).blocks check safeWhenTrue
      found guard.safe)
    (run : Run interp func history config)
    (always : Throughout (Undisturbed interp func (ReachingDefs.constants func options) check found)
      history config)
    (reached : (ReachingDefs.compute func extras options).blocks.blockOf config.pc = some block)
    (dominated : (ReachingDefs.compute func extras options).blocks.Dominates guard.safe block) :
    PassedGuard interp (ReachingDefs.compute func extras options).blocks check safeWhenTrue found
      guard history config := by
  have blocks : (ReachingDefs.compute func extras options).blocks =
    Blocks.build func (ReachingDefs.constants func options) := rfl
  obtain ⟨here, cond, target, hereBlock, fetched, preds, goes⟩ := guardOf_eq_some resolved
  rw [blocks] at trusted reached dominated hereBlock preds goes ⊢
  have way : OneWayIn func (Blocks.build func (ReachingDefs.constants func options)) found.1 here
      guard.safe cond target (found.2 = safeWhenTrue) :=
    ⟨fetched, hereBlock, preds, trusted.notEntry, goes, trusted.twoWays cond target here fetched
      hereBlock⟩
  have agrees : Throughout (fun _ config =>
      Agrees interp func (ReachingDefs.constants func options) config) history config :=
    fun earlier current later split => (always earlier current later split).1
  rcases run_behind way run agrees with outside | ⟨block', reached', passed, path, absent⟩ |
    ⟨-, earlier, current, later, split, atBranch, none, entered, truth⟩
  · rw [reached] at outside
    contradiction
  · rw [reached] at reached'
    cases reached'
    exact absurd (dominated passed path) absent
  refine ⟨earlier, current, later, split, atBranch, none, entered, ?_⟩
  obtain ⟨checked, cond', target', temps, conjunction, rfl, fetched', chain⟩ := branchesOn_chain listed
  rw [fetched] at fetched'
  cases fetched'
  have fresh := (always earlier current (later ++ [config]) (by simp [split])).2 atBranch
    cond' target checked temps conjunction fetched rfl chain
  obtain ⟨down, up⟩ := chain_sound chain fresh
  change interp.isTrue (current.env checked) = safeWhenTrue
  change interp.isTrue (current.env cond') = decide (found.2 = safeWhenTrue) at truth
  by_cases taken : found.2 = safeWhenTrue
  · rw [← taken]
    exact down (by rw [truth, decide_eq_true taken])
  have plain : conjunction = false := by
    by_contra through
    have : conjunction = true := by simpa using through
    subst this
    exact taken (trusted.conjunction cond' target checked temps fetched rfl chain)
  have fails : interp.isTrue (current.env cond') ≠ true := by
    rw [truth]
    simpa using taken
  have opposite : interp.isTrue (current.env checked) ≠ found.2 := fun same => fails (up plain same)
  cases isTrue : interp.isTrue (current.env checked) <;> cases wanted : safeWhenTrue <;>
    simp_all

/-- The branch tests the check itself. -/
def plainCheck : IrFunction :=
  { params := [⟨"a"⟩]
    body := [.branch (.var ⟨"a"⟩) ⟨0⟩, .nop, .ret none, .label ⟨0⟩, .ret none]
    labels := Dict.ofList [(⟨0⟩, 3)] }

theorem plainCheck_chain {holds found conjunction : Bool} {last : Var} {temps : List Var}
    (chain : Guards.Chain plainCheck ⟨"a"⟩ holds last found temps conjunction) :
    temps = [] := by
  cases chain with
  | here => rfl
  | next defined _ _ _ =>
    have undefined : (tempDefs plainCheck).get ⟨"a"⟩ = none := by decide
    rw [undefined] at defined
    contradiction

theorem guard_sound_plainCheck :
    let rd := ReachingDefs.compute plainCheck [] {}
    ∀ env : Env, env ⟨"a"⟩ = .int 1 → PassedGuard zeroInterp rd.blocks (.var ⟨"a"⟩) true (0, true)
        ⟨Place.var ⟨"a"⟩, 2, rd.reaching 0 (Place.var ⟨"a"⟩)⟩ [⟨0, env⟩] ⟨3, env⟩ := by
  intro rd env isOne
  have fetched : plainCheck.body[0]? = some (.branch (.var ⟨"a"⟩) ⟨0⟩) := rfl
  have holds : zeroInterp.isTrue (zeroInterp.operand env (.var ⟨"a"⟩)) = true := by
    change zeroInterp.isTrue (env ⟨"a"⟩) = true
    rw [isOne]
    rfl
  have run := Run.step (Run.entry env) (Step.taken fetched holds rfl)
  have undisturbed (history : List Config) (config : Config) :
      Undisturbed zeroInterp plainCheck (ReachingDefs.constants plainCheck {}) (.var ⟨"a"⟩)
        (0, true) history config := by
    refine ⟨fun cond target outcome branch recorded => ?_, fun _ cond target checked temps conjunction
      branch _ chain => ?_⟩
    · have unrecorded : ∀ position < 5, (ReachingDefs.constants plainCheck {}).get position = none := by
        decide
      rw [unrecorded config.pc (List.getElem?_eq_some_iff.mp branch).1] at recorded
      contradiction
    rw [fetched] at branch
    cases branch
    intro temp mem
    rw [plainCheck_chain chain] at mem
    simp at mem
  have reached : rd.blocks.blockOf 3 = some 2 := by decide
  refine guard_sound zeroInterp plainCheck [] {} (.var ⟨"a"⟩) (Place.var ⟨"a"⟩) true (0, true)
    ⟨Place.var ⟨"a"⟩, 2, rd.reaching 0 (Place.var ⟨"a"⟩)⟩ _ ⟨3, env⟩ 2 (by decide) ?_ ?_ run
    (fun earlier current later _ => undisturbed earlier current) reached (fun passed _ => by simp)
  · have here : rd.blocks.blockOf 0 = some 0 := by decide
    have target : rd.blocks.targetBlock plainCheck ⟨0⟩ = some 2 := by decide
    have preds : rd.blocks.predsOf 2 = [0] := by decide
    change guardOf plainCheck rd _ _ _ = _
    simp [guardOf, here, fetched, target, preds]
  refine ⟨by decide, fun cond target block branch here => ?_, fun _ _ _ _ _ _ _ => ?_⟩
  · rw [fetched] at branch
    cases branch
    have block0 : rd.blocks.blockOf 0 = some 0 := by decide
    obtain rfl : 0 = block := some.inj (block0.symm.trans here)
    have distinct : rd.blocks.targetBlock plainCheck ⟨0⟩ ≠ rd.blocks.fallthrough 0 := by decide
    exact distinct
  · rfl

/-- No two operations define one temporary. -/
def TempsAssignedOnce (func : IrFunction) : Prop :=
  ∀ temp, isTemp temp = true → ∀ (first second : Nat) op op',
    func.body[first]? = some op → func.body[second]? = some op' →
    definedVar op = some temp → definedVar op' = some temp → first = second

/-- The branch tests the check together with another condition. -/
def conjoinedCheck : IrFunction :=
  { params := [⟨"a"⟩, ⟨"b"⟩]
    body := [.binOp ⟨"__t0"⟩ (.var ⟨"a"⟩) .and (.var ⟨"b"⟩), .branch (.var ⟨"__t0"⟩) ⟨0⟩, .nop,
      .ret none, .label ⟨0⟩, .ret none]
    labels := Dict.ofList [(⟨0⟩, 4)] }

/-- The way a conjunction fails says nothing about one side of it. -/
theorem guards_unsound : ¬ ∀ interp func extras options check place safeWhenTrue found guard history
    config block, TempsAssignedOnce func → found ∈ branchesOn func check →
    guardOf func (ReachingDefs.compute func extras options) place safeWhenTrue found = some guard →
    Run interp func history config →
    (ReachingDefs.compute func extras options).blocks.blockOf config.pc = some block →
    (ReachingDefs.compute func extras options).blocks.Dominates guard.safe block →
    PassedGuard interp (ReachingDefs.compute func extras options).blocks check safeWhenTrue found
      guard history config := by
  intro sound
  let rd := ReachingDefs.compute conjoinedCheck [] {}
  let env : Env := fun var => if var = ⟨"a"⟩ then .int 1 else .int 0
  have once : TempsAssignedOnce conjoinedCheck := by
    have only : ∀ index < 6, ((conjoinedCheck.body[index]?).bind definedVar).isSome → index = 0 := by decide
    intro temp _ first second op op' found found' defines defines'
    have first0 := only first (List.getElem?_eq_some_iff.mp found).1 (by simp [found, defines])
    have second0 := only second (List.getElem?_eq_some_iff.mp found').1 (by simp [found', defines'])
    omega
  have conjunction : conjoinedCheck.body[0]? = some (.binOp ⟨"__t0"⟩ (.var ⟨"a"⟩) .and (.var ⟨"b"⟩)) := rfl
  have branch : conjoinedCheck.body[1]? = some (.branch (.var ⟨"__t0"⟩) ⟨0⟩) := rfl
  have computed : zeroInterp.Result env (.binOp ⟨"__t0"⟩ (.var ⟨"a"⟩) .and (.var ⟨"b"⟩)) (.int 0) := by
    change Value.int 0 = ofBool (zeroInterp.isTrue (env ⟨"a"⟩) && zeroInterp.isTrue (env ⟨"b"⟩))
    decide
  have run := Run.step (Run.step (Run.entry env) (Step.define conjunction rfl computed))
      (Step.fallthrough branch rfl)
  have resolved : guardOf conjoinedCheck rd (Place.var ⟨"a"⟩) false (1, true) =
      some ⟨Place.var ⟨"a"⟩, 1, rd.reaching 1 (Place.var ⟨"a"⟩)⟩ := by
    have here : rd.blocks.blockOf 1 = some 0 := by decide
    have falls : rd.blocks.fallthrough 0 = some 1 := by decide
    have preds : rd.blocks.predsOf 1 = [0] := by decide
    simp [guardOf, here, branch, falls, preds]
  obtain ⟨earlier, current, later, split, -, -, -, truth⟩ := sound zeroInterp conjoinedCheck [] {}
    (.var ⟨"a"⟩) (Place.var ⟨"a"⟩) false (1, true) _ _ _ 1 once (by decide) resolved run (by decide)
    (fun passed _ => by simp)
  have mem : current ∈ [] ++ [⟨0, env⟩] ++ [⟨1, write env ⟨"__t0"⟩ (.int 0)⟩] := by
    rw [split]
    simp
  have holds : zeroInterp.isTrue (current.env ⟨"a"⟩) = true := by
    rcases mem_append.mp mem with first | second
    · rw [mem_singleton.mp first]
      decide
    · rw [mem_singleton.mp second]
      decide
  change zeroInterp.isTrue (current.env ⟨"a"⟩) = false at truth
  rw [holds] at truth
  contradiction

end Exec

end Codegraph
