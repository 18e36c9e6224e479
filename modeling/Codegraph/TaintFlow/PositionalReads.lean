import Codegraph.TaintFlow.ListOwners

namespace Codegraph.TaintFlow.Lists

open Library Exec List Option Tracking

namespace Tracking

variable {func : IrFunction} {index : Nat} {op : IrOp}

theorem before_succ (fetched : func.body[index]? = some op) :
    before java func (index + 1) = (before java func index).step java (op, index) := by
  have inside := (List.getElem?_eq_some_iff.mp fetched).1
  have length : (func.body.take index).length = index := by
    rw [length_take]
    omega
  rw [before, take_add_one, fetched, toList_some, zipIdx_concat, foldl_append, length]
  rfl

/-- An operation records no read but its own. -/
theorem Steps.reads_ne {tracking after : Tracking} (steps : Steps tracking index op after) {other : Nat}
    (apart : other ≠ index) : after.reads.get other = tracking.reads.get other := by
  cases steps with
  | ended straight => rfl
  | constructed straight constructs => rfl
  | named straight plain names => rfl
  | forgotten straight plain unnamed others forgets => rw [forgets.reads]
  | used straight plain unnamed calls uses =>
    cases uses with
    | readAt known parsed found => exact Dict.get_set_ne _ _ apart
    | readFirst known first => exact Dict.get_set_ne _ _ apart
    | dropped => rfl
    | append known other => rfl
    | removeAt known parsed inside => rfl
    | removeFirst known first => rfl
    | query known => rfl

theorem before_reads_ne (func : IrFunction) {other : Nat} (apart : other ≠ index) :
    (before java func (index + 1)).reads.get other = (before java func index).reads.get other := by
  cases fetched : func.body[index]? with
  | none =>
    unfold before
    rw [take_add_one, fetched, toList_none, append_nil]
  | some op =>
    rw [before_succ fetched]
    exact (step_steps _ index op).reads_ne apart

/-- A read that is recorded in the end was recorded by its own operation. -/
theorem reads_before (func : IrFunction) (index other : Nat) : (before java func index).reads.get other =
      if other < index then (before java func (other + 1)).reads.get other else none := by
  induction index with
  | zero =>
    rw [if_neg (Nat.not_lt_zero _)]
    exact Dict.get_empty other
  | succ index ih =>
    by_cases same : other = index
    · rw [same, if_pos (Nat.lt_succ_self _)]
    · rw [before_reads_ne func same, ih]
      exact if_congr (by omega) rfl rfl

theorem positionalReads_eq {source : Operand × Nat}
    (mapped : (positionalReads func java).get index = some source) :
    (before java func (index + 1)).reads.get index = some source ∧
      (before java func index).reads.get index = none := by
  have whole : positionalReads func java = (before java func func.body.length).reads := by
    rw [positionalReads, before, take_length]
    rfl
  rw [whole, reads_before] at mapped
  split at mapped
  · refine ⟨mapped, ?_⟩
    rw [reads_before, if_neg (lt_irrefl _)]
  · contradiction

end Tracking

section Runs

variable {interp : Interp} {func : IrFunction} {history : List State} {state next : State}

theorem Step.fetches (moved : Step interp func state next) : (∃ op, func.body[state.pc]? = some op) ∧
      (next.pc = state.pc + 1 ∨ ∃ label, func.body[next.pc]? = some (.label label)) := by
  cases moved with
  | assign fetched => exact ⟨⟨_, fetched⟩, .inl rfl⟩
  | compute fetched computes known => exact ⟨⟨_, fetched⟩, .inl rfl⟩
  | fieldWrite fetched => exact ⟨⟨_, fetched⟩, .inl rfl⟩
  | call fetched calls =>
    refine ⟨⟨_, fetched⟩, .inl ?_⟩
    cases calls with
    | construct constructs unused => rfl
    | list received holds listed known acts => rfl
    | other constructs list touches => exact congrArg (· + 1) touches.pc
  | pass fetched stays => exact ⟨⟨_, fetched⟩, .inl rfl⟩
  | fallthrough fetched fails => exact ⟨⟨_, fetched⟩, .inl rfl⟩
  | taken fetched holds found labelled => exact ⟨⟨_, fetched⟩, .inr ⟨_, labelled⟩⟩
  | jump fetched found labelled => exact ⟨⟨_, fetched⟩, .inr ⟨_, labelled⟩⟩

theorem run_sound (run : Run interp func history state)
    (separate : ∀ earlier ∈ history, SeparateAt func earlier.pc) :
    (∃ label, func.body[state.pc]? = some (.label label)) ∨
      Sound interp (Tracking.before java func state.pc) (Aliases.before func state.pc) history state := by
  induction run with
  | @entry state start =>
    rw [start]
    exact .inr (sound_empty interp ∅ [] state)
  | @step history state next run moved ih =>
    rw [forall_mem_append, forall_mem_singleton] at separate
    obtain ⟨⟨op, fetched⟩, target⟩ := moved.fetches
    rcases target with pc | label
    · right
      have aliases : Aliases.before func (state.pc + 1) =
          (Aliases.before func state.pc).step (Tracking.before java func state.pc) op := by
        rw [Aliases.before, fetched]
      have apart := separate.2 op fetched
      rw [pc, aliases, before_succ fetched]
      rw [before_succ fetched] at apart
      rcases ih separate.1 with ⟨label, labelled⟩ | sound
      · obtain rfl := some.inj (fetched.symm.trans labelled)
        exact sound_empty interp _ _ next
      · exact sound.step moved fetched apart (step_steps _ state.pc op) pc
    · exact .inl label

/-- In a run whose operations hide no name of a list from the tracking, a mapped read returns the value
that the argument had when the append was last executed. -/
theorem positionalReads_sound {rules : PropagationRules} (known : rules = java ∨ rules.lists = noLists)
    (run : Run interp func history state) (separate : ∀ earlier ∈ history, SeparateAt func earlier.pc)
    {source : Operand × Nat} (mapped : (positionalReads func rules).get state.pc = some source)
    {dst : Option Var} {callee : String} {receiver : Option Operand} {args : List Operand}
    (fetched : func.body[state.pc]? = some (.call dst callee receiver args)) {result : Value}
    {after : State} (calls : Calls interp state callee receiver args result after) :
    LastValue interp history source result := by
  rcases known with rfl | none
  · obtain ⟨recorded, unread⟩ := positionalReads_eq mapped
    rw [before_succ fetched] at recorded
    have steps := step_steps (Tracking.before java func state.pc) state.pc
      (.call dst callee receiver args)
    rcases run_sound run separate with ⟨label, labelled⟩ | sound
    · rw [fetched] at labelled
      cases labelled
    generalize (Tracking.before java func state.pc).step java (.call dst callee receiver args, state.pc) =
      tracked at steps recorded
    have silent (kept : tracked.reads = (Tracking.before java func state.pc).reads) : False := by
      rw [kept, unread] at recorded
      contradiction
    cases steps with
    | ended straight => exact (silent rfl).elim
    | constructed straight constructs => exact (silent rfl).elim
    | named straight plain names => exact (silent rfl).elim
    | forgotten straight plain unnamed others forgets => exact (silent forgets.reads).elim
    | @used list elements name args' _ straight plain unnamed listed uses =>
      obtain ⟨dst', callee', same, rfl, tracks⟩ := listCall_eq_some listed
      injection same with sameDst sameCallee sameReceiver sameArgs
      subst sameDst sameCallee sameReceiver sameArgs
      obtain ⟨o, contents, holds, owns, short, related⟩ := sound.tracked list elements tracks
      have named : ∃ kind, methodOf (method callee) args.length = some kind := by
        cases uses with
        | dropped => exact (silent rfl).elim
        | append known other => exact (silent rfl).elim
        | removeAt known parsed inside => exact (silent rfl).elim
        | removeFirst known first => exact (silent rfl).elim
        | query known => exact (silent rfl).elim
        | readAt known parsed found => exact ⟨_, known⟩
        | readFirst known first => exact ⟨_, known⟩
      obtain ⟨kind, known⟩ := named
      obtain ⟨contents', -, acts⟩ := calls.known holds owns.listed known
      exact acts_read uses unread recorded known acts short related
  · have empty : positionalReads func rules = ∅ := by
      rw [positionalReads, none]
      rfl
    rw [empty, Dict.get_empty] at mapped
    contradiction

end Runs

section Examples

def makeList : IrOp := .call (some ⟨"__t0"⟩) "new java.util.ArrayList<String>" none []

def addTo (list : String) (arg : Operand) : IrOp :=
  .call none (list ++ ".add") (some (.var ⟨list⟩)) [arg]

def getFrom (list : String) : IrOp :=
  .call (some ⟨"__t1"⟩) (list ++ ".get") (some (.var ⟨list⟩)) [.const "0"]

/-- A list with one name, `a.add(param); a.get(0)`. -/
def oneName : IrFunction where
  body := [makeList, .assign ⟨"a"⟩ (.var ⟨"__t0"⟩), addTo "a" (.var ⟨"param"⟩), getFrom "a"]

/-- A list with two names, `b = a = new ArrayList<>(); a.add(param); b.add("safe"); b.get(0)`. -/
def twoNames : IrFunction where
  body := [makeList, .assign ⟨"a"⟩ (.var ⟨"__t0"⟩), .assign ⟨"b"⟩ (.var ⟨"__t0"⟩),
    addTo "a" (.var ⟨"param"⟩), addTo "b" (.const "\"safe\""), getFrom "b"]

def plainInterp : Interp := ⟨fun _ => .int 0, fun _ => false⟩

/-- Only the parameter has a text, and there are no objects. -/
def paramState : State :=
  ⟨0, fun var => if var = ⟨"param"⟩ then .str "tainted" else .int 0, fun _ => none, fun _ => False⟩

theorem paramState_unused : paramState.Unused plainInterp 0 := by
  refine ⟨rfl, id, fun var => ?_, fun text same => ?_, fun p contents listed => by contradiction⟩
  · unfold paramState
    dsimp only
    split
    · exact fun same => by cases same
    · exact fun same => by cases same
  unfold Interp.literal plainInterp at same
  cases read : Consts.literal text with
  | none =>
    rw [read] at same
    cases same
  | some value =>
    rw [read] at same
    cases value with
    | int number => cases same
    | str text => cases same

def madeState : State := (paramState.setList 0 []).define (some ⟨"__t0"⟩) (.object 0)

def named (state : State) (name : String) : State :=
  state.define (some ⟨name⟩) (plainInterp.operand state.env (.var ⟨"__t0"⟩))

def added (state : State) (contents : List Value) (arg : Operand) : State :=
  (state.setList 0 (contents ++ [plainInterp.operand state.env arg])).define none (.int 1)

theorem step_made {func : IrFunction} (fetched : func.body[0]? = some makeList) :
    Step plainInterp func paramState madeState :=
  .call fetched (.construct ⟨rfl, rfl, by decide +kernel⟩ paramState_unused)

/-- A list of a few texts gets another one. -/
theorem step_added {func : IrFunction} {state : State} {list : String} {arg : Operand}
    {contents : List Value} (fetched : func.body[state.pc]? = some (addTo list arg))
    (holds : state.env ⟨list⟩ = .object 0) (listed : state.lists 0 = some contents)
    (known : methodOf (method (list ++ ".add")) 1 = some .append) (short : contents.length < 10) :
    Step plainInterp func state (added state contents arg) := by
  have plain : Known state.outside (.int 1) := fun o same => by cases same
  exact .call fetched (.list rfl holds listed known (.append (by omega) plain))

theorem calls_get (state : State) (list : String) {element : Value} {rest : List Value}
    (holds : state.env ⟨list⟩ = .object 0) (listed : state.lists 0 = some (element :: rest))
    (known : methodOf (method (list ++ ".get")) 1 = some .readAt) :
    Calls plainInterp state (list ++ ".get") (some (.var ⟨list⟩)) [.const "0"] element
      (state.setList 0 (element :: rest)) := by
  have zero : plainInterp.operand state.env (.const "0") = .int (BitVec.ofNat 64 0) := by
    change plainInterp.literal "0" = _
    decide +kernel
  refine .list rfl holds listed known ?_
  rw [map_singleton, zero]
  exact .readAt (by decide) rfl

theorem separateAt_oneName_make : SeparateAt oneName 0 := by
  intro op fetched
  obtain rfl := some.inj fetched
  refine ⟨?_, ?_, ?_, ?_⟩
  · intro dst src names
    contradiction
  · intro unnamed operand listed
    contradiction
  · intro _ dst defined
    obtain rfl := some.inj defined
    decide +kernel
  · intro out
    exact absurd out (by decide +kernel)

theorem separateAt_oneName_name : SeparateAt oneName 1 := by
  intro op fetched
  obtain rfl := some.inj fetched
  have named : Tracking.named (Tracking.before java oneName 1).fresh (.assign ⟨"a"⟩ (.var ⟨"__t0"⟩)) =
    some (⟨"a"⟩, ⟨"__t0"⟩) := by decide +kernel
  refine ⟨?_, ?_, ?_, ?_⟩
  · intro dst src names
    rw [named] at names
    obtain ⟨rfl, rfl⟩ := by simpa using names
    decide +kernel
  · intro unnamed
    rw [named] at unnamed
    contradiction
  · intro unnamed
    rw [named] at unnamed
    contradiction
  · intro out
    exact absurd out (by decide +kernel)

theorem separateAt_oneName_add : SeparateAt oneName 2 := by
  intro op fetched
  obtain rfl := some.inj fetched
  have handedParam : handed (Tracking.before java oneName 2).state (addTo "a" (.var ⟨"param"⟩)) =
    [.var ⟨"param"⟩] := by decide +kernel
  have names : (Aliases.before oneName 2).names = [(⟨"__t0"⟩, ⟨"a"⟩)] := by decide +kernel
  refine ⟨?_, ?_, ?_, ?_⟩
  · intro dst src names
    contradiction
  · intro unnamed operand listed var reads
    rw [handedParam] at listed
    obtain rfl := mem_singleton.mp listed
    obtain rfl := some.inj reads
    refine ⟨by decide +kernel, fun name pair => ?_⟩
    rw [names] at pair
    simp at pair
  · intro _ dst defined
    contradiction
  · intro out
    exact absurd out (by decide +kernel)

theorem positionalReads_sound_oneName : (positionalReads oneName java).get 3 = some (.var ⟨"param"⟩, 2) ∧
      LastValue plainInterp [paramState, madeState, named madeState "a"] (.var ⟨"param"⟩, 2)
        (.str "tainted") := by
  have mapped : (positionalReads oneName java).get 3 = some (.var ⟨"param"⟩, 2) := by decide +kernel
  have param : plainInterp.operand (named madeState "a").env (.var ⟨"param"⟩) = .str "tainted" := by
    decide +kernel
  have run : Run plainInterp oneName [paramState, madeState, named madeState "a"]
      (added (named madeState "a") [] (.var ⟨"param"⟩)) :=
    (((Run.entry rfl).step (step_made rfl)).step (.assign rfl)).step
      (step_added rfl (by decide +kernel) rfl (by decide +kernel) (by decide))
  have calls := calls_get (added (named madeState "a") [] (.var ⟨"param"⟩)) "a"
    (by decide +kernel) rfl (by decide +kernel)
  rw [param] at calls
  refine ⟨mapped, positionalReads_sound (.inl rfl) run ?_ mapped rfl calls⟩
  intro earlier mem
  simp only [mem_cons, not_mem_nil, or_false] at mem
  rcases mem with rfl | rfl | rfl
  · exact separateAt_oneName_make
  · exact separateAt_oneName_name
  · exact separateAt_oneName_add

/-- The second name of a list is not forgotten. -/
theorem positionalReads_unsound : ¬ ∀ rules interp func history state source dst callee receiver args
    result after, rules = java ∨ rules.lists = noLists → Run interp func history state →
    (positionalReads func rules).get state.pc = some source →
    func.body[state.pc]? = some (.call dst callee receiver args) →
    Calls interp state callee receiver args result after → LastValue interp history source result := by
  intro sound
  have run : Run plainInterp twoNames _
      (added (added (named (named madeState "a") "b") [] (.var ⟨"param"⟩))
        [.str "tainted"] (.const "\"safe\"")) :=
    (((((Run.entry rfl).step (step_made rfl)).step (.assign rfl)).step (.assign rfl)).step
      (step_added rfl (by decide +kernel) rfl (by decide +kernel) (by decide))).step
      (step_added rfl (by decide +kernel) (by decide +kernel) (by decide +kernel) (by decide))
  have mapped : (positionalReads twoNames java).get 5 = some (.const "\"safe\"", 4) := by decide +kernel
  have calls := calls_get (added (added (named (named madeState "a") "b") [] (.var ⟨"param"⟩))
    [.str "tainted"] (.const "\"safe\"")) "b" (by decide +kernel) rfl (by decide +kernel)
  obtain ⟨earlier, state, later, -, -, -, same⟩ := sound java plainInterp twoNames _ _ _ _ _ _ _ _ _
    (.inl rfl) run mapped rfl calls
  have safe : plainInterp.literal "\"safe\"" = .str "safe" := by decide +kernel
  change Value.str "tainted" = plainInterp.literal "\"safe\"" at same
  rw [safe] at same
  injection same with texts
  exact absurd texts (by decide)

end Examples

end Codegraph.TaintFlow.Lists
