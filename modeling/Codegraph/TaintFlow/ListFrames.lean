import Codegraph.TaintFlow.ListHeap

namespace Codegraph.TaintFlow.Lists

open Library Exec List Option State

section Frames

variable {interp : Interp} {func : IrFunction} {state next after : State} {o : Nat}
  {callee : String} {receiver : Option Operand} {args : List Operand} {result : Value}

/-- No code but the variables' owner can reach the object. -/
structure Isolated (interp : Interp) (state : State) (o : Nat) : Prop where
  outside : ¬ state.outside o
  inside : ∀ p contents, state.lists p = some contents → Value.object o ∉ contents
  literal : ∀ text, interp.literal text ≠ .object o

theorem Isolated.not_reached (isolated : Isolated interp state o) {roots : Nat → Prop}
    (apart : ¬ roots o) : ¬ Reached state.lists roots o := by
  intro reached
  cases reached with
  | root start => exact apart start
  | inside before listed mem => exact isolated.inside _ _ listed mem

theorem Acts.avoids {outside : Nat → Prop} {kind : Method} {values contents contents' : List Value}
    (acts : Acts outside kind values contents result contents') (apart : ¬ outside o)
    (free : Value.object o ∉ contents) (passed : kind = .append → Value.object o ∉ values) :
    result ≠ .object o ∧ Value.object o ∉ contents' := by
  have known {value : Value} (plain : Known outside value) : value ≠ .object o :=
    fun same => apart (plain o same)
  cases acts with
  | append room plain =>
    refine ⟨known plain, ?_⟩
    rw [mem_append, not_or]
    exact ⟨free, passed rfl⟩
  | removeAt int found =>
    refine ⟨?_, fun mem => free ((eraseIdx_sublist _ _).subset mem)⟩
    rintro rfl
    exact free (mem_of_getElem? found)
  | removeEqual object fewer plain => exact ⟨known plain, fun mem => free (fewer.subset mem)⟩
  | removeFirst =>
    rw [mem_cons, not_or] at free
    exact ⟨fun same => free.1 same.symm, free.2⟩
  | removeNone plain => exact ⟨known plain, free⟩
  | readAt int found =>
    refine ⟨?_, free⟩
    rintro rfl
    exact free (mem_of_getElem? found)
  | readFirst =>
    refine ⟨?_, free⟩
    rintro rfl
    exact free mem_cons_self
  | readNone plain => exact ⟨known plain, free⟩
  | query plain => exact ⟨known plain, free⟩

/-- The step gives nobody the object and leaves its list alone. -/
structure Framed (interp : Interp) (state after : State) (o : Nat) : Prop where
  isolated : Isolated interp after o
  kept : after.lists o = state.lists o
  holders : ∀ var, after.env var = .object o → state.env var = .object o

theorem Framed.setList (isolated : Isolated interp state o) {q : Nat} {contents : List Value}
    (other : q ≠ o) (free : Value.object o ∉ contents) :
    Framed interp state (state.setList q contents) o where
  isolated := by
    refine ⟨isolated.outside, fun p contents' listed => ?_, isolated.literal⟩
    unfold State.setList at listed
    dsimp only at listed
    by_cases same : p = q
    · subst same
      rw [Function.update_self] at listed
      rwa [← some.inj listed]
    · rw [Function.update_of_ne same] at listed
      exact isolated.inside p contents' listed
  kept := Function.update_of_ne other.symm _ _
  holders := fun _ holds => holds

/-- A call that is given nothing to reach the object with does not reach it. -/
theorem Calls.framed (calls : Calls interp state callee receiver args result after)
    (isolated : Isolated interp state o) (used : ∃ var, state.env var = .object o)
    (passed : ∀ operand ∈ receiver.toList ++ args, interp.operand state.env operand ≠ .object o)
    (shared : ¬ Constructs callee receiver args → ∀ var, isShared var = true → state.env var ≠ .object o) :
    Framed interp state after o ∧ result ≠ .object o := by
  obtain ⟨holder, holds⟩ := used
  cases calls with
  | @construct q constructs unused =>
    have other : q ≠ o := by
      rintro rfl
      exact unused.2.2.1 holder holds
    refine ⟨Framed.setList isolated other not_mem_nil, fun same => other ?_⟩
    injection same
  | @list target q kind contents contents' result received holds' listed known acts =>
    have other : q ≠ o := by
      rintro rfl
      exact passed target (by simp [received]) holds'
    have free : Value.object o ∉ args.map (interp.operand state.env) := by
      intro mem
      obtain ⟨operand, given, same⟩ := mem_map.mp mem
      exact passed operand (mem_append_right _ given) same
    obtain ⟨away, out⟩ := acts.avoids isolated.outside (isolated.inside q contents listed)
      fun _ => free
    exact ⟨Framed.setList isolated other out, away⟩
  | other constructs list touches =>
    have hidden : ¬ (state.Exposed ((receiver.toList ++ args).map (interp.operand state.env)) o ∨
        state.Unused interp o) := by
      intro either
      rcases either with exposed | unused
      · refine isolated.not_reached ?_ exposed
        rintro (out | given | ⟨var, named, same⟩)
        · exact isolated.outside out
        · obtain ⟨operand, listed, same⟩ := mem_map.mp given
          exact passed operand listed same
        · exact shared constructs var named same
      · exact unused.2.2.1 holder holds
    refine ⟨⟨⟨fun out => hidden (touches.outside o out), fun p contents listed mem => ?_,
      isolated.literal⟩, touches.kept o hidden, fun var same => ?_⟩, fun same => ?_⟩
    · by_cases spread : state.Exposed ((receiver.toList ++ args).map (interp.operand state.env)) p ∨
          state.Unused interp p
      · exact hidden (touches.contents p spread contents listed _ mem o rfl)
      · rw [touches.kept p spread] at listed
        exact isolated.inside p contents listed mem
    · by_cases named : isShared var = true
      · exact absurd (touches.shared var named o same) hidden
      · rwa [touches.locals var (Bool.not_eq_true _ ▸ named)] at same
    · exact hidden (touches.returned o same)

theorem Calls.known {list : Var} {q : Nat} {kind : Method} {contents : List Value}
    (calls : Calls interp state callee (some (.var list)) args result after)
    (holds : state.env list = .object q) (listed : state.lists q = some contents)
    (known : methodOf (method callee) args.length = some kind) :
    ∃ contents', after = state.setList q contents' ∧
      Acts state.outside kind (args.map (interp.operand state.env)) contents result contents' := by
  cases calls with
  | construct constructs => exact absurd constructs.1 (by simp)
  | @list target q' kind' contents₁ contents' _ received holds' listed' known' acts =>
    obtain rfl := some.inj received
    have same := holds'.symm.trans holds
    injection same with same
    subst same
    rw [listed] at listed'
    rw [known] at known'
    obtain rfl := some.inj listed'
    obtain rfl := some.inj known'
    exact ⟨contents', rfl, acts⟩
  | other constructs list' =>
    refine absurd ⟨.var list, q, rfl, holds, ?_, ?_⟩ list'
    · rw [listed]
      rfl
    · rw [known]
      rfl

theorem State.define_env (state : State) {dst : Option Var} {var : Var} (value : Value)
    (other : dst ≠ some var) : (state.define dst value).env var = state.env var := by
  cases dst with
  | none => rfl
  | some dst => exact write_ne _ _ fun same => other (congrArg some same.symm)

theorem State.define_self (state : State) (dst : Var) (value : Value) :
    (state.define (some dst) value).env dst = value := write_self _ _ _

/-- The defined variable does not get the object either. -/
structure Passed (interp : Interp) (state next : State) (op : IrOp) (o : Nat) : Prop extends
    Framed interp state next o where
  undefined : ∀ dst, definedVar op = some dst → next.env dst ≠ .object o

theorem Framed.define (framed : Framed interp state after o) {value : Value} (away : value ≠ .object o)
    {op : IrOp} {dst : Option Var} (defines : definedVar op = dst) :
    Passed interp state (after.define dst value) op o where
  isolated := ⟨framed.isolated.outside, framed.isolated.inside, framed.isolated.literal⟩
  kept := framed.kept
  holders := by
    intro var same
    by_cases here : dst = some var
    · rw [here, define_self] at same
      exact absurd same away
    · rw [define_env _ _ here] at same
      exact framed.holders var same
  undefined := by
    intro var defined
    rw [defines] at defined
    rwa [defined, define_self]

theorem Framed.refl (isolated : Isolated interp state o) : Framed interp state state o :=
  ⟨isolated, rfl, fun _ same => same⟩

theorem Step.calls {dst : Option Var} (moved : Step interp func state next)
    (fetched : func.body[state.pc]? = some (.call dst callee receiver args)) :
    ∃ result after, Calls interp state callee receiver args result after ∧
      next = after.define dst result := by
  have other {op : IrOp} (fetched' : func.body[state.pc]? = some op) :
      op = .call dst callee receiver args := some.inj (fetched'.symm.trans fetched)
  cases moved with
  | call fetched' calls =>
    have same := other fetched'
    injection same with sameDst sameCallee sameReceiver sameArgs
    subst sameDst sameCallee sameReceiver sameArgs
    exact ⟨_, _, calls, rfl⟩
  | assign fetched' => cases other fetched'
  | compute fetched' computes known =>
    cases other fetched'
    contradiction
  | fieldWrite fetched' => cases other fetched'
  | pass fetched' stays =>
    cases other fetched'
    simp at stays
  | fallthrough fetched' fails => cases other fetched'
  | taken fetched' holds found labelled => cases other fetched'
  | jump fetched' found labelled => cases other fetched'

theorem Step.assigns {dst : Var} {src : Operand} (moved : Step interp func state next)
    (fetched : func.body[state.pc]? = some (.assign dst src)) :
    next = state.define (some dst) (interp.operand state.env src) := by
  have other {op : IrOp} (fetched' : func.body[state.pc]? = some op) : op = .assign dst src :=
    some.inj (fetched'.symm.trans fetched)
  cases moved with
  | assign fetched' =>
    have same := other fetched'
    injection same with sameDst sameSrc
    rw [sameDst, sameSrc]
  | call fetched' calls => cases other fetched'
  | compute fetched' computes known =>
    cases other fetched'
    contradiction
  | fieldWrite fetched' => cases other fetched'
  | pass fetched' stays =>
    cases other fetched'
    simp at stays
  | fallthrough fetched' fails => cases other fetched'
  | taken fetched' holds found labelled => cases other fetched'
  | jump fetched' found labelled => cases other fetched'

section Steps

variable {op : IrOp} {tracked : Dict Var (List (Operand × Nat))}

/-- The tracked variables hold list objects. -/
def Held (tracked : Dict Var (List (Operand × Nat))) (state : State) : Prop :=
  ∀ list elements, tracked.get list = some elements →
    ∃ q contents, state.env list = .object q ∧ state.lists q = some contents

theorem isTemp_not_shared {var : Var} (temp : isTemp var = true) : isShared var = false := by
  unfold isShared
  obtain ⟨rest, same⟩ := isPrefixOf_iff_prefix.mp temp
  rw [← same]
  rfl

theorem Passed.move (isolated : Isolated interp state o) (stays : definedVar op = none) (pc : Nat) :
    Passed interp state { state with pc := pc } op o where
  isolated := ⟨isolated.outside, isolated.inside, isolated.literal⟩
  kept := rfl
  holders := fun _ same => same
  undefined := by
    intro dst defined
    rw [stays] at defined
    contradiction

theorem call_cases (tracked : Dict Var (List (Operand × Nat))) (dst : Option Var) (callee : String)
    (receiver : Option Operand) (args : List Operand) :
    (∃ list, receiver = some (.var list) ∧ (tracked.get list).isSome ∧
      (methodOf (method callee) args.length).isSome) ∨
      handed tracked (.call dst callee receiver args) = receiver.toList ++ args ∧
        (¬ Constructs callee receiver args → callsOut tracked (.call dst callee receiver args) = true) := by
  cases receiver with
  | none =>
    refine .inr ⟨rfl, fun constructs => ?_⟩
    simpa [callsOut, Constructs, imp_iff_not_or] using constructs
  | some target =>
    cases target with
    | const text => exact .inr ⟨rfl, fun _ => rfl⟩
    | temp number => exact .inr ⟨rfl, fun _ => rfl⟩
    | var list =>
      cases found : tracked.get list with
      | none => exact .inr ⟨by simp [handed, found], fun _ => by simp [callsOut, found]⟩
      | some elements =>
        cases kind : methodOf (method callee) args.length with
        | none => exact .inr ⟨by simp [handed, found, kind], fun _ => by simp [callsOut, kind]⟩
        | some kind => exact .inl ⟨list, rfl, by simp [found], rfl⟩

section Moved

variable (held : Held tracked state) (isolated : Isolated interp state o)
  (used : ∃ var, state.env var = .object o)
  (free : ∀ operand ∈ handed tracked op, interp.operand state.env operand ≠ .object o)
  (apart : ∀ list elements name args, Tracking.listCall tracked op = some (list, elements, name, args) →
    state.env list ≠ .object o)
  (shared : callsOut tracked op = true → ∀ var, isShared var = true → state.env var ≠ .object o)

include held isolated used free apart shared

theorem Calls.passed {dst : Option Var} (calls : Calls interp state callee receiver args result after)
    (same : op = .call dst callee receiver args) :
    Framed interp state after o ∧ result ≠ .object o := by
  subst same
  rcases call_cases tracked dst callee receiver args with ⟨list, rfl, tracks, kinds⟩ | ⟨all, out⟩
  · obtain ⟨elements, found⟩ := isSome_iff_exists.mp tracks
    obtain ⟨kind, known⟩ := isSome_iff_exists.mp kinds
    obtain ⟨q, contents, holds, listed⟩ := held list elements found
    obtain ⟨contents', rfl, acts⟩ := calls.known holds listed known
    have other : q ≠ o := by
      rintro rfl
      exact apart list elements (method callee) args (by simp [Tracking.listCall, found]) holds
    have given : kind = .append → Value.object o ∉ args.map (interp.operand state.env) := by
      rintro rfl mem
      obtain ⟨operand, listed', same⟩ := mem_map.mp mem
      exact free operand (by simpa [handed, found, known] using listed') same
    obtain ⟨away, out⟩ := acts.avoids isolated.outside (isolated.inside q contents listed) given
    exact ⟨Framed.setList isolated other out, away⟩
  · rw [all] at free
    exact calls.framed isolated used free fun constructs => shared (out constructs)

/-- An object that is not handed on stays as it is. -/
theorem Step.passed (moved : Step interp func state next) (fetched : func.body[state.pc]? = some op) :
    Passed interp state next op o := by
  have still (stays : definedVar op = none) (pc : Nat) : Passed interp state { state with pc := pc } op o :=
    Passed.move isolated stays pc
  cases moved with
  | @assign dst src fetched' =>
    obtain rfl := some.inj (fetched.symm.trans fetched')
    exact (Framed.refl isolated).define (free src mem_cons_self) rfl
  | @compute op' dst value fetched' computes known =>
    obtain rfl := some.inj (fetched.symm.trans fetched')
    have defines : definedVar op = some dst := by cases op <;> simp_all [computed, definedVar]
    exact (Framed.refl isolated).define
      (fun same => isolated.not_reached isolated.outside (known o same)) defines
  | @fieldWrite base src field fetched' =>
    obtain rfl := some.inj (fetched.symm.trans fetched')
    refine ⟨⟨⟨?_, isolated.inside, isolated.literal⟩, rfl, fun _ same => same⟩, ?_⟩
    · rintro (out | same)
      · exact isolated.outside out
      · exact free src mem_cons_self same
    · intro dst defined
      contradiction
  | @call dst callee receiver args result after fetched' calls =>
    have same := some.inj (fetched.symm.trans fetched')
    obtain ⟨framed, away⟩ := calls.passed held isolated used free apart shared same
    exact framed.define away (by rw [same]; rfl)
  | @pass op' fetched' stays =>
    obtain rfl := some.inj (fetched.symm.trans fetched')
    apply still
    rcases stays with rfl | ⟨label, rfl⟩
    · rfl
    · rfl
  | fallthrough fetched' fails => exact still (by rw [some.inj (fetched.symm.trans fetched')]; rfl) _
  | taken fetched' holds found labelled =>
    exact still (by rw [some.inj (fetched.symm.trans fetched')]; rfl) _
  | jump fetched' found labelled => exact still (by rw [some.inj (fetched.symm.trans fetched')]; rfl) _

omit isolated used free apart shared in
/-- A variable changes when it is assigned, and a shared one when other code runs. -/
theorem Step.env (moved : Step interp func state next) (fetched : func.body[state.pc]? = some op)
    {var : Var} (other : definedVar op ≠ some var)
    (quiet : isShared var = true → callsOut tracked op = false) : next.env var = state.env var := by
  cases moved with
  | assign fetched' =>
    obtain rfl := some.inj (fetched.symm.trans fetched')
    exact define_env _ _ other
  | @compute op' dst value fetched' computes known =>
    obtain rfl := some.inj (fetched.symm.trans fetched')
    apply define_env
    cases op <;> simp_all [computed, definedVar]
  | @call dst callee receiver args result after fetched' calls =>
    obtain rfl := some.inj (fetched.symm.trans fetched')
    have other' : dst ≠ some var := other
    rw [define_env _ _ other']
    cases calls with
    | construct constructs unused => rfl
    | list received holds listed known acts => rfl
    | other constructs list touches =>
      apply touches.locals
      by_contra named
      have silent := quiet (by simpa using named)
      rcases call_cases tracked dst callee receiver args with ⟨name, rfl, tracks, kinds⟩ | ⟨-, out⟩
      · obtain ⟨elements, found⟩ := isSome_iff_exists.mp tracks
        obtain ⟨q, contents, holds, listed⟩ := held name elements found
        exact list ⟨_, q, rfl, holds, by simp [listed], kinds⟩
      · rw [out constructs] at silent
        contradiction
  | fieldWrite fetched' => rfl
  | pass fetched' stays => rfl
  | fallthrough fetched' fails => rfl
  | taken fetched' holds found labelled => rfl
  | jump fetched' found labelled => rfl

end Moved

end Steps

end Frames

end Codegraph.TaintFlow.Lists
