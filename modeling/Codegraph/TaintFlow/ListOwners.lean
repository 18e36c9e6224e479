import Codegraph.TaintFlow.ListReads

namespace Codegraph.TaintFlow.Lists

open Library Exec List Option Function Aliases Tracking State

section Owners

variable {interp : Interp} {func : IrFunction} {state next : State} {op : IrOp} {o : Nat}
  {contents : List Value} {owner owner' : Var → Prop} {tracked : Dict Var (List (Operand × Nat))}
  {var : Var}

/-- Only the owners have the list. -/
structure Owns (interp : Interp) (state : State) (owner : Var → Prop) (o : Nat) (contents : List Value) :
    Prop where
  listed : state.lists o = some contents
  isolated : Isolated interp state o
  alone : ∀ var, state.env var = .object o → owner var

theorem Owns.reader (owns : Owns interp state owner o contents) {operand : Operand}
    (value : interp.operand state.env operand = .object o) :
    ∃ var, operandVar operand = some var ∧ owner var := by
  cases operand with
  | var var => exact ⟨var, rfl, owns.alone var value⟩
  | const text => exact absurd value (owns.isolated.literal text)
  | temp number => exact ⟨_, rfl, owns.alone _ value⟩

section Moved

variable (held : Held tracked state) (moved : Step interp func state next)
  (fetched : func.body[state.pc]? = some op) (owns : Owns interp state owner o contents)
  (holds : state.env var = .object o) (other : definedVar op ≠ some var)
  (rest : ∀ var, owner var → definedVar op ≠ some var → owner' var)

include held moved fetched owns holds other rest

/-- Owners that hand nothing on stay the only ones. -/
theorem Owns.step (free : ∀ operand ∈ handed tracked op, ∀ var, operandVar operand = some var → ¬ owner var)
    (apart : ∀ list elements name args, Tracking.listCall tracked op = some (list, elements, name, args) →
      ¬ owner list)
    (shared : callsOut tracked op = true → ∀ var, owner var → isShared var = false) :
    next.env var = .object o ∧ Owns interp next owner' o contents := by
  have quiet (named : isShared var = true) : callsOut tracked op = false := by
    by_contra out
    rw [shared (by simpa using out) var (owns.alone var holds)] at named
    contradiction
  have passed := Step.passed held owns.isolated ⟨var, holds⟩
    (fun operand mem value => by
      obtain ⟨reader, reads, owned⟩ := owns.reader value
      exact free operand mem reader reads owned)
    (fun list elements name args calls value => apart list elements name args calls (owns.alone list value))
    (fun out var named value => by
      rw [shared out var (owns.alone var value)] at named
      contradiction) moved fetched
  refine ⟨(Step.env held moved fetched other quiet).trans holds, passed.kept.trans owns.listed,
    passed.isolated, fun var' value => ?_⟩
  exact rest var' (owns.alone var' (passed.holders var' value))
    fun defined => passed.undefined var' defined value

theorem Owns.act {dst : Option Var} {callee : String} {args : List Operand} {kind : Method}
    (same : op = .call dst callee (some (.var var)) args)
    (known : methodOf (method callee) args.length = some kind)
    (given : kind = .append → ∀ operand ∈ args, ∀ var, operandVar operand = some var → ¬ owner var)
    (quiet : isShared var = true → callsOut tracked op = false) :
    ∃ contents' result, Acts state.outside kind (args.map (interp.operand state.env)) contents result
        contents' ∧ next.env var = .object o ∧ Owns interp next owner' o contents' := by
  subst same
  have value := (Step.env held moved fetched other quiet).trans holds
  obtain ⟨result, after, calls, rfl⟩ := moved.calls fetched
  obtain ⟨contents', rfl, acts⟩ := calls.known holds owns.listed known
  have apart : kind = .append → Value.object o ∉ args.map (interp.operand state.env) := by
    intro appends mem
    obtain ⟨operand, listed, value⟩ := mem_map.mp mem
    obtain ⟨reader, reads, owned⟩ := owns.reader value
    exact given appends operand listed reader reads owned
  obtain ⟨away, out⟩ := acts.avoids owns.isolated.outside (owns.isolated.inside o contents owns.listed) apart
  refine ⟨contents', result, acts, value, update_self _ _ _,
    ⟨owns.isolated.outside, fun p contents'' listed => ?_, owns.isolated.literal⟩, fun var' value' => ?_⟩
  · change update state.lists o (some contents') p = some contents'' at listed
    by_cases here : p = o
    · subst here
      rw [update_self] at listed
      rwa [← some.inj listed]
    · rw [update_of_ne here] at listed
      exact owns.isolated.inside p contents'' listed
  by_cases defined : dst = some var'
  · rw [defined, define_self] at value'
    exact absurd value' away
  · rw [define_env _ _ defined] at value'
    exact rest var' (owns.alone var' value') defined

end Moved

end Owners

section Soundness

/-- A tracked variable and the temporaries that still name its list. -/
def Owner (aliases : Aliases) (v var : Var) : Prop := var = v ∨ (var, v) ∈ aliases.names

/-- The tracked variables own lists with the tracked elements, and the untouched temporaries own new
lists. -/
structure Sound (interp : Interp) (tracking : Tracking) (aliases : Aliases) (history : List State)
    (state : State) : Prop where
  tracked : ∀ v elements, tracking.state.get v = some elements → ∃ o contents,
    state.env v = .object o ∧ Owns interp state (Owner aliases v) o contents ∧
      contents.length < 2 ^ 31 ∧ List.Forall₂ (LastValue interp history) elements contents
  fresh : ∀ t ∈ tracking.fresh, t ∉ aliases.touched → ∃ o, state.env t = .object o ∧
    Owns interp state (· = t) o []
  apart : ∀ t ∈ tracking.fresh, t ∉ aliases.touched → tracking.state.get t = none
  distinct : ∀ pair ∈ aliases.names, tracking.state.get pair.1 = none ∨ pair.1 = pair.2
  spent : ∀ pair ∈ aliases.names, pair.1 ∈ aliases.touched
  temps : ∀ t ∈ tracking.fresh, isTemp t = true
  names : ∀ pair ∈ aliases.names, isTemp pair.1 = true
  past : ∀ v elements, tracking.state.get v = some elements → ∀ element ∈ elements, element.2 < state.pc

variable {interp : Interp} {func : IrFunction} {tracking after : Tracking} {aliases : Aliases}
  {history : List State} {state next : State} {op : IrOp}

theorem sound_empty (interp : Interp) (reads : Dict Nat (Operand × Nat)) (history : List State)
    (state : State) : Sound interp ⟨[], ∅, reads⟩ {} history state where
  tracked := fun v elements found => by simp at found
  fresh := fun t mem => absurd mem not_mem_nil
  apart := fun t mem => absurd mem not_mem_nil
  distinct := fun pair mem => absurd mem not_mem_nil
  spent := fun pair mem => absurd mem not_mem_nil
  temps := fun t mem => absurd mem not_mem_nil
  names := fun pair mem => absurd mem not_mem_nil
  past := fun v elements found => by simp at found

namespace Aliases

theorem mem_keep {pair : Var × Var} : pair ∈ aliases.keep op ↔
    pair ∈ aliases.names ∧ definedVar op ≠ some pair.1 ∧ definedVar op ≠ some pair.2 := by
  rw [keep, mem_filter, decide_eq_true_iff]

/-- The other names after an operation inside a straight run. -/
theorem step_eq (tracking : Tracking) (aliases : Aliases)
    (straight : Tracking.straightEnds op = false) : aliases.step tracking op =
    match Tracking.constructed java op with
    | some dst => ⟨aliases.touched.filter (· ≠ dst), aliases.keep op⟩
    | none =>
      ⟨(definedVar op).toList ++ (handed tracking.state op).filterMap operandVar ++ aliases.touched,
        ((Tracking.named tracking.fresh op).map Prod.swap).toList ++ aliases.keep op⟩ := by
  rw [step, straight]
  rfl

theorem keep_step (straight : Tracking.straightEnds op = false) {pair : Var × Var}
    (kept : pair ∈ aliases.keep op) : pair ∈ (aliases.step tracking op).names := by
  rw [step_eq tracking aliases straight]
  split
  · exact kept
  · exact mem_append_right _ kept

/-- A temporary that stays untouched is neither assigned nor handed on, or it gets a new list. -/
theorem untouched_step (straight : Tracking.straightEnds op = false)
    (plain : Tracking.constructed java op = none) {t : Var}
    (untouched : t ∉ (aliases.step tracking op).touched) : definedVar op ≠ some t ∧
      (∀ operand ∈ handed tracking.state op, operandVar operand ≠ some t) ∧ t ∉ aliases.touched := by
  rw [step_eq tracking aliases straight, plain] at untouched
  simp only [mem_append, mem_toList, not_or, mem_filterMap, not_exists, not_and]
    at untouched
  exact ⟨untouched.1.1, untouched.1.2, untouched.2⟩

end Aliases

theorem Sound.held (sound : Sound interp tracking aliases history state) : Held tracking.state state := by
  intro list elements found
  obtain ⟨o, contents, holds, owns, -⟩ := sound.tracked list elements found
  exact ⟨o, contents, holds, owns.listed⟩

theorem Owner.kept {v var : Var} (tracking : Tracking) (straight : Tracking.straightEnds op = false)
    (other : definedVar op ≠ some v) (owned : Owner aliases v var) (apart : definedVar op ≠ some var) :
    Owner (aliases.step tracking op) v var := by
  rcases owned with same | listed
  · exact .inl same
  · exact .inr (keep_step straight (mem_keep.mpr ⟨listed, apart, other⟩))

section Keeping

variable (sound : Sound interp tracking aliases history state)
  (moved : Step interp func state next) (fetched : func.body[state.pc]? = some op)
  (straight : Tracking.straightEnds op = false)

include sound moved fetched

section Straight

include straight

theorem Sound.keeps (separate : Separate tracking aliases op after)
    (unnamed : Tracking.named tracking.fresh op = none) {v : Var} {elements : List (Operand × Nat)}
    (found : tracking.state.get v = some elements) (still : after.state.get v ≠ none)
    (notList : ∀ list elements name args,
      Tracking.listCall tracking.state op = some (list, elements, name, args) → list ≠ v) :
    ∃ o contents, next.env v = .object o ∧
      Owns interp next (Owner (aliases.step tracking op) v) o contents ∧ contents.length < 2 ^ 31 ∧
        List.Forall₂ (LastValue interp (history ++ [state])) elements contents := by
  obtain ⟨o, contents, holds, owns, short, same⟩ := sound.tracked v elements found
  have other : definedVar op ≠ some v := fun defined => still (separate.assigned unnamed v defined)
  have rest (var : Var) (owned : Owner aliases v var) (apart : definedVar op ≠ some var) :
      Owner (aliases.step tracking op) v var := owned.kept tracking straight other apart
  have free : ∀ operand ∈ handed tracking.state op, ∀ var, operandVar operand = some var →
      ¬ Owner aliases v var := by
    intro operand mem var reads owned
    obtain ⟨lost, aliased⟩ := separate.handed unnamed operand mem var reads
    rcases owned with same | listed
    · rw [same] at lost
      exact still lost
    · exact still (aliased v listed)
  have apart (list : Var) (elements' : List (Operand × Nat)) (name : String) (args : List Operand)
      (calls : Tracking.listCall tracking.state op = some (list, elements', name, args)) :
      ¬ Owner aliases v list := by
    have different := notList list elements' name args calls
    obtain ⟨-, -, -, -, tracks⟩ := listCall_eq_some calls
    intro owned
    rcases owned with same | listed
    · exact different same
    rcases sound.distinct _ listed with absent | same
    · rw [tracks] at absent
      contradiction
    · exact different same
  have shared (out : callsOut tracking.state op = true) (var : Var) (owned : Owner aliases v var) :
      isShared var = false := by
    rcases owned with same | listed
    · rw [same]
      by_contra named
      exact still (separate.shared out v (by simpa using named))
    · exact isTemp_not_shared (sound.names _ listed)
  obtain ⟨holds', owns'⟩ := owns.step sound.held moved fetched holds other rest free apart shared
  exact ⟨o, contents, holds', owns', short, forall₂_past same (sound.past v elements found)⟩

end Straight

/-- A new list that nothing touches stays new. -/
theorem Sound.keepsFresh {t : Var} (mem : t ∈ tracking.fresh) (untouched : t ∉ aliases.touched)
    (other : definedVar op ≠ some t)
    (free : ∀ operand ∈ handed tracking.state op, operandVar operand ≠ some t) :
    ∃ o, next.env t = .object o ∧ Owns interp next (· = t) o [] := by
  obtain ⟨o, holds, owns⟩ := sound.fresh t mem untouched
  have apart (list : Var) (elements : List (Operand × Nat)) (name : String) (args : List Operand)
      (calls : Tracking.listCall tracking.state op = some (list, elements, name, args)) : ¬ list = t := by
    obtain ⟨-, -, -, -, tracks⟩ := listCall_eq_some calls
    intro same
    rw [same, sound.apart t mem untouched] at tracks
    contradiction
  have shared (_ : callsOut tracking.state op = true) (var : Var) (owned : var = t) :
      isShared var = false := by
    rw [owned]
    exact isTemp_not_shared (sound.temps t mem)
  have alone : ∀ operand ∈ handed tracking.state op, ∀ var, operandVar operand = some var → ¬ var = t :=
    fun operand listed var reads owned => free operand listed (owned ▸ reads)
  exact ⟨o, owns.step sound.held moved fetched holds other (fun var owned _ => owned) alone apart shared⟩

end Keeping

section Arms

variable (sound : Sound interp tracking aliases history state)
  (moved : Step interp func state next) (fetched : func.body[state.pc]? = some op)
  (straight : Tracking.straightEnds op = false) (separate : Separate tracking aliases op after)
  (pc : next.pc = state.pc + 1)

/-- A construction makes a list that only its temporary has. -/
theorem Step.constructs {interp : Interp} {func : IrFunction} {state next : State} {dst : Var}
    {callee : String} (moved : Step interp func state next)
    (fetched : func.body[state.pc]? = some (.call (some dst) callee none []))
    (listType : isListType callee javaLists.types = true) :
    ∃ o, next.env dst = .object o ∧ Owns interp next (· = dst) o [] := by
  obtain ⟨result, after, calls, rfl⟩ := moved.calls fetched
  cases calls with
  | @construct o constructs unused =>
    obtain ⟨unlisted, out, free, literal, inside⟩ := unused
    refine ⟨o, define_self _ _ _, update_self _ _ _, ⟨out, ?_, literal⟩, ?_⟩
    · intro p contents listed
      change update state.lists o (some []) p = some contents at listed
      by_cases here : p = o
      · subst here
        rw [update_self] at listed
        rw [← some.inj listed]
        exact not_mem_nil
      · rw [update_of_ne here] at listed
        exact inside p contents listed
    intro var value
    by_contra other
    rw [define_env _ _ fun same => other (some.inj same).symm] at value
    exact free var value
  | list received holds listed known acts => contradiction
  | other constructs list touches => exact absurd ⟨rfl, rfl, listType⟩ constructs

include sound moved fetched straight separate pc

theorem Sound.constructed {dst : Var} (constructs : Tracking.constructed java op = some dst)
    (same : after = { tracking with fresh := tracking.fresh ++ [dst] }) :
    Sound interp after (aliases.step tracking op) (history ++ [state]) next := by
  have step := step_eq tracking aliases straight
  obtain ⟨callee, rfl, temp, listType⟩ := constructed_eq_some constructs
  rw [constructs] at step
  have unnamed : Tracking.named tracking.fresh (.call (some dst) callee none []) = none := rfl
  have notTracked : tracking.state.get dst = none := by
    have lost := separate.assigned unnamed dst rfl
    rwa [same] at lost
  have untouched {t : Var} (out : t ∉ (aliases.step tracking (.call (some dst) callee none [])).touched)
      (other : t ≠ dst) : t ∉ aliases.touched := by
    rw [step] at out
    intro mem
    exact out (mem_filter.mpr ⟨mem, by simpa using other⟩)
  have old {t : Var} (mem : t ∈ after.fresh) (other : t ≠ dst) : t ∈ tracking.fresh := by
    rw [same] at mem
    rcases mem_append.mp mem with listed | new
    · exact listed
    · exact absurd (mem_singleton.mp new) other
  have kept {pair : Var × Var}
      (mem : pair ∈ (aliases.step tracking (.call (some dst) callee none [])).names) :
      pair ∈ aliases.names ∧ pair.1 ≠ dst := by
    rw [step] at mem
    obtain ⟨listed, apart, -⟩ := mem_keep.mp mem
    exact ⟨listed, fun here => apart (congrArg some here.symm)⟩
  refine ⟨?_, ?_, ?_, ?_, ?_, ?_, ?_, ?_⟩
  · intro v elements found
    have found' : tracking.state.get v = some elements := by rwa [same] at found
    apply sound.keeps moved fetched straight separate unnamed found'
    · rw [found]
      exact some_ne_none _
    · intro list elements name args calls
      contradiction
  · intro t mem out
    by_cases here : t = dst
    · rw [here]
      exact moved.constructs fetched listType
    apply sound.keepsFresh moved fetched (old mem here) (untouched out here)
    · exact fun defined => here (some.inj defined).symm
    · intro operand listed
      contradiction
  · intro t mem out
    rw [same]
    by_cases here : t = dst
    · rwa [here]
    · exact sound.apart t (old mem here) (untouched out here)
  · intro pair mem
    rw [same]
    exact sound.distinct pair (kept mem).1
  · intro pair mem
    obtain ⟨listed, other⟩ := kept mem
    rw [step]
    exact mem_filter.mpr ⟨sound.spent pair listed, by simpa using other⟩
  · intro t mem
    by_cases here : t = dst
    · rwa [here]
    · exact sound.temps t (old mem here)
  · exact fun pair mem => sound.names pair (kept mem).1
  · intro v elements found element listed
    rw [same] at found
    rw [pc]
    exact (sound.past v elements found element listed).trans (Nat.lt_succ_self _)

theorem Sound.named {dst src : Var} (plain : Tracking.constructed java op = none)
    (names : Tracking.named tracking.fresh op = some (dst, src)) (same : after = tracking.store dst []) :
    Sound interp after (aliases.step tracking op) (history ++ [state]) next := by
  have step := step_eq tracking aliases straight
  have first := separate.first dst src names
  rw [plain, names] at step
  obtain ⟨rfl, fresh⟩ := named_eq_some names
  have unread := sound.apart src fresh first
  have get_ne {v : Var} (other : v ≠ dst) : after.state.get v = tracking.state.get v := by
    rw [same]
    exact Dict.get_set_ne _ _ other
  have untouched {t : Var} (out : t ∉ (aliases.step tracking (.assign dst (.var src))).touched) :
      t ≠ dst ∧ t ≠ src ∧ t ∉ aliases.touched := by
    obtain ⟨apart, free, old⟩ := untouched_step straight plain out
    exact ⟨fun here => apart (congrArg some here.symm),
      fun here => free (.var src) mem_cons_self (congrArg some here.symm), old⟩
  have pairs {pair : Var × Var} (mem : pair ∈ (aliases.step tracking (.assign dst (.var src))).names) :
      pair = (src, dst) ∨ pair ∈ aliases.names ∧ pair.1 ≠ dst := by
    rw [step] at mem
    rcases mem_cons.mp mem with new | old
    · exact .inl new
    · obtain ⟨listed, apart, -⟩ := mem_keep.mp old
      exact .inr ⟨listed, fun here => apart (congrArg some here.symm)⟩
  have next_eq := moved.assigns fetched
  refine ⟨?_, ?_, ?_, ?_, ?_, ?_, ?_, ?_⟩
  · intro v elements found
    by_cases here : v = dst
    · subst here
      obtain ⟨o, holds, owns⟩ := sound.fresh src fresh first
      obtain rfl : elements = [] := by
        rw [same] at found
        exact (some.inj ((Dict.get_set_self _ _ _).symm.trans found)).symm
      rw [next_eq]
      refine ⟨o, [], (define_self _ _ _).trans holds, ⟨owns.listed, ?_, ?_⟩, by simp, .nil⟩
      · exact ⟨owns.isolated.outside, owns.isolated.inside, owns.isolated.literal⟩
      intro var value
      by_cases same : var = v
      · exact .inl same
      rw [define_env _ _ fun other => same (some.inj other).symm] at value
      rw [owns.alone var value, Owner, step]
      exact .inr mem_cons_self
    rw [get_ne here] at found
    obtain ⟨o, contents, holds, owns, short, elements'⟩ := sound.tracked v elements found
    have other : definedVar (.assign dst (.var src)) ≠ some v := fun defined =>
      here (some.inj defined).symm
    have free : ∀ operand ∈ handed tracking.state (.assign dst (.var src)), ∀ var,
        operandVar operand = some var → ¬ Owner aliases v var := by
      intro operand listed var reads owned
      obtain rfl := mem_singleton.mp listed
      obtain rfl := some.inj reads
      rcases owned with rfl | listed
      · rw [unread] at found
        contradiction
      · exact first (sound.spent _ listed)
    obtain ⟨holds', owns'⟩ := owns.step sound.held moved fetched holds other
      (fun var owned apart => owned.kept tracking straight other apart) free
      (fun list elements name args calls => by contradiction) (fun out => by contradiction)
    exact ⟨o, contents, holds', owns', short, forall₂_past elements' (sound.past v elements found)⟩
  · intro t mem out
    rw [same] at mem
    obtain ⟨apart, other, old⟩ := untouched out
    apply sound.keepsFresh moved fetched mem old fun defined => apart (some.inj defined).symm
    intro operand listed reads
    obtain rfl := mem_singleton.mp listed
    exact other (some.inj reads).symm
  · intro t mem out
    rw [same] at mem
    obtain ⟨apart, -, old⟩ := untouched out
    rw [get_ne apart]
    exact sound.apart t mem old
  · intro pair mem
    rcases pairs mem with rfl | ⟨listed, other⟩
    · by_cases here : src = dst
      · exact .inr here
      · exact .inl ((get_ne here).trans unread)
    · rw [get_ne other]
      exact sound.distinct pair listed
  · intro pair mem
    rw [step]
    rcases pairs mem with rfl | ⟨listed, -⟩
    · exact mem_append_left _ (mem_append_right _ mem_cons_self)
    · exact mem_append_right _ (sound.spent pair listed)
  · intro t mem
    rw [same] at mem
    exact sound.temps t mem
  · intro pair mem
    rcases pairs mem with rfl | ⟨listed, -⟩
    · exact sound.temps src fresh
    · exact sound.names pair listed
  · intro v elements found element listed
    rw [pc]
    by_cases here : v = dst
    · subst here
      rw [same] at found
      obtain rfl := some.inj ((Dict.get_set_self _ _ _).symm.trans found)
      contradiction
    · rw [get_ne here] at found
      exact (sound.past v elements found element listed).trans (Nat.lt_succ_self _)

section

variable (plain : Tracking.constructed java op = none)
include plain

omit pc separate in
/-- Without a new list the names stay as they are. -/
theorem Sound.continues
    (unnamed : Tracking.named tracking.fresh op = none) (fresh : after.fresh = tracking.fresh)
    (lost : ∀ v, tracking.state.get v = none → after.state.get v = none)
    (tracked : ∀ v elements, after.state.get v = some elements → ∃ o contents,
      next.env v = .object o ∧ Owns interp next (Owner (aliases.step tracking op) v) o contents ∧
        contents.length < 2 ^ 31 ∧ List.Forall₂ (LastValue interp (history ++ [state])) elements contents)
    (past : ∀ v elements, after.state.get v = some elements → ∀ element ∈ elements, element.2 < next.pc) :
    Sound interp after (aliases.step tracking op) (history ++ [state]) next := by
  have step := step_eq tracking aliases straight
  rw [plain, unnamed] at step
  have pairs {pair : Var × Var} (mem : pair ∈ (aliases.step tracking op).names) : pair ∈ aliases.names := by
    rw [step] at mem
    exact (mem_keep.mp mem).1
  refine ⟨tracked, ?_, ?_, ?_, ?_, ?_, ?_, past⟩
  · intro t mem out
    rw [fresh] at mem
    obtain ⟨apart, free, old⟩ := untouched_step straight plain out
    exact sound.keepsFresh moved fetched mem old apart free
  · intro t mem out
    rw [fresh] at mem
    obtain ⟨-, -, old⟩ := untouched_step straight plain out
    exact lost t (sound.apart t mem old)
  · intro pair mem
    exact (sound.distinct pair (pairs mem)).imp_left (lost pair.1)
  · intro pair mem
    rw [step]
    exact mem_append_right _ (sound.spent pair (pairs mem))
  · intro t mem
    rw [fresh] at mem
    exact sound.temps t mem
  · exact fun pair mem => sound.names pair (pairs mem)

theorem Sound.forgotten (unnamed : Tracking.named tracking.fresh op = none)
    (others : Tracking.listCall tracking.state op = none) (forgets : Tracking.Forgets tracking after) :
    Sound interp after (aliases.step tracking op) (history ++ [state]) next := by
  apply sound.continues moved fetched straight plain unnamed forgets.fresh
  · intro v absent
    by_contra found
    obtain ⟨elements, found⟩ := ne_none_iff_exists'.mp found
    rw [forgets.lost v elements found] at absent
    contradiction
  · intro v elements found
    apply sound.keeps moved fetched straight separate unnamed (forgets.lost v elements found)
    · rw [found]
      exact some_ne_none _
    intro list elements name args calls
    rw [others] at calls
    contradiction
  intro v elements found element listed
  rw [pc]
  exact (sound.past v elements (forgets.lost v elements found) element listed).trans (Nat.lt_succ_self _)

theorem Sound.used {list : Var} {elements : List (Operand × Nat)} {name : String} {args : List Operand}
    (unnamed : Tracking.named tracking.fresh op = none)
    (calls : Tracking.listCall tracking.state op = some (list, elements, name, args))
    (uses : Tracking.Uses tracking state.pc list elements name args after) :
    Sound interp after (aliases.step tracking op) (history ++ [state]) next := by
  obtain ⟨dst, callee, same, rfl, tracks⟩ := listCall_eq_some calls
  have own (elements' : List (Operand × Nat)) (found : after.state.get list = some elements') :
      (∃ o contents, next.env list = .object o ∧
        Owns interp next (Owner (aliases.step tracking op) list) o contents ∧ contents.length < 2 ^ 31 ∧
          List.Forall₂ (LastValue interp (history ++ [state])) elements' contents) ∧
        ∀ element ∈ elements', element.2 < state.pc + 1 := by
    obtain ⟨kind, known⟩ := uses.methodOf found
    obtain ⟨o, contents, holds, owns, short, elements''⟩ := sound.tracked list elements tracks
    have still : after.state.get list ≠ none := by
      rw [found]
      exact some_ne_none _
    have other : definedVar op ≠ some list := fun defined =>
      still (separate.assigned unnamed list defined)
    have quiet (_ : isShared list = true) : callsOut tracking.state op = false := by
      rw [same]
      simp [callsOut, tracks, known]
    have given (appends : kind = .append) : ∀ operand ∈ args, ∀ var, operandVar operand = some var →
        ¬ Owner aliases list var := by
      intro operand listed var reads owned
      have mem : operand ∈ handed tracking.state op := by
        rw [same]
        simpa [handed, tracks, known, appends] using listed
      obtain ⟨lost, aliased⟩ := separate.handed unnamed operand mem var reads
      rcases owned with rfl | named
      · exact still lost
      · exact still (aliased list named)
    obtain ⟨contents', result, acts, holds', owns'⟩ := owns.act sound.held moved fetched holds other
      (fun var owned apart => owned.kept tracking straight other apart) same known given quiet
    obtain ⟨short', past, related⟩ := acts_elements uses tracks found known acts
      (sound.past list elements tracks) short elements''
    exact ⟨⟨o, contents', holds', owns', short', related⟩, past⟩
  apply sound.continues moved fetched straight plain unnamed uses.fresh
  · intro v absent
    have other : v ≠ list := by
      rintro rfl
      rw [tracks] at absent
      contradiction
    rwa [uses.get_ne other]
  · intro v elements' found
    by_cases here : v = list
    · subst here
      exact (own elements' found).1
    have found' : tracking.state.get v = some elements' := by rwa [uses.get_ne here] at found
    apply sound.keeps moved fetched straight separate unnamed found'
    · rw [found]
      exact some_ne_none _
    intro list' elements'' name args' calls'
    rw [calls] at calls'
    obtain ⟨rfl, -⟩ := by simpa using calls'
    exact Ne.symm here
  intro v elements' found
  rw [pc]
  by_cases here : v = list
  · subst here
    exact (own elements' found).2
  · have found' : tracking.state.get v = some elements' := by rwa [uses.get_ne here] at found
    exact fun element listed => (sound.past v elements' found' element listed).trans (Nat.lt_succ_self _)

end

end Arms

/-- Every operation that hides no name keeps the tracking sound. -/
theorem Sound.step (sound : Sound interp tracking aliases history state)
    (moved : Step interp func state next) (fetched : func.body[state.pc]? = some op)
    (separate : Separate tracking aliases op after) (steps : Tracking.Steps tracking state.pc op after)
    (pc : next.pc = state.pc + 1) :
    Sound interp after (aliases.step tracking op) (history ++ [state]) next := by
  cases steps with
  | ended straight =>
    rw [Aliases.step, if_pos straight]
    exact sound_empty interp tracking.reads (history ++ [state]) next
  | constructed straight constructs =>
    exact sound.constructed moved fetched straight separate pc constructs rfl
  | named straight plain names => exact sound.named moved fetched straight separate pc plain names rfl
  | used straight plain unnamed calls uses =>
    exact sound.used moved fetched straight separate pc plain unnamed calls uses
  | forgotten straight plain unnamed others forgets =>
    exact sound.forgotten moved fetched straight separate pc plain unnamed others forgets

end Soundness

end Codegraph.TaintFlow.Lists
