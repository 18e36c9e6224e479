import Codegraph.TaintFlow.ListFrames

namespace Codegraph.TaintFlow.Lists

open Library Exec List Option Dict Text

namespace Tracking

section Cases

variable {tracking : Tracking} {index : Nat} {list : Var} {elements : List (Operand × Nat)}
  {name : String} {args : List Operand}

/-- What a call on a tracked list does to the tracking. -/
inductive Uses (tracking : Tracking) (index : Nat) (list : Var) (elements : List (Operand × Nat))
    (name : String) : List Operand → Tracking → Prop
  | dropped {args : List Operand} : Uses tracking index list elements name args (tracking.drop list)
  | append {arg : Operand} (known : methodOf name 1 = some .append) (other : arg ≠ .var list) :
      Uses tracking index list elements name [arg] (tracking.store list (elements ++ [(arg, index)]))
  | removeAt {text : String} {i : Nat} (known : methodOf name 1 = some .removeAt)
      (parsed : Text.parseUsize (Text.trim text.toList) = some i) (inside : i < elements.length) :
      Uses tracking index list elements name [.const text] (tracking.store list (elements.eraseIdx i))
  | removeFirst {element : Operand × Nat} {rest : List (Operand × Nat)}
      (known : methodOf name 0 = some .removeFirst) (first : elements = element :: rest) :
      Uses tracking index list elements name [] (tracking.store list rest)
  | readAt {text : String} {i : Nat} {element : Operand × Nat} (known : methodOf name 1 = some .readAt)
      (parsed : Text.parseUsize (Text.trim text.toList) = some i) (found : elements[i]? = some element) :
      Uses tracking index list elements name [.const text] (tracking.read index element)
  | readFirst {element : Operand × Nat} {rest : List (Operand × Nat)}
      (known : methodOf name 0 = some .readFirst) (first : elements = element :: rest) :
      Uses tracking index list elements name [] (tracking.read index element)
  | query {args : List Operand} (known : methodOf name args.length = some .query) :
      Uses tracking index list elements name args tracking

theorem position_eq_some {i : Nat} (single : args.length = 1) (found : position args = some i) :
    ∃ text, args = [.const text] ∧ Text.parseUsize (Text.trim text.toList) = some i := by
  obtain ⟨arg, rfl⟩ := length_eq_one_iff.mp single
  cases arg with
  | const text => exact ⟨text, rfl, found⟩
  | var var => contradiction
  | temp number => contradiction

theorem use_uses : Uses tracking index list elements name args
    (tracking.use java index list elements name args) := by
  unfold use
  split
  · exact .dropped
  rename_i apart
  split
  · rename_i known
    obtain ⟨arg, rfl⟩ := length_eq_one_iff.mp known.2
    refine .append (if_pos ⟨known.1, rfl⟩) ?_
    rintro rfl
    exact apart mem_cons_self
  rename_i noAppend
  have first : methodOf name args.length = _ := if_neg noAppend
  split
  · rename_i known
    split
    · rename_i i found
      obtain ⟨found, inside⟩ := filter_eq_some_iff.mp found
      obtain ⟨text, rfl, parsed⟩ := position_eq_some known.2 found
      have same := mem_singleton.mp known.1
      exact .removeAt (first.trans (if_pos ⟨same, rfl⟩)) parsed (by simpa using inside)
    · exact .dropped
  rename_i noRemove
  have second := first.trans (if_neg fun both => noRemove ⟨mem_singleton.mpr both.1, both.2⟩)
  split
  · rename_i known
    obtain ⟨listed, rfl⟩ := known
    split
    · exact .dropped
    rename_i nonempty
    obtain ⟨element, rest, rfl⟩ := exists_cons_of_ne_nil nonempty
    exact .removeFirst (second.trans (if_pos ⟨listed, rfl⟩)) rfl
  rename_i noFirst
  have third := second.trans (if_neg fun both => noFirst ⟨both.1, length_eq_zero_iff.mp both.2⟩)
  split
  · rename_i known
    split
    · rename_i element found
      obtain ⟨i, found, listed⟩ := bind_eq_some_iff.mp found
      obtain ⟨text, rfl, parsed⟩ := position_eq_some known.2 found
      exact .readAt (third.trans (if_pos ⟨known.1, rfl⟩)) parsed listed
    · exact .dropped
  rename_i noRead
  have fourth := third.trans (if_neg noRead)
  split
  · rename_i known
    obtain ⟨listed, rfl⟩ := known
    split
    · rename_i element found
      obtain ⟨rest, rfl⟩ := head?_eq_some_iff.mp found
      exact .readFirst (fourth.trans (if_pos ⟨listed, rfl⟩)) rfl
    · exact .dropped
  rename_i noPeek
  have fifth := fourth.trans (if_neg fun both => noPeek ⟨both.1, length_eq_zero_iff.mp both.2⟩)
  split
  · rename_i clean
    exact .query (fifth.trans (if_pos clean))
  · exact .dropped

theorem Uses.get_ne {after : Tracking} (uses : Uses tracking index list elements name args after)
    {var : Var} (other : var ≠ list) : after.state.get var = tracking.state.get var := by
  have dropped : (tracking.drop list).state.get var = tracking.state.get var := by
    rw [drop, get_remove, if_neg other]
  have stored (elements : List (Operand × Nat)) :
      (tracking.store list elements).state.get var = tracking.state.get var :=
    get_set_ne _ _ other
  cases uses with
  | dropped => exact dropped
  | append known apart => exact stored _
  | removeAt known parsed inside => exact stored _
  | removeFirst known first => exact stored _
  | readAt known parsed found => rfl
  | readFirst known first => rfl
  | query known => rfl

theorem Uses.methodOf {after : Tracking} {elements' : List (Operand × Nat)}
    (uses : Uses tracking index list elements name args after)
    (found : after.state.get list = some elements') : ∃ kind, methodOf name args.length = some kind := by
  cases uses with
  | dropped =>
    rw [drop, get_remove, if_pos rfl] at found
    contradiction
  | append known other => exact ⟨_, known⟩
  | removeAt known parsed inside => exact ⟨_, known⟩
  | removeFirst known first => exact ⟨_, known⟩
  | readAt known parsed found => exact ⟨_, known⟩
  | readFirst known first => exact ⟨_, known⟩
  | query known => exact ⟨_, known⟩

theorem Uses.fresh {after : Tracking} (uses : Uses tracking index list elements name args after) :
    after.fresh = tracking.fresh := by
  cases uses <;> rfl

/-- Nothing new is tracked afterwards. -/
structure Forgets (tracking after : Tracking) : Prop where
  fresh : after.fresh = tracking.fresh
  reads : after.reads = tracking.reads
  lost : ∀ var elements, after.state.get var = some elements → tracking.state.get var = some elements

theorem Forgets.drop (tracking : Tracking) (list : Var) : Forgets tracking (tracking.drop list) where
  fresh := rfl
  reads := rfl
  lost := by
    intro var elements found
    rw [Tracking.drop, get_remove] at found
    split at found
    · contradiction
    · exact found

theorem Forgets.trans {first second third : Tracking} (forgets : Forgets first second)
    (forgets' : Forgets second third) : Forgets first third where
  fresh := forgets'.fresh.trans forgets.fresh
  reads := forgets'.reads.trans forgets.reads
  lost := fun var elements found => forgets.lost var elements (forgets'.lost var elements found)

theorem Forgets.foldl (operands : List Operand) (tracking : Tracking) :
    Forgets tracking (operands.foldl dropRead tracking) := by
  induction operands generalizing tracking with
  | nil => exact ⟨rfl, rfl, fun _ _ found => found⟩
  | cons operand operands ih =>
    have first : Forgets tracking (dropRead tracking operand) := by
      cases operand with
      | var var => exact .drop tracking var
      | const text => exact ⟨rfl, rfl, fun _ _ found => found⟩
      | temp number => exact ⟨rfl, rfl, fun _ _ found => found⟩
    exact first.trans (ih _)

theorem forget_forgets (tracking : Tracking) (op : IrOp) : Forgets tracking (tracking.forget op) := by
  have reads := Forgets.foldl (opReads op) tracking
  unfold forget
  split
  · exact reads.trans (.drop _ _)
  · exact reads.trans (.drop _ _)
  · exact reads.trans (.drop _ _)
  · exact reads.trans (.drop _ _)
  · exact reads

end Cases

theorem listCall_eq_some {state : Dict Var (List (Operand × Nat))} {op : IrOp} {list : Var}
    {elements : List (Operand × Nat)} {name : String} {args : List Operand}
    (calls : listCall state op = some (list, elements, name, args)) :
    ∃ dst callee, op = .call dst callee (some (.var list)) args ∧ name = method callee ∧
      state.get list = some elements := by
  unfold listCall at calls
  split at calls
  · rename_i dst callee list' args'
    obtain ⟨elements', found, same⟩ := map_eq_some_iff.mp calls
    obtain ⟨rfl, rfl, rfl, rfl⟩ := by simpa using same
    exact ⟨dst, callee, rfl, rfl, found⟩
  · contradiction

theorem named_eq_some {fresh : List Var} {op : IrOp} {dst src : Var}
    (names : named fresh op = some (dst, src)) : op = .assign dst (.var src) ∧ src ∈ fresh := by
  unfold named at names
  split at names
  · rename_i dst' src'
    split at names
    · rename_i listed
      obtain ⟨rfl, rfl⟩ := by simpa using names
      exact ⟨rfl, listed⟩
    · contradiction
  · contradiction

theorem constructed_eq_some {op : IrOp} {dst : Var} (constructs : constructed java op = some dst) :
    ∃ callee, op = .call (some dst) callee none [] ∧ isTemp dst = true ∧
      isListType callee javaLists.types = true := by
  unfold constructed at constructs
  split at constructs
  · rename_i dst' callee args
    split at constructs
    · rename_i holds
      obtain ⟨rfl, temp, listType⟩ := holds
      obtain rfl := some.inj constructs
      exact ⟨callee, rfl, temp, listType⟩
    · contradiction
  · contradiction

/-- What an operation does to the tracking. -/
inductive Steps (tracking : Tracking) (index : Nat) (op : IrOp) : Tracking → Prop
  | ended (straight : straightEnds op = true) :
      Steps tracking index op { tracking with fresh := [], state := ∅ }
  | constructed {dst : Var} (straight : straightEnds op = false)
      (constructs : constructed java op = some dst) :
      Steps tracking index op { tracking with fresh := tracking.fresh ++ [dst] }
  | named {dst src : Var} (straight : straightEnds op = false) (plain : constructed java op = none)
      (names : named tracking.fresh op = some (dst, src)) :
      Steps tracking index op (tracking.store dst [])
  | used {list : Var} {elements : List (Operand × Nat)} {name : String} {args : List Operand}
      {after : Tracking} (straight : straightEnds op = false) (plain : constructed java op = none)
      (unnamed : named tracking.fresh op = none)
      (calls : listCall tracking.state op = some (list, elements, name, args))
      (uses : Uses tracking index list elements name args after) : Steps tracking index op after
  | forgotten {after : Tracking} (straight : straightEnds op = false) (plain : constructed java op = none)
      (unnamed : named tracking.fresh op = none) (others : listCall tracking.state op = none)
      (forgets : Forgets tracking after) : Steps tracking index op after

theorem step_steps (tracking : Tracking) (index : Nat) (op : IrOp) :
    Steps tracking index op (tracking.step java (op, index)) := by
  unfold step
  by_cases straight : straightEnds op = true
  · rw [if_pos straight]
    exact .ended straight
  rw [if_neg straight]
  rw [Bool.not_eq_true] at straight
  cases constructs : constructed java op with
  | some dst => exact .constructed straight constructs
  | none =>
    cases names : named tracking.fresh op with
    | some pair => exact .named straight constructs names
    | none =>
      cases calls : listCall tracking.state op with
      | some call => exact .used straight constructs names calls use_uses
      | none => exact .forgotten straight constructs names calls (forget_forgets tracking op)

end Tracking

section Elements

variable {interp : Interp} {history : List State} {state : State}

theorem LastValue.past {source : Operand × Nat} {value : Value} (last : LastValue interp history source value)
    (other : source.2 ≠ state.pc) : LastValue interp (history ++ [state]) source value := by
  obtain ⟨earlier, here, later, rfl, at_pc, after, same⟩ := last
  refine ⟨earlier, here, later ++ [state], by simp, at_pc, fun next mem => ?_, same⟩
  rcases mem_append.mp mem with old | new
  · exact after next old
  · rw [mem_singleton.mp new]
    exact other.symm

theorem LastValue.now (interp : Interp) (history : List State) (state : State) (arg : Operand) :
    LastValue interp (history ++ [state]) (arg, state.pc) (interp.operand state.env arg) :=
  ⟨history, state, [], by simp, rfl, by simp, rfl⟩

theorem literal_position {interp : Interp} {text : String} {i : Nat}
    (parsed : Text.parseUsize (Text.trim text.toList) = some i) (small : i < 2 ^ 31) :
    interp.literal text = .int (BitVec.ofNat 64 i) := by
  obtain ⟨number, chars⟩ := isDigit_of_parseUsize parsed
  have absent (c : Char) (digit : c.isDigit = false) (plus : c ≠ '+') : c ∉ Text.trim text.toList := by
    intro mem
    rcases chars c mem with found | same
    · rw [digit] at found
      contradiction
    · exact plus same
  have noWord (words : List (List Char))
      (each : ∀ word ∈ words, ∃ c ∈ word, c.isDigit = false ∧ c ≠ '+') :
      Text.trim text.toList ∉ words := by
    intro mem
    obtain ⟨c, inside, digit, plus⟩ := each _ mem
    exact absent c digit plus inside
  have unquoted (c : Char) (digit : c.isDigit = false) (plus : c ≠ '+') :
      Consts.quoted c (Text.trim text.toList) = none := by
    rw [Consts.quoted, stripPrefix_eq_none mem_cons_self (absent c digit plus)]
    rfl
  have whole : Text.trimEndMatches (fun c => c ∈ ['l', 'L', 'u', 'U']) (Text.trim text.toList) =
      Text.trim text.toList := by
    apply trimEndMatches_of_none
    intro c mem
    rw [decide_eq_false_iff_not]
    intro suffix
    rcases chars c mem with digit | rfl
    · have letters : ∀ c ∈ ['l', 'L', 'u', 'U'], c.isDigit = false := by decide
      rw [letters c suffix] at digit
      contradiction
    · exact absurd suffix (by decide)
  have plain : Consts.hexDigits (Text.trim text.toList) = none := by
    unfold Consts.hexDigits
    rw [stripPrefix_eq_none (c := 'x') (by decide) (absent 'x' (by decide) (by decide)),
      stripPrefix_eq_none (c := 'X') (by decide) (absent 'X' (by decide) (by decide))]
    rfl
  have value : Consts.number (Text.trim text.toList) = some (.int (BitVec.ofNat 64 i)) := by
    unfold Consts.number
    dsimp only
    rw [whole, plain]
    dsimp only
    have bounds : -(2 ^ 63) ≤ (i : Int) ∧ (i : Int) < 2 ^ 63 := by omega
    rw [number, bind_some, I64.checked, if_pos bounds, BitVec.ofInt_natCast]
    rfl
  have read : Consts.literal text = some (.int (BitVec.ofNat 64 i)) := by
    unfold Consts.literal
    dsimp only
    rw [if_neg, if_neg, unquoted '\'' (by decide) (by decide), unquoted '"' (by decide) (by decide)]
    · exact value
    · exact noWord _ (by decide)
    · exact noWord _ (by decide)
  rw [Interp.literal, read]
  rfl

variable {elements : List (Operand × Nat)}

theorem forall₂_past {contents : List Value}
    (same : List.Forall₂ (LastValue interp history) elements contents)
    (past : ∀ element ∈ elements, element.2 < state.pc) :
    List.Forall₂ (LastValue interp (history ++ [state])) elements contents := by
  induction same with
  | nil => exact .nil
  | cons last _ ih =>
    rw [forall_mem_cons] at past
    exact .cons (last.past past.1.ne) (ih past.2)

theorem forall₂_eraseIdx {relation : Operand × Nat → Value → Prop}
    {contents : List Value} (same : List.Forall₂ relation elements contents) (i : Nat) :
    List.Forall₂ relation (elements.eraseIdx i) (contents.eraseIdx i) := by
  induction same generalizing i with
  | nil => exact .nil
  | cons related rest ih =>
    cases i with
    | zero => exact rest
    | succ i => exact .cons related (ih i)

theorem position_eq {text : String} {i index : Nat}
    (parsed : Text.parseUsize (Text.trim text.toList) = some i) (small : i < 2 ^ 31) (int : index < 2 ^ 31)
    (given : [Value.int (BitVec.ofNat 64 index)] = [Operand.const text].map (interp.operand state.env)) :
    index = i := by
  have value : interp.operand state.env (.const text) = .int (BitVec.ofNat 64 i) :=
    literal_position parsed small
  rw [map_singleton, value, singleton_inj] at given
  injection given with bits
  have same := congrArg BitVec.toNat bits
  rwa [BitVec.toNat_ofNat, BitVec.toNat_ofNat, Nat.mod_eq_of_lt (by omega),
    Nat.mod_eq_of_lt (by omega)] at same

theorem acts_elements {outside : Nat → Prop} {tracking after : Tracking} {list : Var}
    {elements elements' : List (Operand × Nat)} {name : String} {args : List Operand} {kind : Method}
    {contents contents' : List Value} {result : Value}
    (uses : Tracking.Uses tracking state.pc list elements name args after)
    (before : tracking.state.get list = some elements) (found : after.state.get list = some elements')
    (known : methodOf name args.length = some kind)
    (acts : Acts outside kind (args.map (interp.operand state.env)) contents result contents')
    (past : ∀ element ∈ elements, element.2 < state.pc) (short : contents.length < 2 ^ 31)
    (same : List.Forall₂ (LastValue interp history) elements contents) :
    contents'.length < 2 ^ 31 ∧ (∀ element ∈ elements', element.2 < state.pc + 1) ∧
      List.Forall₂ (LastValue interp (history ++ [state])) elements' contents' := by
  have same' := forall₂_past same past
  have past' : ∀ element ∈ elements, element.2 < state.pc + 1 := fun element mem =>
    (past element mem).trans (Nat.lt_succ_self _)
  have length := same.length_eq
  have stored {elements'' : List (Operand × Nat)}
      (found : (tracking.store list elements'').state.get list = some elements') :
      elements'' = elements' :=
    some.inj ((get_set_self _ _ _).symm.trans found)
  cases uses with
  | dropped =>
    rw [Tracking.drop, get_remove, if_pos rfl] at found
    contradiction
  | @append arg known' other =>
    obtain rfl := stored found
    obtain rfl : kind = .append := some.inj (known.symm.trans known')
    generalize given : [arg].map (interp.operand state.env) = values at acts
    cases acts with
    | @append value _ _ room plain =>
      obtain rfl := singleton_inj.mp given
      refine ⟨by rwa [length_append, length_singleton], ?_, ?_⟩
      · rw [forall_mem_append, forall_mem_singleton]
        exact ⟨past', Nat.lt_succ_self _⟩
      · exact rel_append same' (.cons (LastValue.now interp history state arg) .nil)
  | @removeAt text i known' parsed inside =>
    obtain rfl := stored found
    obtain rfl : kind = .removeAt := some.inj (known.symm.trans known')
    generalize given : [Operand.const text].map (interp.operand state.env) = values at acts
    cases acts with
    | @removeAt index element _ int found =>
      obtain rfl := position_eq parsed (by omega) int given.symm
      refine ⟨(length_eraseIdx_le _ _).trans_lt short, fun element mem => ?_, forall₂_eraseIdx same' _⟩
      exact past' element ((eraseIdx_sublist _ _).subset mem)
    | removeEqual object fewer plain =>
      have value : interp.literal text = .int (BitVec.ofNat 64 i) := literal_position parsed (by omega)
      rw [← singleton_inj.mp given] at object
      exact absurd value (object _)
  | @removeFirst element rest known' first =>
    obtain rfl := stored found
    obtain rfl : kind = .removeFirst := some.inj (known.symm.trans known')
    subst first
    cases acts with
    | removeFirst =>
      cases same' with
      | cons last tail =>
        refine ⟨(Nat.lt_succ_self _).trans short, ?_, tail⟩
        exact (forall_mem_cons.mp past').2
    | removeNone plain => contradiction
  | @readAt text i element known' parsed listed =>
    obtain rfl := some.inj (before.symm.trans found)
    obtain rfl : kind = .readAt := some.inj (known.symm.trans known')
    generalize given : [Operand.const text].map (interp.operand state.env) = values at acts
    cases acts with
    | readAt int found => exact ⟨short, past', same'⟩
  | readFirst known' first =>
    obtain rfl := some.inj (before.symm.trans found)
    obtain rfl : kind = .readFirst := some.inj (known.symm.trans known')
    cases acts with
    | readFirst => exact ⟨short, past', same'⟩
    | readNone plain => exact ⟨short, past', same'⟩
  | query known' =>
    obtain rfl := some.inj (before.symm.trans found)
    obtain rfl : kind = .query := some.inj (known.symm.trans known')
    cases acts with
    | query plain => exact ⟨short, past', same'⟩

/-- What a recorded read returns is the value of the argument at the append. -/
theorem acts_read {outside : Nat → Prop} {tracking after : Tracking} {list : Var}
    {name : String} {args : List Operand} {kind : Method}
    {contents contents' : List Value} {result : Value} {source : Operand × Nat}
    (uses : Tracking.Uses tracking state.pc list elements name args after)
    (unread : tracking.reads.get state.pc = none) (found : after.reads.get state.pc = some source)
    (known : methodOf name args.length = some kind)
    (acts : Acts outside kind (args.map (interp.operand state.env)) contents result contents')
    (short : contents.length < 2 ^ 31)
    (same : List.Forall₂ (LastValue interp history) elements contents) :
    LastValue interp history source result := by
  have length := same.length_eq
  have recorded {element : Operand × Nat}
      (found : (tracking.read state.pc element).reads.get state.pc = some source) : element = source :=
    some.inj ((get_set_self _ _ _).symm.trans found)
  have silent (kept : after.reads = tracking.reads) : False := by
    rw [kept, unread] at found
    contradiction
  cases uses with
  | dropped => exact (silent rfl).elim
  | append known' other => exact (silent rfl).elim
  | removeAt known' parsed inside => exact (silent rfl).elim
  | removeFirst known' first => exact (silent rfl).elim
  | query known' => exact (silent rfl).elim
  | @readAt text i element known' parsed listed =>
    obtain rfl := recorded found
    obtain rfl : kind = .readAt := some.inj (known.symm.trans known')
    generalize given : [Operand.const text].map (interp.operand state.env) = values at acts
    have inside := (List.getElem?_eq_some_iff.mp listed).1
    cases acts with
    | @readAt index _ _ int at_index =>
      obtain rfl := position_eq parsed (by omega) int given.symm
      obtain ⟨here, rfl⟩ := List.getElem?_eq_some_iff.mp listed
      obtain ⟨here', rfl⟩ := List.getElem?_eq_some_iff.mp at_index
      exact List.Forall₂.get same here here'
  | @readFirst element rest known' first =>
    obtain rfl := recorded found
    obtain rfl : kind = .readFirst := some.inj (known.symm.trans known')
    subst first
    cases acts with
    | readFirst =>
      cases same with
      | cons last tail => exact last
    | readNone plain => contradiction

end Elements

end Codegraph.TaintFlow.Lists
