import Codegraph.Ir.Semantics

namespace Codegraph

open Library List Option BitVec

namespace Consts

/-- The operations that define a variable. -/
def definers (body : List IrOp) (var : Var) : List Nat :=
  positions (fun op => definedVar op = some var) body

theorem foldl_countDefinition (body : List IrOp) (var : Var) : (body.zipIdx.foldl countDefinition ∅).get var =
      (definers body var).head?.map fun first => ((definers body var).length, first) := by
  unfold definers
  induction body using List.reverseRecOn with
  | nil => simp
  | append_singleton body op ih =>
    rw [zipIdx_concat, foldl_append, foldl_cons, foldl_nil, positions_concat]
    by_cases defines : definedVar op = some var
    · have counted : countDefinition (body.zipIdx.foldl countDefinition ∅) (op, body.length) =
          (body.zipIdx.foldl countDefinition ∅).update var (0, body.length)
            fun count => (count.1 + 1, count.2) := by simp [countDefinition, defines]
      rw [counted, Dict.get_update, if_pos rfl, Dict.getD, ih]
      cases positions (fun op => decide (definedVar op = some var)) body with
      | nil => simp [defines]
      | cons first rest => simp [defines]
    have counted : (countDefinition (body.zipIdx.foldl countDefinition ∅)
        (op, body.length)).get var = (body.zipIdx.foldl countDefinition ∅).get var := by
      unfold countDefinition
      cases defined : definedVar op with
      | none => rfl
      | some dst =>
        have different : var ≠ dst := by
          intro same
          exact defines (same ▸ defined)
        simp only [Dict.get_update, different, if_false]
    rw [counted, ih]
    simp [defines]

theorem foldl_countEntry {counts : Dict Var (Nat × Nat)} {vars : List Var} {var : Var} {index : Nat}
    (counted : (vars.foldl countEntry counts).get var = some (1, index)) :
    counts.get var = some (1, index) := by
  induction vars generalizing counts with
  | nil => exact counted
  | cons head vars ih =>
    have before := ih counted
    rw [countEntry, Dict.get_update] at before
    split at before
    · simp at before
    · exact before

/-- A single definition is the only operation that defines its variable. -/
theorem single_eq_some {func : IrFunction} {var : Var} {index : Nat}
    (defined : single func var = some index) :
    (∃ op, func.body[index]? = some op ∧ definedVar op = some var) ∧
      ∀ (other : Nat) op, func.body[other]? = some op → definedVar op = some var → other = index := by
  have counted : (counts func).get var = some (1, index) := by
    unfold single at defined
    split at defined
    · rename_i found
      cases defined
      exact found
    · contradiction
  have body := foldl_countEntry counted
  rw [foldl_countDefinition] at body
  have alone : definers func.body var = [index] := by
    cases found : definers func.body var with
    | nil => simp [found] at body
    | cons first rest =>
      rw [found] at body
      simp only [head?_cons, map_some, length_cons, some.injEq, Prod.mk.injEq] at body
      obtain ⟨short, rfl⟩ := body
      rw [eq_nil_of_length_eq_zero (by omega : rest.length = 0)]
  have mem (other : Nat) : other = index ↔
      ∃ op, func.body[other]? = some op ∧ definedVar op = some var := by
    have listed := @mem_positions _ (fun op => decide (definedVar op = some var)) func.body other
    change other ∈ definers func.body var ↔ _ at listed
    simpa [alone] using listed
  exact ⟨(mem index).mp rfl, fun other op found defines => (mem other).mpr ⟨op, found, defines⟩⟩

/-- The fold of an operand looks through the definitions of these variables. -/
inductive LooksThrough (func : IrFunction) : Operand → Var → Prop
  | here {var : Var} {index : Nat} (defined : single func var = some index) :
      LooksThrough func (.var var) var
  | through {var inner : Var} {index : Nat} {op : IrOp} {read : Operand}
      (defined : single func var = some index) (found : func.body[index]? = some op)
      (reads : read ∈ opReads op) (rest : LooksThrough func read inner) :
      LooksThrough func (.var var) inner

end Consts

namespace Exec

theorem checked_eq_some {value : Int} {result : I64} :
    I64.checked value = some result ↔ fits value ∧ BitVec.ofInt 64 value = result := by
  unfold I64.checked fits
  split <;> simp_all

theorem ofBool_eq_ite (holds : Prop) [Decidable holds] :
    BitVec.ofInt 64 (if holds then 1 else 0) = I64.ofBool holds := by
  by_cases known : holds <;> simp [known, I64.ofBool]

theorem two_pow_cast (amount : Nat) : (2 : Int) ^ amount = ((2 ^ amount : Nat) : Int) := by
  push_cast
  rfl

theorem ofInt_mul_pow (value : I64) (amount : Nat) :
    BitVec.ofInt 64 (value.toInt * 2 ^ amount) = value <<< amount := by
  have power : BitVec.ofInt 64 (2 ^ amount) = BitVec.twoPow 64 amount := by
    rw [two_pow_cast, ofInt_natCast]
    apply eq_of_toNat_eq
    rw [toNat_ofNat, toNat_twoPow]
  rw [shiftLeft_eq_mul_twoPow, ofInt_mul, ofInt_toInt, power]

theorem ofInt_div_pow (value : I64) (amount : Nat) :
    BitVec.ofInt 64 (value.toInt / 2 ^ amount) = value.sshiftRight amount := by
  rw [two_pow_cast, ← Int.shiftRight_eq_div_pow, ← toInt_sshiftRight, ofInt_toInt]

/-- Integer folds agree with exact arithmetic inside the range. -/
theorem applyInt_exact {op : BinOpKind} {lhs rhs result : I64} {exact : Int}
    (applied : Consts.applyInt op lhs rhs = some result)
    (computed : exactInt op lhs.toInt rhs.toInt = some exact) : BitVec.ofInt 64 exact = result := by
  cases op with
  | add | sub | mul =>
    cases computed
    exact (checked_eq_some.mp applied).2
  | div =>
    simp only [Consts.applyInt, exactInt] at applied computed
    split at computed
    · contradiction
    rename_i nonzero
    cases computed
    rw [if_neg nonzero] at applied
    exact (checked_eq_some.mp applied).2
  | rem =>
    simp only [Consts.applyInt, exactInt] at applied computed
    split at applied
    · contradiction
    split at computed
    · contradiction
    · cases computed
      exact (checked_eq_some.mp applied).2
  | eq | ne | lt | gt | le | ge | and | or =>
    cases computed
    cases applied
    exact ofBool_eq_ite _
  | bitAnd | bitOr | bitXor =>
    cases computed
    cases applied
    simp only [ofInt_toInt]
  | shl =>
    simp only [Consts.applyInt, Consts.shiftAmount, exactInt] at applied computed
    split at computed
    · rename_i small
      cases computed
      rw [if_pos small] at applied
      cases applied
      exact ofInt_mul_pow lhs _
    · contradiction
  | shr =>
    simp only [Consts.applyInt, Consts.shiftAmount, exactInt] at applied computed
    split at computed
    · rename_i small
      cases computed
      rw [if_pos small] at applied
      cases applied
      exact ofInt_div_pow lhs _
    · contradiction

theorem toInt_eq_zero_iff (value : I64) : value.toInt = 0 ↔ value = 0 := by
  constructor
  · intro zero
    exact eq_of_toInt_eq (by simpa using zero)
  · intro zero
    simp [zero]

/-- A folded operator is the only result an execution without overflow has. -/
theorem apply_sound {interp : Interp} {op : BinOpKind} {lhs rhs folded : Consts.Value}
    {result : Value} (applied : Consts.apply op lhs rhs = some folded)
    (computed : interp.BinOpResult op (ofConst lhs) (ofConst rhs) result) :
    result = ofConst folded := by
  have nonzero (value : I64) : interp.isTrue (.int value) = decide (value.toInt ≠ 0) := by
    simp [Interp.isTrue, toInt_eq_zero_iff]
  unfold Interp.BinOpResult at computed
  cases lhs with
  | int lhs =>
    cases rhs with
    | str rhs => simp [Consts.apply] at applied
    | int rhs =>
      obtain ⟨bits, appliedInt, rfl⟩ := map_eq_some_iff.mp applied
      by_cases conjunction : op = .and
      · subst conjunction
        cases appliedInt
        rw [if_pos rfl] at computed
        simpa [ofConst, ofBool, nonzero] using computed
      by_cases disjunction : op = .or
      · subst disjunction
        cases appliedInt
        rw [if_neg (by decide), if_pos rfl] at computed
        simpa [ofConst, ofBool, nonzero] using computed
      rw [if_neg conjunction, if_neg disjunction] at computed
      obtain ⟨exact, known, -, rfl⟩ := computed
      rw [applyInt_exact appliedInt known]
      rfl
  | str lhs =>
    cases rhs with
    | int rhs => simp [Consts.apply] at applied
    | str rhs =>
      cases op with
      | eq | ne =>
        cases applied
        simpa [ofConst, ofBool] using computed
      | _ => simp [Consts.apply] at applied

@[simp] theorem ofConst_inj {first second : Consts.Value} :
    ofConst first = ofConst second ↔ first = second := by
  cases first <;> cases second <;> simp [ofConst]

theorem literal_false (interp : Interp) : interp.literal "false" = ofConst (.int 0) := by
  have parsed : Consts.literal "false" = some (.int 0) := by decide
  rw [Interp.literal, parsed]
  rfl

theorem literal_sound {interp : Interp} {env : Env} {text : String} {value : Consts.Value}
    (parsed : Consts.literal text = some value) :
    interp.operand env (.const text) = ofConst value := by
  rw [Interp.operand, Interp.literal, parsed]
  rfl

theorem negation_sound {interp : Interp} {value folded : Consts.Value}
    (applied : Consts.apply .eq value (.int 0) = some folded ∨
      Consts.apply .eq (.int 0) value = some folded) :
    ofBool (!interp.isTrue (ofConst value)) = ofConst folded := by
  cases value with
  | str text => simp [Consts.apply] at applied
  | int value =>
    have folds : folded = .int (I64.ofBool (value.toInt = 0)) := by
      simp only [Consts.apply, Consts.applyInt, map_some, some.injEq] at applied
      rcases applied with rfl | rfl
      · rfl
      · simp [eq_comm]
    rw [folds]
    simp [ofConst, ofBool, Interp.isTrue, toInt_eq_zero_iff]

theorem foldOp_sound {interp : Interp} {env : Env} {fold : Operand → Option Consts.Value}
    {op : IrOp} {value : Consts.Value} {result : Value}
    (known : ∀ read ∈ opReads op, ∀ value, fold read = some value → interp.operand env read = ofConst value)
    (folded : Consts.foldOp fold op = some value) (computed : interp.Result env op result) :
    result = ofConst value := by
  cases op with
  | assign dst src => rwa [← known src (by simp [opReads]) value folded]
  | binOp dst lhs op rhs =>
    obtain ⟨left, foldedLeft, rest⟩ := bind_eq_some_iff.mp folded
    obtain ⟨right, foldedRight, applied⟩ := bind_eq_some_iff.mp rest
    have knownLeft := known lhs (by simp [opReads]) left foldedLeft
    have knownRight := known rhs (by simp [opReads]) right foldedRight
    have literal := literal_false interp
    unfold Interp.Result negated at computed
    dsimp only at computed
    split at computed
    · rename_i operand negation
      split at negation
      · rename_i written
        obtain ⟨rfl, rfl⟩ := written
        cases negation
        change interp.literal "false" = _ at knownRight
        rw [literal, ofConst_inj] at knownRight
        rw [computed, knownLeft]
        exact negation_sound (.inl (knownRight ▸ applied))
      split at negation
      · rename_i written
        obtain ⟨rfl, rfl⟩ := written
        cases negation
        change interp.literal "false" = _ at knownLeft
        rw [literal, ofConst_inj] at knownLeft
        rw [computed, knownRight]
        exact negation_sound (.inr (knownLeft ▸ applied))
      · contradiction
    · rw [knownLeft, knownRight] at computed
      exact apply_sound applied computed
  | call dst callee receiver args =>
    obtain ⟨object, rfl, arg, rfl⟩ : ∃ object, receiver = some object ∧ ∃ arg, args = [arg] := by
      unfold Consts.foldOp at folded
      split at folded <;> simp_all
    simp only [Consts.foldOp] at folded
    split at folded
    · rename_i named
      split at folded
      · rename_i text foldedText
        split at folded
        · rename_i index foldedIndex
          obtain ⟨c, found, rfl⟩ := map_eq_some_iff.mp folded
          have knownText := known object (by simp [opReads]) _ foldedText
          have knownIndex := known arg (by simp [opReads]) _ foldedIndex
          simp only [Interp.Result, Interp.CallResult, map_some, map_cons,
            map_nil, knownText, knownIndex, ofConst] at computed
          exact computed named c found
        · contradiction
      · contradiction
    · contradiction
  | _ => simp [Consts.foldOp] at folded

end Exec

end Codegraph
