import Codegraph.Library.Predecessors
import Mathlib.Order.WithBot

namespace Codegraph.Library

open WithBot

/-- A single-precision float. The finite ones count the least positive float, and both zeros are
one. -/
inductive Single where
  | nan
  | negInf
  | finite (count : Int)
  | posInf
deriving DecidableEq

/-- The nearest multiple of a unit, and the even one when two are. -/
def roundTo (unit magnitude : Nat) : Nat :=
  let kept := magnitude / unit
  let lost := magnitude % unit
  (if unit < 2 * lost ∨ (2 * lost = unit ∧ kept % 2 = 1) then kept + 1 else kept) * unit

/-- The last bit that is kept when a magnitude has 24 significant bits. -/
def lastBit (magnitude : Nat) : Nat := magnitude.log2 - 23

def roundMagnitude (magnitude : Nat) : Nat := roundTo (2 ^ lastBit magnitude) magnitude

/-- The magnitudes from here on are infinite. -/
def overflowCount : Nat := 2 ^ 128 * 2 ^ 149

namespace Single

def round (count : Int) : Single :=
  if roundMagnitude count.natAbs < overflowCount then
    finite (if count < 0 then -roundMagnitude count.natAbs else roundMagnitude count.natAbs)
  else if count < 0 then negInf else posInf

def add : Single → Single → Single
  | nan, _ | _, nan | posInf, negInf | negInf, posInf => nan
  | posInf, _ | _, posInf => posInf
  | negInf, _ | _, negInf => negInf
  | finite first, finite second => round (first + second)

/-- Nothing is less than a NaN, and a NaN is less than nothing. -/
def less : Single → Single → Bool
  | negInf, finite _ | negInf, posInf | finite _, posInf => true
  | finite first, finite second => first < second
  | _, _ => false

/-- The float of some bits: the sign, eight bits of the exponent and the fraction. -/
def ofBits (bits : BitVec 32) : Single :=
  let negative := bits.msb
  let exponent := (bits.extractLsb' 23 8).toNat
  let fraction := (bits.extractLsb' 0 23).toNat
  if exponent = 255 then
    if fraction ≠ 0 then nan else if negative then negInf else posInf
  else
    let magnitude : Nat := if exponent = 0 then fraction else (2 ^ 23 + fraction) * 2 ^ (exponent - 1)
    finite (if negative then -magnitude else magnitude)

instance : Costing Single where
  zero := finite 0
  infinity := posInf
  add := add
  less := less

/-- The place of a float that is no NaN among the others. -/
def key : Single → WithBot (WithTop Int)
  | negInf => ⊥
  | finite count => ((count : WithTop Int) : WithBot (WithTop Int))
  | posInf | nan => ((⊤ : WithTop Int) : WithBot (WithTop Int))

end Single

section Rounding

theorem roundTo_bounds (unit magnitude : Nat) : magnitude / unit * unit ≤ roundTo unit magnitude ∧
      roundTo unit magnitude ≤ (magnitude / unit + 1) * unit := by
  unfold roundTo
  dsimp only
  split
  · exact ⟨Nat.mul_le_mul_right _ (Nat.le_succ _), le_rfl⟩
  · exact ⟨le_rfl, Nat.mul_le_mul_right _ (Nat.le_succ _)⟩

theorem roundTo_mono {unit first second : Nat} (small : first ≤ second) :
    roundTo unit first ≤ roundTo unit second := by
  rcases (Nat.div_le_div_right (c := unit) small).eq_or_lt with same | smaller
  · have lost : first % unit ≤ second % unit := by
      have parts := Nat.div_add_mod first unit
      have parts' := Nat.div_add_mod second unit
      rw [same] at parts
      omega
    rw [roundTo, same]
    refine Nat.mul_le_mul_right _ ?_
    split
    · rename_i carries
      rw [if_pos (by omega)]
    split
    · exact Nat.le_succ _
    · exact le_rfl
  calc roundTo unit first ≤ (first / unit + 1) * unit := (roundTo_bounds unit first).2
    _ ≤ second / unit * unit := Nat.mul_le_mul_right _ smaller
    _ ≤ roundTo unit second := (roundTo_bounds unit second).1

theorem roundMagnitude_le (magnitude : Nat) : roundMagnitude magnitude ≤ 2 ^ (lastBit magnitude + 24) := by
  have size : magnitude < 2 ^ lastBit magnitude * 2 ^ 24 := by
    rw [← pow_add]
    refine Nat.lt_log2_self.trans_le (Nat.pow_le_pow_right (by decide) ?_)
    unfold lastBit
    omega
  calc roundMagnitude magnitude ≤ (magnitude / 2 ^ lastBit magnitude + 1) * 2 ^ lastBit magnitude :=
        (roundTo_bounds _ _).2
    _ ≤ 2 ^ 24 * 2 ^ lastBit magnitude := Nat.mul_le_mul_right _ (Nat.div_lt_of_lt_mul size)
    _ = 2 ^ (lastBit magnitude + 24) := by rw [← pow_add, add_comm]

theorem lastBit_mono {first second : Nat} (small : first ≤ second) : lastBit first ≤ lastBit second := by
  refine Nat.sub_le_sub_right ?_ 23
  by_cases zero : first = 0
  · rw [zero, Nat.log2_zero]
    exact Nat.zero_le _
  · rw [Nat.le_log2 (by omega)]
    exact (Nat.log2_self_le zero).trans small

theorem lastBit_large {magnitude : Nat} (loses : 0 < lastBit magnitude) :
    2 ^ 23 * 2 ^ lastBit magnitude ≤ magnitude := by
  have some : magnitude ≠ 0 := by
    rintro rfl
    exact absurd loses (by decide)
  unfold lastBit at loses ⊢
  rw [← pow_add, ← Nat.le_log2 some]
  omega

theorem roundMagnitude_mono {first second : Nat} (small : first ≤ second) :
    roundMagnitude first ≤ roundMagnitude second := by
  rcases (lastBit_mono small).eq_or_lt with same | fewer
  · rw [roundMagnitude, same]
    exact roundTo_mono small
  calc roundMagnitude first ≤ 2 ^ (lastBit first + 24) := roundMagnitude_le first
    _ ≤ 2 ^ 23 * 2 ^ lastBit second := by
      rw [← pow_add]
      exact Nat.pow_le_pow_right (by decide) (by omega)
    _ ≤ second / 2 ^ lastBit second * 2 ^ lastBit second := by
      refine Nat.mul_le_mul_right _ ?_
      exact (Nat.le_div_iff_mul_le (Nat.two_pow_pos _)).mpr
        (lastBit_large (Nat.zero_lt_of_lt fewer))
    _ ≤ roundMagnitude second := (roundTo_bounds _ _).1

end Rounding

namespace Single

theorem key_finite {first second : Int} : key (finite first) ≤ key (finite second) ↔ first ≤ second :=
  coe_le_coe.trans WithTop.coe_le_coe

theorem key_posInf (value : Single) : key value ≤ key posInf := by
  cases value with
  | negInf => exact bot_le
  | nan | posInf => exact le_rfl
  | finite count => exact coe_le_coe.mpr le_top

/-- Rounding keeps the order of the counts. -/
theorem key_round_mono {first second : Int} (small : first ≤ second) :
    key (round first) ≤ key (round second) := by
  unfold round
  by_cases negative : second < 0
  · have magnitudes := @roundMagnitude_mono second.natAbs first.natAbs (by omega)
    rw [if_pos negative, if_pos negative, if_pos (show first < 0 by omega),
      if_pos (show first < 0 by omega)]
    split
    · rw [if_pos (by omega)]
      exact key_finite.mpr (by omega)
    · exact bot_le
  rw [if_neg negative, if_neg negative]
  by_cases negative' : first < 0
  · rw [if_pos negative', if_pos negative']
    split
    · split
      · exact key_finite.mpr (by omega)
      · exact key_posInf _
    · exact bot_le
  have magnitudes := @roundMagnitude_mono first.natAbs second.natAbs (by omega)
  rw [if_neg negative', if_neg negative']
  split
  · split
    · exact key_finite.mpr (by omega)
    · exact key_posInf _
  · rw [if_neg (by omega)]

theorem round_ne_nan (count : Int) : round count ≠ nan := by
  unfold round
  split
  · exact fun same => nomatch same
  · split <;> exact fun same => nomatch same

theorem less_iff (first second : Single) (proper : first ≠ nan) (proper' : second ≠ nan) :
    less first second = true ↔ key first < key second := by
  cases first with
  | nan => exact absurd rfl proper
  | negInf =>
    cases second with
    | nan => exact absurd rfl proper'
    | negInf => exact iff_of_false (fun same => nomatch same) (lt_irrefl _)
    | finite count => exact iff_of_true rfl (bot_lt_coe _)
    | posInf => exact iff_of_true rfl (bot_lt_coe _)
  | finite count =>
    cases second with
    | nan => exact absurd rfl proper'
    | negInf => exact iff_of_false (fun same => nomatch same) not_lt_bot
    | finite count' => exact decide_eq_true_iff.trans (coe_lt_coe.trans WithTop.coe_lt_coe).symm
    | posInf => exact iff_of_true rfl (coe_lt_coe.mpr (WithTop.coe_lt_top _))
  | posInf =>
    cases second with
    | nan => exact absurd rfl proper'
    | negInf => exact iff_of_false (fun same => nomatch same) not_lt_bot
    | finite count => exact iff_of_false (fun same => nomatch same) (not_lt_of_ge (key_posInf _))
    | posInf => exact iff_of_false (fun same => nomatch same) (lt_irrefl _)

theorem single_ordered : Ordered key fun value => value ≠ nan where
  zero := fun same => nomatch same
  infinity := fun same => nomatch same
  below first second _ smaller := by
    rintro rfl
    exact nomatch smaller
  less := less_iff
  injective first second proper proper' same := by
    by_contra different
    have either : less first second = true ∨ less second first = true := by
      cases first <;> cases second <;> simp_all [less]
    rcases either with smaller | smaller
    · exact ((less_iff first second proper proper').mp smaller).ne same
    · exact ((less_iff second first proper' proper).mp smaller).ne same.symm

theorem key_lt_of_less {first second : Single} (smaller : less first second = true) :
    key first < key second := by
  have proper : first ≠ nan := by
    rintro rfl
    exact nomatch smaller
  have proper' : second ≠ nan := by
    rintro rfl
    cases first <;> exact nomatch smaller
  exact (less_iff first second proper proper').mp smaller

/-- The floats that were pushed first come out first. -/
def first : HeapPolicy Single := .first key fun _ _ => key_lt_of_less

variable {Node : Type} {edges : Node → List (Node × Single)}

theorem single_additive (finite : ∀ node, ∀ edge ∈ edges node, ∃ count, edge.2 = Single.finite count) :
    Additive key (fun value => value ≠ nan) edges where
  proper node edge listed cost proper := by
    obtain ⟨count, same⟩ := finite node edge listed
    rw [same]
    cases cost with
    | nan => exact absurd rfl proper
    | negInf | posInf => exact fun same => nomatch same
    | finite count' => exact round_ne_nan _
  monotone node edge listed first second proper proper' small := by
    obtain ⟨count, same⟩ := finite node edge listed
    rw [same]
    cases second with
    | nan => exact absurd rfl proper'
    | posInf => exact key_posInf _
    | negInf =>
      cases first with
      | nan => exact absurd rfl proper
      | negInf => exact le_rfl
      | finite count' => exact absurd small (not_coe_le_bot _)
      | posInf => exact absurd small (not_coe_le_bot _)
    | finite count' =>
      cases first with
      | nan => exact absurd rfl proper
      | negInf => exact bot_le
      | finite count'' => exact key_round_mono (Int.add_le_add_right (key_finite.mp small) count)
      | posInf => exact absurd (coe_le_coe.mp small) (WithTop.not_top_le_coe _)

/-- The place of a float among all floats that are no NaN. -/
def rank : Single → Nat
  | negInf => 0
  | finite count => (count + overflowCount).toNat
  | posInf | nan => 2 * overflowCount

/-- A finite float is small enough for its bits. -/
def Bounded : Single → Prop
  | nan => False
  | finite count => count.natAbs < overflowCount
  | negInf | posInf => True

theorem round_bounded (count : Int) : (round count).Bounded := by
  unfold round
  split
  · rename_i small
    split
    · change (-(roundMagnitude count.natAbs : Int)).natAbs < overflowCount
      rwa [Int.natAbs_neg, Int.natAbs_natCast]
    · change (roundMagnitude count.natAbs : Int).natAbs < overflowCount
      rwa [Int.natAbs_natCast]
  · split <;> exact trivial

/-- The costs of walks fall only finitely often, whatever the signs of the weights. -/
theorem single_falling (finite : ∀ node, ∀ edge ∈ edges node, ∃ count, edge.2 = Single.finite count) :
    Falling rank Bounded edges where
  zero := (by decide : (0 : Nat) < overflowCount)
  add node edge listed cost bounded := by
    obtain ⟨count, same⟩ := finite node edge listed
    rw [same]
    cases cost with
    | nan => exact bounded.elim
    | negInf | posInf => exact trivial
    | finite count' => exact round_bounded _
  less first second bounded bounded' smaller := by
    cases first with
    | nan => exact bounded.elim
    | posInf => cases second <;> exact nomatch smaller
    | negInf =>
      cases second with
      | nan | negInf => exact nomatch smaller
      | posInf => exact Nat.mul_pos (by decide) (by decide)
      | finite count =>
        have inside : count.natAbs < overflowCount := bounded'
        change 0 < (count + overflowCount).toNat
        omega
    | finite count =>
      have inside : count.natAbs < overflowCount := bounded
      cases second with
      | nan | negInf => exact nomatch smaller
      | posInf =>
        change (count + overflowCount).toNat < 2 * overflowCount
        omega
      | finite count' =>
        have inside' : count'.natAbs < overflowCount := bounded'
        have ordered := of_decide_eq_true smaller
        change (count + overflowCount).toNat < (count' + overflowCount).toNat
        omega

end Single

end Codegraph.Library
