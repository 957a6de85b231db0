import Mathlib.Algebra.Order.Field.Power
import Mathlib.Tactic.FieldSimp
import Mathlib.Tactic.Linarith
import Mathlib.Tactic.Positivity
import Mathlib.Tactic.Ring
import TokenCodec.Numeral.Binary

/-!
# Rounding a ratio to a binary number

Rounding is exact arithmetic on natural numbers; here it is described by the value
of the ratio.  A number of the format has an interval of ratios that round to it: up
to half way to its neighbours, with the ends if its mantissa is even, and half as far
below a least mantissa of full precision, where the numbers lie twice as close.
-/

namespace TokenCodec.Numeral

variable {format : BinaryFormat} {base numerator denominator : Nat}

theorem two_zpow_pos (exponent : Int) : (0 : ℚ) < 2 ^ exponent := zpow_pos (by norm_num) exponent

theorem two_zpow_add (exponent other : Int) :
    (2 : ℚ) ^ (exponent + other) = 2 ^ exponent * 2 ^ other := zpow_add₀ (by norm_num) _ _

theorem two_zpow_lt {exponent other : Int} : (2 : ℚ) ^ exponent < 2 ^ other ↔ exponent < other :=
  zpow_lt_zpow_iff_right₀ (by norm_num)

theorem two_zpow_le {exponent other : Int} : (2 : ℚ) ^ exponent ≤ 2 ^ other ↔ exponent ≤ other :=
  zpow_le_zpow_iff_right₀ (by norm_num)

theorem scaleDown_snd_pos (hbase : 0 < base) (exponent : Int) (numerator : Nat)
    (hdenominator : 0 < denominator) :
    0 < (scaleDown base exponent numerator denominator).2 := by
  cases exponent with
  | ofNat up => exact Nat.mul_pos hdenominator (Nat.pow_pos hbase)
  | negSucc down => exact hdenominator

/-- Scaling down divides the ratio by the power. -/
theorem scaleDown_ratio (hbase : 0 < base) (exponent : Int) (numerator denominator : Nat) :
    ((scaleDown base exponent numerator denominator).1 : ℚ) /
        (scaleDown base exponent numerator denominator).2 =
      (numerator / denominator : ℚ) / (base : ℚ) ^ exponent := by
  have hpow : (base : ℚ) ≠ 0 := by exact_mod_cast hbase.ne'
  cases exponent with
  | ofNat up =>
      simp only [scaleDown, Nat.pow_eq, Int.ofNat_eq_natCast, zpow_natCast, Nat.cast_mul,
        Nat.cast_pow, div_div]
  | negSucc down =>
      simp only [scaleDown, Nat.pow_eq, zpow_negSucc, Nat.cast_mul, Nat.cast_pow, div_inv_eq_mul]
      ring

/-! ## The nearest integer -/

/-- The rounded quotient is the only integer at most half away, if a tie is even. -/
theorem divideToEven_of_le {nearest : Nat} (hdenominator : 0 < denominator)
    (hlow : 2 * (denominator * nearest) ≤ 2 * numerator + denominator)
    (hhigh : 2 * numerator ≤ 2 * (denominator * nearest) + denominator)
    (htie : nearest % 2 = 1 → 2 * (denominator * nearest) < 2 * numerator + denominator ∧
      2 * numerator < 2 * (denominator * nearest) + denominator) :
    divideToEven numerator denominator = nearest := by
  have hsplit := Nat.div_add_mod numerator denominator
  have hremainder := Nat.mod_lt numerator hdenominator
  simp only [divideToEven]
  generalize numerator / denominator = quotient at *
  generalize numerator % denominator = remainder at *
  have hbelow : quotient ≤ nearest := by
    by_contra hless
    have := Nat.mul_le_mul_left denominator (Nat.lt_of_not_le hless)
    rw [Nat.mul_succ] at this
    omega
  have habove : nearest ≤ quotient + 1 := by
    by_contra hmore
    have := Nat.mul_le_mul_left denominator (Nat.lt_of_not_le hmore)
    rw [Nat.mul_succ, Nat.mul_succ] at this
    omega
  -- Which of the two it is tells twice the remainder, and the parity if that is a tie.
  obtain rfl | rfl : nearest = quotient ∨ nearest = quotient + 1 := by omega
  · rw [if_neg]
    simp only [Bool.or_eq_true, decide_eq_true_eq, Bool.and_eq_true, beq_iff_eq, not_or, not_and]
    omega
  · rw [if_pos]
    rw [Nat.mul_succ] at *
    simp only [Bool.or_eq_true, decide_eq_true_eq, Bool.and_eq_true, beq_iff_eq]
    omega

/-- An integer is the rounded quotient if it is at most half away from the ratio, and
even if it is just half away. -/
theorem divideToEven_eq (hdenominator : 0 < denominator) {nearest : Nat}
    (hlow : (nearest : ℚ) - 1 / 2 ≤ (numerator : ℚ) / denominator)
    (hhigh : (numerator : ℚ) / denominator ≤ nearest + 1 / 2)
    (htie : nearest % 2 = 1 → (nearest : ℚ) - 1 / 2 < (numerator : ℚ) / denominator ∧
      (numerator : ℚ) / denominator < nearest + 1 / 2) :
    divideToEven numerator denominator = nearest := by
  have hpos : (0 : ℚ) < denominator := by exact_mod_cast hdenominator
  rw [le_div_iff₀ hpos] at hlow
  rw [div_le_iff₀ hpos] at hhigh
  rw [lt_div_iff₀ hpos, div_lt_iff₀ hpos] at htie
  apply divideToEven_of_le hdenominator
  · have : (2 * (denominator * nearest) : ℚ) ≤ 2 * numerator + denominator := by linarith
    exact_mod_cast this
  · have : (2 * numerator : ℚ) ≤ 2 * (denominator * nearest) + denominator := by linarith
    exact_mod_cast this
  · intro hodd
    obtain ⟨hstrict, hstrict'⟩ := htie hodd
    constructor
    · have : (2 * (denominator * nearest) : ℚ) < 2 * numerator + denominator := by linarith
      exact_mod_cast this
    · have : (2 * numerator : ℚ) < 2 * (denominator * nearest) + denominator := by linarith
      exact_mod_cast this
/-- The rounded quotient is the quotient or the integer above it. -/
theorem divideToEven_bounds (numerator denominator : Nat) :
    numerator / denominator ≤ divideToEven numerator denominator ∧
      divideToEven numerator denominator ≤ numerator / denominator + 1 := by
  simp only [divideToEven]
  split <;> omega

/-! ## The exponent of a ratio -/

/-- The exponent at which the last bit of a ratio lies: below it the ratio has no more
bits than the format, and as many as that unless the exponent is the least one. -/
structure BinaryFormat.HasExponent (format : BinaryFormat) (exponent : Int) (ratio : ℚ) : Prop where
  least : format.minExponent ≤ exponent
  below : ratio < 2 ^ (format.precision + exponent)
  full : format.minExponent < exponent → 2 ^ (format.precision - 1 + exponent) ≤ ratio

/-- A ratio has one exponent. -/
theorem BinaryFormat.HasExponent.unique {ratio : ℚ} {exponent other : Int}
    (hexponent : format.HasExponent exponent ratio) (hother : format.HasExponent other ratio) :
    exponent = other := by
  have hle {first second : Int} (hfirst : format.HasExponent first ratio)
      (hsecond : format.HasExponent second ratio) : second ≤ first := by
    by_contra hless
    have hfull := hsecond.full (by have := hfirst.least; omega)
    have hpowers := two_zpow_lt.mp (hfull.trans_lt hfirst.below)
    omega
  exact Int.le_antisymm (hle hother hexponent) (hle hexponent hother)

/-- The logarithms of its parts bound a ratio from both sides. -/
theorem ratio_bounds (hnumerator : 0 < numerator) (hdenominator : 0 < denominator) :
    (2 : ℚ) ^ ((numerator.log2 : Int) - denominator.log2 - 1) < (numerator : ℚ) / denominator ∧
      (numerator : ℚ) / denominator < 2 ^ ((numerator.log2 : Int) - denominator.log2 + 1) := by
  have hpos : (0 : ℚ) < denominator := by exact_mod_cast hdenominator
  have hlow : (2 : ℚ) ^ (numerator.log2 : Int) ≤ numerator := by
    exact_mod_cast Nat.log2_self_le hnumerator.ne'
  have hhigh : (numerator : ℚ) < 2 ^ ((numerator.log2 : Int) + 1) := by
    exact_mod_cast Nat.lt_log2_self
  have hlow' : (2 : ℚ) ^ (denominator.log2 : Int) ≤ denominator := by
    exact_mod_cast Nat.log2_self_le hdenominator.ne'
  have hhigh' : (denominator : ℚ) < 2 ^ ((denominator.log2 : Int) + 1) := by
    exact_mod_cast Nat.lt_log2_self
  constructor
  · rw [lt_div_iff₀ hpos]
    calc (2 : ℚ) ^ ((numerator.log2 : Int) - denominator.log2 - 1) * denominator
        < 2 ^ ((numerator.log2 : Int) - denominator.log2 - 1) *
            2 ^ ((denominator.log2 : Int) + 1) :=
          mul_lt_mul_of_pos_left hhigh' (two_zpow_pos _)
      _ = 2 ^ (numerator.log2 : Int) := by
          rw [← two_zpow_add]
          congr 1
          omega
      _ ≤ numerator := hlow
  · rw [div_lt_iff₀ hpos]
    calc (numerator : ℚ) < 2 ^ ((numerator.log2 : Int) + 1) := hhigh
      _ = 2 ^ ((numerator.log2 : Int) - denominator.log2 + 1) * 2 ^ (denominator.log2 : Int) := by
          rw [← two_zpow_add]
          congr 1
          omega
      _ ≤ 2 ^ ((numerator.log2 : Int) - denominator.log2 + 1) * denominator :=
          mul_le_mul_of_nonneg_left hlow' (two_zpow_pos _).le

/-- The quotient of a scaled ratio has no more bits than the format if the ratio has
none above them. -/
theorem scaleDown_quotient_lt (exponent : Int) (hdenominator : 0 < denominator) (bits : Nat) :
    (scaleDown 2 exponent numerator denominator).1 /
          (scaleDown 2 exponent numerator denominator).2 <
        Nat.pow 2 bits ↔
      (numerator : ℚ) / denominator < 2 ^ (bits + exponent) := by
  have hunit := scaleDown_snd_pos (show 0 < 2 by decide) exponent numerator hdenominator
  have hratio := scaleDown_ratio (show 0 < 2 by decide) exponent numerator denominator
  have hpos : (0 : ℚ) < (scaleDown 2 exponent numerator denominator).2 := by exact_mod_cast hunit
  rw [Nat.cast_ofNat, eq_div_iff (two_zpow_pos exponent).ne'] at hratio
  rw [Nat.div_lt_iff_lt_mul hunit, two_zpow_add, ← hratio,
    mul_lt_mul_iff_of_pos_right (two_zpow_pos exponent), div_lt_iff₀ hpos, Nat.pow_eq, zpow_natCast]
  exact_mod_cast Iff.rfl

/-- The computed exponent is the exponent of the ratio. -/
theorem hasExponent_exponentOf (format : BinaryFormat) (hnumerator : 0 < numerator)
    (hdenominator : 0 < denominator) :
    format.HasExponent (Binary.exponentOf format numerator denominator)
      ((numerator : ℚ) / denominator) := by
  obtain ⟨hlow, hhigh⟩ := ratio_bounds hnumerator hdenominator
  simp only [Binary.exponentOf]
  generalize hguess : max ((numerator.log2 : Int) - denominator.log2 - format.precision)
    format.minExponent = guess
  split
  · rename_i hquotient
    have hbelow := (scaleDown_quotient_lt guess hdenominator format.precision).mp hquotient
    refine ⟨by omega, hbelow, fun habove => ?_⟩
    exact (two_zpow_le.mpr (by omega)).trans hlow.le
  · rename_i hquotient
    have hfull := mt (scaleDown_quotient_lt guess hdenominator format.precision).mpr hquotient
    rw [not_lt] at hfull
    refine ⟨by omega, hhigh.trans_le (two_zpow_le.mpr (by omega)), fun _ => ?_⟩
    exact (two_zpow_le.mpr (by omega)).trans hfull

/-! ## The nearest number -/

/-- The finite numbers of a format, each of them in one form only. -/
structure BinaryFormat.Holds (format : BinaryFormat) (mantissa : Nat) (exponent : Int) : Prop where
  bits : mantissa < 2 ^ format.precision
  least : format.minExponent ≤ exponent
  greatest : exponent ≤ format.maxExponent
  full : format.minExponent < exponent → format.leadingBit ≤ mantissa

/-- How far below a mantissa its interval reaches. -/
def BinaryFormat.reach (format : BinaryFormat) (mantissa : Nat) : ℚ :=
  if mantissa = format.leadingBit then 1 / 4 else 1 / 2

/-- The ratios that round to `mantissa * 2 ^ exponent`. -/
structure BinaryFormat.Rounds (format : BinaryFormat) (mantissa : Nat) (exponent : Int)
    (ratio : ℚ) : Prop where
  low : (mantissa - format.reach mantissa) * 2 ^ exponent ≤ ratio
  high : ratio ≤ (mantissa + 1 / 2) * 2 ^ exponent
  strict : mantissa % 2 = 1 → (mantissa - format.reach mantissa) * 2 ^ exponent < ratio ∧
    ratio < (mantissa + 1 / 2) * 2 ^ exponent

theorem BinaryFormat.leadingBit_eq (format : BinaryFormat) :
    format.leadingBit = 2 ^ (format.precision - 1) := rfl

theorem BinaryFormat.two_mul_leadingBit (hprecision : 0 < format.precision) :
    2 * format.leadingBit = 2 ^ format.precision := by
  rw [leadingBit_eq, ← Nat.pow_succ', Nat.succ_eq_add_one, Nat.sub_add_cancel hprecision]

theorem BinaryFormat.leadingBit_mul (hprecision : 0 < format.precision) (exponent : Int) :
    (format.leadingBit : ℚ) * 2 ^ exponent = 2 ^ (format.precision - 1 + exponent) := by
  rw [two_zpow_add, leadingBit_eq, Nat.cast_pow, Nat.cast_ofNat, ← zpow_natCast,
    Nat.cast_sub (by omega)]
  rfl

theorem BinaryFormat.reach_le (format : BinaryFormat) (mantissa : Nat) :
    format.reach mantissa ≤ 1 / 2 := by
  rw [reach]
  split <;> norm_num

namespace Binary

variable {mantissa : Nat} {exponent : Int} {negative : Bool}

/-- A ratio whose mantissa keeps its bits when it is rounded. -/
theorem ofRatio_of_lt (hnumerator : 0 < numerator)
    (hexponent : exponentOf format numerator denominator = exponent)
    (hmantissa : divideToEven (scaleDown 2 exponent numerator denominator).1
      (scaleDown 2 exponent numerator denominator).2 = mantissa)
    (hbits : mantissa < 2 ^ format.precision) (hgreatest : exponent ≤ format.maxExponent) :
    (ofRatio negative numerator denominator : Binary format) =
      .finite negative mantissa exponent := by
  simp [ofRatio, hnumerator.ne', hexponent, hmantissa, hbits, Int.not_lt.mpr hgreatest]

/-- A ratio whose mantissa gets a further bit when it is rounded. -/
theorem ofRatio_of_carry (hnumerator : 0 < numerator)
    (hexponent : exponentOf format numerator denominator = exponent)
    (hmantissa : divideToEven (scaleDown 2 exponent numerator denominator).1
      (scaleDown 2 exponent numerator denominator).2 = 2 * format.leadingBit)
    (hprecision : 0 < format.precision) (hgreatest : exponent + 1 ≤ format.maxExponent) :
    (ofRatio negative numerator denominator : Binary format) =
      .finite negative format.leadingBit (exponent + 1) := by
  have hcarry : ¬2 * format.leadingBit < 2 ^ format.precision := by
    rw [BinaryFormat.two_mul_leadingBit hprecision]
    exact lt_irrefl _
  simp [ofRatio, hnumerator.ne', hexponent, hmantissa, hcarry, Int.not_lt.mpr hgreatest]

/-- The rounded mantissa of a ratio at an exponent. -/
theorem divideToEven_scaleDown (hdenominator : 0 < denominator) {nearest : Nat}
    (hlow : (nearest - 1 / 2) * 2 ^ exponent ≤ (numerator : ℚ) / denominator)
    (hhigh : (numerator : ℚ) / denominator ≤ (nearest + 1 / 2) * 2 ^ exponent)
    (htie : nearest % 2 = 1 → (nearest - 1 / 2) * 2 ^ exponent < (numerator : ℚ) / denominator ∧
      (numerator : ℚ) / denominator < (nearest + 1 / 2) * 2 ^ exponent) :
    divideToEven (scaleDown 2 exponent numerator denominator).1
      (scaleDown 2 exponent numerator denominator).2 = nearest := by
  have hratio := scaleDown_ratio (show 0 < 2 by decide) exponent numerator denominator
  have hpower := two_zpow_pos exponent
  rw [Nat.cast_ofNat] at hratio
  apply divideToEven_eq (scaleDown_snd_pos (by decide) exponent numerator hdenominator)
  · rwa [hratio, le_div_iff₀ hpower]
  · rwa [hratio, div_le_iff₀ hpower]
  · rwa [hratio, lt_div_iff₀ hpower, div_lt_iff₀ hpower]

/-- A ratio in the interval of a number rounds to it. -/
theorem ofRatio_eq (hprecision : 0 < format.precision) (hnumerator : 0 < numerator)
    (hdenominator : 0 < denominator) (hholds : format.Holds mantissa exponent)
    (hrounds : format.Rounds mantissa exponent ((numerator : ℚ) / denominator)) :
    (ofRatio negative numerator denominator : Binary format) =
      .finite negative mantissa exponent := by
  have hspec := hasExponent_exponentOf format hnumerator hdenominator
  have hpower := two_zpow_pos exponent
  have hreach := format.reach_le mantissa
  have hbits : ((mantissa : ℚ) + 1) ≤ 2 ^ (format.precision : Int) := by
    exact_mod_cast hholds.bits
  have hbelow : (numerator : ℚ) / denominator < 2 ^ (format.precision + exponent) := by
    rw [two_zpow_add]
    exact hrounds.high.trans_lt (mul_lt_mul_of_pos_right (by linarith) hpower)
  by_cases hfull : format.minExponent < exponent →
      (2 : ℚ) ^ (format.precision - 1 + exponent) ≤ (numerator : ℚ) / denominator
  · have hexponent := hspec.unique ⟨hholds.least, hbelow, hfull⟩
    have hlow : (mantissa - 1 / 2 : ℚ) * 2 ^ exponent ≤
        (mantissa - format.reach mantissa) * 2 ^ exponent :=
      mul_le_mul_of_nonneg_right (by linarith) hpower.le
    refine ofRatio_of_lt hnumerator hexponent ?_ hholds.bits hholds.greatest
    exact divideToEven_scaleDown hdenominator (hlow.trans hrounds.low) hrounds.high fun hodd =>
      ⟨hlow.trans_lt (hrounds.strict hodd).1, (hrounds.strict hodd).2⟩
  · -- Below the least mantissa of full precision the ratio has the exponent before.
    obtain ⟨hleast, hless⟩ := Classical.not_imp.mp hfull
    rw [not_le, ← BinaryFormat.leadingBit_mul hprecision] at hless
    have hone : (1 : ℚ) ≤ format.leadingBit := by
      rw [BinaryFormat.leadingBit_eq]
      exact_mod_cast Nat.one_le_two_pow
    have hhalf : (2 : ℚ) ^ exponent = 2 * 2 ^ (exponent - 1) := by
      rw [← zpow_one_add₀ (by norm_num)]
      congr 1
      omega
    have hlow := hrounds.low
    have hmantissa : mantissa = format.leadingBit := by
      by_contra hne
      have hmore : (format.leadingBit : ℚ) + 1 ≤ mantissa := by
        have hge := hholds.full hleast
        exact_mod_cast Nat.lt_of_le_of_ne hge (Ne.symm hne)
      have : (format.leadingBit : ℚ) * 2 ^ exponent ≤
          (mantissa - format.reach mantissa) * 2 ^ exponent :=
        mul_le_mul_of_nonneg_right (by linarith) hpower.le
      linarith
    subst hmantissa
    rw [BinaryFormat.reach, if_pos rfl, hhalf] at hlow
    rw [hhalf] at hless
    have hpower' := two_zpow_pos (exponent - 1)
    have hexponent : exponentOf format numerator denominator = exponent - 1 := by
      refine hspec.unique ⟨by omega, ?_, fun _ => ?_⟩
      · have hdouble : (2 : ℚ) ^ (format.precision : Int) = 2 * format.leadingBit := by
          exact_mod_cast (BinaryFormat.two_mul_leadingBit hprecision).symm
        rw [two_zpow_add, hdouble]
        linarith
      · have hmore : (format.leadingBit : ℚ) * 2 ^ (exponent - 1) ≤
            (2 * format.leadingBit - 1 / 2) * 2 ^ (exponent - 1) :=
          mul_le_mul_of_nonneg_right (by linarith) hpower'.le
        rw [← BinaryFormat.leadingBit_mul hprecision]
        linarith
    have hrounded : divideToEven (scaleDown 2 (exponent - 1) numerator denominator).1
        (scaleDown 2 (exponent - 1) numerator denominator).2 = 2 * format.leadingBit := by
      apply divideToEven_scaleDown hdenominator
      · push_cast
        linarith
      · push_cast
        linarith
      · intro hodd
        omega
    have hgreatest : exponent - 1 + 1 ≤ format.maxExponent := by
      rw [Int.sub_add_cancel]
      exact hholds.greatest
    rw [ofRatio_of_carry hnumerator hexponent hrounded hprecision hgreatest, Int.sub_add_cancel]

/-- A rounded ratio is in the one form of its number, unless it is too great. -/
theorem holds_ofRatio (hprecision : 0 < format.precision)
    (hleast : format.minExponent ≤ format.maxExponent) (hdenominator : 0 < denominator)
    {sign : Bool} (hfinite : (ofRatio negative numerator denominator : Binary format) =
      .finite sign mantissa exponent) : format.Holds mantissa exponent := by
  rw [ofRatio] at hfinite
  split at hfinite
  · cases hfinite
    exact ⟨Nat.two_pow_pos _, le_refl _, hleast, fun h => absurd h (lt_irrefl _)⟩
  · rename_i hnumerator
    have hspec := hasExponent_exponentOf format (Nat.pos_of_ne_zero hnumerator) hdenominator
    generalize exponentOf format numerator denominator = scale at hfinite hspec
    have hquotient := (scaleDown_quotient_lt scale hdenominator format.precision).mpr hspec.below
    have hfull : format.minExponent < scale → format.leadingBit ≤
        (scaleDown 2 scale numerator denominator).1 /
          (scaleDown 2 scale numerator denominator).2 := by
      intro habove
      have hfull := hspec.full habove
      rw [← Nat.cast_pred hprecision] at hfull
      exact Nat.le_of_not_lt
        (mt (scaleDown_quotient_lt scale hdenominator _).mp (not_lt.mpr hfull))
    have hrounded := divideToEven_bounds (scaleDown 2 scale numerator denominator).1
      (scaleDown 2 scale numerator denominator).2
    have hdouble := BinaryFormat.two_mul_leadingBit hprecision
    have hpositive : 0 < format.leadingBit := Nat.two_pow_pos _
    have hscale := hspec.least
    simp only [Nat.pow_eq] at hfinite hquotient
    generalize divideToEven (scaleDown 2 scale numerator denominator).1
      (scaleDown 2 scale numerator denominator).2 = rounded at hfinite hrounded
    split at hfinite <;> split at hfinite <;> cases hfinite
    · rename_i hbits hgreatest
      exact ⟨hbits, hscale, Int.not_lt.mp hgreatest, fun habove => (hfull habove).trans hrounded.1⟩
    · rename_i hcarry hgreatest
      exact ⟨by omega, by omega, Int.not_lt.mp hgreatest, fun _ => by omega⟩

end Binary

end TokenCodec.Numeral
