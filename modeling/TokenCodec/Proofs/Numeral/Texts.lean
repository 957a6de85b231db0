import TokenCodec.Proofs.Numeral.Shortest

/-!
# The texts of numbers

Every finite number that was read from a text is read again from its own text.  The
text of a number spells its shortest decimal out, without an exponent, and reading
takes the decimal from it as it is; so both meet in the decimal.
-/

namespace TokenCodec.Numeral

variable {format : BinaryFormat} {mantissa coefficient : Nat} {exponent place : Int}
  {negative : Bool} {whole fraction : List Char}

theorem two_zpow_le_ten_zpow {place : Int} (hplace : 0 ≤ place) : (2 : ℚ) ^ place ≤ 10 ^ place :=
  zpow_le_zpow_left₀ hplace (by norm_num) (by norm_num)

theorem ten_zpow_le_two_zpow {place : Int} (hplace : place ≤ 0) : (10 : ℚ) ^ place ≤ 2 ^ place := by
  have hinverse := two_zpow_le_ten_zpow (Int.neg_nonneg.mpr hplace)
  rwa [zpow_neg, zpow_neg, inv_le_inv₀ (two_zpow_pos _) (ten_zpow_pos _)] at hinverse

theorem ten_zpow_lt {place other : Int} : (10 : ℚ) ^ place < 10 ^ other ↔ place < other :=
  zpow_lt_zpow_iff_right₀ (by norm_num)

/-! ## Decimals -/

namespace BinaryFormat.Rounds

/-- A ratio that rounds to a positive number is below the first power of two above the
format. -/
theorem below_greatest {ratio : ℚ} (hrounds : format.Rounds mantissa exponent ratio)
    (hholds : format.Holds mantissa exponent) :
    ratio < 2 ^ (format.precision + format.maxExponent) := by
  have hbits : (mantissa : ℚ) + 1 ≤ 2 ^ (format.precision : Int) := by exact_mod_cast hholds.bits
  calc ratio ≤ (mantissa + 1 / 2) * 2 ^ exponent := hrounds.high
    _ < 2 ^ (format.precision : Int) * 2 ^ exponent :=
        mul_lt_mul_of_pos_right (by linarith) (two_zpow_pos exponent)
    _ = 2 ^ (format.precision + exponent) := (two_zpow_add _ _).symm
    _ ≤ 2 ^ (format.precision + format.maxExponent) :=
        two_zpow_le.mpr (Int.add_le_add_left hholds.greatest _)

/-- A ratio that rounds to a positive number is at least half of the least one. -/
theorem above_least {ratio : ℚ} (hrounds : format.Rounds mantissa exponent ratio)
    (hholds : format.Holds mantissa exponent) (hmantissa : 0 < mantissa) :
    2 ^ (format.minExponent - 1) ≤ ratio := by
  have hpositive : (1 : ℚ) ≤ mantissa := by exact_mod_cast hmantissa
  have hreach := format.reach_le mantissa
  calc (2 : ℚ) ^ (format.minExponent - 1) ≤ 2 ^ (exponent - 1) :=
        two_zpow_le.mpr (Int.sub_le_sub_right hholds.least 1)
    _ = 1 / 2 * 2 ^ exponent := by
        rw [zpow_sub₀ (by norm_num), zpow_one]
        ring
    _ ≤ (mantissa - format.reach mantissa) * 2 ^ exponent :=
        mul_le_mul_of_nonneg_right (by linarith) (two_zpow_pos exponent).le
    _ ≤ ratio := hrounds.low

end BinaryFormat.Rounds

namespace Binary

/-- The leading digit of a decimal that rounds to a finite number lies neither above nor
below the format. -/
theorem leading_bounds (hordinary : format.Ordinary) (hmantissa : 0 < mantissa)
    (hholds : format.Holds mantissa exponent) (hcoefficient : 0 < coefficient)
    (hrounds : format.Rounds mantissa exponent (coefficient * 10 ^ place)) :
    place + (Nat.toDigits 10 coefficient).length ≤ format.maxExponent + format.precision ∧
      format.minExponent ≤ place + (Nat.toDigits 10 coefficient).length := by
  have hleast := hordinary.least
  have hgreatest := hordinary.greatest
  obtain ⟨hlow, hhigh⟩ := Neighbourhood.digits_bounds hcoefficient
  generalize ((Nat.toDigits 10 coefficient).length : Int) = length at *
  constructor
  · have hpowers : (10 : ℚ) ^ (length - 1 + place) < 10 ^ (format.precision + format.maxExponent) :=
      calc (10 : ℚ) ^ (length - 1 + place) = 10 ^ (length - 1) * 10 ^ place := ten_zpow_add _ _
        _ ≤ coefficient * 10 ^ place := mul_le_mul_of_nonneg_right hlow (ten_zpow_pos place).le
        _ < 2 ^ (format.precision + format.maxExponent) := hrounds.below_greatest hholds
        _ ≤ 10 ^ (format.precision + format.maxExponent) := two_zpow_le_ten_zpow (by omega)
    have := ten_zpow_lt.mp hpowers
    omega
  · have hpowers : (10 : ℚ) ^ (format.minExponent - 1) < 10 ^ (length + place) :=
      calc (10 : ℚ) ^ (format.minExponent - 1) ≤ 2 ^ (format.minExponent - 1) :=
            ten_zpow_le_two_zpow (by omega)
        _ ≤ coefficient * 10 ^ place := hrounds.above_least hholds hmantissa
        _ < 10 ^ length * 10 ^ place := mul_lt_mul_of_pos_right hhigh (ten_zpow_pos place)
        _ = 10 ^ (length + place) := (ten_zpow_add _ _).symm
    have := ten_zpow_lt.mp hpowers
    omega

/-- A decimal in the interval of a number is read as this number. -/
theorem ofDecimal_eq (hordinary : format.Ordinary) (hmantissa : 0 < mantissa)
    (hholds : format.Holds mantissa exponent)
    (hrounds : format.Rounds mantissa exponent (coefficient * 10 ^ place)) :
    (ofDecimal negative coefficient place : Binary format) =
      .finite negative mantissa exponent := by
  have hcoefficient : 0 < coefficient := by
    have hpositive := (two_zpow_pos _).trans_le (hrounds.above_least hholds hmantissa)
    exact_mod_cast pos_of_mul_pos_left hpositive (ten_zpow_pos place).le
  obtain ⟨hgreatest, hleast⟩ := leading_bounds hordinary hmantissa hholds hcoefficient hrounds
  have hprecision := hordinary.precision_pos
  simp only [ofDecimal, if_neg hcoefficient.ne', if_neg (Int.not_lt.mpr hgreatest),
    if_neg (Int.not_lt.mpr hleast)]
  cases place with
  | ofNat up =>
      refine ofRatio_eq hprecision (Nat.mul_pos hcoefficient (Nat.pow_pos (by decide))) Nat.one_pos
        hholds ?_
      simpa using hrounds
  | negSucc down =>
      refine ofRatio_eq hprecision hcoefficient (Nat.pow_pos (by decide)) hholds ?_
      simpa [zpow_negSucc, div_eq_mul_inv] using hrounds

/-! ## Digits -/

theorem span_digits (hwhole : ∀ c ∈ whole, c.isDigit = true) (rest : List Char)
    (hrest : ∀ c ∈ rest.head?, c.isDigit = false) :
    (whole ++ rest).span Char.isDigit = (whole, rest) := by
  rw [List.span_eq_takeWhile_dropWhile, List.takeWhile_append_of_pos hwhole,
    List.dropWhile_append_of_pos hwhole]
  cases rest with
  | nil => simp
  | cons first rest => simp [hrest first rfl]

/-- Digits alone are a whole number. -/
theorem ofDigits?_whole (hdigits : ∀ c ∈ whole, c.isDigit = true) (hwhole : whole ≠ []) :
    (ofDigits? negative whole : Option (Binary format)) =
      some (ofDecimal negative (Nat.ofDigitChars 10 whole 0) 0) := by
  have hspan := span_digits hdigits [] (by simp)
  rw [List.append_nil] at hspan
  simp only [ofDigits?, hspan, List.append_nil]
  simp [hwhole]

/-- Digits with a point among them are those digits, with the last of them at a place
behind the point. -/
theorem ofDigits?_point (hwhole : ∀ c ∈ whole, c.isDigit = true) (hnonempty : whole ≠ [])
    (hfraction : ∀ c ∈ fraction, c.isDigit = true) :
    (ofDigits? negative (whole ++ '.' :: fraction) : Option (Binary format)) =
      some (ofDecimal negative (Nat.ofDigitChars 10 (whole ++ fraction) 0) (-fraction.length)) := by
  have hspan := span_digits hwhole ('.' :: fraction) (by simp)
  have hspan' := span_digits hfraction [] (by simp)
  rw [List.append_nil] at hspan'
  simp only [ofDigits?, hspan, hspan']
  simp [hnonempty]

theorem isDigit_zeros (count : Nat) : ∀ c ∈ List.replicate count '0', c.isDigit = true := by
  intro c hmem
  rw [List.eq_of_mem_replicate hmem]
  rfl

/-- The text of a decimal is read as this decimal, its zeros in front of the point being
part of the coefficient. -/
theorem ofDigits?_positional (decimal : Nat) (place : Int) :
    (ofDigits? negative (positional decimal place) : Option (Binary format)) =
      some (ofDecimal negative (decimal * 10 ^ place.toNat) (min place 0)) := by
  have hdigits := isDigit_toDigits decimal
  have hvalue := Nat.ofDigitChars_ten_toDigits (n := decimal)
  cases place with
  | ofNat zeros =>
      rw [positional, ofDigits?_whole]
      · simp [Nat.ofDigitChars_append, hvalue, Nat.ofDigitChars_replicate_zero, Nat.mul_comm]
      · exact fun c hmem => (List.mem_append.mp hmem).elim (hdigits c) (isDigit_zeros zeros c)
      · simp
  | negSucc below =>
      simp only [positional]
      split
      · rename_i hlonger
        rw [ofDigits?_point, List.take_append_drop, hvalue, List.length_drop]
        · congr 2
          · simp
          · omega
        · exact fun c hmem => hdigits c (List.mem_of_mem_take hmem)
        · rw [Ne, List.take_eq_nil_iff, not_or]
          exact ⟨by omega, Nat.toDigits_ne_nil⟩
        · exact fun c hmem => hdigits c (List.mem_of_mem_drop hmem)
      · rename_i hshorter
        rw [← List.singleton_append, ofDigits?_point]
        · congr 2
          · rw [Nat.ofDigitChars_append, Nat.ofDigitChars_append, Nat.ofDigitChars_replicate_zero]
            have hzero : Nat.ofDigitChars 10 ['0'] 0 = 0 := rfl
            simp [hvalue, hzero]
          · simp
            omega
        · exact isDigit_zeros 1
        · exact List.cons_ne_nil _ _
        · exact fun c hmem => (List.mem_append.mp hmem).elim (isDigit_zeros _ c) (hdigits c)

/-! ## What is read -/

/-- A finite number in its one form; the others have one form only. -/
def Held : Binary format → Prop
  | finite _ mantissa exponent => format.Holds mantissa exponent
  | _ => True

theorem held_zero (hordinary : format.Ordinary) (negative : Bool) :
    (zero negative : Binary format).Held :=
  ⟨Nat.two_pow_pos _, le_refl _, hordinary.least.trans hordinary.greatest,
    fun habove => absurd habove (lt_irrefl _)⟩

theorem held_ofRatio (hordinary : format.Ordinary) (negative : Bool) (numerator : Nat)
    {denominator : Nat} (hdenominator : 0 < denominator) :
    (ofRatio negative numerator denominator : Binary format).Held := by
  have hleast := hordinary.least.trans hordinary.greatest
  cases hrounded : (ofRatio negative numerator denominator : Binary format) with
  | nan => trivial
  | infinite _ => trivial
  | finite sign mantissa exponent =>
      exact holds_ofRatio hordinary.precision_pos hleast hdenominator hrounded

theorem held_ofDecimal (hordinary : format.Ordinary) (negative : Bool) (coefficient : Nat)
    (place : Int) : (ofDecimal negative coefficient place : Binary format).Held := by
  simp only [ofDecimal]
  split
  · exact held_zero hordinary negative
  · split
    · exact trivial
    · split
      · exact held_zero hordinary negative
      · cases place with
        | ofNat up => exact held_ofRatio hordinary negative _ Nat.one_pos
        | negSucc down => exact held_ofRatio hordinary negative _ (Nat.pow_pos (by decide))

/-- What digits give is the value of a decimal. -/
theorem exists_of_ofDigits? {chars : List Char} {number : Binary format}
    (hread : ofDigits? negative chars = some number) :
    ∃ coefficient place, number = ofDecimal negative coefficient place := by
  simp only [ofDigits?] at hread
  -- With a point or without one, the exponent is all that is left to read.
  split at hread
  all_goals
    split at hread
    · cases hread
    · split at hread
      · cases hread
        exact ⟨_, _, rfl⟩
      · split at hread
        · obtain ⟨exponent, -, hnumber⟩ := Option.map_eq_some_iff.mp hread
          exact ⟨_, _, hnumber.symm⟩
        · cases hread

theorem held_of_ofName? {chars : List Char} {number : Binary format}
    (hread : ofName? negative chars = some number) : number.Held := by
  simp only [ofName?] at hread
  split at hread
  · cases hread
    trivial
  · split at hread <;> cases hread
    trivial

/-- Whatever is read from a text is in its one form. -/
theorem held_of_ofText? (hordinary : format.Ordinary) {text : String} {number : Binary format}
    (hread : ofText? text = some number) : number.Held := by
  simp only [ofText?, Option.orElse_eq_or] at hread
  obtain hdigits | ⟨-, hname⟩ := Option.or_eq_some_iff.mp hread
  · obtain ⟨coefficient, place, rfl⟩ := exists_of_ofDigits? hdigits
    exact held_ofDecimal hordinary _ _ _
  · exact held_of_ofName? hname

/-! ## The text of a number -/

/-- The digits of a finite number. -/
def magnitudeChars (format : BinaryFormat) (mantissa : Nat) (exponent : Int) : List Char :=
  if mantissa = 0 then ['0']
  else positional (shortest format mantissa exponent).1 (shortest format mantissa exponent).2

theorem text_finite (negative : Bool) (mantissa : Nat) (exponent : Int) :
    (finite negative mantissa exponent : Binary format).text =
      String.ofList (if negative then '-' :: magnitudeChars format mantissa exponent
        else magnitudeChars format mantissa exponent) := rfl

/-- The digits of a number in its one form are read as this number. -/
theorem ofDigits?_magnitudeChars (hordinary : format.Ordinary)
    (hholds : format.Holds mantissa exponent) :
    ofDigits? negative (magnitudeChars format mantissa exponent) =
      some (finite negative mantissa exponent : Binary format) := by
  rw [magnitudeChars]
  split
  · rename_i hzero
    have hleast : exponent = format.minExponent := by
      by_contra hne
      have hfull := hholds.full (lt_of_le_of_ne hholds.least (Ne.symm hne))
      have hpositive : 0 < format.leadingBit := Nat.two_pow_pos _
      omega
    have hdigits : ∀ c ∈ ['0'], c.isDigit = true := isDigit_zeros 1
    rw [ofDigits?_whole hdigits (List.cons_ne_nil _ _), hzero, hleast]
    rfl
  · rename_i hmantissa
    rw [ofDigits?_positional]
    have hrounds : format.Rounds mantissa exponent ((shortest format mantissa exponent).1 *
        10 ^ (shortest format mantissa exponent).2) :=
      rounds_shortest hordinary (Nat.pos_of_ne_zero hmantissa) hholds.bits
    generalize shortest format mantissa exponent = decimal at hrounds ⊢
    rw [ofDecimal_eq hordinary (Nat.pos_of_ne_zero hmantissa) hholds]
    rcases le_total decimal.2 0 with hplace | hplace
    · rw [min_eq_left hplace, Int.toNat_of_nonpos hplace]
      simpa using hrounds
    · rw [min_eq_right hplace]
      lift decimal.2 to Nat using hplace with zeros
      simpa using hrounds

/-- Digits that are read as a number do not begin with a sign. -/
theorem splitSign_of_ofDigits? {chars : List Char} {number : Binary format}
    (hread : ofDigits? negative chars = some number) : splitSign chars = (false, chars) := by
  unfold splitSign
  split
  · simp [ofDigits?] at hread
  · simp [ofDigits?] at hread
  · rfl

/-- A finite number that was read from a text is read again from its own text. -/
theorem ofText?_text (hordinary : format.Ordinary) {text : String} {number : Binary format}
    (hread : ofText? text = some number) (hfinite : number.isFinite = true) :
    ofText? number.text = some number := by
  have hheld := held_of_ofText? hordinary hread
  cases number with
  | nan => cases hfinite
  | infinite _ => cases hfinite
  | finite negative mantissa exponent =>
      have hdigits : ofDigits? negative (magnitudeChars format mantissa exponent) =
          some (finite negative mantissa exponent : Binary format) :=
        ofDigits?_magnitudeChars hordinary hheld
      have hsign : splitSign (if negative then '-' :: magnitudeChars format mantissa exponent
          else magnitudeChars format mantissa exponent) =
          (negative, magnitudeChars format mantissa exponent) := by
        cases negative with
        | true => rfl
        | false => exact splitSign_of_ofDigits? hdigits
      rw [ofText?, text_finite, String.toList_ofList, hsign]
      simp [hdigits]

end Binary

end TokenCodec.Numeral
