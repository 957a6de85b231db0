import TokenCodec.Numeral.Shortest
import TokenCodec.Proofs.Numeral.Rounding

/-!
# The shortest text reads back

The decimal that is written for a finite number lies in the interval of the ratios
that round to this number.  The search for it cannot fail: the finest grid that it
tries has a point in every such interval.
-/

namespace TokenCodec.Numeral

variable {format : BinaryFormat} {mantissa : Nat} {exponent : Int}

theorem ten_zpow_pos (place : Int) : (0 : ℚ) < 10 ^ place := zpow_pos (by norm_num) place

theorem ten_zpow_add (place other : Int) : (10 : ℚ) ^ (place + other) = 10 ^ place * 10 ^ other :=
  zpow_add₀ (by norm_num) _ _

namespace Neighbourhood

variable {hood : Neighbourhood} {place : Int} {decimal numerator : Nat}

/-- The number lies inside of its interval. -/
structure Proper (hood : Neighbourhood) : Prop where
  denominator : 0 < hood.denominator
  low : hood.low < hood.value
  high : hood.value < hood.high

/-- The ratios of an interval. -/
structure Contains (hood : Neighbourhood) (ratio : ℚ) : Prop where
  low : (hood.low : ℚ) / hood.denominator ≤ ratio
  high : ratio ≤ (hood.high : ℚ) / hood.denominator
  strict : hood.closed = false → (hood.low : ℚ) / hood.denominator < ratio ∧
    ratio < (hood.high : ℚ) / hood.denominator

/-! ## Grids -/

/-- A numerator over the denominator that is scaled to a grid. -/
def scaled (hood : Neighbourhood) (place : Int) (numerator : Nat) : Nat :=
  (scaleDown 10 place numerator hood.denominator).1

/-- The denominator that is scaled to a grid. -/
def step (hood : Neighbourhood) (place : Int) : Nat :=
  (scaleDown 10 place 0 hood.denominator).2

theorem scaleDown_eq (hood : Neighbourhood) (place : Int) (numerator : Nat) :
    scaleDown 10 place numerator hood.denominator =
      (hood.scaled place numerator, hood.step place) := by
  cases place <;> rfl

theorem step_pos (hproper : hood.Proper) (place : Int) : 0 < hood.step place :=
  scaleDown_snd_pos (by decide) place 0 hproper.denominator

theorem scaled_lt_scaled (hood : Neighbourhood) {numerator other : Nat} (hlt : numerator < other)
    (place : Int) :
    hood.scaled place numerator < hood.scaled place other := by
  cases place with
  | ofNat up => exact hlt
  | negSucc down => exact Nat.mul_lt_mul_of_pos_right hlt (Nat.pow_pos (by decide))

/-- A point of a grid is compared with a ratio by their numerators. -/
theorem grid_le_iff (hproper : hood.Proper) :
    (decimal : ℚ) * 10 ^ place ≤ (numerator : ℚ) / hood.denominator ↔
      decimal * hood.step place ≤ hood.scaled place numerator := by
  have hratio := scaleDown_ratio (show 0 < 10 by decide) place numerator hood.denominator
  have hpos : (0 : ℚ) < hood.step place := by exact_mod_cast step_pos hproper place
  rw [scaleDown_eq, Nat.cast_ofNat, eq_div_iff (ten_zpow_pos place).ne'] at hratio
  rw [← hratio, mul_le_mul_iff_of_pos_right (ten_zpow_pos place), le_div_iff₀ hpos]
  exact_mod_cast Iff.rfl

theorem le_grid_iff (hproper : hood.Proper) :
    (numerator : ℚ) / hood.denominator ≤ decimal * 10 ^ place ↔
      hood.scaled place numerator ≤ decimal * hood.step place := by
  have hratio := scaleDown_ratio (show 0 < 10 by decide) place numerator hood.denominator
  have hpos : (0 : ℚ) < hood.step place := by exact_mod_cast step_pos hproper place
  rw [scaleDown_eq, Nat.cast_ofNat, eq_div_iff (ten_zpow_pos place).ne'] at hratio
  rw [← hratio, mul_le_mul_iff_of_pos_right (ten_zpow_pos place), div_le_iff₀ hpos]
  exact_mod_cast Iff.rfl

theorem within_of_lt {a b : Nat} (hlt : a < b) : hood.within a b = true := by
  simp only [within]
  split <;> simp [hlt, hlt.le]

/-- A point of a grid whose comparisons with both ends succeed lies in the interval. -/
theorem contains_of_within (hproper : hood.Proper)
    (hlow : hood.within (hood.scaled place hood.low) (decimal * hood.step place) = true)
    (hhigh : hood.within (decimal * hood.step place) (hood.scaled place hood.high) = true) :
    hood.Contains (decimal * 10 ^ place) := by
  cases hclosed : hood.closed with
  | true =>
      simp only [within, hclosed, if_true, decide_eq_true_eq] at hlow hhigh
      exact ⟨(le_grid_iff hproper).mpr hlow, (grid_le_iff hproper).mpr hhigh,
        fun hopen => nomatch hclosed.symm.trans hopen⟩
  | false =>
      simp only [within, hclosed, Bool.false_eq_true, if_false, decide_eq_true_eq] at hlow hhigh
      have hlow' := not_le.mp ((grid_le_iff hproper).not.mpr (not_le.mpr hlow))
      have hhigh' := not_le.mp ((le_grid_iff hproper).not.mpr (not_le.mpr hhigh))
      exact ⟨hlow'.le, hhigh'.le, fun _ => ⟨hlow', hhigh'⟩⟩

/-- The value lies between two neighbouring points of a grid. -/
theorem value_between (hproper : hood.Proper) (place : Int) :
    hood.scaled place hood.value / hood.step place * hood.step place ≤
        hood.scaled place hood.value ∧
      hood.scaled place hood.value <
        (hood.scaled place hood.value / hood.step place + 1) * hood.step place := by
  refine ⟨Nat.div_mul_le_self _ _, ?_⟩
  rw [Nat.mul_comm]
  exact Nat.lt_mul_div_succ _ (step_pos hproper place)

/-- What a grid gives lies in the interval. -/
theorem contains_of_onGrid? (hproper : hood.Proper) (hgrid : hood.onGrid? place = some decimal) :
    hood.Contains (decimal * 10 ^ place) := by
  have hlow := hood.scaled_lt_scaled hproper.low place
  have hhigh := hood.scaled_lt_scaled hproper.high place
  obtain ⟨hdown, hup⟩ := value_between hproper place
  simp only [onGrid?, scaleDown_eq] at hgrid
  -- The point below the value is below the upper end, and the one above it above the lower end.
  split at hgrid
  · rename_i hreads
    cases hgrid
    exact contains_of_within hproper (Bool.and_eq_true_iff.mp hreads).1
      (within_of_lt (hdown.trans_lt hhigh))
  · split at hgrid
    · rename_i hreads
      cases hgrid
      exact contains_of_within hproper (within_of_lt (hlow.trans hup)) hreads
    · cases hgrid

/-- A grid whose step is less than the way to the upper end gives a point. -/
theorem isSome_onGrid? (hproper : hood.Proper)
    (hfine : (hood.value : ℚ) / hood.denominator + 10 ^ place <
      (hood.high : ℚ) / hood.denominator) :
    (hood.onGrid? place).isSome = true := by
  obtain ⟨hdown, -⟩ := value_between hproper place
  generalize hpoint : hood.scaled place hood.value / hood.step place = point at hdown
  have hbelow : ((point + 1 : Nat) : ℚ) * 10 ^ place < (hood.high : ℚ) / hood.denominator := by
    have hpoint := (grid_le_iff hproper).mpr hdown
    push_cast
    linarith
  have hreads : hood.within ((point + 1) * hood.step place) (hood.scaled place hood.high) = true :=
    within_of_lt (Nat.lt_of_not_le (mt (le_grid_iff hproper).mpr (not_le.mpr hbelow)))
  simp only [onGrid?, scaleDown_eq, hpoint, hreads, if_true]
  split <;> rfl

/-- The search ends with a point in the interval, if the last grid has one. -/
theorem contains_search (hproper : hood.Proper) {fuel : Nat} {place : Int}
    (hends : (hood.onGrid? (place - fuel)).isSome = true) :
    hood.Contains ((hood.search (fuel + 1) place).1 * 10 ^ (hood.search (fuel + 1) place).2) := by
  induction fuel generalizing place with
  | zero =>
      rw [Int.natCast_zero, Int.sub_zero] at hends
      obtain ⟨decimal, hgrid⟩ := Option.isSome_iff_exists.mp hends
      simp only [search, hgrid]
      exact contains_of_onGrid? hproper hgrid
  | succ fuel ih =>
      rw [search]
      cases hgrid : hood.onGrid? place with
      | some decimal => exact contains_of_onGrid? hproper hgrid
      | none =>
          apply ih
          rwa [show place - 1 - (fuel : Int) = place - ((fuel + 1 : Nat) : Int) by omega]

/-! ## The magnitude -/

/-- The digits of a number bound it from both sides. -/
theorem digits_bounds {n : Nat} (hpos : 0 < n) :
    (10 : ℚ) ^ (((Nat.toDigits 10 n).length : Int) - 1) ≤ n ∧
      (n : ℚ) < 10 ^ ((Nat.toDigits 10 n).length : Int) := by
  have hlength : 0 < (Nat.toDigits 10 n).length := Nat.length_toDigits_pos
  have hbelow := (Nat.length_toDigits_le_iff (by decide) hlength).mp le_rfl
  have habove : 10 ^ ((Nat.toDigits 10 n).length - 1) ≤ n := by
    rcases Nat.eq_zero_or_pos ((Nat.toDigits 10 n).length - 1) with hone | hmore
    · rw [hone]
      exact hpos
    · exact Nat.le_of_not_lt (mt (Nat.length_toDigits_le_iff (by decide) hmore).mpr (by omega))
  constructor
  · rw [← Nat.cast_pred hlength, zpow_natCast]
    exact_mod_cast habove
  · rw [zpow_natCast]
    exact_mod_cast hbelow

/-- The value has its leading digit at its magnitude. -/
theorem magnitude_le (hproper : hood.Proper) :
    (10 : ℚ) ^ (hood.magnitude - 1) ≤ (hood.value : ℚ) / hood.denominator := by
  have hdenominator : (0 : ℚ) < hood.denominator := by exact_mod_cast hproper.denominator
  have hvalue := (digits_bounds (Nat.zero_lt_of_lt hproper.low)).1
  have hbelow := (digits_bounds hproper.denominator).2
  simp only [magnitude, scaleDown_eq]
  generalize hguess : ((Nat.toDigits 10 hood.value).length : Int)
    - (Nat.toDigits 10 hood.denominator).length = guess
  split
  · rw [le_div_iff₀ hdenominator]
    calc (10 : ℚ) ^ (guess - 1) * hood.denominator
        ≤ 10 ^ (guess - 1) * 10 ^ ((Nat.toDigits 10 hood.denominator).length : Int) :=
          mul_le_mul_of_nonneg_left hbelow.le (ten_zpow_pos _).le
      _ = 10 ^ (((Nat.toDigits 10 hood.value).length : Int) - 1) := by
          rw [← ten_zpow_add]
          congr 1
          omega
      _ ≤ hood.value := hvalue
  · rename_i hgreater
    have hstep : 1 * hood.step guess ≤ hood.scaled guess hood.value := by
      rw [Nat.one_mul]
      exact Nat.le_of_not_lt hgreater
    have hgrid := (grid_le_iff hproper).mpr hstep
    rwa [Nat.cast_one, one_mul, ← Int.add_sub_cancel guess 1] at hgrid

/-! ## The interval of a number -/

section Around

variable (format : BinaryFormat) {mantissa : Nat} (exponent : Int)

/-- A quarter of the last bit is the unit of the interval around a number. -/
theorem exists_around (mantissa : Nat) :
    ∃ unit denominator : Nat, 0 < unit ∧ 0 < denominator ∧
      (unit : ℚ) / denominator = 2 ^ exponent / 4 ∧
      around format mantissa exponent =
        ⟨(4 * mantissa - if mantissa = format.leadingBit then 1 else 2) * unit,
          4 * mantissa * unit, (4 * mantissa + 2) * unit, denominator, mantissa % 2 == 0⟩ := by
  have hquarter : (2 : ℚ) ^ exponent / 4 = 2 ^ (exponent - 2) := by
    rw [zpow_sub₀ (by norm_num)]
    norm_num
  rw [hquarter]
  simp only [around]
  generalize exponent - 2 = shift
  cases shift with
  | ofNat up => exact ⟨2 ^ up, 1, Nat.two_pow_pos up, Nat.one_pos, by simp, rfl⟩
  | negSucc down =>
      exact ⟨1, 2 ^ (down + 1), Nat.one_pos, Nat.two_pow_pos _, by simp [zpow_negSucc], rfl⟩

theorem proper_around (hmantissa : 0 < mantissa) : (around format mantissa exponent).Proper := by
  obtain ⟨unit, denominator, hunit, hdenominator, -, haround⟩ :=
    exists_around format exponent mantissa
  rw [haround]
  refine ⟨hdenominator, Nat.mul_lt_mul_of_pos_right ?_ hunit, Nat.mul_lt_mul_of_pos_right ?_ hunit⟩
  · split <;> omega
  · omega

theorem around_ratios (hmantissa : 0 < mantissa) :
    let hood := around format mantissa exponent
    (hood.low : ℚ) / hood.denominator = (mantissa - format.reach mantissa) * 2 ^ exponent ∧
      (hood.value : ℚ) / hood.denominator = mantissa * 2 ^ exponent ∧
      (hood.high : ℚ) / hood.denominator = (mantissa + 1 / 2) * 2 ^ exponent := by
  obtain ⟨unit, denominator, -, -, hratio, haround⟩ := exists_around format exponent mantissa
  simp only [haround, Nat.cast_mul, mul_div_assoc, hratio]
  refine ⟨?_, ?_, ?_⟩
  · rw [Nat.cast_sub (by split <;> omega), BinaryFormat.reach]
    split <;> push_cast <;> ring
  · push_cast
    ring
  · push_cast
    ring

/-- The interval around a number holds the ratios that round to it. -/
theorem rounds_of_contains (hmantissa : 0 < mantissa) {ratio : ℚ}
    (hcontains : (around format mantissa exponent).Contains ratio) :
    format.Rounds mantissa exponent ratio := by
  obtain ⟨hlow, -, hhigh⟩ := around_ratios format exponent hmantissa
  have hstrict := hcontains.strict
  refine ⟨hlow ▸ hcontains.low, hhigh ▸ hcontains.high, fun hodd => ?_⟩
  rw [hlow, hhigh] at hstrict
  apply hstrict
  simp [around, hodd]

end Around

end Neighbourhood

/-! ## The decimal that is found -/

theorem ten_zpow_succ (place : Int) : (10 : ℚ) ^ (place + 1) = 10 * 10 ^ place := by
  rw [ten_zpow_add, zpow_one, mul_comm]

/-- Dropping zeros keeps the value. -/
theorem dropZeros_value (fuel decimal : Nat) (place : Int) :
    ((dropZeros fuel decimal place).1 : ℚ) * 10 ^ (dropZeros fuel decimal place).2 =
      decimal * 10 ^ place := by
  induction fuel generalizing decimal place with
  | zero => rfl
  | succ fuel ih =>
      rw [dropZeros]
      split
      · rename_i hzero
        have htenth : ((decimal / 10 : Nat) : ℚ) * 10 = decimal := by
          exact_mod_cast Nat.div_mul_cancel (Nat.dvd_of_mod_eq_zero hzero)
        rw [ih, ten_zpow_succ, ← mul_assoc, htenth]
      · rfl

/-- A format in which the digits that are searched tell all its numbers apart, and with
its numbers around one. -/
structure BinaryFormat.Ordinary (format : BinaryFormat) : Prop where
  precise : 2 ^ (format.precision + 1) ≤ 10 ^ (format.precision - 1)
  least : format.minExponent ≤ 0
  greatest : 0 ≤ format.maxExponent

theorem BinaryFormat.ordinary_double : BinaryFormat.double.Ordinary where
  precise := by norm_num [double]
  least := by decide
  greatest := by decide

theorem BinaryFormat.Ordinary.precision_pos (hordinary : format.Ordinary) :
    0 < format.precision := by
  rcases Nat.eq_zero_or_pos format.precision with hzero | hpos
  · have hprecise := hordinary.precise
    rw [hzero] at hprecise
    exact absurd hprecise (by decide)
  · exact hpos

/-- The last grid of the search is fine enough for every number. -/
theorem last_grid_fine (hordinary : format.Ordinary) (hbits : mantissa < 2 ^ format.precision)
    {magnitude : Int} (hmagnitude : (10 : ℚ) ^ (magnitude - 1) ≤ mantissa * 2 ^ exponent) :
    (mantissa : ℚ) * 2 ^ exponent + 10 ^ (magnitude - 1 - (format.precision - 1 : Nat)) <
      (mantissa + 1 / 2) * 2 ^ exponent := by
  have hpower := two_zpow_pos exponent
  have hten : (0 : ℚ) < 10 ^ (format.precision - 1) := by positivity
  have hprecise : (2 * mantissa : ℚ) < 10 ^ (format.precision - 1) := by
    have hdouble : 2 * mantissa < 2 ^ (format.precision + 1) := by
      rw [Nat.pow_succ']
      omega
    exact_mod_cast hdouble.trans_le hordinary.precise
  have hstep :
      (10 : ℚ) ^ (magnitude - 1 - (format.precision - 1 : Nat)) < 1 / 2 * 2 ^ exponent := by
    rw [zpow_sub₀ (by norm_num), zpow_natCast, div_lt_iff₀ hten]
    calc (10 : ℚ) ^ (magnitude - 1) ≤ 1 / 2 * 2 ^ exponent * (2 * mantissa) := by linarith
      _ < 1 / 2 * 2 ^ exponent * 10 ^ (format.precision - 1) :=
          mul_lt_mul_of_pos_left hprecise (by positivity)
  linarith

/-- The shortest decimal of a number rounds to this number. -/
theorem rounds_shortest (hordinary : format.Ordinary) (hmantissa : 0 < mantissa)
    (hbits : mantissa < 2 ^ format.precision) :
    format.Rounds mantissa exponent
      ((shortest format mantissa exponent).1 * 10 ^ (shortest format mantissa exponent).2) := by
  have hproper := Neighbourhood.proper_around format exponent hmantissa
  obtain ⟨-, hvalue, hhigh⟩ := Neighbourhood.around_ratios format exponent hmantissa
  have hmagnitude := Neighbourhood.magnitude_le hproper
  apply Neighbourhood.rounds_of_contains format exponent hmantissa
  simp only [shortest]
  generalize Neighbourhood.around format mantissa exponent = hood at *
  have hfine : (hood.value : ℚ) / hood.denominator +
      10 ^ (hood.magnitude - 1 - (format.precision - 1 : Nat)) <
        (hood.high : ℚ) / hood.denominator := by
    rw [hvalue] at hmagnitude ⊢
    rw [hhigh]
    exact last_grid_fine hordinary hbits hmagnitude
  have hfuel : format.precision - 1 + 1 = format.precision :=
    Nat.sub_add_cancel hordinary.precision_pos
  have hsearch := Neighbourhood.contains_search hproper (Neighbourhood.isSome_onGrid? hproper hfine)
  rw [hfuel] at hsearch
  rwa [dropZeros_value]

end TokenCodec.Numeral
