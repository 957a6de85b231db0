import Mathlib.Algebra.Group.Nat.Defs
import TokenCodec.Calendar.Rfc3339

/-!
# Texts of timestamps

Every valid timestamp is read back from its text: each field of the text has a fixed
width or ends where no digit follows, and so gives its number and leaves the characters
behind it.
-/

namespace TokenCodec.Calendar

open Numeral

/-! ## Fields -/

theorem length_toDigits_le {width n : Nat} (hwidth : 0 < width) (hbound : n < 10 ^ width) :
    (Nat.toDigits 10 n).length ≤ width :=
  (Nat.length_toDigits_le_iff (by decide) hwidth).mpr hbound

namespace Timestamp

variable {width n : Nat}

theorem length_padded (hwidth : 0 < width) (hbound : n < 10 ^ width) :
    (padded width n).length = width := by
  have hlength := length_toDigits_le hwidth hbound
  simp only [padded, List.length_append, List.length_replicate]
  omega

theorem isDigit_padded (width n : Nat) : ∀ c ∈ padded width n, c.isDigit = true := by
  intro c hmem
  rcases List.mem_append.mp hmem with hzero | hdigit
  · rw [List.eq_of_mem_replicate hzero]
    rfl
  · exact isDigit_toDigits n c hdigit

/-- Leading zeros do not change the value of a number. -/
theorem ofDigitChars_padded (width n : Nat) : Nat.ofDigitChars 10 (padded width n) 0 = n := by
  rw [padded, Nat.ofDigitChars_append, Nat.ofDigitChars_replicate_zero, Nat.mul_zero,
    Nat.ofDigitChars_ten_toDigits]

end Timestamp

open Timestamp

variable {width n : Nat} {rest : List Char}

/-- A field of fixed width is read as its number. -/
theorem fixedDigits?_padded (hwidth : 0 < width) (hbound : n < 10 ^ width) (rest : List Char) :
    fixedDigits? width (padded width n ++ rest) = some (n, rest) := by
  have hlength := length_padded hwidth hbound
  have hdigits := List.all_eq_true.mpr (isDigit_padded width n)
  simp [fixedDigits?, List.take_left' hlength, List.drop_left' hlength, hlength, hdigits,
    ofDigitChars_padded]

theorem fixedDigits?_two (hbound : n ≤ 99) (rest : List Char) :
    fixedDigits? 2 (padded 2 n ++ rest) = some (n, rest) :=
  fixedDigits?_padded (by decide) (Nat.lt_succ_of_le hbound) rest

theorem after?_cons (c : Char) (rest : List Char) : after? c (c :: rest) = some rest := if_pos rfl

/-- A fraction whose digits are a field of at most nine of them. -/
theorem fraction?_padded (hwidth : 0 < width) (hnine : width ≤ 9) (hbound : n < 10 ^ width)
    (hrest : ∀ c ∈ rest.head?, c.isDigit = false) :
    fraction? ('.' :: padded width n ++ rest) = some (n * 10 ^ (9 - width), rest) := by
  have hlength := length_padded hwidth hbound
  have htake : (padded width n ++ rest).takeWhile Char.isDigit = padded width n := by
    rw [List.takeWhile_append_of_pos (isDigit_padded width n)]
    cases rest with
    | nil => simp
    | cons first rest => simp [hrest first rfl]
  have hdrop : (padded width n ++ rest).dropWhile Char.isDigit = rest := by
    rw [List.dropWhile_append_of_pos (isDigit_padded width n)]
    cases rest with
    | nil => rfl
    | cons first rest => simp [hrest first rfl]
  have hnonempty : padded width n ≠ [] := by
    intro hempty
    rw [hempty] at hlength
    exact absurd hlength (Nat.ne_of_lt hwidth)
  have hkept : (padded width n).take 9 = padded width n := List.take_of_length_le (by omega)
  simp [fraction?, htake, hdrop, hkept, hlength, hnonempty, ofDigitChars_padded]

/-- The fraction of a second is read from the digits that are written for it. -/
theorem fraction?_fractionChars {nanosecond : Nat} (hbound : nanosecond < 1000000000)
    (hrest : ∀ c ∈ rest.head?, c.isDigit = false ∧ c ≠ '.') :
    fraction? (fractionChars nanosecond ++ rest) = some (nanosecond, rest) := by
  have hdigit : ∀ c ∈ rest.head?, c.isDigit = false := fun c hmem => (hrest c hmem).1
  rw [fractionChars]
  split
  · rename_i hzero
    rw [hzero, List.nil_append]
    unfold fraction?
    split
    · exact absurd rfl (hrest '.' rfl).2
    · rfl
  · split
    · rename_i hmillis
      rw [fraction?_padded (by decide) (by decide) (by omega) hdigit]
      congr 2
      omega
    · split
      · rename_i hmicros
        rw [fraction?_padded (by decide) (by decide) (by omega) hdigit]
        congr 2
        omega
      · rw [fraction?_padded (by decide) (by decide) (by omega) hdigit]
        congr 2
        omega

/-- The minutes of an offset are read from its hours and minutes. -/
theorem offsetMinutes?_padded {hours minutes : Nat} (hhours : hours ≤ 99)
    (hminutes : minutes ≤ 59) :
    offsetMinutes? (padded 2 hours ++ ':' :: padded 2 minutes) =
      some ((hours * 60 + minutes : Nat) : Int) := by
  have hfield := fixedDigits?_two (show minutes ≤ 99 by omega) []
  rw [List.append_nil] at hfield
  simp [offsetMinutes?, fixedDigits?_two hhours, after?_cons, hfield, hminutes]

/-- The offset is read from the characters that are written for it. -/
theorem offset?_offsetChars {offset : Int} (hbound : offset.natAbs < 24 * 60) :
    offset? (offsetChars offset) = some offset := by
  have hminutes : offsetMinutes? (padded 2 (offset.natAbs / 60) ++
      ':' :: padded 2 (offset.natAbs % 60)) = some (offset.natAbs : Int) := by
    rw [offsetMinutes?_padded (by omega) (by omega), Nat.div_add_mod']
  rw [offsetChars]
  split
  · rename_i hnegative
    simp only [offset?, List.cons_append, hminutes, Option.map_some]
    congr 1
    omega
  · rename_i hpositive
    simp only [offset?, List.cons_append, hminutes]
    congr 1
    omega

/-! ## Timestamps -/

/-- A month with days is one of the twelve. -/
theorem month_of_daysInMonth {year month : Nat} (hdays : 1 ≤ daysInMonth year month) :
    month ≤ 12 := by
  unfold daysInMonth at hdays
  split at hdays <;> omega

theorem daysInMonth_le (year month : Nat) : daysInMonth year month ≤ 31 := by
  unfold daysInMonth
  split <;> first | omega | (split <;> omega)

namespace Timestamp

/-- Every valid timestamp is read back from its text. -/
theorem ofText?_text_of_isValid {time : Timestamp} (hvalid : time.isValid = true) :
    ofText? time.text = some time := by
  obtain ⟨year, month, day, hour, minute, second, nanosecond, offset⟩ := time
  have hfields := hvalid
  simp only [isValid, Bool.and_eq_true, decide_eq_true_eq] at hfields
  obtain ⟨⟨⟨⟨⟨⟨⟨hyear, hday⟩, hdays⟩, hhour⟩, hminute⟩, hsecond⟩, hnanosecond⟩, hoffset⟩ := hfields
  have hmonth := month_of_daysInMonth (Nat.le_trans hday hdays)
  have hmonthly := daysInMonth_le year month
  have hsign : ∀ c ∈ (offsetChars offset).head?, c.isDigit = false ∧ c ≠ '.' := by
    intro c hmem
    rw [offsetChars] at hmem
    split at hmem <;> cases hmem <;> decide
  have hfraction := fraction?_fractionChars hnanosecond hsign
  have hfour (rest : List Char) : fixedDigits? 4 (padded 4 year ++ rest) = some (year, rest) :=
    fixedDigits?_padded (by decide) (Nat.lt_succ_of_le hyear) rest
  have hseparator (rest : List Char) : afterSeparator? ('T' :: rest) = some rest := rfl
  simp only [ofText?, text, String.toList_ofList, chars, List.append_nil, List.append_assoc,
    List.cons_append]
  simp only [ofChars?, hfour, fixedDigits?_two (show month ≤ 99 by omega),
    fixedDigits?_two (show day ≤ 99 by omega), fixedDigits?_two (show hour ≤ 99 by omega),
    fixedDigits?_two (show minute ≤ 99 by omega), fixedDigits?_two (show second ≤ 99 by omega),
    after?_cons, hseparator, hfraction, offset?_offsetChars hoffset, Option.bind_eq_bind,
    Option.bind_some, hvalid, if_true]

/-- What is read is valid. -/
theorem isValid_of_ofText? {text : String} {time : Timestamp} (hread : ofText? text = some time) :
    time.isValid = true := by
  simp only [ofText?, ofChars?, Option.bind_eq_bind, Option.bind_eq_some_iff] at hread
  obtain ⟨_, -, _, -, _, -, _, -, _, -, _, -, _, -, _, -, _, -, _, -, _, -, _, -, _, -, htime⟩ :=
    hread
  split at htime
  · rename_i hvalid
    cases htime
    exact hvalid
  · cases htime

/-- A timestamp that was read from a text is read again from its own text. -/
theorem ofText?_text {text : String} {time : Timestamp} (hread : ofText? text = some time) :
    ofText? time.text = some time :=
  ofText?_text_of_isValid (isValid_of_ofText? hread)

end Timestamp

end TokenCodec.Calendar
