import Mathlib.Algebra.Group.Int.Defs
import TokenCodec.Json.Codec
import TokenCodec.Proofs.Streams

/-!
# Integers of three widths

An integral number is read at 32 bits, at 64 bits, or at any size.  All three
readers take a sign and digits; the widest one allows underscores between the
digits as well.  On a text without underscores they differ by nothing but their
bounds: a narrower reader gives the integer that the widest one gives, or
rejects the text because that integer is out of its bounds.
-/

namespace TokenCodec

namespace Numeral

/-! ## Plain and grouped digits -/

/-- Plain digits are grouped digits without underscores. -/
theorem digits?_eq_some_iff {chars : List Char} {magnitude : Nat} :
    digits? chars = some magnitude ↔ groupedDigits? chars = some magnitude ∧ '_' ∉ chars := by
  cases chars with
  | nil => simp [digits?, groupedDigits?]
  | cons first rest =>
      by_cases hunderscore : '_' ∈ first :: rest
      · have hnot : (first :: rest).all Char.isDigit = false := by
          apply List.all_eq_false.mpr
          exact ⟨'_', hunderscore, by decide⟩
        simp [digits?, hnot, hunderscore]
      · have hother : ∀ c ∈ rest, c ≠ '_' := by
          intro c hmem heq
          rw [heq] at hmem
          exact hunderscore (List.mem_cons_of_mem first hmem)
        have hfilter : rest.filter (· ≠ '_') = rest := by
          apply List.filter_eq_self.mpr
          simpa using hother
        have hdigits : rest.all (fun c => c.isDigit || c == '_') = rest.all Char.isDigit := by
          apply Bool.eq_iff_iff.mpr
          simp only [List.all_eq_true]
          apply forall₂_congr
          intro c hmem
          simp [hother c hmem]
        simp only [digits?, groupedDigits?, hdigits, hfilter, List.all_cons]
        simp [hunderscore]

/-- The sign in front is no underscore. -/
theorem mem_splitSign (chars : List Char) : '_' ∈ (splitSign chars).2 ↔ '_' ∈ chars := by
  unfold splitSign
  split <;> simp

/-- A plain integer is a grouped integer without underscores. -/
theorem integer?_eq_some_iff {text : String} {n : Int} :
    integer? text = some n ↔ groupedInteger? text = some n ∧ '_' ∉ text.toList := by
  have hsign := mem_splitSign text.toList
  simp only [integer?, groupedInteger?, Option.map_eq_some_iff, digits?_eq_some_iff, hsign]
  constructor
  · rintro ⟨magnitude, ⟨hdigits, hplain⟩, hn⟩
    exact ⟨⟨magnitude, hdigits, hn⟩, hplain⟩
  · rintro ⟨⟨magnitude, hdigits, hn⟩, hplain⟩
    exact ⟨magnitude, ⟨hdigits, hplain⟩, hn⟩

/-- The text of an integer has no underscores. -/
theorem underscore_notMem_integerText (n : Int) : '_' ∉ (integerText n).toList :=
  (integer?_eq_some_iff.mp (integer?_integerText n)).2

/-! ## Bounds -/

section Bounds

variable {low high n : Int} {text : String}

theorem boundedInteger?_eq_some_iff :
    boundedInteger? low high text = some n ↔ integer? text = some n ∧ low ≤ n ∧ n ≤ high := by
  simp [boundedInteger?, Option.filter_eq_some_iff]

/-- What is read between two bounds is read between wider ones. -/
theorem boundedInteger?_mono {lower higher : Int} (hlow : lower ≤ low) (hhigh : high ≤ higher)
    (hread : boundedInteger? low high text = some n) :
    boundedInteger? lower higher text = some n := by
  obtain ⟨hinteger, habove, hbelow⟩ := boundedInteger?_eq_some_iff.mp hread
  apply boundedInteger?_eq_some_iff.mpr
  exact ⟨hinteger, Int.le_trans hlow habove, Int.le_trans hbelow hhigh⟩

/-- A text without underscores is read between two bounds if its integer lies there. -/
theorem boundedInteger?_of_grouped (hread : groupedInteger? text = some n)
    (hplain : '_' ∉ text.toList) (low high : Int) :
    boundedInteger? low high text = if low ≤ n ∧ n ≤ high then some n else none := by
  have hinteger : integer? text = some n := integer?_eq_some_iff.mpr ⟨hread, hplain⟩
  simp [boundedInteger?, hinteger, Option.filter_some]

end Bounds

/-- The 32 bits hold the integer that was read. -/
theorem map_toInt_int32? (text : String) :
    (int32? text).map Int32.toInt = boundedInteger? (-2 ^ 31) (2 ^ 31 - 1) text := by
  simp only [int32?, Int32.toInt_minValue, Int32.toInt_maxValue]
  cases hread : boundedInteger? (-2 ^ 31) (2 ^ 31 - 1) text with
  | none => rfl
  | some n =>
      have hbounds := (boundedInteger?_eq_some_iff.mp hread).2
      apply congrArg some
      exact Int32.toInt_ofInt_of_le (by omega) (by omega)

/-- The 64 bits hold the integer that was read. -/
theorem map_toInt_int64? (text : String) :
    (int64? text).map Int64.toInt = boundedInteger? (-2 ^ 63) (2 ^ 63 - 1) text := by
  simp only [int64?, Int64.toInt_minValue, Int64.toInt_maxValue]
  cases hread : boundedInteger? (-2 ^ 63) (2 ^ 63 - 1) text with
  | none => rfl
  | some n =>
      have hbounds := (boundedInteger?_eq_some_iff.mp hread).2
      apply congrArg some
      exact Int64.toInt_ofInt_of_le (by omega) (by omega)

end Numeral

namespace Json

open Numeral

variable {α : Type}

namespace Scalar

/-- What a kind of scalar answers to a text that it read, or did not read. -/
def verdict (kind text : String) : Option α → Except Failure (List α)
  | some value => .ok [value]
  | none => .error (.here (.unexpected ("(" ++ kind ++ ")") text))

/-- A number token on its own is answered by its text. -/
theorem readAll_number (kind : String) (parse : String → Option α) (render : α → Token)
    (text : String) :
    (ofNumber kind parse render).codec.readAll [.number text] =
      verdict kind text (parse text) := by
  let scalar := ofNumber kind parse render
  let start := scalar.codec.reader.start
  cases hparse : parse text with
  | some value =>
      have hfeed : scalar.codec.reader.feed start (.number text) = (.produced value, start) := by
        simp [scalar, start, codec, scalarReader, ofNumber, Token.nesting, hparse]
      have hconsume := Reader.consume_cons_of_produced _ hfeed []
      apply (ReadCodec.readAll_of_consume hconsume rfl).trans
      split <;> rfl
  | none =>
      have hfeed : scalar.codec.reader.feed start (.number text) =
          (.failed (.here (.unexpected ("(" ++ kind ++ ")") text)), start) := by
        simp [scalar, start, codec, scalarReader, ofNumber, Token.nesting, hparse]
        rfl
      exact ReadCodec.readAll_of_error (Reader.consume_cons_of_failed _ hfeed [])

/-- The integers that a scalar reads from `tokens`. -/
def integers (scalar : Scalar α) (toInt : α → Int) (tokens : List Token) :
    Except Failure (List Int) :=
  (scalar.codec.readAll tokens).map (List.map toInt)

/-- The integers of 32 bits. -/
def readInteger : List Token → Except Failure (List Int) := integer.integers Int32.toInt

/-- The integers of 64 bits. -/
def readLong : List Token → Except Failure (List Int) := long.integers Int64.toInt

/-- The integers of any size. -/
def readBigInteger : List Token → Except Failure (List Int) := bigInteger.integers id

theorem integers_number (kind : String) (parse : String → Option α) (render : α → Token)
    (toInt : α → Int) (text : String) :
    (ofNumber kind parse render).integers toInt [.number text] =
      verdict kind text ((parse text).map toInt) := by
  unfold integers
  rw [readAll_number]
  cases parse text <;> rfl

theorem readInteger_number (text : String) :
    readInteger [.number text] =
      verdict "integer" text (boundedInteger? (-2 ^ 31) (2 ^ 31 - 1) text) := by
  rw [← map_toInt_int32?]
  apply integers_number

theorem readLong_number (text : String) :
    readLong [.number text] =
      verdict "long" text (boundedInteger? (-2 ^ 63) (2 ^ 63 - 1) text) := by
  rw [← map_toInt_int64?]
  apply integers_number

theorem readBigInteger_number (text : String) :
    readBigInteger [.number text] = verdict "big integer" text (groupedInteger? text) := by
  apply (integers_number "big integer" groupedInteger? _ id text).trans
  rw [Option.map_id_fun, id]

/-- A text is read as a value exactly if its parser gives it. -/
@[simp]
theorem verdict_eq_ok_iff {kind text : String} {found : Option α} {value : α} :
    verdict kind text found = .ok [value] ↔ found = some value := by
  cases found <;> simp [verdict]

/-- Without underscores the bounds alone decide. -/
theorem verdict_boundedInteger? {text : String} {n : Int} (hread : groupedInteger? text = some n)
    (hplain : '_' ∉ text.toList) (kind : String) (low high : Int) :
    verdict kind text (boundedInteger? low (high - 1) text) =
      if low ≤ n ∧ n < high then .ok [n]
      else .error (.here (.unexpected ("(" ++ kind ++ ")") text)) := by
  simp only [boundedInteger?_of_grouped hread hplain, Int.le_sub_one_iff]
  split <;> rfl

/-- With underscores, or where no integer is read at all, nothing is in bounds. -/
theorem boundedInteger?_eq_none {text : String}
    (hrejected : (∀ n, groupedInteger? text ≠ some n) ∨ '_' ∈ text.toList) (low high : Int) :
    boundedInteger? low high text = none := by
  apply Option.eq_none_iff_forall_ne_some.mpr
  intro n hread
  have hinteger := integer?_eq_some_iff.mp (boundedInteger?_eq_some_iff.mp hread).1
  cases hrejected with
  | inl hnone => exact hnone n hinteger.1
  | inr hunderscore => exact hinteger.2 hunderscore

/-- The three readers of integral numbers agree.  What a narrower one reads, the
wider ones read too.  A text without underscores that the widest one reads is read
by a narrower one exactly within its bounds, and is rejected by its own text
otherwise, as is every other text.  The integers that the widest one writes are
such texts. -/
theorem integer_widths_agree :
    (∀ text n,
      (readInteger [.number text] = .ok [n] → readLong [.number text] = .ok [n]) ∧
      (readLong [.number text] = .ok [n] → readBigInteger [.number text] = .ok [n]) ∧
      (readBigInteger [.number text] = .ok [n] → '_' ∉ text.toList →
        readLong [.number text] =
          (if -2 ^ 63 ≤ n ∧ n < 2 ^ 63 then .ok [n]
            else .error (.here (.unexpected "(long)" text))) ∧
        readInteger [.number text] =
          (if -2 ^ 31 ≤ n ∧ n < 2 ^ 31 then .ok [n]
            else .error (.here (.unexpected "(integer)" text))))) ∧
    (∀ text, (∀ n, readBigInteger [.number text] ≠ .ok [n]) ∨ '_' ∈ text.toList →
      readLong [.number text] = .error (.here (.unexpected "(long)" text)) ∧
      readInteger [.number text] = .error (.here (.unexpected "(integer)" text))) ∧
    ∀ n : Int, let written := bigInteger.codec.write n
      readBigInteger written = .ok [n] ∧
      readLong written =
        (if -2 ^ 63 ≤ n ∧ n < 2 ^ 63 then .ok [n]
          else .error (.here (.unexpected "(long)" (integerText n)))) ∧
      readInteger written =
        (if -2 ^ 31 ≤ n ∧ n < 2 ^ 31 then .ok [n]
          else .error (.here (.unexpected "(integer)" (integerText n)))) := by
  simp only [readInteger_number, readLong_number, readBigInteger_number, ne_eq,
    verdict_eq_ok_iff]
  refine ⟨?_, ?_, ?_⟩
  · intro text n
    refine ⟨?_, ?_, ?_⟩
    · exact boundedInteger?_mono (by decide) (by decide)
    · intro hlong
      exact (integer?_eq_some_iff.mp (boundedInteger?_eq_some_iff.mp hlong).1).1
    · intro hread hplain
      exact ⟨verdict_boundedInteger? hread hplain "long" _ _,
        verdict_boundedInteger? hread hplain "integer" _ _⟩
  · intro text hrejected
    rw [boundedInteger?_eq_none hrejected, boundedInteger?_eq_none hrejected]
    exact ⟨rfl, rfl⟩
  · intro n
    have hread := groupedInteger?_integerText n
    have hplain := underscore_notMem_integerText n
    have hwritten : bigInteger.codec.write n = [.number (integerText n)] := rfl
    simp only [hwritten, readInteger_number, readLong_number, readBigInteger_number,
      verdict_eq_ok_iff]
    exact ⟨hread, verdict_boundedInteger? hread hplain "long" _ _,
      verdict_boundedInteger? hread hplain "integer" _ _⟩

/-- One above the highest 64 bits, with a sign and leading zeros, and the lowest 32
bits. -/
theorem integer_widths_agree_at_bounds :
    readLong [.number "+0009223372036854775808"] =
      .error (.here (.unexpected "(long)" "+0009223372036854775808")) ∧
    readInteger [.number "-2147483648"] = .ok [-2147483648] ∧
    readLong [.number "-2147483648"] = .ok [-2147483648] ∧
    readLong [.number "1_0"] = .error (.here (.unexpected "(long)" "1_0")) := by
  obtain ⟨hagree, hrejected, -⟩ := integer_widths_agree
  have habove := (hagree "+0009223372036854775808" (2 ^ 63)).2.2
    (by rw [readBigInteger_number, verdict_eq_ok_iff]; decide +kernel) (by decide +kernel)
  have hlowest := (hagree "-2147483648" (-2 ^ 31)).2.2
    (by rw [readBigInteger_number, verdict_eq_ok_iff]; decide +kernel) (by decide +kernel)
  exact ⟨habove.1, hlowest.2, hlowest.1, (hrejected "1_0" (.inr (by decide +kernel))).1⟩

end Scalar

end Json

end TokenCodec
