/-!
# Integers as text

A plain integer is an optional sign and one or more ASCII digits.  A grouped
integer may also hold underscores, anywhere after its first digit.  Integers
are written with a minus sign if negative and without leading zeros.
-/

namespace TokenCodec.Numeral

/-- Take one sign off the front; the first component tells whether it is a
minus. -/
def splitSign : List Char → Bool × List Char
  | '-' :: rest => (true, rest)
  | '+' :: rest => (false, rest)
  | rest => (false, rest)

/-- The magnitude with its sign. -/
def signed (negative : Bool) (magnitude : Nat) : Int :=
  if negative then -Int.ofNat magnitude else Int.ofNat magnitude

/-- The value of one or more ASCII digits. -/
def digits? (chars : List Char) : Option Nat :=
  if chars.isEmpty || !chars.all Char.isDigit then none
  else some (Nat.ofDigitChars 10 chars 0)

/-- The value of a digit followed by digits and underscores. -/
def groupedDigits? : List Char → Option Nat
  | [] => none
  | first :: rest =>
      if first.isDigit && rest.all (fun c => c.isDigit || c == '_') then
        some (Nat.ofDigitChars 10 (first :: rest.filter (· ≠ '_')) 0)
      else none

/-- Read an unsigned integer: digits, with a plus sign allowed in front. -/
def natural? (text : String) : Option Nat :=
  match text.toList with
  | '+' :: rest => digits? rest
  | chars => digits? chars

def integer? (text : String) : Option Int :=
  let (negative, chars) := splitSign text.toList
  (digits? chars).map (signed negative)

def groupedInteger? (text : String) : Option Int :=
  let (negative, chars) := splitSign text.toList
  (groupedDigits? chars).map (signed negative)

/-- Read a plain integer between two bounds, both allowed. -/
def boundedInteger? (low high : Int) (text : String) : Option Int :=
  (integer? text).filter fun n => low ≤ n && n ≤ high

def int32? (text : String) : Option Int32 :=
  (boundedInteger? Int32.minValue.toInt Int32.maxValue.toInt text).map Int32.ofInt

def int64? (text : String) : Option Int64 :=
  (boundedInteger? Int64.minValue.toInt Int64.maxValue.toInt text).map Int64.ofInt

/-- The characters of an integer in decimal notation. -/
def integerChars : Int → List Char
  | .ofNat magnitude => Nat.toDigits 10 magnitude
  | .negSucc below => '-' :: Nat.toDigits 10 (below + 1)

/-- Write an integer in decimal notation. -/
def integerText (n : Int) : String := String.ofList (integerChars n)

theorem isDigit_toDigits (magnitude : Nat) : ∀ c ∈ Nat.toDigits 10 magnitude, c.isDigit = true :=
  fun _ hmem => Nat.isDigit_of_mem_toDigits (by decide) (by decide) hmem

theorem digits?_toDigits (magnitude : Nat) :
    digits? (Nat.toDigits 10 magnitude) = some magnitude := by
  have hdigits := List.all_eq_true.mpr (isDigit_toDigits magnitude)
  simp [digits?, hdigits, Nat.toDigits_ne_nil, Nat.ofDigitChars_ten_toDigits]

theorem splitSign_of_digits {chars : List Char} (hdigits : ∀ c ∈ chars, c.isDigit = true) :
    splitSign chars = (false, chars) := by
  cases chars with
  | nil => rfl
  | cons first rest =>
      have hfirst := hdigits first List.mem_cons_self
      unfold splitSign
      split
      · simp_all [Char.isDigit]
      · simp_all [Char.isDigit]
      · rfl

/-- The sign of a written integer is in front of its digits. -/
theorem splitSign_integerChars (n : Int) :
    splitSign (integerChars n) = (decide (n < 0), Nat.toDigits 10 n.natAbs) := by
  cases n with
  | ofNat magnitude =>
      rw [integerChars, splitSign_of_digits (isDigit_toDigits magnitude)]
      simp
  | negSucc below => simp [integerChars, splitSign]

theorem signed_natAbs (n : Int) : signed (decide (n < 0)) n.natAbs = n := by
  by_cases hneg : n < 0
  · simp only [signed, hneg, decide_true, if_true, Int.ofNat_eq_natCast]
    omega
  · simp only [signed, hneg, decide_false, Bool.false_eq_true, if_false,
      Int.ofNat_eq_natCast]
    omega

/-- Every integer is read back from its text. -/
theorem integer?_integerText (n : Int) : integer? (integerText n) = some n := by
  rw [integer?, integerText, String.toList_ofList, splitSign_integerChars]
  simp [digits?_toDigits, signed_natAbs]

theorem groupedDigits?_toDigits (magnitude : Nat) :
    groupedDigits? (Nat.toDigits 10 magnitude) = some magnitude := by
  have hdigits := isDigit_toDigits magnitude
  have hvalue := Nat.ofDigitChars_ten_toDigits (n := magnitude)
  cases hchars : Nat.toDigits 10 magnitude with
  | nil => exact absurd hchars Nat.toDigits_ne_nil
  | cons first rest =>
      rw [hchars] at hdigits hvalue
      have hrest : ∀ c ∈ rest, c.isDigit = true :=
        fun c hmem => hdigits c (List.mem_cons_of_mem first hmem)
      have hfilter : rest.filter (· ≠ '_') = rest := by
        apply List.filter_eq_self.mpr
        intro c hmem
        have hc := hrest c hmem
        by_cases h : c = '_'
        · subst h
          cases hc
        · simp [h]
      rw [groupedDigits?, hfilter, hvalue, if_pos]
      simp only [Bool.and_eq_true, List.all_eq_true, Bool.or_eq_true]
      exact ⟨hdigits first List.mem_cons_self, fun c hmem => .inl (hrest c hmem)⟩

theorem groupedInteger?_integerText (n : Int) : groupedInteger? (integerText n) = some n := by
  rw [groupedInteger?, integerText, String.toList_ofList, splitSign_integerChars]
  simp [groupedDigits?_toDigits, signed_natAbs]

theorem boundedInteger?_integerText {low high n : Int} (hlow : low ≤ n) (hhigh : n ≤ high) :
    boundedInteger? low high (integerText n) = some n := by
  simp [boundedInteger?, integer?_integerText, hlow, hhigh]

theorem int32?_integerText (n : Int32) : int32? (integerText n.toInt) = some n := by
  rw [int32?, boundedInteger?_integerText n.minValue_le_toInt n.toInt_le]
  simp

theorem int64?_integerText (n : Int64) : int64? (integerText n.toInt) = some n := by
  rw [int64?, boundedInteger?_integerText n.minValue_le_toInt n.toInt_le]
  simp
end TokenCodec.Numeral
