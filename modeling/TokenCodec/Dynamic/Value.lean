import TokenCodec.Calendar.Rfc3339
import TokenCodec.Entries
import TokenCodec.Numeral.Shortest
import TokenCodec.Xml.Token

/-!
# Values of codecs that are described by data

A codec that is built from a description at run time has values of one type,
whatever the description says.
-/

namespace TokenCodec.Dynamic

open Calendar Numeral

inductive Datum where
  | string (text : String)
  | integer (n : Int32)
  | long (n : Int64)
  | bigInteger (n : Int)
  | double (x : Double)
  | boolean (b : Bool)
  | timestamp (time : Timestamp)
  | name (value : Xml.Name)
  deriving Inhabited

namespace Datum

/-- Two data of one kind are the same if their values are equal: floating point
numbers by value, timestamps by instant. -/
def same : Datum → Datum → Bool
  | string a, string b => a == b
  | integer a, integer b => a == b
  | long a, long b => a == b
  | bigInteger a, bigInteger b => a == b
  | double a, double b => a == b
  | boolean a, boolean b => a == b
  | timestamp a, timestamp b => a == b
  | name a, name b => a == b
  | _, _ => false

instance : BEq Datum := ⟨same⟩

def shownText : Datum → String
  | string text => text
  | integer n => integerText n.toInt
  | long n => integerText n.toInt
  | bigInteger n => integerText n
  | double x => Shown.text x
  | boolean b => Shown.text b
  | timestamp time => Shown.text time
  | name other => other.shownText

instance : Shown Datum := ⟨shownText⟩

end Datum

/-- A value of a described codec. -/
inductive Value where
  | datum (value : Datum)
  /-- An optional value that is not there. -/
  | absent
  /-- An optional value that is there. -/
  | present (value : Value)
  /-- A list, a pair or the parts of a composition; without members, the trivial
  value. -/
  | list (values : List Value)
  /-- The pairs of a map in insertion order. -/
  | entries (pairs : List (Datum × Value))
  /-- A value under a label. -/
  | labelled (label : String) (value : Value)

namespace Value

instance : Inhabited Value := ⟨list []⟩

mutual

/-- Two values of one shape are the same if their data are. -/
def same : Value → Value → Bool
  | datum a, datum b => a == b
  | absent, absent => true
  | present a, present b => same a b
  | list first, list second => sameList first second
  | entries first, entries second => sameEntries first second
  | labelled label a, labelled other b => label == other && same a b
  | _, _ => false

def sameList : List Value → List Value → Bool
  | [], [] => true
  | a :: first, b :: second => same a b && sameList first second
  | _, _ => false

def sameEntries : List (Datum × Value) → List (Datum × Value) → Bool
  | [], [] => true
  | (key, a) :: first, (other, b) :: second =>
      key == other && same a b && sameEntries first second
  | _, _ => false

end

instance : BEq Value := ⟨same⟩

/-- The text that messages show for a value.  Only data have one, and what is under a
label. -/
def shownText : Value → String
  | datum held => Shown.text held
  | labelled label value => label ++ ": " ++ shownText value
  | _ => ""

instance : Shown Value := ⟨shownText⟩

def unit : Value := list []

def toDatum : Value → Datum
  | datum held => held
  | _ => default

def toText : Value → String
  | datum (.string text) => text
  | _ => ""

def toList : Value → List Value
  | list values => values
  | _ => []

def toOption : Value → Option Value
  | present value => some value
  | _ => none

def ofOption : Option Value → Value
  | some value => present value
  | none => absent

def toEntries : Value → Entries Datum Value
  | entries pairs => .ofList pairs
  | _ => .empty

def ofEntries (map : Entries Datum Value) : Value := entries map.toList

/-- A pair of key and value, as the parts of a composition. -/
def toPair : Value → Datum × Value
  | list [key, value] => (key.toDatum, value)
  | _ => default

/-- A value from a pair of key and value. -/
def ofPair (pair : Datum × Value) : Value := list [datum pair.1, pair.2]

def ofText (text : String) : Value := datum (.string text)

end Value

end TokenCodec.Dynamic
