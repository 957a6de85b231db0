import TokenCodec.Codec.Matching
import TokenCodec.Dynamic.Value

/-!
# Codecs described by data

A schema describes a codec by a tree that can be built at run time.  The leaves,
the wrappers around one codec and the frames around several parts belong to a
format, and a dialect interprets them; everything else is common to all
formats.
-/

namespace TokenCodec.Dynamic

/-- The half of a codec that a composition offers. -/
inductive Access where
  | readWrite
  | readOnly
  | writeOnly
  deriving DecidableEq, Repr

/-- How a fold combines the values it sees, with its initial value. -/
inductive Folding where
  /-- The sum of integers. -/
  | sum (initial : Int64)
  /-- The result times 31, plus the next integer. -/
  | horner (initial : Int64)
  /-- The number of values. -/
  | count (initial : Int64)
  /-- The texts, each with a semicolon behind it. -/
  | concat (initial : String)

/-- The integer in a value, in 64 bits. -/
def Value.toInt64 : Value → Int64
  | .datum (.integer n) => n.toInt64
  | .datum (.long n) => n
  | .datum (.bigInteger n) => Int64.ofInt n
  | _ => 0

/-- The integer of 32 bits in a value. -/
def Value.toInt32 : Value → Int32
  | .datum (.integer n) => n
  | _ => 0

namespace Folding

def initial : Folding → Value
  | sum initial => .datum (.long initial)
  | horner initial => .datum (.long initial)
  | count initial => .datum (.long initial)
  | concat initial => .ofText initial

def combine : Folding → Value → Value → Value
  | sum _, result, value => .datum (.long (result.toInt64 + value.toInt64))
  | horner _, result, value => .datum (.long (result.toInt64 * 31 + value.toInt64))
  | count _, result, _ => .datum (.long (result.toInt64 + 1))
  | concat _, result, value => .ofText (result.toText ++ value.toText ++ ";")

end Folding

inductive Conversion where
  /-- Put a label on a value when it is read, and take it off when it is
  written. -/
  | label (text : String)
  /-- Add one to an integer when it is read, and subtract one when it is
  written. -/
  | increment

namespace Conversion

def onRead : Conversion → Value → Value
  | label text, value => .labelled text value
  | increment, value => .datum (.integer (value.toInt32 + 1))

def onWrite : Conversion → Value → Value
  | label _, .labelled _ value => value
  | label _, value => value
  | increment, value => .datum (.integer (value.toInt32 - 1))

end Conversion

/-- A description of a codec. -/
inductive Schema (leaf wrapper frame : Type) where
  | leaf (kind : leaf)
  | wrap (kind : wrapper) (inner : Schema leaf wrapper frame)
  /-- Several parts in a frame; the value is the list of their values. -/
  | compose (kind : frame) (access : Access) (parts : List (Schema leaf wrapper frame))
      (conditions : List (Schema leaf wrapper frame × Value))
  /-- One part in a frame, with the value of that part. -/
  | single (kind : frame) (inner : Schema leaf wrapper frame)
      (conditions : List (Schema leaf wrapper frame × Value))
  | collect (inner : Schema leaf wrapper frame)
  | optional (inner : Schema leaf wrapper frame)
  | entries (inner : Schema leaf wrapper frame)
  | fold (folding : Folding) (inner : Schema leaf wrapper frame)
  | convert (conversion : Conversion) (inner : Schema leaf wrapper frame)
  /-- Texts that match an expression: the text itself, or the list of all
  captured texts. -/
  | matching (expression : Regex.Expression) (captures : Bool)
      (inner : Schema leaf wrapper frame)
  | fixed (value : Value) (inner : Schema leaf wrapper frame)
  | oneOf (alternatives : List (Schema leaf wrapper frame)) (limit : Option Nat)

/-- The halves of a described codec, as far as the description has them. -/
structure Halves (τ : Type) where
  read? : Option (ReadCodec τ Value)
  write? : Option (WriteCodec τ Value)

namespace Halves

variable {τ : Type}

/-- Build each half from the same half of another codec. -/
def lift (halves : Halves τ) (read : ReadCodec τ Value → ReadCodec τ Value)
    (write : WriteCodec τ Value → WriteCodec τ Value) : Halves τ :=
  ⟨halves.read?.map read, halves.write?.map write⟩

/-- Both halves of a codec, its values converted. -/
def ofCodec {α : Type} (codec : Codec τ α) (f : α → Value) (g : Value → α) : Halves τ :=
  ⟨some (codec.toReadCodec.map f), some (codec.toWriteCodec.contramap g)⟩

/-- The description, taken from the reading half if there is one. -/
def description (halves : Halves τ) : String :=
  match halves.read?, halves.write? with
  | some codec, _ => codec.description
  | none, some codec => codec.description
  | none, none => ""

/-- The condition that binds a codec to a value, if the codec has both
halves. -/
def condition? (halves : Halves τ) (value : Value) : Option (Condition τ) :=
  match halves.read?, halves.write? with
  | some read, some write => some (Codec.ofHalves (read.fixed value) (write.fixed value))
  | _, _ => none

end Halves

/-- A composition of parts found at run time, with the conversion of its value
to a list and back. -/
structure Composition (P : Type → Type 1) where
  {β : Type}
  parts : Parts P β
  toValues : β → List Value
  ofValues : List Value → β

def Composition.ofList {P : Type → Type 1} : List (P Value) → Composition P
  | [] => ⟨.nil, fun _ => [], fun _ => ()⟩
  | part :: rest =>
      let ⟨parts, toValues, ofValues⟩ := ofList rest
      ⟨.cons part parts, fun value => value.1 :: toValues value.2,
        fun values => (values.headD default, ofValues values.tail)⟩

/-- The meaning of the leaves, wrappers and frames of a format. -/
structure Dialect (τ leaf wrapper frame : Type) where
  leaf : leaf → Halves τ
  wrap : wrapper → Halves τ → Halves τ
  read : frame → {β : Type} → Parts (ReadCodec τ) β → List (Condition τ) → ReadCodec τ β
  /-- The writing codec of a frame, if it can be written. -/
  write : frame → {β : Type} → Parts (WriteCodec τ) β → List (Condition τ) →
    Option (WriteCodec τ β)

namespace Dialect

variable {τ leaf wrapper frame : Type}

def readFrame (dialect : Dialect τ leaf wrapper frame) (kind : frame)
    (parts : List (ReadCodec τ Value)) (conditions : List (Condition τ)) :
    ReadCodec τ (List Value) :=
  let composition := Composition.ofList parts
  (dialect.read kind composition.parts conditions).map composition.toValues

/-- The writing codec of parts in a frame, if it can be written. -/
def writeFrame (dialect : Dialect τ leaf wrapper frame) (kind : frame)
    (parts : List (WriteCodec τ Value)) (conditions : List (Condition τ)) :
    Option (WriteCodec τ (List Value)) :=
  let composition := Composition.ofList parts
  (dialect.write kind composition.parts conditions).map (·.contramap composition.ofValues)

def compose (dialect : Dialect τ leaf wrapper frame) (kind : frame) (access : Access)
    (parts : List (Halves τ)) (conditions : List (Condition τ)) : Halves τ where
  read? :=
    if access = .writeOnly then none
    else (parts.mapM Halves.read?).map fun parts =>
      (dialect.readFrame kind parts conditions).map Value.list
  write? :=
    if access = .readOnly then none
    else (parts.mapM Halves.write?).bind fun parts =>
      (dialect.writeFrame kind parts conditions).map (·.contramap Value.toList)

def single (dialect : Dialect τ leaf wrapper frame) (kind : frame) (part : Halves τ)
    (conditions : List (Condition τ)) : Halves τ where
  read? := part.read?.map fun part =>
    (dialect.readFrame kind [part] conditions).map fun values => values.headD default
  write? := part.write?.bind fun part =>
    (dialect.writeFrame kind [part] conditions).map (·.contramap fun value => [value])

end Dialect

/-- The value of a match: the text itself, or the list of captured texts. -/
def capturedValue (captures : Bool) (texts : Captures) : Value :=
  let texts := texts.map fun text? => text?.map Value.ofText
  if captures then .list (texts.map Value.ofOption)
  else (texts.headD none).getD (.ofText "")

/-- The text that a matched value is written as. -/
def renderedText (captures : Bool) (value : Value) : String :=
  if captures then ((value.toList.headD .absent).toOption.getD (.ofText "")).toText
  else value.toText

namespace Schema

variable {τ leaf wrapper frame : Type} [Alphabet τ]

mutual

/-- The codec that a schema describes. -/
def halves (dialect : Dialect τ leaf wrapper frame) : Schema leaf wrapper frame → Halves τ
  | .leaf kind => dialect.leaf kind
  | .wrap kind inner => dialect.wrap kind (inner.halves dialect)
  | .compose kind access parts conditions =>
      dialect.compose kind access (halvesList dialect parts)
        (conditionList dialect conditions)
  | .single kind inner conditions =>
      dialect.single kind (inner.halves dialect) (conditionList dialect conditions)
  | .collect inner =>
      (inner.halves dialect).lift (fun codec => codec.collect.map Value.list)
        (fun codec => codec.collect.contramap Value.toList)
  | .optional inner =>
      (inner.halves dialect).lift (fun codec => codec.optional.map Value.ofOption)
        (fun codec => codec.optional.contramap Value.toOption)
  | .entries inner =>
      (inner.halves dialect).lift
        (fun codec => (codec.map Value.toPair).entries.map Value.ofEntries)
        (fun codec => (codec.contramap Value.ofPair).entries.contramap Value.toEntries)
  | .fold folding inner =>
      ⟨(inner.halves dialect).read?.map fun codec =>
        codec.fold folding.initial folding.combine, none⟩
  | .convert conversion inner =>
      (inner.halves dialect).lift (fun codec => codec.map conversion.onRead)
        (fun codec => codec.contramap conversion.onWrite)
  | .matching expression captures inner =>
      (inner.halves dialect).lift
        (fun codec => (codec.map Value.toText).matching expression (capturedValue captures))
        (fun codec => (codec.contramap Value.ofText).matching expression
          (renderedText captures))
  | .fixed value inner =>
      (inner.halves dialect).lift
        (fun codec => (codec.fixed value).map fun () => .unit)
        (fun codec => (codec.fixed value).contramap fun _ => ())
  | .oneOf alternatives limit =>
      ⟨((halvesList dialect alternatives).mapM Halves.read?).map fun codecs =>
        .oneOf codecs limit, none⟩

def halvesList (dialect : Dialect τ leaf wrapper frame) :
    List (Schema leaf wrapper frame) → List (Halves τ)
  | [] => []
  | schema :: rest => schema.halves dialect :: halvesList dialect rest

def conditionList (dialect : Dialect τ leaf wrapper frame) :
    List (Schema leaf wrapper frame × Value) → List (Condition τ)
  | [] => []
  | (schema, value) :: rest =>
      ((schema.halves dialect).condition? value).toList ++ conditionList dialect rest

end

end Schema

end TokenCodec.Dynamic
