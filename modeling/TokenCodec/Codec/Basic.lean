import TokenCodec.Reader.Choice
import TokenCodec.Reader.Fixed
import TokenCodec.Reader.Gather
import TokenCodec.Reader.Parts
import TokenCodec.Writer.Parts

/-!
# Codecs

A codec is the immutable description of how one kind of value looks as a run of
tokens.  A reading codec has a reader, a writing codec has a writer, and a
codec has both; each of them has a description, which failures quote.  The
combinators of this file work over any alphabet of tokens: they only see what
the combinator around them hands over.
-/

namespace TokenCodec

variable {τ α β κ : Type}

/-- A codec for reading.  The discriminator reads one whole structural unit and
succeeds only if the conditions of the codec hold in it; a codec without
conditions has none. -/
structure ReadCodec (τ α : Type) where
  description : String
  reader : Reader τ α
  discriminator : Option (Reader τ Unit) := none

structure WriteCodec (τ α : Type) where
  description : String
  writer : Writer τ α

structure Codec (τ α : Type) extends ReadCodec τ α, WriteCodec τ α

namespace ReadCodec

def map (codec : ReadCodec τ α) (f : α → β) : ReadCodec τ β :=
  ⟨codec.description, codec.reader.map f, codec.discriminator⟩

/-- All values in the order of their tokens; no value gives the empty list. -/
def collect (codec : ReadCodec τ α) : ReadCodec τ (List α) where
  description := "vector(" ++ codec.description ++ ")"
  reader := codec.reader.collect

/-- All pairs as a map in insertion order. -/
def entries [BEq κ] (codec : ReadCodec τ (κ × α)) : ReadCodec τ (Entries κ α) where
  description := "map(" ++ codec.description ++ ")"
  reader := codec.reader.entries

def fold (codec : ReadCodec τ α) (initial : β) (combine : β → α → β) : ReadCodec τ β where
  description := "fold(" ++ codec.description ++ ")"
  reader := codec.reader.fold initial combine

def optional (codec : ReadCodec τ α) : ReadCodec τ (Option α) where
  description := codec.description ++ "?"
  reader := codec.reader.optional

def fixed [BEq α] [Shown α] (codec : ReadCodec τ α) (value : α) : ReadCodec τ Unit where
  description := codec.description ++ "=" ++ Shown.text value
  reader := codec.reader.fixed value (codec.description ++ "=" ++ Shown.text value)

def alternative (codec : ReadCodec τ α) : Alternative τ α :=
  ⟨codec.description, codec.reader, codec.discriminator⟩

/-- Each structural unit with the first alternative whose conditions hold. -/
def oneOf [Alphabet τ] (codecs : List (ReadCodec τ α)) (limit : Option Nat := none) :
    ReadCodec τ α where
  description := "any of (" ++ String.intercalate " | " (codecs.map description) ++ ")"
  reader := Reader.choose (codecs.map alternative) limit

def part (codec : ReadCodec τ α) : PartReader τ α := ⟨codec.description, codec.reader⟩

end ReadCodec

namespace WriteCodec

def contramap (codec : WriteCodec τ α) (f : β → α) : WriteCodec τ β :=
  ⟨codec.description, codec.writer.contramap f⟩

def collect (codec : WriteCodec τ α) : WriteCodec τ (List α) where
  description := "vector(" ++ codec.description ++ ")"
  writer := codec.writer.collect

def entries [BEq κ] (codec : WriteCodec τ (κ × α)) : WriteCodec τ (Entries κ α) where
  description := "map(" ++ codec.description ++ ")"
  writer := codec.writer.collect.contramap Entries.toList

def optional (codec : WriteCodec τ α) : WriteCodec τ (Option α) where
  description := codec.description ++ "?"
  writer := codec.writer.optional

def fixed [Shown α] (codec : WriteCodec τ α) (value : α) : WriteCodec τ Unit where
  description := codec.description ++ "=" ++ Shown.text value
  writer := codec.writer.fixed value

/-- Write one value and close all structure. -/
def write (codec : WriteCodec τ α) (value : α) : List τ :=
  (codec.writer.writeClosed codec.writer.start value).1

end WriteCodec

namespace Codec

/-- Pair a reading and a writing codec under the description of the first. -/
def ofHalves (reading : ReadCodec τ α) (writing : WriteCodec τ α) : Codec τ α :=
  { reading with writer := writing.writer }

def imap (codec : Codec τ α) (f : α → β) (g : β → α) : Codec τ β :=
  ofHalves (codec.toReadCodec.map f) (codec.toWriteCodec.contramap g)

def collect (codec : Codec τ α) : Codec τ (List α) :=
  ofHalves codec.toReadCodec.collect codec.toWriteCodec.collect

def entries [BEq κ] (codec : Codec τ (κ × α)) : Codec τ (Entries κ α) :=
  ofHalves codec.toReadCodec.entries codec.toWriteCodec.entries

def optional (codec : Codec τ α) : Codec τ (Option α) :=
  ofHalves codec.toReadCodec.optional codec.toWriteCodec.optional

/-- A fixed value: reading succeeds on that value alone, and writing always
gives it. -/
def fixed [BEq α] [Shown α] (codec : Codec τ α) (value : α) : Codec τ Unit :=
  ofHalves (codec.toReadCodec.fixed value) (codec.toWriteCodec.fixed value)

end Codec

/-- A condition of an object or an element: a codec bound to a fixed value. -/
abbrev Condition (τ : Type) := Codec τ Unit

namespace Condition

def readers (conditions : List (Condition τ)) : List (Reader τ Unit) :=
  conditions.map (·.reader)

/-- The tokens of every condition, each written by itself. -/
def written (conditions : List (Condition τ)) : List τ :=
  conditions.flatMap fun condition => condition.toWriteCodec.write ()

end Condition

/-- The description of a composition: its parts and then its conditions, in
braces. -/
def describeParts (parts : List String) (conditions : List (Condition τ)) : String :=
  "\x7b " ++ String.intercalate ", " (parts ++ conditions.map (·.description)) ++ " \x7d"

end TokenCodec
