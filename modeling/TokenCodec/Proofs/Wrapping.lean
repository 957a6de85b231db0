import TokenCodec.Proofs.Rendering
import TokenCodec.Proofs.Rest

/-!
# An array written at once and value by value

An array can be written as one list, or as a stream of elements that share it.
The list opens and closes everything around the array in one call; the stream
leaves the array and the objects around it open over many calls and closes them
at its end.  Whatever writes the elements, both give the same tokens: a closed
writer is at its start again, so each element is written the same way wherever
it stands.
-/

namespace TokenCodec

variable {τ α : Type}

/-- A writer that closing brings back to its start renders each value with the
tokens that it gives a fresh writer. -/
theorem Writer.Restores.renders {writer : Writer τ α} (hrestores : writer.Restores) :
    writer.Renders fun value => (writer.writeClosed writer.start value).1 := by
  obtain ⟨held, hwriter⟩ := hrestores
  exact ⟨fun value => Prod.ext rfl (hwriter.writeClosed hwriter.start value),
    Prod.ext hwriter.rests (hwriter.close hwriter.start)⟩

namespace WriteCodec

/-- Writing one value is writing a list of one value. -/
theorem write_eq_writeAll (codec : WriteCodec τ α) (value : α) :
    codec.write value = codec.writeAll [value] := by
  simp only [write, Writer.writeClosed, writeAll, Writer.writeShared, List.append_nil]

/-- A codec as the only member of an object, which may be the only member of an
object again.  There is an object for each name, the outermost for the first. -/
def within (codec : WriteCodec Json.Token α) : List String → WriteCodec Json.Token α
  | [] => codec
  | name :: names => (object (.one ((codec.within names).member name))).contramap (·, ())

end WriteCodec

namespace Json

/-- The tokens of a value in objects with a single member. -/
def withinTokens (tokens : List Token) : List String → List Token
  | [] => tokens
  | name :: names => .startObject :: .name name :: withinTokens tokens names ++ [.endObject]

/-- What values share inside of the objects, they share with the objects around it. -/
theorem shares_within {codec : WriteCodec Token α} {shared : List α → List Token}
    (hshares : codec.writer.Shares shared) (hbegins : codec.writer.Begins)
    (names : List String) :
    (codec.within names).writer.Shares (fun values => withinTokens (shared values) names) ∧
      (codec.within names).writer.Begins := by
  induction names with
  | nil => exact ⟨hshares, hbegins⟩
  | cons name names ih =>
      refine ⟨?_, fun _ => List.cons_ne_nil _ _⟩
      have hmember := shares_memberWriter ih.1 ih.2 name
      apply ((shares_objectWriter (hmember.contramap Prod.fst)).contramap (·, ())).congr
      intro values
      simp only [List.map_map, Function.comp_def, List.map_id', withinTokens, List.cons_append]

/-- An array of a renderable element writes the elements between its brackets, in any
number of calls, and the objects around it are opened and closed once. -/
theorem writeAll_array_within {codec : WriteCodec Token α} {tokens : α → List Token}
    (hrenders : codec.writer.Renders tokens) (names : List String) (value : α)
    (values : List α) :
    (codec.array.within names).writeAll (value :: values) =
      withinTokens (.startArray :: (value :: values).flatMap tokens ++ [.endArray]) names := by
  have harray : codec.array.writer.Shares fun values =>
      .startArray :: values.flatMap tokens ++ [.endArray] := shares_arrayWriter hrenders
  have hwithin := shares_within harray (begins_arrayWriter _) names
  exact WriteCodec.writeAll_cons hwithin.1 value values

/-- Values of a writable codec that are written one by one into an array, with objects
around it or without, give the tokens of the list of them written at once. -/
theorem write_collect_within {codec : WriteCodec Token α} (hwritable : Writable codec.writer)
    (names : List String) {values : List α} (hne : values ≠ []) :
    (codec.collect.array.within names).write values =
      (codec.array.within names).writeAll values := by
  have hrenders := hwritable.restores.renders
  obtain ⟨value, values, rfl⟩ := List.exists_cons_of_ne_nil hne
  have hcollect : codec.collect.writer.Renders fun values =>
      values.flatMap fun value => (codec.writer.writeClosed codec.writer.start value).1 :=
    hrenders.collect
  -- For the writer of the array the whole list is one element.
  have hlist := writeAll_array_within hcollect names (value :: values) []
  rw [WriteCodec.write_eq_writeAll, hlist, List.flatMap_singleton,
    writeAll_array_within hrenders]

/-- Flags of which some are left out, in an array two objects deep. -/
theorem write_collect_within_flags :
    ((Scalar.boolean.codec.optional.toWriteCodec.collect.array.within ["m", "n"]).write
        [some true, none, some false]) =
      (Scalar.boolean.codec.optional.toWriteCodec.array.within ["m", "n"]).writeAll
        [some true, none, some false] :=
  write_collect_within (.optional (.scalar .boolean)) ["m", "n"] (List.cons_ne_nil _ _)

/-- An object that is read and written has the writer of the object that is only
written. -/
example (codec : Codec Token α) (name outer : String) :
    (enclosed ((enclosed (codec.array.member name)).member outer)).writer =
      (codec.toWriteCodec.array.within [outer, name]).writer := rfl

/-- Without values nothing is opened one by one, but the empty list is an array. -/
example : (Scalar.boolean.codec.toWriteCodec.collect.array.within ["n"]).write [] =
      [.startObject, .name "n", .startArray, .endArray, .endObject] ∧
    (Scalar.boolean.codec.toWriteCodec.array.within ["n"]).writeAll [] = [] :=
  ⟨rfl, rfl⟩

end Json

end TokenCodec
