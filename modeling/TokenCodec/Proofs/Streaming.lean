import TokenCodec.Proofs.Elements
import TokenCodec.Proofs.RoundTrip

/-!
# Streams of values in one document

An array, and an object around a single member or around members of any name, take
any number of values into one document.  Their writer leaves the document open from
one value to the next, and their reader gives each value while the document is open
and nothing where it closes.  Wrapped in one another they still read back what was
written with one writer.
-/

namespace TokenCodec.Json

open Document

variable {α : Type}

/-- A layout of documents that hold any number of values. -/
inductive Streaming : Type → Type 1 where
  /-- The elements of an array. -/
  | elements {α : Type} (element : Layout α) (hsingle : Single element.codec.toReadCodec) :
      Streaming α
  /-- An array of documents. -/
  | array {α : Type} (inner : Streaming α) : Streaming α
  /-- An object with a document as its only member. -/
  | member {α : Type} (name : String) (inner : Streaming α) : Streaming α
  /-- The members of an object, with their names. -/
  | pairs {α : Type} (element : Layout α) : Streaming (String × α)

namespace Streaming

/-- The codec of the values. -/
def codec : {α : Type} → Streaming α → Codec Token α
  | _, .elements element _ => element.codec.array
  | _, .array inner => inner.codec.array
  | _, .member name inner => enclosed (inner.codec.member name)
  | _, .pairs element => enclosed element.codec.anyMember

/-- The document that holds some values.  Every element of an array is a document
of its own, and a lone member goes on from value to value. -/
def document : {α : Type} → Streaming α → List α → Document
  | _, .elements element _, values => .array (values.map element.document)
  | _, .array inner, values => .array (values.map fun value => inner.document [value])
  | _, .member name inner, values => .object [(name, inner.document values)]
  | _, .pairs element, values => .object (values.map fun pair => (pair.1, element.document pair.2))

/-! ## Writing -/

/-- The writer of a stream gives the values of a list one document, which the first
of them begins. -/
theorem shares : ∀ {α : Type} (stream : Streaming α),
    stream.codec.writer.Shares (fun values => (stream.document values).tokens) ∧
      stream.codec.writer.Begins
  | _, .elements element _ => by
      refine ⟨?_, begins_arrayWriter _⟩
      apply (shares_arrayWriter element.renders.1).congr
      intro values
      rw [document, tokens, elementTokens_map]
  | _, .array inner => by
      refine ⟨?_, begins_arrayWriter _⟩
      apply (shares_arrayWriter inner.shares.1.renders).congr
      intro values
      rw [document, tokens, elementTokens_map]
  | _, .member name inner => by
      refine ⟨?_, fun _ => List.cons_ne_nil _ _⟩
      have hmember := shares_memberWriter inner.shares.1 inner.shares.2 name
      apply (shares_enclosed (inner.codec.member name) hmember).congr
      intro values
      rw [document, tokens, memberTokens, memberTokens, List.append_nil]
  | _, .pairs element => by
      refine ⟨?_, fun _ => List.cons_ne_nil _ _⟩
      have hpairs := shares_anyMemberWriter element.renders.1
      apply (shares_enclosed element.codec.anyMember hpairs).congr
      intro values
      rw [document, tokens, memberTokens_map]

/-! ## Reading -/

theorem readable_enclosed {codec : Codec Token α} (hcodec : Readable codec.toReadCodec) :
    Readable (enclosed codec).toReadCodec := by
  apply Readable.map
  apply Readable.object _ (List.forall_mem_nil _)
  intro γ part hmem
  cases Parts.mem_one hmem
  exact hcodec

theorem readable : ∀ {α : Type} (stream : Streaming α), Readable stream.codec.toReadCodec
  | _, .elements element _ => .array element.readable
  | _, .array inner => .array inner.readable
  | _, .member name inner => readable_enclosed (.member name inner.readable)
  | _, .pairs element => readable_enclosed (.anyMember element.readable)

/-- A stream says nothing where it is reset, so that no array around it gives
anything at its closing bracket. -/
theorem mute : ∀ {α : Type} (stream : Streaming α), stream.codec.reader.Mute
  | _, .elements _ hsingle => mute_arrayReader hsingle.mute
  | _, .array inner => mute_arrayReader inner.mute
  | _, .member _ _ => (mute_objectReader _).map Prod.fst
  | _, .pairs _ => (mute_objectReader _).map Prod.fst

/-- The documents of the elements of an array give their values, and the closing
bracket adds none. -/
theorem consume_array {codec : ReadCodec Token α} (hresets : codec.reader.Resets)
    (hmute : codec.reader.Mute) {document : α → Document}
    (hreads : ∀ value, codec.reader.Follows (document value) (.value value)) (values : List α) :
    codec.array.reader.consume codec.array.reader.start
      (Document.array (values.map document)).tokens = .ok (values, codec.array.reader.start) := by
  have helements := consume_documents hreads values
  rw [← elementTokens_eq_flatMap] at helements
  have hclosing : codec.reader.reset codec.reader.start = (.pending, codec.reader.start) :=
    Prod.ext (hmute _) (hresets _)
  have hconclude := Reader.conclude_ok helements (Reader.release_of_pending _ hclosing)
  rw [List.append_nil] at hconclude
  exact consume_arrayReader_of_ok hconclude

/-- A lone part of an object gives its values as they come, and the closing brace
adds none. -/
theorem consume_enclosed {codec : Codec Token α} (hresets : codec.reader.Resets)
    {members : List (String × Document)} {values : List α} {next : codec.reader.State}
    (hmembers : codec.reader.consume codec.reader.start (memberTokens members) =
      .ok (values, next)) (hne : values ≠ []) :
    (enclosed codec).reader.consume (enclosed codec).reader.start (Document.object members).tokens =
      .ok (values, (enclosed codec).reader.start) := by
  have hpart : codec.part.reader.Resets := hresets
  have hconclude := Assembly.conclude_lone_of_values hpart hmembers hne
  have hobject := consume_objectReader (Assembly.lone codec.part) members
  rw [hconclude] at hobject
  have hlone := Reader.consume_map (objectReader (Assembly.lone codec.part)) Prod.fst
    (objectReader (Assembly.lone codec.part)).start (Document.object members).tokens
  rw [hobject] at hlone
  refine hlone.trans ?_
  simp only [Except.map, List.map_map, Function.comp_def, List.map_id']
  rfl

/-- The document of some values gives the values, whatever is open between them. -/
theorem reads : ∀ {α : Type} (stream : Streaming α) {values : List α}, values ≠ [] →
    stream.codec.reader.consume stream.codec.reader.start (stream.document values).tokens =
      .ok (values, stream.codec.reader.start)
  | _, .elements element hsingle, values, _ =>
      consume_array element.readable.resets.reader hsingle.mute element.follows values
  | _, .array inner, values, _ =>
      consume_array inner.readable.resets.reader inner.mute
        (fun value => inner.reads (List.cons_ne_nil value [])) values
  | _, .member name inner, values, hne => by
      have hfound : occurrences name [(name, inner.document values)] = [inner.document values] :=
        occurrences_cons_of_eq _ []
      have hmember := consume_memberReader name inner.codec.reader
        [(name, inner.document values)] inner.codec.reader.start false
      rw [hfound, List.flatMap_singleton, inner.reads hne] at hmember
      exact consume_enclosed (Readable.member name inner.readable).resets.reader hmember hne
  | _, .pairs element, values, hne =>
      consume_enclosed (Readable.anyMember element.readable).resets.reader
        (consume_pairs element.follows values) hne

/-- One reader gives back what one writer wrote into a common document, and nothing
for nothing. -/
theorem readAll_writeAll (stream : Streaming α) (values : List α) :
    stream.codec.toReadCodec.readAll (stream.codec.toWriteCodec.writeAll values) =
      .ok values := by
  cases values with
  | nil =>
      rw [WriteCodec.writeAll_nil stream.shares.1]
      rfl
  | cons value values =>
      have hreads := stream.reads (List.cons_ne_nil value values)
      have hclosed := (stream.document (value :: values)).nested_tokens.trackAll 0
      have hnothing : (stream.codec.reader.reset stream.codec.reader.start).1 = .pending :=
        stream.mute _
      rw [WriteCodec.writeAll_cons stream.shares.1,
        ReadCodec.readAll_of_consume hreads hclosed, hnothing]
      simp [Outcome.value?]

example :
    let stream : Streaming (String × Bool) := .member "flags" (.array (.pairs (.plain .boolean)))
    stream.codec.toWriteCodec.writeAll [("a", true), ("b", false)] =
      (Document.object [("flags", .array [.object [("a", .bool true)],
        .object [("b", .bool false)]])]).tokens := rfl

end Streaming

end TokenCodec.Json
