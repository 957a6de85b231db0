import Mathlib.Data.List.Nodup
import TokenCodec.Proofs.Discriminators
import TokenCodec.Proofs.Recovery
import TokenCodec.Proofs.RoundTrip

/-!
# Reading back variants

The variants of a value are objects that bind a common member, the tag, to values
of their own.  What a variant writes meets its own condition and that of no other
variant, wherever the tag stands among the members.  The alternation of all
variants therefore reads a stream written by any of them in any order.
-/

namespace TokenCodec

variable {τ α β κ : Type}

namespace Reader

variable {reader : Reader τ α} {unit : List τ}

theorem replay_fst_of_ok {state next : reader.State} {values : List α}
    (hconsume : reader.consume state unit = .ok (values, next)) (last : Outcome α) :
    (reader.replay state last unit).1 = (values.getLast?.map .produced).getD last := by
  replace hconsume := passes_of_consume hconsume
  induction hconsume generalizing last with
  | done state => rfl
  | produced hfeed _ ih =>
      rw [replay, hfeed, List.getLast?_cons]
      refine (ih _).trans ?_
      cases List.getLast? _ <;> rfl
  | pending hfeed _ ih =>
      rw [replay, hfeed]
      exact ih _

/-- The verdict on a unit that gives one value is that value. -/
theorem verdict_of_consume {value : α} {next : reader.State}
    (hconsume : reader.consume reader.start unit = .ok ([value], next)) :
    reader.verdict unit = .produced value :=
  (replay_fst reader.start .pending unit).symm.trans (replay_fst_of_ok hconsume .pending)

end Reader

namespace Json

open Document

variable [BEq κ] [LawfulBEq κ] [Shown κ]

/-- The condition that binds the tag to a value. -/
def mark (tag : String) (kind : Plain κ) (value : κ) : FixedMember where
  name := tag
  kind := kind
  value := value

/-- A variant of a type: an object layout that binds the tag to a value, and the
conversions between the type and the members of the variant. -/
structure Variant (tag : String) (kind : Plain κ) (α : Type) where
  {names : List String}
  {β : Type}
  fields : Fields names β
  conditions : List FixedMember
  hdistinct : (names ++ conditions.map FixedMember.name).Nodup
  value : κ
  hmark : mark tag kind value ∈ conditions
  produce : β → α
  extract : α → β

namespace Variant

variable {tag : String} {kind : Plain κ}

/-- The layout of the members of a variant. -/
def layout (variant : Variant tag kind α) : Layout variant.β :=
  .object variant.fields variant.conditions variant.hdistinct

/-- The codec of a variant. -/
def codec (variant : Variant tag kind α) : Codec Token α :=
  variant.layout.codec.imap variant.produce variant.extract

/-- The members that a variant writes for a value. -/
def members (variant : Variant tag kind α) (value : α) : List (String × Document) :=
  variant.fields.members (variant.extract value) ++ variant.conditions.map FixedMember.member

theorem write_eq (variant : Variant tag kind α) (value : α) :
    variant.codec.toWriteCodec.write value = (Document.object (variant.members value)).tokens :=
  congrArg Prod.fst ((variant.layout.renders.1.contramap variant.extract).emits value)

theorem objectCodec (variant : Variant tag kind α) : ObjectCodec variant.codec.toReadCodec :=
  .map (.object variant.fields.readable readable_conditions) variant.produce

theorem conditions_ne_nil (variant : Variant tag kind α) : variant.conditions ≠ [] :=
  List.ne_nil_of_mem variant.hmark

theorem discriminator_codec (variant : Variant tag kind α) :
    variant.codec.discriminator = some (discriminating variant.conditions) :=
  discriminator_object variant.fields.readCodecs variant.conditions_ne_nil

theorem takes_iff (variant : Variant tag kind α) (members : List (String × Document)) :
    variant.codec.toReadCodec.alternative.takes (Document.object members).tokens = true ↔
      ∀ fixed ∈ variant.conditions, fixed.MetBy members := by
  change Option.all _ variant.codec.discriminator = true ↔ _
  rw [discriminator_codec, Option.all_some]
  exact admits_discriminating_iff members variant.conditions_ne_nil

/-- A variant takes what it writes. -/
theorem takes_members (variant : Variant tag kind α) (value : α) :
    variant.codec.toReadCodec.alternative.takes
      (Document.object (variant.members value)).tokens = true := by
  rw [takes_iff, ← holdsOf_readers_iff]
  exact holdsOf_conditions variant.hdistinct (variant.extract value)

/-- A variant takes what another variant writes only if both have the same value
at the tag. -/
theorem value_eq_of_takes {variant other : Variant tag kind α} {value : α}
    (htakes : other.codec.toReadCodec.alternative.takes
      (Document.object (variant.members value)).tokens = true) : other.value = variant.value := by
  have hmet := (other.takes_iff _).mp htakes _ other.hmark
  obtain ⟨given, hgiven, hdecode⟩ : ∃ given ∈ occurrences tag (variant.members value),
    kind.scalar.decode given = .value other.value := hmet.given
  have htag : occurrences tag (variant.members value) = [kind.document variant.value] := by
    apply occurrences_of_mem (nodup_members variant.hdistinct (variant.extract value))
    exact List.mem_append_right _ (List.mem_map_of_mem (f := FixedMember.member) variant.hmark)
  rw [htag] at hgiven
  rw [List.mem_singleton.mp hgiven, kind.decode_document] at hdecode
  exact (Decoded.value.inj hdecode).symm

/-- A value that the conversions keep is read back from what is written for it. -/
theorem verdict_members (variant : Variant tag kind α) {value : α}
    (hkept : variant.produce (variant.extract value) = value) :
    variant.codec.reader.verdict (Document.object (variant.members value)).tokens =
      .produced value := by
  have hfollows := (variant.layout.follows (variant.extract value)).map variant.produce
  rw [Decoded.map, hkept] at hfollows
  exact Reader.verdict_of_consume hfollows

variable {variants : List (Variant tag kind α)}

/-- The codecs of variants for reading. -/
def readCodecs (variants : List (Variant tag kind α)) : List (ReadCodec Token α) :=
  variants.map fun variant => variant.codec.toReadCodec

theorem objectCodecs (variants : List (Variant tag kind α)) :
    ∀ codec ∈ readCodecs variants, ObjectCodec codec := by
  intro codec hmem
  obtain ⟨variant, -, rfl⟩ := List.mem_map.mp hmem
  exact variant.objectCodec

section Distinct

variable (hdistinct : (variants.map Variant.value).Nodup) {variant : Variant tag kind α}
  (hmem : variant ∈ variants) {value : α}
  (hkept : variant.produce (variant.extract value) = value)

include hdistinct hmem hkept

/-- Of variants with distinct values at the tag, only the one that wrote an object
takes it. -/
theorem answer_members :
    Alternative.answer ((readCodecs variants).map ReadCodec.alternative)
      (Document.object (variant.members value)).tokens = .produced value := by
  have hwriter : ∃ alternative ∈ (readCodecs variants).map ReadCodec.alternative,
      alternative.takes (Document.object (variant.members value)).tokens = true :=
    ⟨_, List.mem_map_of_mem (List.mem_map_of_mem hmem), variant.takes_members value⟩
  obtain ⟨alternative, hfind⟩ := Option.isSome_iff_exists.mp (List.find?_isSome.mpr hwriter)
  obtain ⟨codec, hcodec, rfl⟩ := List.mem_map.mp (List.mem_of_find?_eq_some hfind)
  obtain ⟨other, hother, rfl⟩ := List.mem_map.mp hcodec
  have htakes := List.find?_some hfind
  have hsame := List.inj_on_of_nodup_map hdistinct hother hmem (value_eq_of_takes htakes)
  rw [Alternative.answer, hfind, hsame]
  exact variant.verdict_members hkept

theorem consume_members :
    (ReadCodec.oneOf (readCodecs variants)).reader.consume
      (ReadCodec.oneOf (readCodecs variants)).reader.start
      (Document.object (variant.members value)).tokens =
        .ok ([value], (ReadCodec.oneOf (readCodecs variants)).reader.start) :=
  consume_oneOf_document (fun codec hcodec => (objectCodecs variants codec hcodec).anyObject)
    (fun codec hcodec => (objectCodecs variants codec hcodec).readable.resets) rfl
    (answer_members hdistinct hmem hkept)

end Distinct

/-- One reader of the alternation of variants with distinct values at the tag gives
back what the variants wrote, in whatever order they took turns. -/
theorem readAll_oneOf_written (hdistinct : (variants.map Variant.value).Nodup)
    (pairs : List (Variant tag kind α × α)) (hmem : ∀ pair ∈ pairs, pair.1 ∈ variants)
    (hkept : ∀ pair ∈ pairs, pair.1.produce (pair.1.extract pair.2) = pair.2) :
    (ReadCodec.oneOf (readCodecs variants)).readAll
        (pairs.flatMap fun pair => pair.1.codec.toWriteCodec.write pair.2) =
      .ok (pairs.map Prod.snd) := by
  have hunit : (ReadCodec.oneOf (readCodecs variants)).reader.Unitwise :=
    (RootCodec.oneOf (objectCodecs variants) none).unitwise
  calc
    (ReadCodec.oneOf (readCodecs variants)).readAll
          (pairs.flatMap fun pair => pair.1.codec.toWriteCodec.write pair.2) =
        (ReadCodec.oneOf (readCodecs variants)).readAll
          (pairs.flatMap fun pair => (Document.object (pair.1.members pair.2)).tokens) := by
      simp only [write_eq]
    _ = .ok (pairs.flatMap fun pair => [pair.2]) :=
      ReadCodec.readAll_documents hunit
        (fun pair : Variant tag kind α × α => .object (pair.1.members pair.2)) _ pairs
        fun pair hpair => consume_members hdistinct (hmem pair hpair) (hkept pair hpair)
    _ = .ok (pairs.map Prod.snd) := by
      rw [List.map_eq_flatMap]

/-- A text, as a variant of texts and flags. -/
def text : Variant "kind" .string (String ⊕ Bool) where
  fields := .optional "text" (.plain .string) .nil
  conditions := [mark "kind" .string "text"]
  hdistinct := by decide
  value := "text"
  hmark := List.mem_singleton_self _
  produce members := .inl (members.1.getD "")
  extract value := (value.elim some fun _ => none, ())

/-- A flag, which stands within an object and is named as the tag is. -/
def flag : Variant "kind" .string (String ⊕ Bool) where
  fields := .required "flag" (.object (.required "kind" (.plain .boolean) .nil) [] (by decide)) .nil
  conditions := [mark "kind" .string "flag"]
  hdistinct := by decide
  value := "flag"
  hmark := List.mem_singleton_self _
  produce members := .inr members.1.1
  extract value := ((value.elim (fun _ => false) id, ()), ())

theorem readAll_oneOf_written_texts_and_flags :
    let pairs : List (Variant "kind" .string (String ⊕ Bool) × (String ⊕ Bool)) :=
      [(flag, .inr true), (text, .inl "a"), (text, .inl ""), (flag, .inr false)]
    ([text, flag].map Variant.value).Nodup ∧ (∀ pair ∈ pairs, pair.1 ∈ [text, flag]) ∧
      (∀ pair ∈ pairs, pair.1.produce (pair.1.extract pair.2) = pair.2) ∧
        (ReadCodec.oneOf (readCodecs [text, flag])).readAll
            (pairs.flatMap fun pair => pair.1.codec.toWriteCodec.write pair.2) =
          .ok [.inr true, .inl "a", .inl "", .inr false] := by
  intro pairs
  have hdistinct : ([text, flag].map Variant.value).Nodup := by decide
  have hmem : ∀ pair ∈ pairs, pair.1 ∈ [text, flag] := by
    simp [pairs]
  have hkept : ∀ pair ∈ pairs, pair.1.produce (pair.1.extract pair.2) = pair.2 := by
    simp [pairs, text, flag]
  exact ⟨hdistinct, hmem, hkept, readAll_oneOf_written hdistinct pairs hmem hkept⟩

end Variant

end Json

end TokenCodec
