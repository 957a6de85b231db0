import TokenCodec.Proofs.Layouts
import TokenCodec.Proofs.TreeDecoding

/-!
# Reading what was written

The reader of a layout takes the document that stands for a value back to the
value, and is at its start again behind it.  The names of an object are
distinct, so every part meets its own member and no other.  With the writer
rendering that document, one reader gives the values of a stream in order.
-/

namespace TokenCodec.Json

open Document

variable {α β : Type}

/-! ## Layouts among the codecs for reading -/

theorem readable_conditions {conditions : List FixedMember} :
    ∀ condition ∈ conditions.map FixedMember.condition, Readable condition.toReadCodec := by
  intro condition hmem
  obtain ⟨fixed, -, rfl⟩ := List.mem_map.mp hmem
  exact readable_condition fixed.name fixed.kind.scalar fixed.value

/-- The codecs of the members for reading. -/
def Fields.readCodecs {names : List String} (fields : Fields names β) :
    Parts (ReadCodec Token) β :=
  fields.parts.mapParts Codec.toReadCodec

theorem readable_entries {codec : ReadCodec Token α} (hcodec : Readable codec) {γ : Type}
    {part : ReadCodec Token γ} (hmem : (Parts.one codec.anyMember.entries).Mem part) :
    Readable part := by
  cases Parts.mem_one hmem
  exact .entries (.anyMember hcodec)

mutual

theorem Layout.readable : ∀ {α : Type} (layout : Layout α), Readable layout.codec.toReadCodec
  | _, .plain kind => .scalar kind.scalar
  | _, .list element => .array (.collect element.readable)
  | _, .object fields _ _ => .object fields.readable readable_conditions
  | _, .entries layout => .object (readable_entries layout.readable) (List.forall_mem_nil _)
  | _, .imap layout f _ _ => .map layout.readable f

theorem Fields.readable : ∀ {names : List String} {β : Type} (fields : Fields names β)
    {γ : Type} {codec : ReadCodec Token γ}, fields.readCodecs.Mem codec → Readable codec
  | _, _, .nil, _, _, hmem => hmem.elim
  | _, _, .required name layout rest, _, _, hmem => by
      rcases hmem with hfirst | hrest
      · cases hfirst
        exact .member name layout.readable
      · exact rest.readable hrest
  | _, _, .optional name layout rest, _, _, hmem => by
      rcases hmem with hfirst | hrest
      · cases hfirst
        exact .optional (.member name layout.readable)
      · exact rest.readable hrest
  | _, _, .list name layout rest, _, _, hmem => by
      rcases hmem with hfirst | hrest
      · cases hfirst
        exact .map (.optional (.member name (.array (.collect layout.readable)))) _
      · exact rest.readable hrest

end

theorem Fields.resets_assembly {names : List String} (fields : Fields names β)
    (conditions : List FixedMember) :
    (Assembly.ofParts (fields.readCodecs.mapParts ReadCodec.part)
      (Condition.readers (conditions.map FixedMember.condition))).Resets := by
  apply Assembly.Resets.ofParts
  · exact resets_partReaders fun hmem => (fields.readable hmem).resets
  · exact resets_conditionReaders fun condition hmem => (readable_conditions condition hmem).resets

theorem resets_entries {codec : ReadCodec Token α} (hcodec : Readable codec) :
    (Assembly.ofParts (Parts.one codec.anyMember.entries.part) []).Resets := by
  apply Assembly.Resets.ofParts _ (List.forall_mem_nil _)
  exact resets_partReaders fun hmem => (readable_entries hcodec hmem).resets

theorem Layout.unitwise : ∀ {α : Type} (layout : Layout α), layout.codec.reader.Unitwise
  | _, .plain kind => .scalar _ kind.scalar.parse
  | _, .list element => .array element.readable.resets.reader.collect fun _ => rfl
  | _, .object fields conditions _ => .object (fields.resets_assembly conditions)
  | _, .entries layout => .object (resets_entries layout.readable)
  | _, .imap layout f _ _ => layout.unitwise.map f

/-! ## Lists and pairs -/

section Values

variable {layout : Layout α}

/-- A plain value decodes from its document. -/
theorem Plain.decode_document (kind : Plain α) (value : α) :
    kind.scalar.decode (kind.document value) = .value value := by
  have hparse := kind.parse_render value
  cases kind <;> exact congrArg Decoded.ofParsed hparse

/-- The documents of values, one after the other, give the values. -/
theorem consume_documents {reader : Reader Token α} {document : α → Document}
    (hreads : ∀ value, reader.Follows (document value) (.value value)) (values : List α) :
    reader.consume reader.start ((values.map document).flatMap tokens) =
      .ok (values, reader.start) := by
  induction values with
  | nil => rfl
  | cons value values ih =>
      rw [List.map_cons, List.flatMap_cons]
      exact Reader.consume_append_ok (hreads value) ih

theorem follows_elements
    (hreads : ∀ value, layout.codec.reader.Follows (layout.document value) (.value value))
    (values : List α) :
    layout.codec.collect.array.reader.Follows (.array (values.map layout.document))
      (.value values) :=
  follows_array_of_consume layout.readable.resets.reader (consume_documents hreads values)

/-- The members of any name give their pairs. -/
theorem consume_pairs
    (hreads : ∀ value, layout.codec.reader.Follows (layout.document value) (.value value))
    (pairs : List (String × α)) :
    layout.codec.anyMember.reader.consume layout.codec.anyMember.reader.start
      (memberTokens (pairs.map fun pair => (pair.1, layout.document pair.2))) =
        .ok (pairs, layout.codec.anyMember.reader.start) := by
  induction pairs with
  | nil => rfl
  | cons pair pairs ih =>
      obtain ⟨name, value⟩ := pair
      have hmember := consume_anyMemberReader name layout.codec.reader (layout.document value)
        layout.codec.reader.start
      rw [show layout.codec.reader.consume _ _ = _ from hreads value] at hmember
      rw [List.map_cons, memberTokens]
      exact Reader.consume_append_ok hmember ih

end Values

/-! ## Members -/

section Members

variable {codec : ReadCodec Token α} {document : α → Document} {name : String}
  {given : List (String × Document)} {found : Option α}

/-- What a member decodes to that holds a value or is left out. -/
def Decoded.ofOption : Option α → Decoded α
  | some v => value v
  | none => absent

theorem follows_found
    (hreads : ∀ value, codec.reader.Follows (document value) (.value value))
    (hfound : occurrences name given = (found.map document).toList) :
    ∀ value ∈ occurrences name given,
      codec.reader.Follows value (Decoded.ofOption found) := by
  intro value hmem
  rw [hfound] at hmem
  cases found with
  | none => cases hmem
  | some held =>
      cases List.mem_singleton.mp hmem
      exact hreads held

theorem values_found (hfound : occurrences name given = (found.map document).toList) :
    Decoded.values ((occurrences name given).map fun _ => Decoded.ofOption found) =
      some found.toList := by
  rw [hfound]
  cases found <;> rfl

theorem length_found (hfound : occurrences name given = (found.map document).toList) :
    (occurrences name given).length ≤ 1 := by
  rw [hfound]
  cases found <;> simp

/-- A member that is left out or written once is read as such. -/
theorem evaluate_found
    (hreads : ∀ value, codec.reader.Follows (document value) (.value value))
    (hfound : occurrences name given = (found.map document).toList) :
    (codec.member name).optional.part.evaluate (memberTokens given) = .ok found := by
  have hlast : found.toList.getLast? = found := by
    cases found <;> rfl
  rw [evaluate_optional_of_values (follows_found hreads hfound) (values_found hfound), hlast]

/-- A list that is left out when it is empty is read as the empty list. -/
theorem evaluate_listMember {values : List α} {elements : List α → Document}
    (hreads : ∀ values, codec.collect.array.reader.Follows (elements values) (.value values))
    (hfound : occurrences name given =
      ((if values.isEmpty then none else some values).map elements).toList) :
    (codec.listMember name).part.evaluate (memberTokens given) = .ok values := by
  calc
    (codec.listMember name).part.evaluate (memberTokens given) =
        ((codec.collect.array.member name).optional.part.evaluate (memberTokens given)).map
          (·.getD []) :=
      PartReader.evaluate_map (codec.collect.array.member name).optional.part (·.getD []) _
    _ = .ok ((if values.isEmpty then none else some values).getD []) := by
      rw [evaluate_found hreads hfound]
      rfl
    _ = .ok values := by
      cases values <;> rfl

/-- The members of an object bear names of theirs, in order. -/
theorem Fields.sublist_names : ∀ {names : List String} {β : Type} (fields : Fields names β)
    (value : β), ((fields.members value).map Prod.fst).Sublist names
  | _, _, .nil, _ => .slnil
  | _, _, .required _ _ rest, value => (rest.sublist_names value.2).cons_cons _
  | _, _, .optional _ _ rest, (none, others) => (rest.sublist_names others).cons _
  | _, _, .optional _ _ rest, (some _, others) => (rest.sublist_names others).cons_cons _
  | _, _, .list _ _ rest, ([], others) => (rest.sublist_names others).cons _
  | _, _, .list _ _ rest, (_ :: _, others) => (rest.sublist_names others).cons_cons _

/-- The first member and the others do not meet. -/
theorem occurrences_found {names : List String} {others : List (String × Document)}
    (hdistinct : (name :: names).Nodup) (hothers : (others.map Prod.fst).Sublist names)
    (hagree : ∀ other ∈ name :: names, occurrences other given = occurrences other
      ((found.map fun value => (name, document value)).toList ++ others)) :
    occurrences name given = (found.map document).toList ∧
      ∀ other ∈ names, occurrences other given = occurrences other others := by
  obtain ⟨hnew, -⟩ := List.nodup_cons.mp hdistinct
  constructor
  · have hnone : occurrences name others = [] :=
      occurrences_eq_nil fun hmem => hnew (hothers.subset hmem)
    rw [hagree name List.mem_cons_self, occurrences_append, hnone, List.append_nil]
    cases found with
    | none => rfl
    | some value => exact occurrences_cons_of_eq (document value) []
  · intro other hother
    have hne : name ≠ other := by
      rintro rfl
      exact hnew hother
    rw [hagree other (List.mem_cons_of_mem _ hother), occurrences_append]
    cases found with
    | none => rfl
    | some value =>
        have hfirst := occurrences_cons_of_ne hne (document value) []
        exact (congrArg (· ++ occurrences other others) hfirst).trans (List.nil_append _)

/-- The parts of an object give the values, none of them more than once. -/
structure Fields.Reads {names : List String} (fields : Fields names β) (values : β)
    (given : List (String × Document)) : Prop where
  value : (Slots.ofParts (fields.readCodecs.mapParts ReadCodec.part)).evaluate
    (memberTokens given) = .ok values
  once : ∀ {γ : Type} {part : PartReader Token γ},
    (fields.readCodecs.mapParts ReadCodec.part).Mem part → part.AtMostOnce (memberTokens given)

theorem Fields.Reads.cons {names : List String} {rest : Fields names β}
    {fields : Fields (name :: names) (α × β)} {first : α} {others : β}
    (hcodecs : fields.readCodecs = .cons codec rest.readCodecs)
    (hfirst : codec.part.evaluate (memberTokens given) = .ok first)
    (honce : codec.part.AtMostOnce (memberTokens given)) (hrest : rest.Reads others given) :
    fields.Reads (first, others) given := by
  constructor
  · rw [hcodecs]
    exact Slots.evaluate_cons_of_ok hfirst hrest.value
  · intro γ part hmem
    rw [hcodecs] at hmem
    rcases hmem with hhead | htail
    · cases hhead
      exact honce
    · exact hrest.once htail

end Members

/-! ## Objects -/

section Objects

variable {given : List (String × Document)}

theorem Plain.follows (kind : Plain α) (value : α) :
    kind.scalar.codec.reader.Follows (kind.document value) (.value value) := by
  have hscalar := follows_scalar kind.scalar (kind.document value)
  rwa [kind.decode_document] at hscalar

/-- A condition holds of the members that have it once. -/
theorem FixedMember.holdsOf (fixed : FixedMember)
    (hfound : occurrences fixed.name given = [fixed.kind.document fixed.value]) :
    fixed.condition.reader.HoldsOf (memberTokens given) := by
  have hsome : occurrences fixed.name given =
      ((some fixed.value).map fixed.kind.document).toList := hfound
  have hmember := consume_member_of_values (follows_found fixed.kind.follows hsome)
    (values_found hsome)
  exact Reader.holdsOf_fixed hmember fixed.condition.description

theorem occurrences_of_mem {members : List (String × Document)} {name : String}
    {value : Document} (hdistinct : (members.map Prod.fst).Nodup)
    (hmem : (name, value) ∈ members) : occurrences name members = [value] := by
  induction members with
  | nil => cases hmem
  | cons member members ih =>
      obtain ⟨hnew, hrest⟩ := List.nodup_cons.mp hdistinct
      rcases List.mem_cons.mp hmem with rfl | hlater
      · rw [occurrences_cons_of_eq, occurrences_eq_nil hnew]
      · have hne : member.1 ≠ name := by
          rintro rfl
          exact hnew (List.mem_map.mpr ⟨_, hlater, rfl⟩)
        rw [occurrences_cons_of_ne hne, ih hrest hlater]

variable {names : List String} {fields : Fields names β} {conditions : List FixedMember}

theorem names_conditions (conditions : List FixedMember) :
    (conditions.map FixedMember.member).map Prod.fst = conditions.map FixedMember.name := by
  rw [List.map_map]
  rfl

/-- The members of an object and of its conditions have names of their own. -/
theorem nodup_members (hdistinct : (names ++ conditions.map FixedMember.name).Nodup)
    (value : β) : ((fields.members value ++ conditions.map FixedMember.member).map
      Prod.fst).Nodup := by
  rw [List.map_append, names_conditions]
  exact hdistinct.sublist ((fields.sublist_names value).append (.refl _))

theorem holdsOf_conditions (hdistinct : (names ++ conditions.map FixedMember.name).Nodup)
    (value : β) : ∀ reader ∈ Condition.readers (conditions.map FixedMember.condition),
      reader.HoldsOf
        (memberTokens (fields.members value ++ conditions.map FixedMember.member)) := by
  intro reader hmem
  obtain ⟨condition, hcondition, rfl⟩ := List.mem_map.mp hmem
  obtain ⟨fixed, hfixed, rfl⟩ := List.mem_map.mp hcondition
  apply fixed.holdsOf
  apply occurrences_of_mem (nodup_members hdistinct value)
  exact List.mem_append_right _ (List.mem_map_of_mem hfixed)

/-- An object is read back if its parts are. -/
theorem follows_fields (hdistinct : (names ++ conditions.map FixedMember.name).Nodup)
    {value : β}
    (hfields : fields.Reads value (fields.members value ++ conditions.map FixedMember.member)) :
    (Layout.object fields conditions hdistinct).codec.reader.Follows
      ((Layout.object fields conditions hdistinct).document value) (.value value) := by
  have hconclude := Assembly.conclude_ofParts_of_ok (fields.resets_assembly conditions)
    (fun _ => hfields.once) hfields.value (holdsOf_conditions hdistinct value)
  exact follows_object_of_conclude hconclude

/-- The pairs of a map, as the members of an object, give the map. -/
theorem consume_entries {layout : Layout α}
    (hreads : ∀ value, layout.codec.reader.Follows (layout.document value) (.value value))
    (entries : Entries String α) :
    layout.codec.anyMember.entries.reader.consume layout.codec.anyMember.entries.reader.start
      (memberTokens (entries.toList.map fun pair => (pair.1, layout.document pair.2))) =
        .ok ([], (layout.codec.anyMember.reader.start, entries)) := by
  have hgather := Reader.consume_gather layout.codec.anyMember.reader Entries.empty
    (fun store entry => store.insert entry.1 entry.2) layout.codec.anyMember.reader.start
    Entries.empty (memberTokens (entries.toList.map fun pair =>
      (pair.1, layout.document pair.2)))
  rw [consume_pairs hreads entries.toList] at hgather
  refine hgather.trans ?_
  exact congrArg (fun store => Except.ok ([], (layout.codec.anyMember.reader.start, store)))
    entries.ofList_toList

/-- The pairs of an object of any names are read back. -/
theorem follows_entries {layout : Layout α}
    (hreads : ∀ value, layout.codec.reader.Follows (layout.document value) (.value value))
    (value : Entries String α × Unit) :
    (Layout.entries layout).codec.reader.Follows ((Layout.entries layout).document value)
      (.value value) := by
  obtain ⟨entries, nothing⟩ := value
  have hconsume := consume_entries hreads entries
  have hpart : layout.codec.toReadCodec.anyMember.entries.part.evaluate (memberTokens
      (entries.toList.map fun pair => (pair.1, layout.document pair.2))) = .ok entries :=
    (PartReader.evaluate_of_ok hconsume).trans rfl
  have honce {γ : Type} {part : PartReader Token γ}
      (hmem : (Parts.one layout.codec.toReadCodec.anyMember.entries.part).Mem part) :
      part.AtMostOnce (memberTokens
        (entries.toList.map fun pair => (pair.1, layout.document pair.2))) := by
    cases Parts.mem_one hmem
    exact .of_consume hconsume (Nat.zero_le 1)
  have hconclude := Assembly.conclude_ofParts_of_ok (resets_entries layout.readable) (fun _ => honce)
    (Slots.evaluate_cons_of_ok hpart (Slots.evaluate_nil _)) (List.forall_mem_nil _)
  exact follows_object_of_conclude hconclude

end Objects

/-! ## Streams -/

mutual

/-- The document of a value reads as the value. -/
theorem Layout.follows : ∀ {α : Type} (layout : Layout α) (value : α),
    layout.codec.reader.Follows (layout.document value) (.value value)
  | _, .plain kind, value => kind.follows value
  | _, .list element, values => follows_elements element.follows values
  | _, .object fields conditions hdistinct, value => by
      apply follows_fields hdistinct
      apply fields.reads (List.nodup_append.mp hdistinct).1
      intro name hname
      have hother : name ∉ (conditions.map FixedMember.member).map Prod.fst := by
        rw [names_conditions]
        intro hmem
        exact (List.nodup_append.mp hdistinct).2.2 name hname name hmem rfl
      rw [occurrences_append, occurrences_eq_nil hother, List.append_nil]
  | _, .entries layout, value => follows_entries layout.follows value
  | _, .imap layout f g hinverse, value => by
      have hmap := (layout.follows (g value)).map f
      rwa [show (Decoded.value (g value)).map f = .value value from
        congrArg Decoded.value (hinverse value)] at hmap

theorem Fields.reads : ∀ {names : List String} {β : Type} (fields : Fields names β),
    names.Nodup → ∀ (value : β) (given : List (String × Document)),
      (∀ name ∈ names, occurrences name given = occurrences name (fields.members value)) →
        fields.Reads value given
  | _, _, .nil, _, _, given, _ => ⟨Slots.evaluate_nil _, fun hmem => hmem.elim⟩
  | _ :: names, _, .required name layout rest, hdistinct, (first, others), given, hagree => by
      -- A required member is one that is never left out.
      have hsome : ∀ other ∈ name :: names, occurrences other given = occurrences other
          (((some first).map fun value => (name, layout.document value)).toList ++
            rest.members others) := hagree
      obtain ⟨hfound, hrest⟩ := occurrences_found hdistinct (rest.sublist_names others) hsome
      have hfollows := follows_found layout.follows hfound
      apply Fields.Reads.cons rfl
      · exact evaluate_member_of_last hfollows (values_found hfound) rfl
      · exact (atMostOnce_member hfollows (length_found hfound)).1
      · exact rest.reads hdistinct.tail others given hrest
  | _, _, .optional name layout rest, hdistinct, (first, others), given, hagree => by
      obtain ⟨hfound, hrest⟩ := occurrences_found hdistinct (rest.sublist_names others) hagree
      apply Fields.Reads.cons rfl
      · exact evaluate_found layout.follows hfound
      · exact (atMostOnce_member (follows_found layout.follows hfound)
          (length_found hfound)).2
      · exact rest.reads hdistinct.tail others given hrest
  | _ :: names, _, .list name layout rest, hdistinct, (first, others), given, hagree => by
      have hsome : ∀ other ∈ name :: names, occurrences other given = occurrences other
          (((if first.isEmpty then none else some first).map fun values =>
            (name, Document.array (values.map layout.document))).toList ++
              rest.members others) := by
        cases first <;> exact hagree
      obtain ⟨hfound, hrest⟩ := occurrences_found hdistinct (rest.sublist_names others) hsome
      have hfollows := follows_elements layout.follows
      apply Fields.Reads.cons rfl
      · exact evaluate_listMember hfollows hfound
      · exact (atMostOnce_member (follows_found hfollows hfound) (length_found hfound)).2.map _
      · exact rest.reads hdistinct.tail others given hrest

end

/-- One reader gives back the values that were written one after the other. -/
theorem Layout.readAll_write (layout : Layout α) (values : List α) :
    layout.codec.toReadCodec.readAll (values.flatMap layout.codec.toWriteCodec.write) =
      .ok values := by
  have hwrite : layout.codec.toWriteCodec.write = fun value => (layout.document value).tokens := by
    funext value
    exact congrArg Prod.fst (layout.renders.1.emits value)
  calc
    layout.codec.toReadCodec.readAll (values.flatMap layout.codec.toWriteCodec.write) =
        layout.codec.toReadCodec.readAll
          (values.flatMap fun value => (layout.document value).tokens) := by
      rw [hwrite]
    _ = .ok (values.flatMap fun value => [value]) :=
      ReadCodec.readAll_documents layout.unitwise layout.document _ values
        fun value _ => layout.follows value
    _ = .ok values := by
      simp

example :
    let layout : Layout (List Bool × Option String × Unit) :=
      .object (.list "flags" (.plain .boolean) (.optional "note" (.plain .string) .nil))
        [{ name := "kind", kind := .string, value := "a" }] (by decide)
    layout.codec.toReadCodec.readAll
      ([([true], none, ()), ([], some "b", ())].flatMap layout.codec.toWriteCodec.write) =
        .ok [([true], none, ()), ([], some "b", ())] := rfl

end TokenCodec.Json
