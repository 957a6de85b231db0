import TokenCodec.Proofs.Cells
import TokenCodec.Proofs.Entries

/-!
# Objects of any names as maps

An object of any names is read as a map.  A member whose value is read as nothing has no
entry, a name that is repeated keeps its first place and its last value, and one value
that cannot be read makes the object fail.  A map that was read is written as an object
that is read as the same map, unless there is a null in it: a number that is not finite
is written as null, which stands for nothing.
-/

namespace TokenCodec

/-! ## Keys and values -/

namespace Entries

variable {κ α : Type} [BEq κ] [LawfulBEq κ]

omit [BEq κ] [LawfulBEq κ] in
theorem map_fst_tabulate {keys : List κ} {value : κ → Option α}
    (hvalues : ∀ key ∈ keys, value key ≠ none) : (tabulate keys value).map Prod.fst = keys := by
  induction keys with
  | nil => rfl
  | cons key keys ih =>
      obtain ⟨hfirst, hrest⟩ := List.forall_mem_cons.mp hvalues
      obtain ⟨found, hfound⟩ := Option.ne_none_iff_exists'.mp hfirst
      have hothers := ih hrest
      rw [tabulate] at hothers
      simp [tabulate, hfound, hothers]

theorem find?_tabulate (keys : List κ) (value : κ → Option α) (key : κ) :
    ((tabulate keys value).find? (·.1 == key)).map Prod.snd =
      if key ∈ keys then value key else none := by
  induction keys with
  | nil => rfl
  | cons first keys ih =>
      rw [tabulate] at ih
      by_cases heq : first = key
      · subst heq
        cases hfirst : value first with
        | none => simpa [tabulate, hfirst] using ih
        | some found => simp [tabulate, hfirst]
      · cases hfirst : value first <;> simpa [tabulate, hfirst, heq, Ne.symm heq] using ih

theorem keys_ofLast (pairs : List (κ × α)) :
    (ofLast pairs).keys = (pairs.map Prod.fst).eraseDups :=
  map_fst_tabulate fun _ hmem => lastAt_ne_none (List.mem_eraseDups.mp hmem)

theorem lastAt_eq_none {key : κ} {pairs : List (κ × α)} (hnew : key ∉ pairs.map Prod.fst) :
    lastAt key pairs = none := by
  have hnone : pairs.filter (·.1 == key) = [] := by
    rw [List.filter_eq_nil_iff]
    rintro pair hmem heq
    exact hnew (eq_of_beq heq ▸ List.mem_map_of_mem hmem)
  rw [lastAt, hnone]
  rfl

theorem get?_ofLast (pairs : List (κ × α)) (key : κ) :
    (ofLast pairs).get? key = lastAt key pairs := by
  refine (find?_tabulate _ _ key).trans ?_
  split
  · rfl
  · rename_i hnew
    rw [lastAt_eq_none (mt List.mem_eraseDups.mpr hnew)]

theorem mem_of_mem_ofLast {pairs : List (κ × α)} {pair : κ × α}
    (hmem : pair ∈ (ofLast pairs).toList) : pair ∈ pairs := by
  obtain ⟨key, -, hpair⟩ := List.mem_filterMap.mp hmem
  obtain ⟨value, hvalue, rfl⟩ := Option.map_eq_some_iff.mp hpair
  obtain ⟨held, hlast, rfl⟩ := Option.map_eq_some_iff.mp hvalue
  obtain ⟨hheld, hkey⟩ := List.mem_filter.mp (List.mem_of_getLast? hlast)
  rwa [← eq_of_beq hkey]

theorem ofLast_toList (entries : Entries κ α) : ofLast entries.toList = entries := by
  rw [← ofList_eq_ofLast, ofList_toList]

omit [LawfulBEq κ] in
theorem Distinct.of_sublist {β : Type} {pairs : List (κ × α)} {others : List (κ × β)}
    (hdistinct : Distinct others) (hkeys : (pairs.map Prod.fst).Sublist (others.map Prod.fst)) :
    Distinct pairs := by
  have hothers : (others.map Prod.fst).Pairwise fun earlier later => (earlier == later) = false :=
    List.pairwise_map.mpr hdistinct
  exact List.pairwise_map.mp (hothers.sublist hkeys)

/-- Pairs with keys of their own are the map of their last values. -/
theorem toList_ofLast {pairs : List (κ × α)} (hdistinct : Distinct pairs) :
    (ofLast pairs).toList = pairs := by
  rw [← ofList_eq_ofLast]
  exact toList_foldl_insert empty hdistinct

end Entries

namespace Reader

variable {τ α : Type} {reader : Reader τ α} {front back : List τ}

/-- What a reader makes of a run of tokens from its start: values, behind which it is at
its start again, or a failure. -/
def Makes (reader : Reader τ α) (tokens : List τ) : Option (List α) → Prop
  | some values => reader.consume reader.start tokens = .ok (values, reader.start)
  | none => ∃ failure, reader.consume reader.start tokens = .error failure

/-- Values in front of a run come before those of the run. -/
theorem Makes.behind {given : Option (List α)} (hback : reader.Makes back given) {values : List α}
    (hfront : reader.consume reader.start front = .ok (values, reader.start)) :
    reader.Makes (front ++ back) (given.map (values ++ ·)) := by
  cases given with
  | some others => exact consume_append_ok hfront hback
  | none =>
      obtain ⟨failure, hfailed⟩ := hback
      refine ⟨failure, ?_⟩
      rw [consume_append_of_ok hfront, hfailed]
      rfl

end Reader

namespace Json

open Document

variable {α : Type}

/-! ## Maps of any codec -/

section Maps

variable {codec : ReadCodec Token α} {decode : Document → Decoded α}

/-- What the members of an object decode to, with their names. -/
def Decoded.pairs (decode : Document → Decoded α) (members : List (String × Document)) :
    List (Decoded (String × α)) :=
  members.map fun member => (decode member.2).map fun value => (member.1, value)

/-- The names of the pairs are names of members, in order. -/
theorem Decoded.sublist_keys {members : List (String × Document)} {pairs : List (String × α)}
    (hpairs : Decoded.values (Decoded.pairs decode members) = some pairs) :
    (pairs.map Prod.fst).Sublist (members.map Prod.fst) := by
  induction members generalizing pairs with
  | nil =>
      cases hpairs
      exact .slnil
  | cons member members ih =>
      rw [Decoded.pairs, List.map_cons] at hpairs
      cases hdecode : decode member.2 with
      | value v =>
          rw [hdecode] at hpairs
          obtain ⟨others, hothers, rfl⟩ := Option.map_eq_some_iff.mp hpairs
          exact (ih hothers).cons_cons _
      | absent =>
          rw [hdecode] at hpairs
          exact (ih hpairs).cons _
      | fails =>
          rw [hdecode] at hpairs
          cases hpairs

theorem Decoded.map_eq_value_iff {β : Type} {decoded : Decoded α} {f : α → β} {value : β} :
    decoded.map f = .value value ↔ ∃ found, decoded = .value found ∧ f found = value := by
  cases decoded <;> simp [Decoded.map]

/-- The value of a pair is the value of some document. -/
theorem exists_decode_of_pairs {members : List (String × Document)} {pairs : List (String × α)}
    (hpairs : Decoded.values (Decoded.pairs decode members) = some pairs) {pair : String × α}
    (hmem : pair ∈ pairs) : ∃ document, decode document = .value pair.2 := by
  obtain ⟨member, hmember⟩ := Decoded.exists_of_values hpairs hmem
  obtain ⟨value, hvalue, rfl⟩ := Decoded.map_eq_value_iff.mp hmember
  exact ⟨member.2, hvalue⟩

/-- The members of an object, one after the other, give their pairs, unless one of them
fails. -/
theorem makes_members (hfollows : ∀ document, codec.reader.Follows document (decode document))
    (members : List (String × Document)) :
    codec.anyMember.reader.Makes (memberTokens members)
      (Decoded.values (Decoded.pairs decode members)) := by
  induction members with
  | nil => exact rfl
  | cons member members ih =>
      obtain ⟨name, document⟩ := member
      have hdocument := hfollows document
      have hmember := consume_anyMemberReader name codec.reader document codec.reader.start
      have hpairs : Decoded.pairs decode ((name, document) :: members) =
          (decode document).map (fun value => (name, value)) :: Decoded.pairs decode members := rfl
      rw [memberTokens, hpairs]
      cases hdecode : decode document with
      | value v =>
          rw [hdecode] at hdocument
          rw [show codec.reader.consume _ _ = _ from hdocument] at hmember
          exact ih.behind hmember
      | absent =>
          rw [hdecode] at hdocument
          rw [show codec.reader.consume _ _ = _ from hdocument] at hmember
          have hboth := ih.behind hmember
          rwa [show (List.map (fun value => (name, value)) ([] : List α) ++ ·) = id from rfl,
            Option.map_id] at hboth
      | fails =>
          rw [hdecode] at hdocument
          obtain ⟨failure, hfailed⟩ := hdocument
          rw [hfailed] at hmember
          exact ⟨_, Reader.consume_append_of_error hmember _⟩

/-- The codec for reading objects of any names. -/
def ofEntries (codec : ReadCodec Token α) : ReadCodec Token (Entries String α × Unit) :=
  .object (.one codec.anyMember.entries)

/-- An object of any names gives the map of the last values of its members, unless one of
them fails. -/
theorem follows_ofEntries (hcodec : Readable codec)
    (hfollows : ∀ document, codec.reader.Follows document (decode document))
    (members : List (String × Document)) :
    (ofEntries codec).reader.Follows (.object members)
      (match Decoded.values (Decoded.pairs decode members) with
        | some pairs => .value (.ofLast pairs, ())
        | none => .fails) := by
  have hmakes := makes_members hfollows members
  have hgather := Reader.consume_gather codec.anyMember.reader Entries.empty
    (fun store entry => store.insert entry.1 entry.2) codec.anyMember.reader.start
    Entries.empty (memberTokens members)
  cases hvalues : Decoded.values (Decoded.pairs decode members) with
  | some pairs =>
      rw [hvalues] at hmakes
      rw [show codec.anyMember.reader.consume _ _ = _ from hmakes] at hgather
      have hpart : codec.anyMember.entries.part.evaluate (memberTokens members) =
          .ok (.ofLast pairs) := by
        rw [← Entries.ofList_eq_ofLast]
        exact (PartReader.evaluate_of_ok hgather).trans rfl
      have honce {γ : Type} {part : PartReader Token γ}
          (hmem : (Parts.one codec.anyMember.entries.part).Mem part) :
          part.AtMostOnce (memberTokens members) := by
        cases Parts.mem_one hmem
        exact .of_consume hgather (Nat.zero_le 1)
      exact follows_object_of_conclude (Assembly.conclude_ofParts_of_ok (resets_entries hcodec)
        (fun _ => honce) (Slots.evaluate_cons_of_ok hpart (Slots.evaluate_nil _))
        (List.forall_mem_nil _))
  | none =>
      rw [hvalues] at hmakes
      obtain ⟨failure, hfailed⟩ := hmakes
      rw [hfailed] at hgather
      obtain ⟨missing, hslots⟩ : ∃ missing,
          (Slots.ofParts (Parts.one codec.anyMember.entries.part)).evaluate (memberTokens members) =
            .error missing :=
        Slots.evaluate_cons_of_error _ _ (.inl ⟨failure, PartReader.evaluate_of_error hgather⟩)
      obtain ⟨failed, hfailed⟩ := Assembly.conclude_ofParts_of_error hslots
      have hobject := consume_objectReader
        (Assembly.ofParts (Parts.one codec.anyMember.entries.part) []) members
      rw [hfailed] at hobject
      exact ⟨failed, hobject⟩

end Maps

/-! ## Maps of cells -/

/-- The members that a codec reads as a value, with their values. -/
def valued (codec : ReadCodec Token α) (members : List (String × Document)) :
    List (String × α) :=
  members.filterMap fun member =>
    match codec.readAll member.2.tokens with
    | .ok [value] => some (member.1, value)
    | _ => none

namespace Cell

/-- The codec of objects of any names with cells as values. -/
def entries (cell : Cell α) : Codec Token (Entries String α × Unit) :=
  .object (.one cell.codec.anyMember.entries)

theorem readable (cell : Cell α) : Readable cell.codec.toReadCodec := by
  rw [← cell.codec_shape]
  exact cell.shape.readable

theorem unitwise_entries (cell : Cell α) : cell.entries.reader.Unitwise :=
  .object (resets_entries cell.readable)

/-- An object whose members decode is read as one map. -/
theorem readAll_entries_of_some (cell : Cell α) {members : List (String × Document)}
    {pairs : List (String × α)}
    (hpairs : Decoded.values (Decoded.pairs cell.shape.decode members) = some pairs) :
    cell.entries.toReadCodec.readAll (Document.object members).tokens =
      .ok [(.ofLast pairs, ())] := by
  have hfollows := follows_ofEntries cell.readable cell.follows members
  rw [hpairs] at hfollows
  exact ReadCodec.readAll_document_of_ok cell.unitwise_entries hfollows

theorem readAll_entries_of_none (cell : Cell α) {members : List (String × Document)}
    (hpairs : Decoded.values (Decoded.pairs cell.shape.decode members) = none) :
    ∃ failure, cell.entries.toReadCodec.readAll (Document.object members).tokens =
      .error failure := by
  have hfollows := follows_ofEntries cell.readable cell.follows members
  rw [hpairs] at hfollows
  obtain ⟨failure, hfailed⟩ := hfollows
  exact ⟨failure, ReadCodec.readAll_of_error hfailed⟩

/-- Reading the document of a member by itself is decoding it. -/
theorem readAll_iff (cell : Cell α) (document : Document) :
    (∀ value, cell.codec.toReadCodec.readAll document.tokens = .ok [value] ↔
        cell.shape.decode document = .value value) ∧
      (cell.codec.toReadCodec.readAll document.tokens = .ok [] ↔
        cell.shape.decode document = .absent) ∧
      ((∃ failure, cell.codec.toReadCodec.readAll document.tokens = .error failure) ↔
        cell.shape.decode document = .fails) := by
  have hread := readAll_iff_decode cell.shape document (.inl cell.wide)
  rwa [cell.codec_shape] at hread

/-- If no member fails, the pairs of an object are those of the members with values. -/
theorem valued_eq (cell : Cell α) {members : List (String × Document)} {pairs : List (String × α)}
    (hpairs : Decoded.values (Decoded.pairs cell.shape.decode members) = some pairs) :
    valued cell.codec.toReadCodec members = pairs := by
  induction members generalizing pairs with
  | nil =>
      cases hpairs
      rfl
  | cons member members ih =>
      obtain ⟨name, document⟩ := member
      obtain ⟨hvalue, habsent, -⟩ := cell.readAll_iff document
      rw [Decoded.pairs, List.map_cons] at hpairs
      cases hdecode : cell.shape.decode document with
      | value v =>
          rw [hdecode] at hpairs
          obtain ⟨others, hothers, rfl⟩ := Option.map_eq_some_iff.mp hpairs
          have hrest := ih hothers
          rw [valued] at hrest
          simp [valued, (hvalue v).mpr hdecode, hrest]
      | absent =>
          rw [hdecode] at hpairs
          have hrest := ih hpairs
          rw [valued] at hrest
          simp [valued, habsent.mpr hdecode, hrest]
      | fails =>
          rw [hdecode] at hpairs
          cases hpairs

/-- An object fails with any of its members. -/
theorem values_pairs_eq_none_iff (cell : Cell α) (members : List (String × Document)) :
    Decoded.values (Decoded.pairs cell.shape.decode members) = none ↔
      ∃ member ∈ members, ∃ failure,
        cell.codec.toReadCodec.readAll member.2.tokens = .error failure := by
  rw [Decoded.values_eq_none_iff, Decoded.pairs, List.mem_map]
  apply exists_congr
  intro member
  apply and_congr_right
  intro _
  rw [(cell.readAll_iff member.2).2.2]
  cases cell.shape.decode member.2 <;> simp [Decoded.map]

/-- What is written for a map is the object of the documents of its values. -/
theorem write_entries (cell : Cell α) (entries : Entries String α) :
    cell.entries.toWriteCodec.write (entries, ()) =
      (Document.object (entries.toList.map fun pair =>
        (pair.1, cell.document pair.2))).tokens :=
  congrArg Prod.fst ((renders_entries cell.renders.1).emits (entries, ()))

/-- The documents of the pairs of a map are read as the map just if each of them is read as
its value. -/
theorem readAll_members_iff (cell : Cell α) (entries : Entries String α) :
    cell.entries.toReadCodec.readAll (Document.object (entries.toList.map fun pair =>
        (pair.1, cell.document pair.2))).tokens = .ok [(entries, ())] ↔
      ∀ pair ∈ entries.toList, cell.shape.decode (cell.document pair.2) = .value pair.2 := by
  have hpair (pair : String × α) :
      (cell.shape.decode (cell.document pair.2)).map (fun value => (pair.1, value)) = .value pair ↔
        cell.shape.decode (cell.document pair.2) = .value pair.2 := by
    simp [Decoded.map_eq_value_iff, Prod.ext_iff]
  have hvalues : Decoded.values (Decoded.pairs cell.shape.decode (entries.toList.map fun pair =>
      (pair.1, cell.document pair.2))) = some entries.toList ↔
        ∀ pair ∈ entries.toList, cell.shape.decode (cell.document pair.2) = .value pair.2 := by
    simp only [← hpair]
    exact Decoded.values_documents_iff
  rw [← hvalues]
  constructor
  · intro hread
    cases hpairs : Decoded.values (Decoded.pairs cell.shape.decode (entries.toList.map fun pair =>
      (pair.1, cell.document pair.2))) with
    | none =>
        obtain ⟨failure, herror⟩ := cell.readAll_entries_of_none hpairs
        cases herror.symm.trans hread
    | some pairs =>
        have hok := cell.readAll_entries_of_some hpairs
        have hdistinct : Entries.Distinct pairs := by
          apply entries.distinct.of_sublist
          have hkeys := Decoded.sublist_keys hpairs
          rwa [List.map_map] at hkeys
        cases hok.symm.trans hread
        rw [Entries.toList_ofLast hdistinct]
  · intro hpairs
    have hok := cell.readAll_entries_of_some hpairs
    rwa [Entries.ofLast_toList] at hok

/-- A map of values that some documents gave is read back from what is written for it, just
if there is no null in that. -/
theorem readAll_write_entries_iff {cell : Cell α} (hfaithful : cell.Faithful)
    {entries : Entries String α}
    (hread : ∀ pair ∈ entries.toList, ∃ document, cell.shape.decode document = .value pair.2) :
    cell.entries.toReadCodec.readAll (cell.entries.toWriteCodec.write (entries, ())) =
        .ok [(entries, ())] ↔
      .null ∉ cell.entries.toWriteCodec.write (entries, ()) := by
  rw [cell.write_entries, cell.readAll_members_iff, null_notMem_object, List.forall_mem_map]
  exact forall₂_congr fun pair hmem => cell.decode_document_iff hfaithful (hread pair hmem)

/-- An object of any names cannot be read if one of its members cannot.  Otherwise it is
one map: of the names of members with values, in the order of their first ones, each with
its last value.  That map is read back, in its order, from what is written for it, just if
there is no null in that. -/
theorem readAll_entries (cell : Cell α) (members : List (String × Document)) :
    ((∃ failure, cell.entries.toReadCodec.readAll (Document.object members).tokens =
        .error failure) ↔
      ∃ member ∈ members, ∃ failure,
        cell.codec.toReadCodec.readAll member.2.tokens = .error failure) ∧
    ∀ read, cell.entries.toReadCodec.readAll (Document.object members).tokens = .ok read →
      ∃ entries : Entries String α, read = [(entries, ())] ∧
        entries.keys = ((valued cell.codec.toReadCodec members).map Prod.fst).eraseDups ∧
        (∀ name, entries.get? name =
          Entries.lastAt name (valued cell.codec.toReadCodec members)) ∧
        (cell.Faithful →
          (cell.entries.toReadCodec.readAll (cell.entries.toWriteCodec.write (entries, ())) =
              .ok [(entries, ())] ↔
            .null ∉ cell.entries.toWriteCodec.write (entries, ()))) := by
  have hfails := cell.values_pairs_eq_none_iff members
  cases hpairs : Decoded.values (Decoded.pairs cell.shape.decode members) with
  | none =>
      obtain ⟨failure, herror⟩ := cell.readAll_entries_of_none hpairs
      refine ⟨⟨fun _ => hfails.mp hpairs, fun _ => ⟨failure, herror⟩⟩, fun read hread => ?_⟩
      cases herror.symm.trans hread
  | some pairs =>
      have hok := cell.readAll_entries_of_some hpairs
      constructor
      · constructor
        · rintro ⟨failure, hfailed⟩
          cases hok.symm.trans hfailed
        · intro hmember
          cases hpairs.symm.trans (hfails.mpr hmember)
      · intro read hread
        cases hok.symm.trans hread
        rw [cell.valued_eq hpairs]
        refine ⟨.ofLast pairs, rfl, Entries.keys_ofLast pairs, Entries.get?_ofLast pairs, ?_⟩
        intro hfaithful
        refine readAll_write_entries_iff hfaithful fun pair hmem => ?_
        exact exists_decode_of_pairs hpairs (Entries.mem_of_mem_ofLast hmem)

/-- A name that is repeated keeps its first place and its last value, within values as
well, and a name inside a value is no key. -/
theorem readAll_entries_repeated :
    let cell : Cell (Bool × Option (List String) × Unit) :=
      .object (.required "on" (.scalar .boolean .boolean)
        (.optional "tags" (.list (.scalar .string .string)) .nil)) (by decide) id id
    let map : Entries String (Bool × Option (List String) × Unit) × Unit :=
      (.ofList [("b", true, none, ()), ("a", false, some ["x"], ())], ())
    let read := cell.entries.toReadCodec.readAll (Document.object
      [("b", .object [("on", .bool false)]),
        ("a", .object [("on", .bool true), ("tags", .array [.string "x", .null]),
          ("b", .number "1"), ("on", .bool false)]),
        ("b", .object [("on", .bool true), ("on", .null)])]).tokens
    read = .ok [map] ∧
      cell.entries.toReadCodec.readAll (cell.entries.toWriteCodec.write map) = read := by
  intro cell map read
  have hread : read = .ok [map] := rfl
  have hfaithful : cell.Faithful :=
    ⟨fun _ => rfl, by decide, trivial, by decide, trivial, trivial⟩
  obtain ⟨entries, hentries, -, -, hagain⟩ := (cell.readAll_entries _).2 [map] hread
  have hmap : map = (entries, ()) := (List.cons.inj hentries).1
  rw [← hmap] at hagain
  exact ⟨hread, ((hagain hfaithful).mpr (by decide)).trans hread.symm⟩

/-- A number that is not finite is written as null, and two members of one name are
written with a value each: neither map is read back. -/
theorem not_readAll_write_entries :
    (let cell : Cell Numeral.Double := .scalar .double .double
      let map : Entries String Numeral.Double × Unit := (.ofList [("a", .infinite false)], ())
      cell.entries.toReadCodec.readAll (Document.object [("a", .number "1e9999")]).tokens =
          .ok [map] ∧
        cell.entries.toReadCodec.readAll (cell.entries.toWriteCodec.write map) =
          .ok [(.empty, ())]) ∧
      (let cell : Cell (Int × Numeral.Double × Unit) :=
          .object (.required "n" (.scalar .bigInteger .bigInteger)
            (.required "n" (.scalar .double .double) .nil)) (by decide) id id
        let map (n : Int) : Entries String (Int × Numeral.Double × Unit) × Unit :=
          (.ofList [("a", n, .finite false 4503599627370496 1, ())], ())
        cell.entries.toReadCodec.readAll
            (Document.object [("a", .object [("n", .number "9007199254740993")])]).tokens =
            .ok [map 9007199254740993] ∧
          cell.entries.toReadCodec.readAll
              (cell.entries.toWriteCodec.write (map 9007199254740993)) =
            .ok [map 9007199254740992]) := by
  refine ⟨⟨?_, ?_⟩, ?_, ?_⟩
  · rfl
  · rfl
  · rfl
  · rfl

end Cell

end Json

end TokenCodec
