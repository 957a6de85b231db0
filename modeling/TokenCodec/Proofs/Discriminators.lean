import TokenCodec.Proofs.Choice
import TokenCodec.Proofs.Layouts
import TokenCodec.Proofs.Locations

/-!
# Discriminators of objects

The reader of an object and its discriminator are two machines with the same
conditions, one with the members and one without.  A condition holds of an object
if its member is given with the bound value and, null and structures aside, with no
other one.  Both machines agree on that for every object: what the reader gets
through the discriminator accepts, and what the discriminator accepts fails only
by its members.
-/

namespace TokenCodec

variable {τ α β : Type}

/-! ## Readers on one unit -/

namespace Reader

/-- The first failure of a fresh reader on a unit, if there is one. -/
def firstFailure (reader : Reader τ α) (unit : List τ) : Option Failure :=
  (reader.run reader.start unit).1.findSome? Outcome.failure?

/-- A fresh reader fails at no token of a unit and gives a value at the last one. -/
def SucceedsOn (reader : Reader τ α) (unit : List τ) : Prop :=
  reader.firstFailure unit = none ∧
    ∃ value, (reader.run reader.start unit).1.getLast? = some (.produced value)

variable {reader : Reader τ α} {unit : List τ}

theorem firstFailure_eq_none_iff :
    reader.firstFailure unit = none ↔ ∃ read, reader.consume reader.start unit = .ok read := by
  rw [consume_eq_run, firstFailure]
  cases (reader.run reader.start unit).1.findSome? Outcome.failure? <;> simp

theorem firstFailure_eq_some_iff {failure : Failure} :
    reader.firstFailure unit = some failure ↔
      reader.consume reader.start unit = .error failure := by
  rw [consume_eq_run, firstFailure]
  cases (reader.run reader.start unit).1.findSome? Outcome.failure? <;> simp

/-- A unit that gives nothing before its last token gives its value there. -/
theorem succeedsOn_of_consume {middle : reader.State} {front : List τ} {token : τ}
    {values : List α} {next : reader.State}
    (hfront : reader.consume reader.start front = .ok ([], middle))
    (hlast : reader.consume middle [token] = .ok (values, next)) (hne : values ≠ []) :
    reader.SucceedsOn (front ++ [token]) := by
  refine ⟨firstFailure_eq_none_iff.mpr ⟨_, consume_append_ok hfront hlast⟩, ?_⟩
  rw [run_append, run_of_consume hfront]
  rcases hfeed : reader.feed middle token with ⟨value | _ | failure, reached⟩
  · exact ⟨value, by simp [hfeed]⟩
  · cases (consume_cons_of_pending _ hfeed []).symm.trans hlast
    exact absurd rfl hne
  · cases (consume_cons_of_failed _ hfeed []).symm.trans hlast

/-- A discriminator admits the units on which it succeeds. -/
theorem admits_of_succeedsOn {discriminator : Reader τ Unit}
    (hsucceeds : discriminator.SucceedsOn unit) : discriminator.admits unit = true := by
  obtain ⟨hnone, value, hlast⟩ := hsucceeds
  have hproduced : Outcome.isProduced (.produced value) = true := rfl
  have hmem := List.mem_of_getLast? hlast
  simp only [admits, Bool.and_eq_true, Bool.not_eq_true', List.any_eq_false, List.any_append,
    Bool.or_eq_true, List.any_eq_true]
  refine ⟨fun outcome houtcome => ?_, .inl ⟨_, hmem, hproduced⟩⟩
  have hpasses := List.findSome?_eq_none_iff.mp hnone outcome houtcome
  cases outcome <;> simp_all [Outcome.failure?, Outcome.isFailed]

/-- A discriminator admits no unit on which it fails. -/
theorem admits_of_firstFailure {discriminator : Reader τ Unit} {failure : Failure}
    (hfailed : discriminator.firstFailure unit = some failure) :
    discriminator.admits unit = false := by
  obtain ⟨outcome, hmem, houtcome⟩ := List.exists_of_findSome?_eq_some hfailed
  have hany : (discriminator.run discriminator.start unit).1.any Outcome.isFailed = true := by
    refine List.any_eq_true.mpr ⟨outcome, hmem, ?_⟩
    cases outcome <;> simp_all [Outcome.failure?, Outcome.isFailed]
  simp [admits, hany]

end Reader

namespace Json

open Document

/-! ## What a condition asks of an object -/

namespace FixedMember

/-- Among the members of an object a condition meets its value: some member of
its name is read as the value, and so is every other one that is neither null nor
a structure. -/
structure MetBy (fixed : FixedMember) (members : List (String × Document)) : Prop where
  given : ∃ value ∈ occurrences fixed.name members,
    fixed.kind.scalar.decode value = .value fixed.value
  alone : ∀ value ∈ occurrences fixed.name members, value ≠ .null →
    value.isStructure = false → fixed.kind.scalar.decode value = .value fixed.value

variable (fixed : FixedMember) (members : List (String × Document))

/-- A condition is met if what stands at its name decodes to its value or to
nothing, and to its value somewhere. -/
theorem metBy_iff_decode :
    fixed.MetBy members ↔
      .value fixed.value ∈ (occurrences fixed.name members).map fixed.kind.scalar.decode ∧
        ∀ piece ∈ (occurrences fixed.name members).map fixed.kind.scalar.decode,
          piece = .absent ∨ piece = .value fixed.value := by
  constructor
  · rintro ⟨hgiven, halone⟩
    refine ⟨List.mem_map.mpr hgiven, List.forall_mem_map.mpr fun value hmem => ?_⟩
    by_cases habsent : value = .null ∨ value.isStructure = true
    · exact .inl ((fixed.kind.scalar.decode_eq_absent_iff value).mpr habsent)
    · rw [not_or, Bool.not_eq_true] at habsent
      exact .inr (halone value hmem habsent.1 habsent.2)
  · rintro ⟨hgiven, hpieces⟩
    refine ⟨List.mem_map.mp hgiven, fun value hmem hnull hflat => ?_⟩
    refine (hpieces _ (List.mem_map_of_mem hmem)).resolve_left ?_
    rw [Scalar.decode_eq_absent_iff, hflat]
    simp [hnull]

/-- The reader of a condition decides whether the condition is met. -/
theorem holdsOf_iff :
    fixed.condition.reader.HoldsOf (memberTokens members) ↔ fixed.MetBy members := by
  have hsilent : (fixed.kind.scalar.codec.toReadCodec.member fixed.name).reader.Silent :=
    silent_memberReader (silent_scalarReader _ _) fixed.name
  have hfollows : ∀ value ∈ occurrences fixed.name members,
      fixed.kind.scalar.codec.reader.Follows value (fixed.kind.scalar.decode value) :=
    fun value _ => follows_scalar fixed.kind.scalar value
  rw [metBy_iff_decode, ← Decoded.exists_values_iff]
  refine (Reader.holdsOf_fixed_iff hsilent fixed.value _ _).trans ?_
  rcases hvalues : Decoded.values ((occurrences fixed.name members).map
    fixed.kind.scalar.decode) with _ | values
  · obtain ⟨failure, hfailed⟩ := consume_member_of_fails hfollows hvalues
    constructor
    · rintro ⟨values, next, hconsume, -⟩
      cases hfailed.symm.trans hconsume
    · rintro ⟨values, hsome, -⟩
      cases hsome
  · have hmember := consume_member_of_values hfollows hvalues
    constructor
    · rintro ⟨given, next, hconsume, hne, hsame⟩
      cases hmember.symm.trans hconsume
      exact ⟨values, rfl, hne, fun found hmem => beq_iff_eq.mp (hsame found hmem)⟩
    · rintro ⟨given, hsome, hne, hsame⟩
      cases hsome
      exact ⟨values, _, hmember, hne, fun found hmem => beq_iff_eq.mpr (hsame found hmem)⟩

end FixedMember

/-! ## Objects -/

section Objects

variable {assembly : Assembly Token β} {members : List (String × Document)}

theorem firstFailure_objectReader_eq_some_iff {failure : Failure} :
    (objectReader assembly).firstFailure (Document.object members).tokens = some failure ↔
      assembly.interior.conclude assembly.interior.start (memberTokens members) =
        .error failure := by
  rw [Reader.firstFailure_eq_some_iff, consume_objectReader]
  constructor
  · exact Except.error_of_map
  · intro hconclude
    rw [hconclude]
    rfl

theorem firstFailure_objectReader_eq_none_iff :
    (objectReader assembly).firstFailure (Document.object members).tokens = none ↔
      ∃ read, assembly.interior.conclude assembly.interior.start (memberTokens members) =
        .ok read := by
  rw [Reader.firstFailure_eq_none_iff, consume_objectReader]
  constructor
  · rintro ⟨read, hobject⟩
    obtain ⟨given, hconclude, -⟩ := Except.exists_of_map hobject
    exact ⟨given, hconclude⟩
  · rintro ⟨read, hconclude⟩
    rw [hconclude]
    exact ⟨_, rfl⟩

/-- An object that holds its values back and does not fail gives its value at
its closing brace. -/
theorem succeedsOn_objectReader (hheld : assembly.streams = false)
    (hnone : (objectReader assembly).firstFailure (Document.object members).tokens = none) :
    (objectReader assembly).SucceedsOn (Document.object members).tokens := by
  obtain ⟨⟨values, next⟩, hconclude⟩ := firstFailure_objectReader_eq_none_iff.mp hnone
  obtain ⟨given, middle, released, hmembers, hrelease, hvalues⟩ :=
    Reader.exists_of_conclude hconclude
  obtain rfl : given = [] := by
    have hround := (Assembly.consume_interior_of_held hheld assembly.start _).symm.trans hmembers
    obtain ⟨_, -, hread⟩ := Except.exists_of_map hround
    cases hread
    rfl
  have hfront : (objectReader assembly).consume (objectReader assembly).start
      (.startObject :: memberTokens members) = .ok ([], (middle, 1)) := by
    have hopening : (objectReader assembly).feed (assembly.start, 0) .startObject =
        (.pending, (assembly.start, 1)) := rfl
    have hnested := nested_memberTokens members
    have hinside := consume_objectReader_inside Nat.one_ne_zero (hnested.staysOpen 0)
      assembly.start
    rw [hnested.trackAll] at hinside
    refine (Reader.consume_cons_of_pending _ hopening _).trans (hinside.trans ?_)
    exact congrArg (Except.map _) hmembers
  have hlast := consume_objectReader_closing middle
  rw [hrelease] at hlast
  rw [tokens]
  refine Reader.succeedsOn_of_consume hfront hlast ?_
  rw [List.nil_append] at hvalues
  exact hvalues ▸ Assembly.ne_nil_of_conclude rfl hconclude

variable {parts : Parts (PartReader Token) β} {readers : List (Reader Token Unit)}

theorem streams_of_conditions (hreaders : readers ≠ []) :
    (Assembly.ofParts parts readers).streams = false := by
  cases readers with
  | nil => exact absurd rfl hreaders
  | cons reader rest => simp [Assembly.ofParts]

/-- An object that does not fail meets its conditions. -/
theorem holdsOf_of_firstFailure (hreaders : readers ≠ [])
    (hnone : (objectReader (.ofParts parts readers)).firstFailure
      (Document.object members).tokens = none) :
    ∀ reader ∈ readers, reader.HoldsOf (memberTokens members) := by
  obtain ⟨read, hconclude⟩ := firstFailure_objectReader_eq_none_iff.mp hnone
  obtain ⟨others, hfollow, hreset⟩ := Assembly.follow_of_conclude_held
    (streams_of_conditions hreaders) hconclude
  exact Conditions.holdsOf_of_follow hfollow hreset

/-- An object that meets its conditions fails as its parts do. -/
theorem firstFailure_of_holdsOf (parts : Parts (PartReader Token) β) (hreaders : readers ≠ [])
    (hholds : ∀ reader ∈ readers, reader.HoldsOf (memberTokens members)) :
    (objectReader (.ofParts parts readers)).firstFailure (Document.object members).tokens =
      match (Slots.ofParts parts).evaluate (memberTokens members) with
      | .ok _ => none
      | .error failure => some failure := by
  obtain ⟨others, hfollow, hreset⟩ := Conditions.follow_ofList hholds
  have hheld : (Assembly.ofParts parts readers).streams = false := streams_of_conditions hreaders
  have hconclude := Assembly.conclude_held_of_follow hheld hfollow hreset
  change _ = Except.map _ ((Slots.ofParts parts).evaluate _) at hconclude
  cases hvalue : (Slots.ofParts parts).evaluate (memberTokens members) with
  | error failure =>
      rw [hvalue] at hconclude
      exact firstFailure_objectReader_eq_some_iff.mpr (Except.error_of_map hconclude)
  | ok value =>
      rw [hvalue] at hconclude
      obtain ⟨read, hread, -⟩ := Except.exists_of_map hconclude
      exact firstFailure_objectReader_eq_none_iff.mpr ⟨read, hread⟩

/-- Without conditions an object fails with the failure of its parts. -/
theorem firstFailure_of_no_conditions {failure : Failure}
    (herror : (Slots.ofParts parts).evaluate (memberTokens members) = .error failure) :
    (objectReader (.ofParts parts [])).firstFailure (Document.object members).tokens =
      some failure := by
  obtain ⟨earlier, hconclude⟩ : ∃ earlier, (Assembly.ofParts parts []).interior.conclude
      (Assembly.ofParts parts []).interior.start (memberTokens members) = .error earlier :=
    Assembly.conclude_ofParts_of_error herror
  rw [firstFailure_objectReader_eq_some_iff, hconclude]
  cases herror.symm.trans (Assembly.error_of_conclude_ofParts hconclude)
  rfl

end Objects

/-! ## The discriminator -/

section Discriminator

variable {conditions : List FixedMember} (members : List (String × Document))

theorem holdsOf_readers_iff :
    (∀ reader ∈ Condition.readers (conditions.map FixedMember.condition),
        reader.HoldsOf (memberTokens members)) ↔
      ∀ fixed ∈ conditions, fixed.MetBy members := by
  simp only [Condition.readers, List.forall_mem_map]
  exact forall₂_congr fun fixed _ => fixed.holdsOf_iff members

theorem readers_ne_nil (hconditions : conditions ≠ []) :
    Condition.readers (conditions.map FixedMember.condition) ≠ [] := by
  simpa [Condition.readers] using hconditions

/-- The machine of the discriminator of an object with conditions. -/
def discriminating (conditions : List FixedMember) : Reader Token Unit :=
  objectReader (.ofParts .nil (Condition.readers (conditions.map FixedMember.condition)))

theorem discriminator_object (parts : Parts (ReadCodec Token) β) (hconditions : conditions ≠ []) :
    (ReadCodec.object parts (conditions.map FixedMember.condition)).discriminator =
      some (discriminating conditions) := by
  simp [ReadCodec.object, hconditions, discriminating]

theorem succeedsOn_discriminating_iff (hconditions : conditions ≠ []) :
    (discriminating conditions).SucceedsOn (Document.object members).tokens ↔
      ∀ fixed ∈ conditions, fixed.MetBy members := by
  have hreaders := readers_ne_nil hconditions
  rw [← holdsOf_readers_iff]
  constructor
  · rintro ⟨hnone, -⟩
    exact holdsOf_of_firstFailure hreaders hnone
  · intro hall
    have hnothing : (Slots.ofParts .nil).evaluate (memberTokens members) = .ok () :=
      Slots.evaluate_nil _
    apply succeedsOn_objectReader (streams_of_conditions hreaders)
    rw [firstFailure_of_holdsOf .nil hreaders hall, hnothing]

/-- Asked as one of several alternatives, the discriminator says the same. -/
theorem admits_discriminating_iff (hconditions : conditions ≠ []) :
    (discriminating conditions).admits (Document.object members).tokens = true ↔
      ∀ fixed ∈ conditions, fixed.MetBy members := by
  rw [← succeedsOn_discriminating_iff members hconditions]
  refine ⟨fun hadmits => ?_, Reader.admits_of_succeedsOn⟩
  apply succeedsOn_objectReader (streams_of_conditions (readers_ne_nil hconditions))
  cases hfailed : (discriminating conditions).firstFailure (Document.object members).tokens with
  | none => exact hfailed
  | some failure => cases hadmits.symm.trans (Reader.admits_of_firstFailure hfailed)

end Discriminator

/-- An object codec with conditions has a discriminator, which succeeds on an
object if and only if the members meet every condition.  Where the reader does
not fail, the discriminator succeeds.  Where the discriminator succeeds, the
reader gives a value, or the members fail it as they fail the codec without the
conditions. -/
theorem discriminator_agrees (parts : Parts (ReadCodec Token) β) {conditions : List FixedMember}
    (hconditions : conditions ≠ []) (members : List (String × Document)) :
    let codec := ReadCodec.object parts (conditions.map FixedMember.condition)
    let unit := (Document.object members).tokens
    ∃ discriminator, codec.discriminator = some discriminator ∧
      (discriminator.SucceedsOn unit ↔ ∀ fixed ∈ conditions, fixed.MetBy members) ∧
      (codec.reader.firstFailure unit = none → discriminator.SucceedsOn unit) ∧
      (discriminator.SucceedsOn unit → codec.reader.SucceedsOn unit ∨
        ∃ failure, codec.reader.firstFailure unit = some failure ∧
          (ReadCodec.object parts).reader.firstFailure unit = some failure) := by
  intro codec unit
  have hreaders := readers_ne_nil hconditions
  have hsucceeds := succeedsOn_discriminating_iff members hconditions
  refine ⟨discriminating conditions, discriminator_object parts hconditions, hsucceeds, ?_, ?_⟩
  · intro hnone
    exact hsucceeds.mpr ((holdsOf_readers_iff members).mp (holdsOf_of_firstFailure hreaders hnone))
  · intro hdiscriminator
    have hall := (holdsOf_readers_iff members).mpr (hsucceeds.mp hdiscriminator)
    have hreader := firstFailure_of_holdsOf (parts.mapParts ReadCodec.part) hreaders hall
    cases hvalue : (Slots.ofParts (parts.mapParts ReadCodec.part)).evaluate
      (memberTokens members) with
    | ok value =>
        rw [hvalue] at hreader
        exact .inl (succeedsOn_objectReader (streams_of_conditions hreaders) hreader)
    | error failure =>
        rw [hvalue] at hreader
        exact .inr ⟨failure, hreader, firstFailure_of_no_conditions hvalue⟩

/-- Null, a structure and the names in it count for no condition, and a member of
another value does not keep the discriminator from succeeding. -/
theorem discriminator_agrees_member_fails :
    let conditions : List FixedMember :=
      [{ name := "kind", kind := .string, value := "a" },
        { name := "draft", kind := .boolean, value := false }]
    let parts := Parts.one (Scalar.integer.codec.toReadCodec.member "id")
    let codec := ReadCodec.object parts (conditions.map FixedMember.condition)
    let members : List (String × Document) :=
      [("kind", .null), ("draft", .bool false), ("id", .bool true),
        ("kind", .array [.object [("kind", .string "b")]]), ("kind", .string "a")]
    let unit := (Document.object members).tokens
    let failure : Failure := .located ["id"] (.unexpected "(integer)" "true")
    conditions ≠ [] ∧ (∀ fixed ∈ conditions, fixed.MetBy members) ∧
      ∃ discriminator, codec.discriminator = some discriminator ∧
        discriminator.SucceedsOn unit ∧ codec.reader.firstFailure unit = some failure ∧
          (ReadCodec.object parts).reader.firstFailure unit = some failure := by
  intro conditions parts codec members unit failure
  have hne : conditions ≠ [] := List.cons_ne_nil _ _
  have hmet : ∀ fixed ∈ conditions, fixed.MetBy members := by
    intro fixed hmem
    rcases List.mem_cons.mp hmem with rfl | hmem
    · refine ⟨⟨.string "a", ?_, rfl⟩, ?_⟩ <;>
        simp [members, occurrences, isStructure, Plain.scalar, Scalar.decode, Decoded.ofParsed,
          Scalar.string, Scalar.ofString]
    · cases List.mem_singleton.mp hmem
      refine ⟨⟨.bool false, ?_, rfl⟩, ?_⟩
      · simp [members, occurrences]
      · intro value hvalue _ _
        have hone : value = .bool false := by simpa [members, occurrences] using hvalue
        subst hone
        rfl
  obtain ⟨discriminator, hsome, hiff, -, hagree⟩ := discriminator_agrees parts hne members
  have hsucceeds := hiff.mpr hmet
  have hreader : codec.reader.firstFailure unit = some failure := rfl
  refine ⟨hne, hmet, discriminator, hsome, hsucceeds, hreader, ?_⟩
  rcases hagree hsucceeds with ⟨hnone, -⟩ | ⟨earlier, hfailed, hplain⟩
  · cases hreader.symm.trans hnone
  · cases hreader.symm.trans hfailed
    exact hplain

end Json

end TokenCodec
