import TokenCodec.Proofs.Isolation

/-!
# What a failure leaves behind

A failure can strike an object in the middle of a round: the parts in front have
seen the token, the parts behind have not, and some slots are filled.  It can also
come from a condition, or at the closing brace, when part of the values are already
taken out.  On each of these ways the object reader drops its unit as a whole and
stands at its start, as if it had been reset.  There is one failure that it does not
answer with a fresh start: a token in front of an object that does not open one.  It
is refused there, and nothing was begun that could be dropped.
-/

namespace TokenCodec

open Bracketed

variable {τ α β : Type}

namespace Bracketing

variable [Bracketed τ] {reader : Reader τ β}

/-- Every failure inside of a unit leads the reader to its start. -/
def Cleans (bracketing : Bracketing reader) : Prop :=
  ∀ state token, bracketing.depth state ≠ 0 → (reader.feed state token).1.isFailed = true →
    (reader.feed state token).2 = reader.start

namespace Cleans

variable {bracketing : Bracketing reader}

theorem map (hcleans : bracketing.Cleans) (f : β → α) : (bracketing.map f).Cleans := by
  intro state token hinside hfailed
  exact hcleans state token hinside ((Outcome.isFailed_map f _).symm.trans hfailed)

/-- What a failure leaves behind is the state before it, where a unit was refused,
and the start everywhere else. -/
theorem feed_snd_of_isFailed (hcleans : bracketing.Cleans) {state : reader.State} {token : τ}
    (hfailed : (reader.feed state token).1.isFailed = true) :
    (bracketing.depth state = 0 ∧ token ≠ bracketing.opening ∧
        (reader.feed state token).2 = state) ∨
      (reader.feed state token).2 = reader.start := by
  by_cases houtside : bracketing.depth state = 0
  · have hrefused : token ≠ bracketing.opening := by
      rintro rfl
      rw [(bracketing.opens houtside).1] at hfailed
      cases hfailed
    exact .inl ⟨houtside, hrefused, (bracketing.refuses houtside hrefused).2⟩
  · exact .inr (hcleans state token houtside hfailed)

end Cleans

end Bracketing

namespace Json

/-- The closing brace ends the unit of an object whatever comes of it, and so does a
failure before. -/
theorem cleans_bracketingObject {assembly : Assembly Token β} (hresets : assembly.Resets) :
    (bracketingObject hresets).Cleans := by
  intro state token hinside hfailed
  change state.2 ≠ 0 at hinside
  by_cases hends : state.2 = 1 ∧ token = .endObject
  · have hclosed : ((objectReader assembly).feed state token).2 =
        ((assembly.complete state.1).2, 0) := by
      simp only [objectReader, if_neg hinside, if_pos hends]
    rw [hclosed, hresets.complete_eq state.1]
    rfl
  · have hround : ((objectReader assembly).feed state token).1 =
        (assembly.feed state.1 token).1 := by
      simp only [objectReader, if_neg hinside, if_neg hends]
    rw [hround] at hfailed
    have hbroken : ((objectReader assembly).feed state token).2 =
        ((assembly.feed state.1 token).2, 0) := by
      simp only [objectReader, if_neg hinside, if_neg hends, if_pos hfailed]
    rw [hbroken, hresets.feed_of_isFailed hfailed]
    rfl

namespace Root

/-- The root reads objects, and not arrays. -/
def IsObject : {β : Type} → Root β → Prop
  | _, object _ _ _ _ => True
  | _, array _ _ => False
  | _, map root _ => root.IsObject

theorem cleans : {β : Type} → (root : Root β) → root.IsObject → root.bracketing.Cleans
  | _, object _ _ _ _, _ => cleans_bracketingObject _
  | _, map root f, hobject => (root.cleans hobject).map f

theorem opening_of_isObject :
    {β : Type} → (root : Root β) → root.IsObject → root.bracketing.opening = .startObject
  | _, object _ _ _ _, _ => rfl
  | _, map root _, hobject => root.opening_of_isObject hobject

/-- An object reader that fails, whatever it was fed before, either refuses a token in
front of an object, which changes nothing, or answers from then on what a fresh
reader does. -/
theorem afresh_after_failure (root : Root β) (hobject : root.IsObject) {tokens : List Token}
    {token : Token} {failure : Failure}
    (hfailed : (root.codec.reader.feed (root.codec.reader.reached tokens) token).1 =
      .failed failure) :
    (root.bracketing.depthBehind tokens = 0 ∧ token ≠ .startObject ∧
        root.codec.reader.reached (tokens ++ [token]) = root.codec.reader.reached tokens) ∨
      ∀ later, (root.codec.reader.run (root.codec.reader.reached (tokens ++ [token])) later).1 =
        (root.codec.reader.run root.codec.reader.start later).1 := by
  have hbroken : (root.codec.reader.feed (root.codec.reader.reached tokens) token).1.isFailed =
      true := by
    rw [hfailed]
    rfl
  rw [root.codec.reader.reached_concat]
  rcases (root.cleans hobject).feed_snd_of_isFailed hbroken with
    ⟨houtside, hrefused, hsame⟩ | hstart
  · rw [root.opening_of_isObject hobject] at hrefused
    exact .inl ⟨houtside, hrefused, hsame⟩
  · refine .inr fun later => ?_
    rw [hstart]

/-- Objects with a number, a list of numbers and a condition. -/
def series : Root (Int32 × List Int32 × Unit) :=
  .object
    (.cons (Scalar.integer.codec.toReadCodec.member "n")
      (.one (Scalar.integer.codec.toReadCodec.listMember "ns")))
    [(Scalar.boolean.codec.member "ok").fixed true] (by
      intro γ codec hmem
      rcases hmem with hnumber | hlist | hnone
      · cases hnumber
        exact .member "n" (.scalar Scalar.integer)
      · cases hlist
        exact .map (.optional (.member "ns" (.array (.collect (.scalar Scalar.integer))))) _
      · exact hnone.elim)
    (by
      intro condition hmem
      cases List.mem_singleton.mp hmem
      exact readable_condition "ok" Scalar.boolean true)

/-- An object fails in the middle of its list, when the condition is met and a number
is taken.  The next object is read without any of it, in a reader that was not reset:
its own condition is not met. -/
theorem afresh_after_failure_series :
    let tokens : List Token := [.startObject, .name "ok", .bool true, .name "n", .number "1",
      .name "ns", .startArray, .number "2"]
    let later : List Token := [.startObject, .name "n", .number "3", .endObject]
    (series.codec.reader.feed (series.codec.reader.reached tokens) (.bool true)).1 =
        .failed (.located ["ns", "[1]"] (.unexpected "(integer)" "true")) ∧
      (series.codec.reader.run (series.codec.reader.reached (tokens ++ [.bool true])) later).1 =
        [.pending, .pending, .pending,
          .failed (.here (.unexpected "ok: (boolean)=true" "nothing"))] := by
  intro tokens later
  have hfailed : (series.codec.reader.feed (series.codec.reader.reached tokens) (.bool true)).1 =
      .failed (.located ["ns", "[1]"] (.unexpected "(integer)" "true")) := rfl
  have hinside : series.bracketing.depthBehind tokens = 2 := rfl
  have hafresh := (series.afresh_after_failure trivial hfailed).resolve_left
    fun hrefused => nomatch hinside.symm.trans hrefused.1
  exact ⟨hfailed, (hafresh later).trans rfl⟩

end Root

end Json

end TokenCodec
