import Mathlib.Data.List.TakeWhile
import TokenCodec.Regex.Reading

/-!
# Characters in front of a closing parenthesis

What is read from the beginning of an expression, be it an escape, a class, the
flags or the name of a group, or the bounds of a repetition, is read the same way
when a closing parenthesis and more characters follow: it does not reach over the
parenthesis.
-/

namespace TokenCodec.Regex

section Append

variable {more : List Char}

/-! ## Lists of characters -/

/-- What is taken up to a character that stops it is not changed by what follows. -/
theorem takeWhile_append_of_drop {p : Char → Bool} {chars after : List Char} {c : Char}
    (hdrop : chars.drop (chars.takeWhile p).length = c :: after) (more : List Char) :
    (chars ++ more).takeWhile p = chars.takeWhile p ∧
      (chars ++ more).drop (chars.takeWhile p).length = c :: (after ++ more) := by
  induction chars with
  | nil => cases hdrop
  | cons d chars ih =>
      by_cases hd : p d = true
      · rw [List.takeWhile_cons_of_pos hd] at hdrop ⊢
        obtain ⟨htake, hrest⟩ := ih hdrop
        refine ⟨?_, hrest⟩
        rw [List.cons_append, List.takeWhile_cons_of_pos hd, htake]
      · rw [List.takeWhile_cons_of_neg hd] at hdrop ⊢
        cases hdrop
        exact ⟨List.takeWhile_cons_of_neg hd, rfl⟩

theorem takeWhile_append_close {p : Char → Bool} (hp : p ')' = false) (chars more : List Char) :
    (chars ++ ')' :: more).takeWhile p = chars.takeWhile p := by
  induction chars with
  | nil => exact List.takeWhile_cons_of_neg (by simp [hp])
  | cons c chars ih => rw [List.cons_append, List.takeWhile_cons, List.takeWhile_cons, ih]

theorem dropWhile_append_close {p : Char → Bool} (hp : p ')' = false) (chars more : List Char) :
    (chars ++ ')' :: more).dropWhile p = chars.dropWhile p ++ ')' :: more := by
  induction chars with
  | nil => exact List.dropWhile_cons_of_neg (by simp [hp])
  | cons c chars ih =>
      rw [List.cons_append, List.dropWhile_cons, List.dropWhile_cons, ih]
      split <;> rfl

theorem exists_cons_of_append {chars tail : List Char} {c : Char}
    (heq : chars ++ ')' :: more = c :: tail) (hc : c ≠ ')') : ∃ front, chars = c :: front := by
  cases chars with
  | nil => exact absurd (List.cons.inj heq).1.symm hc
  | cons d chars => exact ⟨chars, congrArg (· :: chars) (List.cons.inj heq).1⟩

/-- The parenthesis does not bring another character to the beginning. -/
theorem ne_cons_append {chars : List Char} {c : Char} (hne : ∀ rest, chars ≠ c :: rest)
    (hc : c ≠ ')') (more rest : List Char) : chars ++ ')' :: more ≠ c :: rest := by
  intro heq
  obtain ⟨front, hfront⟩ := exists_cons_of_append heq hc
  exact hne front hfront

theorem ne_cons_cons_append {chars : List Char} {c d : Char}
    (hne : ∀ rest, chars ≠ c :: d :: rest) (hc : c ≠ ')') (hd : d ≠ ')')
    (more rest : List Char) : chars ++ ')' :: more ≠ c :: d :: rest := by
  intro heq
  obtain ⟨front, rfl⟩ := exists_cons_of_append heq hc
  obtain ⟨front, rfl⟩ := exists_cons_of_append (List.cons.inj heq).2 hd
  exact hne front rfl

/-! ## Escapes -/

theorem codePoint?_append {width : Nat} {chars rest : List Char} {c : Char}
    (hread : codePoint? width chars = some (c, rest)) (more : List Char) :
    codePoint? width (chars ++ more) = some (c, rest ++ more) := by
  rw [codePoint?.eq_def] at hread
  split at hread
  case h_1 inside =>
    dsimp only at hread
    split at hread
    case h_1 after hdrop =>
      obtain ⟨htake, hrest⟩ := takeWhile_append_of_drop hdrop more
      obtain ⟨value, hvalue, ⟨⟩⟩ := Option.map_eq_some_iff.mp hread
      simp only [List.cons_append, codePoint?, htake, hrest, hvalue, Option.map_some]
    case h_2 => cases hread
  case h_2 hbrace =>
    split at hread
    case isFalse => cases hread
    case isTrue hlength =>
      obtain ⟨value, hvalue, ⟨⟩⟩ := Option.map_eq_some_iff.mp hread
      have hle : width ≤ chars.length := by
        rw [List.length_take] at hlength
        omega
      cases chars with
      | nil =>
          rw [List.take_nil] at hvalue
          cases hvalue
      | cons d chars =>
          have hfirst : ∀ after, d :: chars ++ more = '\x7b' :: after → False := by
            intro after heq
            exact hbrace chars (congrArg (· :: chars) (List.cons.inj heq).1)
          simp only [codePoint?, List.take_append_of_le_length hle,
            List.drop_append_of_le_length hle, hlength, hvalue, if_true, Option.map_some]

theorem escaped?_append {chars rest : List Char} {c : Char}
    (hread : escaped? chars = some (c, rest)) (more : List Char) :
    escaped? (chars ++ more) = some (c, rest ++ more) := by
  rw [escaped?.eq_def] at hread
  split at hread
  case h_1 => cases hread
  case h_2 => exact codePoint?_append hread more
  case h_3 => exact codePoint?_append hread more
  case h_4 => exact codePoint?_append hread more
  case h_5 d after hx hu hU =>
    simp only [List.cons_append, escaped?]
    cases hcontrol : control? d with
    | some control =>
        rw [hcontrol] at hread
        cases hread
        rfl
    | none =>
        rw [hcontrol] at hread
        obtain ⟨hplain, ⟨⟩⟩ := Option.ite_none_right_eq_some.mp hread
        exact if_pos hplain

theorem escape?_append {flags : Flags} {piece : Pattern} {chars rest : List Char}
    (hread : escape? flags chars = some (piece, rest)) (more : List Char) :
    escape? flags (chars ++ more) = some (piece, rest ++ more) := by
  cases chars with
  | nil => cases hread
  | cons c chars =>
      rw [List.cons_append]
      simp only [escape?] at hread ⊢
      split at hread
      case h_1 => cases hread; rfl
      case h_2 => cases hread; rfl
      case h_3 =>
        obtain ⟨⟨d, left⟩, hescaped, ⟨⟩⟩ := Option.map_eq_some_iff.mp hread
        have happend := escaped?_append hescaped more
        rw [List.cons_append] at happend
        rw [happend]
        rfl

/-! ## Classes -/

theorem classChar?_append {chars rest : List Char} {c : Char}
    (hread : classChar? chars = some (c, rest)) (more : List Char) :
    classChar? (chars ++ more) = some (c, rest ++ more) := by
  rw [classChar?.eq_def] at hread
  split at hread
  case h_1 => cases hread
  case h_2 after => exact escaped?_append hread more
  case h_3 d after hescape =>
    cases hread
    simp only [List.cons_append, classChar?]

theorem classRange?_append {chars rest : List Char} {set : CharSet}
    (hread : classRange? chars = some (set, rest)) (more : List Char) :
    classRange? (chars ++ ')' :: more) = some (set, rest ++ ')' :: more) := by
  obtain ⟨⟨first, after⟩, hfirst, hread⟩ := Option.bind_eq_some_iff.mp hread
  rw [classRange?, classChar?_append hfirst, Option.bind_eq_bind, Option.bind_some]
  dsimp only at hread ⊢
  split at hread
  case h_1 after =>
    split at hread
    case h_1 after => cases hread; rfl
    case h_2 after => cases hread; rfl
    case h_3 hclose hdash =>
      obtain ⟨⟨last, left⟩, hlast, hread⟩ := Option.bind_eq_some_iff.mp hread
      obtain ⟨horder, ⟨⟩⟩ := Option.ite_none_right_eq_some.mp hread
      have hnoClose := ne_cons_append hclose (by decide) more
      have hnoDash := ne_cons_append hdash (by decide) more
      simp only [List.cons_append]
      rw [classChar?_append hlast]
      exact if_pos horder
  case h_2 hdash =>
    cases hread
    have hnoDash := ne_cons_append hdash (by decide) more
    split
    case h_1 tail heq => exact absurd heq (hnoDash tail)
    case h_2 => rfl

theorem classSign_append (chars more : List Char) : classSign (chars ++ ')' :: more) =
    ((classSign chars).1, (classSign chars).2 ++ ')' :: more) := by
  cases chars with
  | nil => rfl
  | cons c chars =>
      by_cases hc : c = '^'
      · subst hc
        rfl
      · simp [classSign, hc]

theorem classOpening_append (chars more : List Char) : classOpening (chars ++ ')' :: more) =
    ((classOpening chars).1, (classOpening chars).2 ++ ')' :: more) := by
  cases chars with
  | nil => rfl
  | cons c chars =>
      by_cases hclose : c = ']'
      · subst hclose
        rfl
      by_cases hdash : c = '-'
      · subst hdash
        simp only [List.cons_append, classOpening]
        rw [dropWhile_append_close rfl]
      · simp [classOpening, hclose, hdash]

/-- The parenthesis neither completes the name of a class nor breaks one. -/
theorem asciiClass?_append (flags : Flags) (chars more : List Char) :
    asciiClass? flags (chars ++ ')' :: more) =
      (asciiClass? flags chars).map fun found => (found.1, found.2 ++ ')' :: more) := by
  cases chars with
  | nil => rfl
  | cons c chars =>
      by_cases hcolon : c = ':'
      case neg => simp [asciiClass?, hcolon]
      subst hcolon
      simp only [List.cons_append, asciiClass?, classSign_append]
      generalize (classSign chars).2 = inner
      rw [takeWhile_append_close (by decide),
        List.drop_append_of_le_length (List.takeWhile_prefix _).length_le]
      generalize inner.drop _ = after
      match after with
      | [] => rfl
      | [d] => by_cases hd : d = ':' <;> simp [hd]
      | d :: e :: rest =>
          by_cases hd : d = ':'
          case neg => simp [hd]
          by_cases he : e = ']'
          case neg => simp [he]
          subst hd he
          simp only [List.cons_append, Option.map_map]
          rfl

theorem classBody_append {fuel : Nat} {flags : Flags} {combine : CharSet → CharSet}
    {members set : CharSet} {chars rest : List Char} (extra : Nat)
    (hread : classBody fuel flags combine members chars = some (set, rest)) (more : List Char) :
    classBody (fuel + extra) flags combine members (chars ++ ')' :: more) =
      some (set, rest ++ ')' :: more) := by
  induction fuel generalizing combine members set chars rest with
  | zero => cases hread
  | succ fuel ih =>
      rw [Nat.add_right_comm]
      rw [classBody.eq_def] at hread
      dsimp only at hread
      split at hread
      case h_1 => cases hread
      case h_2 after =>
        cases hread
        simp only [List.cons_append, classBody]
      case h_3 after =>
        simp only [List.cons_append, classBody]
        exact ih hread
      case h_4 after =>
        simp only [List.cons_append, classBody]
        exact ih hread
      case h_5 after =>
        simp only [List.cons_append, classBody]
        exact ih hread
      case h_6 after =>
        simp only [List.cons_append, classBody, asciiClass?_append]
        split at hread
        case h_1 named left hascii =>
          rw [hascii]
          exact ih hread
        case h_2 hascii =>
          obtain ⟨⟨inner, left⟩, hinner, hread⟩ := Option.bind_eq_some_iff.mp hread
          simp only [hascii, Option.map_none, classSign_append, classOpening_append, ih hinner]
          exact ih hread
      case h_7 c after =>
        simp only [List.cons_append, classBody]
        split at hread
        case h_1 named hnamed => exact ih hread
        case h_2 hnamed =>
          obtain ⟨⟨range, left⟩, hrange, hread⟩ := Option.bind_eq_some_iff.mp hread
          have happend := classRange?_append hrange more
          simp only [List.cons_append] at happend
          rw [happend]
          exact ih hread
      case h_8 hnil hclose hand hdash htilde hopen hescape =>
        obtain ⟨⟨range, left⟩, hrange, hread⟩ := Option.bind_eq_some_iff.mp hread
        -- the class goes on with a character for itself, and still does
        have hnoNil : chars ++ ')' :: more ≠ [] := by simp
        have hnoClose := ne_cons_append hclose (by decide) more
        have hnoAnd := ne_cons_cons_append hand (by decide) (by decide) more
        have hnoDash := ne_cons_cons_append hdash (by decide) (by decide) more
        have hnoTilde := ne_cons_cons_append htilde (by decide) (by decide) more
        have hnoOpen := ne_cons_append hopen (by decide) more
        have hnoEscape (c : Char) (tail : List Char) :
            chars ++ ')' :: more ≠ '\\' :: c :: tail := by
          intro heq
          obtain ⟨front, rfl⟩ := exists_cons_of_append heq (by decide)
          cases front with
          | nil => cases hrange
          | cons d front => exact hescape d front rfl
        simp only [classBody, classRange?_append hrange]
        exact ih hread

theorem class?_append {flags : Flags} {set : CharSet} {chars rest : List Char}
    (hread : class? flags chars = some (set, rest)) (more : List Char) :
    class? flags (chars ++ ')' :: more) = some (set, rest ++ ')' :: more) := by
  simp only [class?] at hread
  obtain ⟨⟨inner, left⟩, hinner, ⟨⟩⟩ := Option.bind_eq_some_iff.mp hread
  simp only [class?, classSign_append, classOpening_append]
  have happend := classBody_append (more.length + 1) hinner more
  rw [List.length_append, List.length_cons, Nat.add_right_comm, happend]
  rfl

/-! ## Groups -/

theorem flags?_append {flags inside : Flags} {value opens : Bool} {chars rest : List Char}
    (hread : flags? flags value chars = some (inside, opens, rest)) (more : List Char) :
    flags? flags value (chars ++ more) = some (inside, opens, rest ++ more) := by
  induction chars generalizing flags value with
  | nil => cases hread
  | cons c chars ih =>
      rw [flags?.eq_def] at hread
      split at hread
      case h_1 heq => cases heq
      case h_2 heq => cases heq; cases hread; rfl
      case h_3 heq => cases heq; cases hread; rfl
      case h_4 heq =>
        cases heq
        exact ih hread
      case h_5 heq =>
        cases heq
        obtain ⟨put, hput, hread⟩ := Option.bind_eq_some_iff.mp hread
        simp only [List.cons_append, flags?, hput]
        exact ih hread

theorem afterName?_append {chars rest : List Char} (hread : afterName? chars = some rest)
    (more : List Char) : afterName? (chars ++ more) = some (rest ++ more) := by
  rw [afterName?] at hread ⊢
  split at hread
  case h_1 c after hdrop =>
    obtain ⟨hname, ⟨⟩⟩ := Option.ite_none_left_eq_some.mp hread
    have hmore : (chars ++ more).dropWhile (· ≠ '>') = c :: (rest ++ more) := by
      rw [List.dropWhile_append, hdrop]
      rfl
    have hhead : (chars ++ more).head? = chars.head? := by
      cases chars with
      | nil => cases hdrop
      | cons d chars => rfl
    rw [hmore, hhead]
    exact if_neg hname
  case h_2 => cases hread

/-! ## Repetitions -/

theorem bounds?_append {chars rest : List Char} {least : Nat} {most : Option Nat}
    (hread : bounds? chars = some (least, most, rest)) (more : List Char) :
    bounds? (chars ++ more) = some (least, most, rest ++ more) := by
  rw [bounds?] at hread ⊢
  dsimp only at hread ⊢
  split at hread
  case h_1 => cases hread
  case h_2 after hdrop =>
    obtain ⟨htake, hrest⟩ := takeWhile_append_of_drop hdrop more
    rw [htake, hrest]
    dsimp only
    split at hread
    case h_1 =>
      obtain ⟨count, hcount, ⟨⟩⟩ := Option.map_eq_some_iff.mp hread
      rw [hcount]
      rfl
    case h_2 =>
      obtain ⟨count, hcount, ⟨⟩⟩ := Option.map_eq_some_iff.mp hread
      rw [hcount]
      rfl
    case h_3 =>
      obtain ⟨low, hlow, hread⟩ := Option.bind_eq_some_iff.mp hread
      obtain ⟨high, hhigh, hread⟩ := Option.bind_eq_some_iff.mp hread
      obtain ⟨hle, ⟨⟩⟩ := Option.ite_none_right_eq_some.mp hread
      rw [hlow, hhigh]
      exact if_pos hle

theorem repetition?_append {chars rest : List Char} {least : Nat} {most : Option Nat}
    (hread : repetition? chars = some (least, most, rest)) (more : List Char) :
    repetition? (chars ++ more) = some (least, most, rest ++ more) := by
  rw [repetition?.eq_def] at hread
  split at hread
  case h_1 => cases hread; rfl
  case h_2 => cases hread; rfl
  case h_3 => cases hread; rfl
  case h_4 => exact bounds?_append hread more
  case h_5 => cases hread

theorem lazyMark_append (chars more : List Char) : lazyMark (chars ++ ')' :: more) =
    ((lazyMark chars).1, (lazyMark chars).2 ++ ')' :: more) := by
  cases chars with
  | nil => rfl
  | cons c chars =>
      by_cases hmark : c = '?'
      · subst hmark
        rfl
      · simp [lazyMark, hmark]

/-- The limit that is read is not below the least number of rounds. -/
theorem le_of_bounds? {chars rest : List Char} {least limit : Nat}
    (hread : bounds? chars = some (least, some limit, rest)) : least ≤ limit := by
  rw [bounds?] at hread
  dsimp only at hread
  split at hread
  case h_1 => cases hread
  case h_2 =>
    split at hread
    case h_1 =>
      obtain ⟨count, -, ⟨⟩⟩ := Option.map_eq_some_iff.mp hread
      exact Nat.le_refl _
    case h_2 =>
      obtain ⟨count, -, hpair⟩ := Option.map_eq_some_iff.mp hread
      cases hpair
    case h_3 =>
      obtain ⟨low, -, hread⟩ := Option.bind_eq_some_iff.mp hread
      obtain ⟨high, -, hread⟩ := Option.bind_eq_some_iff.mp hread
      obtain ⟨hle, ⟨⟩⟩ := Option.ite_none_right_eq_some.mp hread
      exact hle

theorem le_of_repetition? {chars rest : List Char} {least limit : Nat}
    (hread : repetition? chars = some (least, some limit, rest)) : least ≤ limit := by
  rw [repetition?.eq_def] at hread
  split at hread
  case h_1 => cases hread
  case h_2 => cases hread
  case h_3 => cases hread; exact Nat.zero_le 1
  case h_4 => exact le_of_bounds? hread
  case h_5 => cases hread

end Append

end TokenCodec.Regex
