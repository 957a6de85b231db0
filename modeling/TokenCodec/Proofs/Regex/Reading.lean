import TokenCodec.Proofs.Regex.Assembly
import TokenCodec.Proofs.Regex.Lexemes

/-!
# The written form of expressions

How an expression is read, piece by piece, up to a closing parenthesis or the end
of the text.  In parentheses it is read the same way, so that it is anchored by
writing the anchors around it; and no repetition that is read has a least number
of rounds above its limit.
-/

namespace TokenCodec.Regex

/-! ## The grammar -/

/-- The characters that are no pieces themselves, repetition marks aside. -/
def signs : List Char := [')', '|', '(', '[', '\\', '.', '^', '$']

/-- A piece that is no group: its expression, and what is left. -/
inductive ReadsPiece (flags : Flags) : List Char → Pattern → List Char → Prop where
  | set {chars rest : List Char} {set : CharSet} (hclass : class? flags chars = some (set, rest)) :
      ReadsPiece flags ('[' :: chars) (.one set) rest
  | escape {chars rest : List Char} {piece : Pattern}
      (hescape : escape? flags chars = some (piece, rest)) :
      ReadsPiece flags ('\\' :: chars) piece rest
  | dot {rest : List Char} : ReadsPiece flags ('.' :: rest)
      (.one (if flags.dotAll then .any else .complement (.single '\n'))) rest
  | start {rest : List Char} : ReadsPiece flags ('^' :: rest)
      (.look (if flags.multiLine then .lineStart else .textStart)) rest
  | stop {rest : List Char} : ReadsPiece flags ('$' :: rest)
      (.look (if flags.multiLine then .lineEnd else .textEnd)) rest
  | literal {c : Char} {rest : List Char} (hplain : c ∉ signs)
      (hmark : beginsRepetition c = false) :
      ReadsPiece flags (c :: rest) (.one (literal flags c)) rest

/-- The name of a group does not begin here. -/
def Nameless (chars : List Char) : Prop :=
  (∀ rest, chars ≠ 'P' :: '<' :: rest) ∧ ∀ rest, chars ≠ '<' :: rest

/-- The beginning of a group after its parenthesis: the flags in the group,
whether its match is noted, and what is left. -/
inductive OpensGroup (flags : Flags) : List Char → Flags → Bool → List Char → Prop where
  | numbered {chars : List Char} (hplain : ∀ rest, chars ≠ '?' :: rest) :
      OpensGroup flags chars flags true chars
  | named {chars rest : List Char} (hname : afterName? chars = some rest) :
      OpensGroup flags ('?' :: 'P' :: '<' :: chars) flags true rest
  | alsoNamed {chars rest : List Char} (hname : afterName? chars = some rest) :
      OpensGroup flags ('?' :: '<' :: chars) flags true rest
  | flagged {chars rest : List Char} {inside : Flags} (hnameless : Nameless chars)
      (hflags : flags? flags true chars = some (inside, true, rest)) :
      OpensGroup flags ('?' :: chars) inside false rest

/-- The expression of a group, whose match may be noted. -/
def Pattern.grouped (noted : Bool) (index : Nat) (a : Pattern) : Pattern :=
  if noted then .group index a else a

/-- How alternatives are read: behind what is read of the first one stands the
end, a bar with other alternatives, or something that is added to it. -/
inductive Reads : Nat → Flags → Branch → List Char → List Pattern → Nat → List Char → Prop where
  | finish {fuel : Nat} {flags : Flags} {branch : Branch} :
      Reads (fuel + 1) flags branch [] [branch.pattern] branch.groups []
  | close {fuel : Nat} {flags : Flags} {branch : Branch} {rest : List Char} :
      Reads (fuel + 1) flags branch (')' :: rest) [branch.pattern] branch.groups (')' :: rest)
  | bar {fuel groups : Nat} {flags : Flags} {branch : Branch} {chars rest : List Char}
      {others : List Pattern}
      (hothers : Reads fuel flags (.fresh branch.groups) chars others groups rest) :
      Reads (fuel + 1) flags branch ('|' :: chars) (branch.pattern :: others) groups rest
  | piece {fuel groups : Nat} {flags : Flags} {branch : Branch} {chars after rest : List Char}
      {piece : Pattern} {patterns : List Pattern} (hpiece : ReadsPiece flags chars piece after)
      (hafter : Reads fuel flags (branch.push piece) after patterns groups rest) :
      Reads (fuel + 1) flags branch chars patterns groups rest
  | group {fuel count groups : Nat} {flags inside : Flags} {noted : Bool} {branch : Branch}
      {chars opened after rest : List Char} {inner patterns : List Pattern}
      (hopens : OpensGroup flags chars inside noted opened)
      (hinner : Reads fuel inside (.fresh (branch.groups + noted.toNat)) opened inner count
        (')' :: after))
      (hafter : Reads fuel flags (branch.pushGroup
        (.grouped noted (branch.groups + 1) (.choice inner)) count) after patterns groups rest) :
      Reads (fuel + 1) flags branch ('(' :: chars) patterns groups rest
  | flags {fuel groups : Nat} {flags inside : Flags} {branch : Branch}
      {chars after rest : List Char} {patterns : List Pattern} (hnameless : Nameless chars)
      (hflags : flags? flags true chars = some (inside, false, after))
      (hafter : Reads fuel inside branch.unrepeatable after patterns groups rest) :
      Reads (fuel + 1) flags branch ('(' :: '?' :: chars) patterns groups rest
  | repetition {fuel least groups : Nat} {most : Option Nat} {flags : Flags}
      {branch repeated : Branch} {chars marked rest : List Char} {patterns : List Pattern}
      (hmark : repetition? chars = some (least, most, marked))
      (hlast : branch.repeatLast least most ((lazyMark marked).1 == flags.swapGreed) =
        some repeated)
      (hafter : Reads fuel flags repeated (lazyMark marked).2 patterns groups rest) :
      Reads (fuel + 1) flags branch chars patterns groups rest

section Reads

variable {fuel groups : Nat} {flags inside : Flags} {noted : Bool} {branch : Branch}
  {chars rest : List Char} {piece : Pattern} {patterns : List Pattern}

theorem ReadsPiece.append (hpiece : ReadsPiece flags chars piece rest) (more : List Char) :
    ReadsPiece flags (chars ++ ')' :: more) piece (rest ++ ')' :: more) := by
  cases hpiece with
  | set hclass => exact .set (class?_append hclass more)
  | escape hescape => exact .escape (escape?_append hescape _)
  | dot => exact .dot
  | start => exact .start
  | stop => exact .stop
  | literal hplain hmark => exact .literal hplain hmark

theorem Nameless.append (hnameless : Nameless chars) (more : List Char) :
    Nameless (chars ++ ')' :: more) :=
  ⟨ne_cons_cons_append hnameless.1 (by decide) (by decide) more,
    ne_cons_append hnameless.2 (by decide) more⟩

theorem OpensGroup.append (hopens : OpensGroup flags chars inside noted rest) (more : List Char) :
    OpensGroup flags (chars ++ ')' :: more) inside noted (rest ++ ')' :: more) := by
  cases hopens with
  | numbered hplain => exact .numbered (ne_cons_append hplain (by decide) more)
  | named hname => exact .named (afterName?_append hname _)
  | alsoNamed hname => exact .alsoNamed (afterName?_append hname _)
  | flagged hnameless hflags => exact .flagged (hnameless.append more) (flags?_append hflags _)

/-- What is read up to the end of the text is read the same way up to a closing
parenthesis. -/
theorem Reads.append (extra : Nat) (hreads : Reads fuel flags branch chars patterns groups rest)
    (more : List Char) :
    Reads (fuel + extra) flags branch (chars ++ ')' :: more) patterns groups
      (rest ++ ')' :: more) := by
  induction hreads with
  | finish =>
      rw [Nat.add_right_comm]
      exact .close
  | close =>
      rw [Nat.add_right_comm]
      exact .close
  | bar _ ih =>
      rw [Nat.add_right_comm]
      exact .bar ih
  | piece hpiece _ ih =>
      rw [Nat.add_right_comm]
      exact .piece (hpiece.append more) ih
  | group hopens _ _ ihinner ihafter =>
      rw [Nat.add_right_comm]
      exact .group (hopens.append more) ihinner ihafter
  | flags hnameless hflags _ ih =>
      rw [Nat.add_right_comm]
      exact .flags (hnameless.append more) (flags?_append hflags _) ih
  | @repetition fuel least groups most flags branch repeated chars marked rest patterns
      hmark hlast _ ih =>
      rw [Nat.add_right_comm]
      have hlazy := lazyMark_append marked more
      have hagain : branch.repeatLast least most
          ((lazyMark (marked ++ ')' :: more)).1 == flags.swapGreed) = some repeated := by
        rw [hlazy]
        exact hlast
      refine .repetition (repetition?_append hmark _) hagain ?_
      rw [hlazy]
      exact ih

end Reads

/-! ## Expressions between anchors -/

section Text

variable {source : String} {e : Expression}

theorem ReadsPiece.bounded {flags : Flags} {chars rest : List Char} {piece : Pattern}
    (hpiece : ReadsPiece flags chars piece rest) : piece.bounded = true := by
  cases hpiece with
  | escape hescape =>
      rw [escape?.eq_def] at hescape
      split at hescape
      case h_1 => cases hescape
      case h_2 =>
        split at hescape
        case h_1 => cases hescape; rfl
        case h_2 => cases hescape; rfl
        case h_3 =>
          obtain ⟨_, -, ⟨⟩⟩ := Option.map_eq_some_iff.mp hescape
          rfl
  | _ => rfl

/-- The pieces of a branch are bounded. -/
def Branch.Bounded (branch : Branch) : Prop := ∀ a ∈ branch.pieces, a.bounded = true

namespace Branch.Bounded

variable {branch : Branch} {piece : Pattern}

theorem fresh (groups : Nat) : (Branch.fresh groups).Bounded := nofun

theorem pattern (hbranch : branch.Bounded) : branch.pattern.bounded = true :=
  Pattern.bounded_sequence hbranch

theorem pushGroup (hbranch : branch.Bounded) (hpiece : piece.bounded = true) (groups : Nat) :
    (branch.pushGroup piece groups).Bounded := by
  intro a hmem
  rcases List.mem_append.mp hmem with hdone | hlast
  · exact hbranch a hdone
  · rw [List.mem_singleton.mp hlast]
    exact hpiece

theorem push (hbranch : branch.Bounded) (hpiece : piece.bounded = true) :
    (branch.push piece).Bounded :=
  hbranch.pushGroup hpiece branch.groups

theorem unrepeatable (hbranch : branch.Bounded) : branch.unrepeatable.Bounded := by
  intro a hmem
  rw [Branch.unrepeatable, pieces, Option.toList_none, List.append_nil] at hmem
  exact hbranch a hmem

theorem repeatLast {repeated : Branch} {least : Nat} {most : Option Nat} {greedy : Bool}
    (hbranch : branch.Bounded) (hbounds : ∀ limit, most = some limit → least ≤ limit)
    (hrepeated : branch.repeatLast least most greedy = some repeated) : repeated.Bounded := by
  obtain ⟨last, hlast, rfl⟩ := Option.map_eq_some_iff.mp hrepeated
  intro a hmem
  rcases List.mem_append.mp hmem with hdone | hmem
  · exact hbranch a (List.mem_append_left _ hdone)
  · rw [List.mem_singleton.mp hmem]
    refine Pattern.bounded_repetition greedy hbounds (hbranch last ?_)
    rw [pieces, hlast]
    exact List.mem_append_right _ (List.mem_singleton_self last)

end Branch.Bounded

theorem Reads.bounded {fuel groups : Nat} {flags : Flags} {branch : Branch}
    {chars rest : List Char} {patterns : List Pattern}
    (hreads : Reads fuel flags branch chars patterns groups rest) (hbranch : branch.Bounded) :
    ∀ a ∈ patterns, a.bounded = true := by
  induction hreads with
  | finish => exact List.forall_mem_singleton.mpr hbranch.pattern
  | close => exact List.forall_mem_singleton.mpr hbranch.pattern
  | bar _ ih => exact List.forall_mem_cons.mpr ⟨hbranch.pattern, ih (.fresh _)⟩
  | piece hpiece _ ih => exact ih (hbranch.push hpiece.bounded)
  | @group _ _ _ _ _ noted _ _ _ _ _ _ _ _ _ _ ihinner ihafter =>
      have hchoice := Pattern.bounded_choice (ihinner (.fresh _))
      refine ihafter (hbranch.pushGroup ?_ _)
      cases noted <;> exact hchoice
  | flags _ _ _ ih => exact ih hbranch.unrepeatable
  | repetition hmark hlast _ ih =>
      refine ih (hbranch.repeatLast ?_ hlast)
      rintro limit rfl
      exact le_of_repetition? hmark

end Text

end TokenCodec.Regex
