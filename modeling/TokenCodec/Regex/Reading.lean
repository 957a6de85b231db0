import TokenCodec.Numeral.Integer
import TokenCodec.Regex.Assembly
import TokenCodec.Regex.Search

/-!
# Reading regular expressions

The written form of a regular expression: literal characters, escapes, bracketed
classes with their set operations, groups, alternatives, greedy and lazy
repetitions, anchors, word boundaries, and the flags `i`, `m`, `s` and `U`.  A
flag holds to the end of the group in which it is set.
-/

namespace TokenCodec.Regex

open Numeral

structure Flags where
  /-- Letters match in either case. -/
  ignoreCase : Bool := false
  /-- Anchors match at line ends. -/
  multiLine : Bool := false
  /-- The dot matches a line feed. -/
  dotAll : Bool := false
  /-- Repetitions are lazy unless marked otherwise. -/
  swapGreed : Bool := false
  deriving DecidableEq, Repr

def Flags.put (flags : Flags) (value : Bool) : Char → Option Flags
  | 'i' => some { flags with ignoreCase := value }
  | 'm' => some { flags with multiLine := value }
  | 's' => some { flags with dotAll := value }
  | 'U' => some { flags with swapGreed := value }
  | 'u' => some flags
  | _ => none

def literal (flags : Flags) (c : Char) : CharSet :=
  CharSet.caselessIf flags.ignoreCase (.single c)

/-- The class named by the letter of an escape; an upper case letter names the
complement. -/
def namedClass? : Char → Option CharSet
  | 'd' => some .digit
  | 'D' => some (.complement .digit)
  | 's' => some .space
  | 'S' => some (.complement .space)
  | 'w' => some .word
  | 'W' => some (.complement .word)
  | _ => none

/-- The control character named by the letter of an escape. -/
def control? : Char → Option Char
  | 'n' => some '\n'
  | 't' => some '\t'
  | 'r' => some '\r'
  | 'a' => some '\x07'
  | 'f' => some '\x0c'
  | 'v' => some '\x0b'
  | _ => none

/-- The assertion named by the letter of an escape. -/
def assertion? : Char → Option Assertion
  | 'b' => some .wordBoundary
  | 'B' => some .noWordBoundary
  | 'A' => some .textStart
  | 'z' => some .textEnd
  | _ => none

def hexDigit? (c : Char) : Option Nat :=
  if c.isDigit then some (c.toNat - '0'.toNat)
  else if 'a' ≤ c && c ≤ 'f' then some (c.toNat - 'a'.toNat + 10)
  else if 'A' ≤ c && c ≤ 'F' then some (c.toNat - 'A'.toNat + 10)
  else none

def hexChar? (digits : List Char) : Option Char := do
  let values ← digits.mapM hexDigit?
  let point := values.foldl (fun value digit => 16 * value + digit) 0
  if digits.isEmpty then none
  else if point.isValidChar then some (Char.ofNat point)
  else none

/-- A character given by its code point: in braces, or with a fixed number of
digits. -/
def codePoint? (width : Nat) : List Char → Option (Char × List Char)
  | '\x7b' :: rest =>
      let digits := rest.takeWhile (· ≠ '\x7d')
      match rest.drop digits.length with
      | _ :: rest => (hexChar? digits).map (·, rest)
      | [] => none
  | rest =>
      if (rest.take width).length = width then
        (hexChar? (rest.take width)).map (·, rest.drop width)
      else none

/-- The literal character of an escape, after the backslash. -/
def escaped? : List Char → Option (Char × List Char)
  | [] => none
  | 'x' :: rest => codePoint? 2 rest
  | 'u' :: rest => codePoint? 4 rest
  | 'U' :: rest => codePoint? 8 rest
  | c :: rest =>
      match control? c with
      | some control => some (control, rest)
      | none => if c.toNat < 128 && !c.isAlphanum then some (c, rest) else none

def asciiRanges? (name : String) : Option (List (Char × Char)) :=
  match name with
  | "alnum" => some [('0', '9'), ('A', 'Z'), ('a', 'z')]
  | "alpha" => some [('A', 'Z'), ('a', 'z')]
  | "ascii" => some [('\x00', '\x7f')]
  | "blank" => some [('\t', '\t'), (' ', ' ')]
  | "cntrl" => some [('\x00', '\x1f'), ('\x7f', '\x7f')]
  | "digit" => some [('0', '9')]
  | "graph" => some [('!', '~')]
  | "lower" => some [('a', 'z')]
  | "print" => some [(' ', '~')]
  | "punct" => some [('!', '/'), (':', '@'), ('[', '\x60'), ('\x7b', '~')]
  | "space" => some [('\t', '\r'), (' ', ' ')]
  | "upper" => some [('A', 'Z')]
  | "word" => some [('0', '9'), ('A', 'Z'), ('_', '_'), ('a', 'z')]
  | "xdigit" => some [('0', '9'), ('A', 'F'), ('a', 'f')]
  | _ => none

def classSign : List Char → Bool × List Char
  | '^' :: rest => (true, rest)
  | rest => (false, rest)

/-- A class with an ASCII name, after its opening bracket.  Letters match in
either case before the complement is taken. -/
def asciiClass? (flags : Flags) : List Char → Option (CharSet × List Char)
  | ':' :: chars =>
      let (negated, chars) := classSign chars
      let name := chars.takeWhile Char.isAlpha
      match chars.drop name.length with
      | ':' :: ']' :: rest =>
          (asciiRanges? (String.ofList name)).map fun ranges =>
            let set := CharSet.unions (ranges.map fun range => .range range.1 range.2)
            (CharSet.complementIf negated (CharSet.caselessIf flags.ignoreCase set), rest)
      | _ => none
  | _ => none

/-- A character that may begin or end a range in a class. -/
def classChar? : List Char → Option (Char × List Char)
  | [] => none
  | '\\' :: rest => escaped? rest
  | c :: rest => some (c, rest)

/-- A character of a class, or a range if a dash follows that is neither the
last character of the class nor doubled. -/
def classRange? (chars : List Char) : Option (CharSet × List Char) := do
  let (first, rest) ← classChar? chars
  match rest with
  | '-' :: after =>
      match after with
      | ']' :: _ => some (.single first, rest)
      | '-' :: _ => some (.single first, rest)
      | _ =>
          let (last, rest) ← classChar? after
          if first ≤ last then some (.range first last, rest) else none
  | _ => some (.single first, rest)

/-- The characters at the beginning of a class that stand for themselves there:
dashes, and a closing bracket if no dash came before it. -/
def classOpening : List Char → CharSet × List Char
  | ']' :: rest => (.single ']', rest)
  | '-' :: rest => (.single '-', rest.dropWhile (· == '-'))
  | rest => (.empty, rest)

/-- Read a class after its opening.  `members` is the union read so far, and
`combine` applies the set operation in front of it.  Every round takes a
character, so fuel for the length of the text suffices. -/
def classBody : Nat → Flags → (CharSet → CharSet) → CharSet → List Char →
    Option (CharSet × List Char)
  | 0, _, _, _, _ => none
  | fuel + 1, flags, combine, members, chars =>
      let operand := combine (CharSet.caselessIf flags.ignoreCase members)
      match chars with
      | [] => none
      | ']' :: rest => some (operand, rest)
      | '&' :: '&' :: rest => classBody fuel flags (.intersection operand) .empty rest
      | '-' :: '-' :: rest =>
          classBody fuel flags (fun b => .intersection operand (.complement b)) .empty rest
      | '~' :: '~' :: rest =>
          classBody fuel flags
            (fun b => .intersection (.union operand b)
              (.complement (.intersection operand b))) .empty rest
      | '[' :: rest =>
          match asciiClass? flags rest with
          | some (set, rest) => classBody fuel flags combine (.union members set) rest
          | none => do
              let (negated, rest) := classSign rest
              let (first, rest) := classOpening rest
              let (set, rest) ← classBody fuel flags id first rest
              classBody fuel flags combine (.union members (.complementIf negated set)) rest
      | '\\' :: c :: rest =>
          match namedClass? c with
          | some set => classBody fuel flags combine (.union members set) rest
          | none => do
              let (set, rest) ← classRange? ('\\' :: c :: rest)
              classBody fuel flags combine (.union members set) rest
      | chars => do
          let (set, rest) ← classRange? chars
          classBody fuel flags combine (.union members set) rest

def class? (flags : Flags) (chars : List Char) : Option (CharSet × List Char) := do
  let (negated, rest) := classSign chars
  let (first, rest) := classOpening rest
  let (set, rest) ← classBody (chars.length + 1) flags id first rest
  some (CharSet.complementIf negated set, rest)

def escape? (flags : Flags) : List Char → Option (Pattern × List Char)
  | [] => none
  | c :: rest =>
      match namedClass? c, assertion? c with
      | some set, _ => some (.one set, rest)
      | none, some assertion => some (.look assertion, rest)
      | none, none =>
          (escaped? (c :: rest)).map fun (c, rest) => (.one (literal flags c), rest)

/-- Read the flags of a group after `(?`, up to the colon or the closing
parenthesis that ends them; the last component tells whether a group follows. -/
def flags? : Flags → Bool → List Char → Option (Flags × Bool × List Char)
  | _, _, [] => none
  | flags, _, ':' :: rest => some (flags, true, rest)
  | flags, _, ')' :: rest => some (flags, false, rest)
  | flags, true, '-' :: rest => flags? flags false rest
  | flags, value, c :: rest => (flags.put value c).bind fun flags => flags? flags value rest

def afterName? (chars : List Char) : Option (List Char) :=
  match chars.dropWhile (· ≠ '>') with
  | _ :: rest => if chars.head? = some '>' then none else some rest
  | [] => none

/-- A bound of a counted repetition; there may be white space around it. -/
def bound? (chars : List Char) : Option Nat :=
  let chars := chars.dropWhile Text.isWhiteSpace
  let digits := chars.takeWhile Char.isDigit
  if (chars.drop digits.length).all Text.isWhiteSpace then digits? digits else none

/-- The bounds of a counted repetition, after its opening brace. -/
def bounds? (chars : List Char) : Option (Nat × Option Nat × List Char) :=
  let inside := chars.takeWhile (· ≠ '\x7d')
  match chars.drop inside.length with
  | [] => none
  | _ :: rest =>
      let least := inside.takeWhile (· ≠ ',')
      match inside.drop least.length with
      | [] => (bound? least).map fun count => (count, some count, rest)
      | [_] => (bound? least).map fun count => (count, none, rest)
      | _ :: most => do
          let low ← bound? least
          let high ← bound? most
          if low ≤ high then some (low, some high, rest) else none

/-- The bounds of a repetition mark and the characters after it. -/
def repetition? : List Char → Option (Nat × Option Nat × List Char)
  | '*' :: rest => some (0, none, rest)
  | '+' :: rest => some (1, none, rest)
  | '?' :: rest => some (0, some 1, rest)
  | '\x7b' :: rest => bounds? rest
  | _ => none

def beginsRepetition (c : Char) : Bool := c == '*' || c == '+' || c == '?' || c == '\x7b'

/-- A question mark that makes a repetition lazy. -/
def lazyMark : List Char → Bool × List Char
  | '?' :: rest => (true, rest)
  | rest => (false, rest)

/-- What is read of one alternative: the pieces before the last one, the last
piece, to which a repetition mark applies, and the number of groups so far. -/
structure Branch where
  done : List Pattern
  last : Option Pattern
  groups : Nat

namespace Branch

def fresh (groups : Nat) : Branch := ⟨[], none, groups⟩

def pieces (branch : Branch) : List Pattern := branch.done ++ branch.last.toList

def pattern (branch : Branch) : Pattern := Pattern.sequence branch.pieces

def push (branch : Branch) (piece : Pattern) : Branch :=
  ⟨branch.pieces, some piece, branch.groups⟩

/-- Add a group with its expression, `groups` being the number of groups read
after it. -/
def pushGroup (branch : Branch) (piece : Pattern) (groups : Nat) : Branch :=
  ⟨branch.pieces, some piece, groups⟩

/-- Let no repetition mark apply to what is read. -/
def unrepeatable (branch : Branch) : Branch := ⟨branch.pieces, none, branch.groups⟩

def repeatLast (branch : Branch) (least : Nat) (most : Option Nat) (greedy : Bool) :
    Option Branch :=
  branch.last.map fun last =>
    ⟨branch.done, some (Pattern.repetition least most greedy last), branch.groups⟩

end Branch

/-- Read alternatives up to a closing parenthesis or the end of the text, and
give their expressions, the number of groups and what is left.  Every round
takes a character, so fuel for the length of the text suffices. -/
def alternatives? : Nat → Flags → Branch → List Char →
    Option (List Pattern × Nat × List Char)
  | 0, _, _, _ => none
  | fuel + 1, flags, branch, chars =>
      match chars with
      | [] => some ([branch.pattern], branch.groups, [])
      | ')' :: rest => some ([branch.pattern], branch.groups, ')' :: rest)
      | '|' :: rest => do
          let (others, groups, rest) ←
            alternatives? fuel flags (.fresh branch.groups) rest
          some (branch.pattern :: others, groups, rest)
      | '(' :: '?' :: rest =>
          let named := match rest with
            | 'P' :: '<' :: rest => some rest
            | '<' :: rest => some rest
            | _ => none
          match named with
          | some rest => do
              let rest ← afterName? rest
              let index := branch.groups + 1
              let (inner, groups, rest) ← alternatives? fuel flags (.fresh index) rest
              let rest ← closing? rest
              let piece := Pattern.group index (.choice inner)
              alternatives? fuel flags (branch.pushGroup piece groups) rest
          | none => do
              let (inside, opens, rest) ← flags? flags true rest
              if opens then
                let (inner, groups, rest) ←
                  alternatives? fuel inside (.fresh branch.groups) rest
                let rest ← closing? rest
                alternatives? fuel flags (branch.pushGroup (.choice inner) groups) rest
              else alternatives? fuel inside branch.unrepeatable rest
      | '(' :: rest => do
          let index := branch.groups + 1
          let (inner, groups, rest) ← alternatives? fuel flags (.fresh index) rest
          let rest ← closing? rest
          let piece := Pattern.group index (.choice inner)
          alternatives? fuel flags (branch.pushGroup piece groups) rest
      | '[' :: rest => do
          let (set, rest) ← class? flags rest
          alternatives? fuel flags (branch.push (.one set)) rest
      | '\\' :: rest => do
          let (piece, rest) ← escape? flags rest
          alternatives? fuel flags (branch.push piece) rest
      | '.' :: rest =>
          let set := if flags.dotAll then CharSet.any else .complement (.single '\n')
          alternatives? fuel flags (branch.push (.one set)) rest
      | '^' :: rest =>
          let assertion := if flags.multiLine then Assertion.lineStart else .textStart
          alternatives? fuel flags (branch.push (.look assertion)) rest
      | '$' :: rest =>
          let assertion := if flags.multiLine then Assertion.lineEnd else .textEnd
          alternatives? fuel flags (branch.push (.look assertion)) rest
      | c :: rest =>
          if beginsRepetition c then do
            let (least, most, rest) ← repetition? (c :: rest)
            let (marked, rest) := lazyMark rest
            let branch ← branch.repeatLast least most (marked == flags.swapGreed)
            alternatives? fuel flags branch rest
          else alternatives? fuel flags (branch.push (.one (literal flags c))) rest
where
  /-- The characters after the parenthesis that closes a group. -/
  closing? : List Char → Option (List Char)
    | ')' :: rest => some rest
    | _ => none

structure Expression where
  source : String
  pattern : Pattern
  deriving DecidableEq, Repr

def Expression.ofText? (source : String) : Option Expression :=
  match alternatives? (source.length + 1) {} (.fresh 0) source.toList with
  | some (patterns, _, []) => some ⟨source, .choice patterns⟩
  | _ => none

end TokenCodec.Regex
