/-!
# Failures and where they happened

A failure is a cause together with the path at which it arose.  Machines that
descend into a named place, a member, an array element or an XML element,
put that place in front of the path while the failure travels outwards.  Input
that ends too early has no place, so that failure carries no path.
-/

namespace TokenCodec

/-- A place inside the value being read, outermost segment first. -/
abbrev Path := List String

namespace Path

/-- The segments after the first: one that starts with a bracket, an array
index, follows directly, and any other follows a dot. -/
def shownTail : List String → String
  | [] => ""
  | segment :: rest =>
      (if segment.toList.head? = some '[' then segment else "." ++ segment) ++
        shownTail rest

/-- The text in front of a message, empty for the empty path. -/
def shown : Path → String
  | [] => ""
  | first :: rest => "at " ++ first ++ shownTail rest ++ ": "

end Path

/-- What went wrong. -/
inductive Cause where
  /-- A token or a decoded value was not the expected one. -/
  | unexpected (expected found : String)
  /-- A required member never appeared in its object. -/
  | missingMember (name : String)
  /-- A required part of a composition produced nothing. -/
  | missing (expected : String)
  /-- A text is not matched as a whole by a regular expression. -/
  | mismatch (pattern text : String)
  /-- No alternative accepted a structural unit. -/
  | noAlternative (expected : List String)
  /-- A structural unit is longer than the buffer may grow. -/
  | bufferLimit (limit : Nat)
  deriving DecidableEq, Repr

/-- The wording of a cause. -/
def Cause.message : Cause → String
  | unexpected expected found => "expected " ++ expected ++ ", found " ++ found
  | missingMember name => "must have field " ++ name
  | missing expected => "expected " ++ expected ++ ", found nothing"
  | mismatch pattern text => "\"" ++ text ++ "\" does not match " ++ pattern
  | noAlternative expected =>
      "no alternative matched, expected one of: " ++ String.intercalate " | " expected
  | bufferLimit limit =>
      "structural unit exceeds the limit of " ++ toString limit ++ " buffered events"

/-- A failure of reading. -/
inductive Failure where
  /-- A cause and the place where it arose. -/
  | located (path : Path) (cause : Cause)
  /-- The input ended before a complete value was read. -/
  | incomplete (expected : String)
  deriving DecidableEq, Repr

namespace Failure

/-- A failure at the place where the machine itself stands. -/
def here (cause : Cause) : Failure := located [] cause

/-- Put a segment in front of the path.  A failure without a path stays as it
is. -/
def within (segment : String) : Failure → Failure
  | located path cause => located (segment :: path) cause
  | incomplete expected => incomplete expected

/-- The path, for the failures that have one. -/
def path? : Failure → Option Path
  | located path _ => some path
  | incomplete _ => none

/-- The full text of a failure. -/
def message : Failure → String
  | located path cause => path.shown ++ cause.message
  | incomplete expected => "incomplete input, expected " ++ expected

@[simp]
theorem within_located (segment : String) (path : Path) (cause : Cause) :
    (located path cause).within segment = located (segment :: path) cause := rfl

@[simp]
theorem path?_within (segment : String) (failure : Failure) :
    (failure.within segment).path? = failure.path?.map (segment :: ·) := by
  cases failure <;> rfl

end Failure

end TokenCodec
