/-!
# Tokens

A line is cut into tokens; the kinds named here are those that no rule has to mention.
-/

namespace Scribe

structure Token where
  /-- Such as `keyword` or `string.quoted`. -/
  kind : String
  /-- The text that the token covers. -/
  value : String
  deriving DecidableEq, Repr, Inhabited

namespace Token

/-- Text that no rule has matched. -/
def textKind : String := "text"

/-- A character passed over because the rules do not get on without it. -/
def emptyKind : String := "empty"

/-- What is left of a line whose budget of matches is used up. -/
def overflowKind : String := "overflow"

end Token

/-- The state in which the first line starts; every table has it. -/
def startState : String := "start"

end Scribe
