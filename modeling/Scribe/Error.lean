import Scribe.Pattern.Error

/-!
# What can go wrong

The causes for which a table, a mode or a snippet is refused, and their wording.
-/

namespace Scribe

inductive Error where
  /-- A file is missing or cannot be read as text. -/
  | unreadable
  /-- A text is not the JSON that it should be. -/
  | malformed
  /-- The pattern of the rule at `index` of a state does not compile. -/
  | badPattern (state : String) (index : Nat) (pattern : String) (cause : PatternError)
  | unknownState (origin target : String)
  | unknownInclude (origin target : String)
  | missingStart
  | modeNotFound (name : String)
  | badTrigger (snippet : String) (cause : PatternError)
  deriving DecidableEq, Repr

def Error.message : Error → String
  | unreadable => "I/O error"
  | malformed => "JSON parsing error"
  | badPattern state index pattern cause =>
    "invalid regex for rule " ++ toString index ++ " of state '" ++ state ++ "' (" ++ pattern ++ "): " ++
      cause.message
  | unknownState origin target => "state '" ++ origin ++ "' transitions to unknown state '" ++ target ++ "'"
  | unknownInclude origin target => "state '" ++ origin ++ "' includes unknown state '" ++ target ++ "'"
  | missingStart => "rule table has no 'start' state"
  | modeNotFound name => "mode '" ++ name ++ "' not found"
  | badTrigger snippet cause => "invalid trigger for snippet '" ++ snippet ++ "': " ++ cause.message

end Scribe
