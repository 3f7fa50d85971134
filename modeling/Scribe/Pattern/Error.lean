/-!
# What is wrong with a pattern
-/

namespace Scribe

inductive PatternError where
  | endAtEscape
  | endAtControl
  | unclosedGroup
  | unopenedGroup
  | endInGroup
  | unknownOption
  | nothingToRepeat
  | repeatTooBig
  | unclosedClass
  | emptyClass
  | emptyRange
  | kindAtRangeEnd
  | unknownBracketName
  | unknownProperty (name : String)
  | noSuchGroup
  | undefinedName (name : String)
  | undefinedCall (name : String)
  | emptyName
  | badName (name : String)
  | badNameChar (name : String)
  | badLookBehind
  | badCondition
  | numberTooBig
  | tooManyHexDigits
  | tooFewBytes
  | badBytes
  | badCodePoint
  deriving DecidableEq, Repr

def PatternError.text : PatternError → String
  | endAtEscape => "end pattern at escape"
  | endAtControl => "end pattern at control"
  | unclosedGroup => "end pattern with unmatched parenthesis"
  | unopenedGroup => "unmatched close parenthesis"
  | endInGroup => "end pattern in group"
  | unknownOption => "undefined group option"
  | nothingToRepeat => "target of repeat operator is not specified"
  | repeatTooBig => "too big number for repeat range"
  | unclosedClass => "premature end of char-class"
  | emptyClass => "empty char-class"
  | emptyRange => "empty range in char class"
  | kindAtRangeEnd => "char-class value at end of range"
  | unknownBracketName => "invalid POSIX bracket type"
  | unknownProperty name => "invalid character property name \x7b" ++ name ++ "\x7d"
  | noSuchGroup => "invalid backref number/name"
  | undefinedName name => "undefined name <" ++ name ++ "> reference"
  | undefinedCall name => "undefined group <" ++ name ++ "> reference"
  | emptyName => "group name is empty"
  | badName name => "invalid group name <" ++ name ++ ">"
  | badNameChar name => "invalid char in group name <" ++ name ++ ">"
  | badLookBehind => "invalid pattern in look-behind"
  | badCondition => "invalid if-else syntax"
  | numberTooBig => "too big number"
  | tooManyHexDigits => "too long wide-char value"
  | tooFewBytes => "too short multibyte string"
  | badBytes => "invalid wide-char value"
  | badCodePoint => "invalid code point value"

/-- The wording shown to the user, with the name of the pattern dialect. -/
def PatternError.message (e : PatternError) : String := "Oniguruma error: " ++ e.text

end Scribe
