import Scribe.Pattern.Reader
import Scribe.Pattern.Match

/-!
# Patterns

A pattern is compiled from its source, which is where it can fail, and then searched for in texts.

## The dialect

Patterns are written in a part of the Oniguruma syntax: characters and their codes (`Escape`), classes (`ClassReader`),
anchors, groups, lookaround, conditions, references to groups by number and name, comments, and the options `i`, `m`
and `x` (`Lexeme`). The properties that `\p` knows are those of `CharKind.propertyNames`: the general categories and the
kinds that `[:name:]` has too.

What is outside of this part does not compile where it has a sign of its own: calls of groups in `\g<name>`, references
with a level, absent stretches in `(?~..)`, callouts in `(*NAME)` and `(?{..})`, all other options, such as `W`, `D` and
`S`, and the properties that are scripts, blocks, ages or derived. Where it is a letter behind a backslash, that letter
stands for itself: `\X`, `\y`, `\Y`, `\o`, `\C`, `\M`, `\g` before a quote, and `\x` before braces that hold several codes
or none.
-/

namespace Scribe

structure Pattern where
  source : String
  tree : Tree
  groupCount : Nat
  deriving Repr

/-- Where a pattern and its groups have matched; a group that took no part has no span. -/
structure Match where
  whole : Span
  groups : List (Option Span)
  deriving DecidableEq, Repr, Inhabited

/-- The whole match followed by the groups. -/
def Match.spans (m : Match) : List (Option Span) := some m.whole :: m.groups

namespace Text

def slice (text : Array Char) (span : Span) : String :=
  String.ofList (text.extract span.start span.stop).toList

/-- The text of a span, empty if there is none. -/
def sliceOr (text : Array Char) (span : Option Span) : String :=
  match span with
  | some span => slice text span
  | none => ""

def chars (text : String) : Array Char := text.toList.toArray

end Text

namespace Pattern

def compile (source : String) (caseless : Bool := false) : Except PatternError Pattern := do
  let (tree, groupCount) ← read source.toList caseless
  return { source, tree, groupCount }

/-- The first match that starts at `start` or later. The whole text is looked at, so that an assertion
about what stands before sees it. -/
def find? (p : Pattern) (text : Array Char) (start : Nat) : Option Match :=
  if start ≤ text.size then
    (searchFrom ⟨text, start⟩ p.tree p.groupCount start (text.size - start)).map fun s =>
      { whole := ⟨min s.start s.pos, s.pos⟩, groups := (s.groups.toList).drop 1 }
  else none

/-- The texts of the first match and of its groups. -/
def captures? (p : Pattern) (text : String) : Option (List String) :=
  let chars := Text.chars text
  (p.find? chars 0).map fun m => m.spans.map (Text.sliceOr chars)

def isMatch (p : Pattern) (text : String) : Bool := (p.find? (Text.chars text) 0).isSome

/-- Two patterns count as equal if they were written alike. -/
def sameSource (p q : Pattern) : Bool := p.source == q.source

/-- The characters that mean something in a pattern. -/
def specialChars : List Char :=
  ['\\', '^', '$', '.', '|', '?', '*', '+', '(', ')', '[', ']', '\x7b', '\x7d', '-', '/']

/-- A pattern that matches the text and nothing else. -/
def escape (text : String) : String :=
  String.ofList (text.toList.flatMap fun c => if specialChars.contains c then ['\\', c] else [c])

end Pattern

end Scribe
