import Scribe.Pattern.Basic
import Scribe.Text.Case
import Scribe.Text.Number

/-!
# Transforms

A transform searches a value for a pattern and writes each match anew by a format: texts, references to
groups and variables, changes of case, and branches on whether a reference is empty. Everything between
the matches is kept.
-/

namespace Scribe

/-- A change of case in a format. -/
inductive CaseChange where
  | upperNext | lowerNext
  /-- Capitals until `stop`. -/
  | upper
  /-- Small letters until `stop`. -/
  | lower
  | stop
  deriving DecidableEq, Repr

def CaseChange.ofEscape? : Char → Option CaseChange
  | 'u' => some upperNext
  | 'l' => some lowerNext
  | 'U' => some upper
  | 'L' => some lower
  | 'E' => some stop
  | _ => none

def CaseChange.letter : CaseChange → Char
  | upperNext => 'u'
  | lowerNext => 'l'
  | upper => 'U'
  | lower => 'L'
  | stop => 'E'

/-- The functions that can be applied to a reference. -/
inductive CaseFunction where
  | upcase | downcase | capitalize | camelcase | pascalcase
  deriving DecidableEq, Repr

namespace CaseFunction

def ofName? : String → Option CaseFunction
  | "upcase" => some upcase
  | "downcase" => some downcase
  | "capitalize" => some capitalize
  | "camelcase" => some camelcase
  | "pascalcase" => some pascalcase
  | _ => none

def name : CaseFunction → String
  | upcase => "upcase"
  | downcase => "downcase"
  | capitalize => "capitalize"
  | camelcase => "camelcase"
  | pascalcase => "pascalcase"

def isBreak (c : Char) : Bool := c == '-' || c == '_' || Unicode.isWhitespace c

/-- The pieces between hyphens, underscores and whitespace, empty ones left out. -/
def words : List Char → List (List Char)
  | [] => []
  | c :: rest =>
    if isBreak c then words rest
    else match rest with
      | [] => [[c]]
      | d :: _ =>
        if isBreak d then [c] :: words rest
        else match words rest with
          | word :: more => (c :: word) :: more
          | [] => [[c]]

def apply (f : CaseFunction) (value : List Char) : List Char :=
  match f with
  | upcase => Text.upcase value
  | downcase => Text.downcase value
  | capitalize => Text.capitalize value
  | camelcase =>
    match words value with
    | [] => []
    | word :: more => Text.uncapitalize word ++ more.flatMap Text.capitalize
  | pascalcase => (words value).flatMap Text.capitalize

end CaseFunction

inductive FormatToken where
  | text (s : String)
  /-- A group of the match if it is a number, a variable otherwise. -/
  | ref (name : String)
  | case (change : CaseChange)
  | function (name : String) (f : CaseFunction)
  /-- `ifSet` if the reference is not empty, `ifEmpty` if it is. -/
  | branch (name : String) (ifSet ifEmpty : List FormatToken)
  deriving Repr

/-- The changes of case in force. -/
structure CaseState where
  running : Option CaseFunction := none
  next : Option CaseFunction := none
  deriving DecidableEq, Repr

namespace CaseState

def change (s : CaseState) : CaseChange → CaseState
  | .upperNext => { s with next := some .upcase }
  | .lowerNext => { s with next := some .downcase }
  | .upper => { s with running := some .upcase }
  | .lower => { s with running := some .downcase }
  | .stop => { s with running := none }

def inRunning (s : CaseState) (text : List Char) : List Char :=
  match s.running with
  | some f => f.apply text
  | none => text

/-- A text as it is written now, and the changes in force after it. -/
def write (s : CaseState) (text : List Char) : List Char × CaseState :=
  match s.next, text with
  | some f, c :: rest =>
    let first := if f = .upcase then Unicode.upperChar c else Unicode.lowerChar c
    (first ++ s.inRunning rest, { s with next := none })
  | _, _ => (s.inRunning text, s)

end CaseState

/-- What a format can refer to. -/
structure FormatScope where
  groups : List String
  lookup : String → String

def FormatScope.value (scope : FormatScope) (name : String) : List Char :=
  match Text.number64? name.toList with
  | some n => (scope.groups[n]?.getD "").toList
  | none => (scope.lookup name).toList

mutual

def FormatToken.render (scope : FormatScope) (s : CaseState) : FormatToken → List Char × CaseState
  | .text t => s.write t.toList
  | .ref name => s.write (scope.value name)
  | .case change => ([], s.change change)
  | .function name f => s.write (f.apply (scope.value name))
  | .branch name ifSet ifEmpty =>
    if (scope.value name).isEmpty then FormatToken.renderAll scope s ifEmpty
    else FormatToken.renderAll scope s ifSet

def FormatToken.renderAll (scope : FormatScope) (s : CaseState) : List FormatToken → List Char × CaseState
  | [] => ([], s)
  | t :: rest =>
    let (out, s) := t.render scope s
    let (more, s) := FormatToken.renderAll scope s rest
    (out ++ more, s)

end

structure Transform where
  guard : String
  format : List FormatToken
  /-- With `g` every match is replaced and not only the first one; with `i` case is disregarded. -/
  flags : String
  deriving Repr

namespace Transform

def isGlobal (t : Transform) : Bool := t.flags.toList.contains 'g'

/-- The guard as a pattern, unless it is wrong. -/
def pattern? (t : Transform) : Option Pattern :=
  (Pattern.compile t.guard (t.flags.toList.contains 'i')).toOption

/-- What is written from `pos` on. An empty match keeps the character on which it sits. A round ends
further on than it began, so `rounds` above the number of characters are enough. -/
def rewriteFrom (t : Transform) (p : Pattern) (lookup : String → String) (value : Array Char) :
    Nat → Nat → CaseState → List Char
  | 0, pos, _ => (value.extract pos value.size).toList
  | rounds + 1, pos, s =>
    match p.find? value pos with
    | none => (value.extract pos value.size).toList
    | some m =>
      let before := (value.extract pos m.whole.start).toList
      let (out, s) := FormatToken.renderAll ⟨m.spans.map (Text.sliceOr value), lookup⟩ s t.format
      let (kept, next) :=
        if m.whole.start < m.whole.stop then ([], m.whole.stop)
        else match value[m.whole.start]? with
          | some c => ([c], m.whole.start + 1)
          | none => ([], value.size)
      let atEnd := m.whole.stop ≤ m.whole.start && value.size ≤ m.whole.start
      let rest :=
        if atEnd || !t.isGlobal then (value.extract next value.size).toList
        else rewriteFrom t p lookup value rounds next s
      before ++ out ++ kept ++ rest

/-- The value with its matches rewritten. A guard that is wrong leaves it as it is. -/
def apply (t : Transform) (lookup : String → String) (value : String) : String :=
  match t.pattern? with
  | none => value
  | some p =>
    let chars := Text.chars value
    String.ofList (t.rewriteFrom p lookup chars (chars.size + 2) 0 {})

end Transform

end Scribe
