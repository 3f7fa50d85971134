import Scribe.Error
import Scribe.Pattern.Basic
import Scribe.Snippet.Definition

/-!
# Triggers

A snippet is expanded where its guard and trigger match at the end of the text before the cursor and its
end trigger and end guard at the start of the text after it. Only what the two triggers match is replaced.
-/

namespace Scribe

structure Snippet where
  definition : SnippetDefinition
  /-- Guard and trigger, for the text before the cursor. -/
  opening : Option Pattern
  /-- The trigger alone. -/
  trigger : Option Pattern
  /-- End trigger and end guard, for the text after the cursor. -/
  closing : Option Pattern
  /-- The end trigger alone. -/
  endTrigger : Option Pattern
  deriving Repr

/-- A snippet whose trigger stands around the cursor. -/
structure TriggerMatch where
  snippet : Snippet
  /-- The groups of the match before the cursor. -/
  beforeCaptures : List String
  /-- The groups of the match after the cursor. -/
  afterCaptures : List String
  /-- The text to remove before the cursor. -/
  replaceBefore : String
  /-- The text to remove after the cursor. -/
  replaceAfter : String
  deriving Repr

namespace Trigger

/-- Whether a pattern begins with an opening parenthesis and ends with a closing one, its anchors apart. -/
def looksGrouped (source : List Char) : Bool :=
  let inner := (Text.dropStart? ['^'] source).getD source
  let inner := if Text.endsWith inner ['$'] then inner.dropLast else inner
  Text.startsWith inner ['('] && Text.endsWith inner [')']

/-- The pattern as a group, so that an anchor or another pattern can stand beside it. -/
def wrap (source : List Char) : List Char :=
  if source.isEmpty || source == ['\\', 'b'] || looksGrouped source then source
  else ['(', '?', ':'] ++ source ++ [')']

/-- `guard` and then `trigger` at the end of a text. -/
def openingSource (trigger guard : List Char) : List Char :=
  let joined := wrap guard ++ wrap trigger
  if joined.isEmpty || Text.endsWith joined ['$'] then joined else joined ++ ['$']

/-- `trigger` and then `guard` at the start of a text. -/
def closingSource (trigger guard : List Char) : List Char :=
  let joined := wrap trigger ++ wrap guard
  if joined.isEmpty || Text.startsWith joined ['^'] then joined else '^' :: joined

/-- A literal trigger becomes a pattern. If it begins like a word it has to begin a word, unless there is a
guard. -/
def withLiteral (d : SnippetDefinition) : SnippetDefinition :=
  match d.trigger, d.tabTrigger with
  | none, some literal =>
    match literal.toList with
    | [] => d
    | c :: _ =>
      let isWord := Unicode.isAlphanumeric c || c == '_'
      { d with
        guard := d.guard <|> (if isWord then some "\\b" else none)
        trigger := some (Pattern.escape literal) }
  | _, _ => d

/-- An empty source is no pattern. -/
def compile? (snippet : String) (source : List Char) : Except Error (Option Pattern) :=
  if source.isEmpty then .ok none
  else match Pattern.compile (String.ofList source) with
    | .ok p => .ok (some p)
    | .error e => .error (.badTrigger snippet e)

/-- The groups of the first match; a pattern that is missing matches the empty text. -/
def captures? (p : Option Pattern) (text : String) : Option (List String) :=
  match p with
  | some p => p.captures? text
  | none => some [""]

/-- The text of the first match, if there is one. -/
def matched (p : Option Pattern) (text : String) : String :=
  (((p.bind (·.captures? text)).bind List.head?).getD "")

end Trigger

namespace Snippet

def compile (definition : SnippetDefinition) : Except Error Snippet := do
  let d := Trigger.withLiteral definition
  let name := (d.name <|> d.tabTrigger).getD ""
  let chars := fun field : Option String => (field.getD "").toList
  let opening ← Trigger.compile? name (Trigger.openingSource (chars d.trigger) (chars d.guard))
  let trigger ← Trigger.compile? name (Trigger.openingSource (chars d.trigger) [])
  let closing ← Trigger.compile? name (Trigger.closingSource (chars d.endTrigger) (chars d.endGuard))
  let endTrigger ← Trigger.compile? name (Trigger.closingSource (chars d.endTrigger) [])
  return { definition := d, opening, trigger, closing, endTrigger }

def name? (s : Snippet) : Option String := s.definition.name
def content (s : Snippet) : String := s.definition.content

/-- Whether any text can trigger the snippet. -/
def hasTrigger (s : Snippet) : Bool := s.opening.isSome || s.closing.isSome

/-- The match at a cursor between two texts. -/
def matchAround? (s : Snippet) (before after : String) : Option TriggerMatch :=
  if !s.hasTrigger then none
  else do
    let beforeCaptures ← Trigger.captures? s.opening before
    let afterCaptures ← Trigger.captures? s.closing after
    return {
      snippet := s
      beforeCaptures
      afterCaptures
      replaceBefore := Trigger.matched s.trigger before
      replaceAfter := Trigger.matched s.endTrigger after }

end Snippet

end Scribe
