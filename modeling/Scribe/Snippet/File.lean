import Scribe.Snippet.Definition

/-!
# Files of snippets

A record is a run of lines `key value` and ends with a body, which is indented by a tab. Lines between two
indented ones may be blank. A line that is a JSON object is a record of its own. Lines that begin with `#`,
and lines that cannot be read, are passed over.
-/

namespace Scribe

namespace SnippetFile

/-! ## Reading -/

/-- The pieces between slashes after the one the text begins with. A backslash keeps a slash from its
meaning. What follows the last slash counts only if it is not empty. -/
def splitAtSlashes (current : List Char) : List Char → List (List Char)
  | [] => if current.isEmpty then [] else [current.reverse]
  | '\\' :: c :: rest => splitAtSlashes (c :: '\\' :: current) rest
  | c :: rest =>
    if c = '/' then current.reverse :: splitAtSlashes [] rest
    else splitAtSlashes (c :: current) rest

/-- The patterns of a line `/guard/trigger/endTrigger/endGuard/`. -/
def splitPatterns (value : List Char) : List (List Char) :=
  match Text.trimEnd value with
  | '/' :: rest => splitAtSlashes [] rest
  | _ => []

/-- The pattern at a place; an empty one is none. -/
def patternAt (patterns : List (List Char)) (i : Nat) : Option String :=
  (patterns[i]?.filter (!·.isEmpty)).map String.ofList

def setField (d : SnippetDefinition) (key value : List Char) : SnippetDefinition :=
  let text := String.ofList value
  match String.ofList key with
  | "snippet" =>
    { d with tabTrigger := some (String.ofList (Text.firstWord value)), name := d.name <|> some text }
  | "regex" =>
    let patterns := splitPatterns value
    { d with
      guard := patternAt patterns 0
      trigger := patternAt patterns 1
      endTrigger := patternAt patterns 2
      endGuard := patternAt patterns 3 }
  | "name" => { d with name := some text }
  | "tabTrigger" => { d with tabTrigger := some text }
  | "trigger" => { d with trigger := some text }
  | "guard" => { d with guard := some text }
  | "endTrigger" => { d with endTrigger := some text }
  | "endGuard" => { d with endGuard := some text }
  | "scope" => { d with scope := some text }
  | name => { d with extra := d.extra.insert name text }

/-- A body being read, its last line first. -/
structure Body where
  lines : List (List Char)
  /-- Blank lines after it. They belong to it only if it goes on after them. -/
  blanks : Nat := 0

structure Reading where
  /-- The last record first. -/
  done : List SnippetDefinition := []
  /-- The fields of the record being read. -/
  current : SnippetDefinition := {}
  body : Option Body := none

namespace Reading

/-- Ends the record whose body is being read. -/
def close (r : Reading) : Reading :=
  match r.body with
  | none => r
  | some body =>
    let content := String.ofList (Text.joinWith ['\n'] body.lines.reverse)
    { done := { r.current with content } :: r.done }

def addBodyLine (r : Reading) (line : List Char) : Reading :=
  match r.body with
  | none => { r with body := some { lines := [line] } }
  | some body => { r with body := some { lines := line :: (List.replicate body.blanks [] ++ body.lines) } }

def addField (r : Reading) (line : List Char) : Reading :=
  match Text.cutOnce ' ' line with
  | some (key, value) =>
    if key.isEmpty then r else { r with current := setField r.current key value }
  | none => r

def addObject (r : Reading) (line : List Char) : Reading :=
  match SnippetDefinition.read? (String.ofList (Text.trimEnd line)) with
  | some d => { r with done := d :: r.done }
  | none => r

def addLine (r : Reading) : List Char → Reading
  | '\t' :: rest => r.addBodyLine rest
  | [] => { r with body := r.body.map fun b => { b with blanks := b.blanks + 1 } }
  | '#' :: _ => r.close
  | '\x7b' :: rest => r.close.addObject ('\x7b' :: rest)
  | line => r.close.addField line

end Reading

/-- The definitions in the order of the text. -/
def read (text : String) : List SnippetDefinition :=
  let lines := (Text.cutAt '\n' text.toList).map (Text.dropTrailing (· == '\r'))
  (lines.foldl Reading.addLine {}).close.done.reverse

/-! ## Writing -/

def fieldLine (key : String) (value : Option String) : List Char :=
  match value with
  | some v => key.toList ++ ' ' :: v.toList ++ ['\n']
  | none => []

/-- A name that begins with the trigger as a word tells both in one line. -/
def writeNames (d : SnippetDefinition) : List Char :=
  let apart := fieldLine "name" d.name ++ fieldLine "tabTrigger" d.tabTrigger
  match d.name, d.tabTrigger with
  | some name, some trigger =>
    if !trigger.isEmpty && Text.firstWord name.toList == trigger.toList then fieldLine "snippet" name
    else apart
  | _, _ => apart

def writePatterns (d : SnippetDefinition) : List Char :=
  let patterns := [d.guard, d.trigger, d.endTrigger, d.endGuard]
  if patterns.any (·.isSome) then
    let pieces := patterns.map fun p => (p.getD "").toList
    "regex /".toList ++ Text.joinWith ['/'] pieces ++ ['/', '\n']
  else []

def writeContent (content : String) : List Char :=
  (Text.cutAt '\n' content.toList).flatMap fun line => '\t' :: line ++ ['\n']

def writeRecord (d : SnippetDefinition) : List Char :=
  writeNames d ++ writePatterns d ++ fieldLine "scope" d.scope ++
    d.extra.entries.flatMap (fun (key, value) => fieldLine key value) ++ writeContent d.content

/-- The records with a blank line between each two. -/
def write (ds : List SnippetDefinition) : String :=
  String.ofList (Text.joinWith ['\n'] (ds.map writeRecord))

end SnippetFile

end Scribe
