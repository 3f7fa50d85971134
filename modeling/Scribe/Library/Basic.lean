import Scribe.Highlight.ModeFile
import Scribe.Highlight.Scan
import Scribe.Snippet.File
import Scribe.Snippet.Store

/-!
# Libraries

A library keeps compiled modes under their names and the snippets for each of them. Several names may stand
for one mode.
-/

namespace Scribe

structure Mode where
  /-- The name it was added with. -/
  name : String
  tokenizer : Tokenizer
  /-- The table it was read from; a mode that was made in code has none. -/
  source : Option ModeFile

structure Library where
  modes : List Mode := []
  /-- The places of the modes by name. -/
  places : Dict String Nat := Dict.empty
  /-- The snippets by scope, in the order in which they were added. -/
  snippets : Dict String (List SnippetDefinition) := Dict.empty
  /-- For the modes that are added from now on. -/
  options : ScanOptions := default

namespace Library

/-- The mode that stands in for unknown ones. -/
def plainName : String := "plain"

def withOptions (options : ScanOptions) : Library := { options }

/-! ## Adding modes -/

/-- Puts a compiled table under a name, in place of what the name has stood for. -/
def setMode (l : Library) (name : String) (tokenizer : Tokenizer) (source : Option ModeFile) : Library :=
  match l.places.get? name with
  | some place => { l with modes := l.modes.modify place fun m => { m with tokenizer, source } }
  | none =>
    { l with
      modes := l.modes ++ [{ name, tokenizer, source }]
      places := l.places.insert name l.modes.length }

def addTable (l : Library) (name : String) (table : RuleTable) : Except Error Library := do
  return l.setMode name (← Tokenizer.compile table l.options) none

def addFile (l : Library) (name : String) (file : ModeFile) : Except Error Library := do
  return l.setMode name (← Tokenizer.compile file.toTable l.options) (some file)

/-- Lets another name stand for a mode. -/
def addAlias (l : Library) (mode name : String) : Library :=
  match l.places.get? mode with
  | some place => { l with places := l.places.insert name place }
  | none => l

/-- Adds the mode without rules, in which every line is one text. -/
def addPlain (l : Library) (names : List String) : Except Error Library := do
  let l ← l.addFile plainName ⟨Dict.ofList [(startState, [])]⟩
  return names.foldl (·.addAlias plainName ·) l

/-! ## Reading files -/

/-- The text of a file. -/
def textOf (file : Option ByteArray) : Except Error String :=
  match file.bind String.fromUTF8? with
  | some text => .ok text
  | none => .error .unreadable

/-- The table in a file. -/
def modeFileOf (file : Option ByteArray) : Except Error ModeFile :=
  match file with
  | none => .error .unreadable
  | some bytes =>
    match (String.fromUTF8? bytes).bind ModeFile.read? with
    | some f => .ok f
    | none => .error .malformed

def addModeFrom (l : Library) (name : String) (file : Option ByteArray) : Except Error Library := do
  l.addFile name (← modeFileOf file)

/-! ## Looking up -/

def contains (l : Library) (name : String) : Bool := l.places.contains name

def mode? (l : Library) (name : String) : Option Mode :=
  (l.places.get? name).bind (l.modes[·]?)

def tokenizer (l : Library) (name : String) : Except Error Tokenizer :=
  match l.mode? name with
  | some m => .ok m.tokenizer
  | none => .error (.modeNotFound name)

/-- Whether two names stand for one mode. -/
def sameMode (l : Library) (name other : String) : Except Error Bool :=
  match l.places.get? name, l.places.get? other with
  | some place, some place' => .ok (place == place')
  | none, _ => .error (.modeNotFound name)
  | _, none => .error (.modeNotFound other)

/-- The tokens of each line of a text, in the named mode or, if asked for, in the plain one. -/
def tokenize (l : Library) (name content : String) (fallback : Bool) : Except Error (List LineTokens) :=
  match l.mode? name <|> (if fallback then l.mode? plainName else none) with
  | some m => .ok (m.tokenizer.tokenize (String.ofList (Text.normalizeLineEnds content.toList)))
  | none => .error (.modeNotFound name)

/-! ## Snippets -/

/-- Adds snippets for a scope; `none` is for all modes. -/
def addSnippets (l : Library) (scope : Option String) (definitions : List SnippetDefinition) : Library :=
  let scope := scope.getD SnippetStore.globalScope
  { l with snippets := l.snippets.insert scope ((l.snippets.get? scope).getD [] ++ definitions) }

def addSnippetsFrom (l : Library) (scope : Option String) (file : Option ByteArray) :
    Except Error Library := do
  return l.addSnippets scope (SnippetFile.read (← textOf file))

def registerScope (store : SnippetStore) (scope : String × List SnippetDefinition) :
    Except Error SnippetStore :=
  match store.register scope.2 (some scope.1) with
  | (store, none) => .ok store
  | (_, some e) => .error e

/-- All snippets, ready to be triggered. -/
def snippetStore (l : Library) : Except Error SnippetStore :=
  l.snippets.entries.foldlM registerScope {}

end Library

end Scribe
