import Scribe.Buffer.Context
import Scribe.Dict
import Scribe.Snippet.Token
import Scribe.Text.Clock
import Scribe.Text.Path

/-!
# Variables of snippets

The value of a variable is the one that was set, else what the editor and the clock say. A variable may be
written with `TM_` before its name. One that nobody knows is empty. Resolving puts the values in place of
the variables; a value is text, and is never read as snippet syntax.
-/

namespace Scribe

structure Variables where
  custom : Dict String String := Dict.empty
  clock : Clock
  deriving Repr

namespace Variables

/-- The name without `TM_`. -/
def bareName (name : String) : String :=
  match Text.dropStart? ['T', 'M', '_'] name.toList with
  | some rest => String.ofList rest
  | none => name

def set (vars : Variables) (name value : String) : Variables :=
  { vars with custom := vars.custom.insert (bareName name) value }

def remove (vars : Variables) (name : String) : Variables :=
  { vars with custom := vars.custom.erase (bareName name) }

/-! ## The groups of a trigger -/

/-- `M` or `T` and a number. -/
def isCaptureName (name : String) : Bool :=
  match name.toList with
  | c :: digits => (c == 'M' || c == 'T') && !digits.isEmpty && digits.all Char.isDigit
  | [] => false

def clearCaptures (vars : Variables) : Variables :=
  { vars with custom := vars.custom.filterKeys (!isCaptureName ·) }

def numbered (letter : Char) (groups : List String) : List (String × String) :=
  groups.zipIdx.map fun (group, i) => (String.ofList (letter :: Nat.toDigits 10 i), group)

/-- The groups matched before the cursor are `M0`, `M1` and so on, those after it `T0`, `T1` and so on. -/
def setCaptures (vars : Variables) (before after : List String) : Variables :=
  let vars := vars.clearCaptures
  { vars with custom := vars.custom.insertMany (numbered 'M' before ++ numbered 'T' after) }

/-! ## Values -/

/-- Each line of a text but the first begins with the indentation. -/
def indentLines (indentation : List Char) (text : String) : String :=
  String.ofList (Text.replaceChar '\n' ('\n' :: indentation) text.toList)

def textOr (text : Option (List Char)) : String := String.ofList (text.getD [])

/-- What the editor and the clock say. -/
def builtin (clock : Clock) (ctx : EditContext) (indentation : List Char) (name : String) : String :=
  let row := ctx.cursor.row
  let path := ctx.filePath.map fun p => Path.ofText p.toList
  match name with
  | "SELECTION" | "SELECTED_TEXT" => indentLines indentation ctx.selectedText
  | "CURRENT_WORD" => ctx.currentWord
  | "CURRENT_LINE" => ctx.lineOr row
  | "PREV_LINE" => if row = 0 then "" else ctx.lineOr (row - 1)
  | "LINE_INDEX" => Text.padded 1 row
  | "LINE_NUMBER" => Text.padded 1 (row + 1)
  | "SOFT_TABS" => if ctx.softTabs then "YES" else "NO"
  | "TAB_SIZE" => Text.padded 1 ctx.tabSize
  | "CLIPBOARD" => ctx.clipboard.getD ""
  | "FILEPATH" => ctx.filePath.getD ""
  | "FILENAME" => textOr (path.bind (·.fileName?))
  | "FILENAME_BASE" => textOr ((path.bind (·.fileName?)).map Path.stem)
  | "DIRECTORY" => textOr ((path.bind (·.parent?)).map Path.toText)
  | "WORKSPACE_NAME" => ctx.workspaceName.getD ""
  | "FULLNAME" => ctx.fullName.getD ""
  | "BLOCK_COMMENT_START" => (ctx.blockComment.map (·.1)).getD ""
  | "BLOCK_COMMENT_END" => (ctx.blockComment.map (·.2)).getD ""
  | "LINE_COMMENT" => ctx.lineComment.getD ""
  | "CURRENT_YEAR" => clock.writtenYear
  | "CURRENT_YEAR_SHORT" => clock.shortYear
  | "CURRENT_MONTH" => Text.padded 2 clock.month
  | "CURRENT_MONTH_NAME" => clock.monthName
  | "CURRENT_MONTH_NAME_SHORT" => Clock.abbreviated clock.monthName
  | "CURRENT_DATE" => Text.padded 2 clock.day
  | "CURRENT_DAY_NAME" => clock.dayName
  | "CURRENT_DAY_NAME_SHORT" => Clock.abbreviated clock.dayName
  | "CURRENT_HOUR" => Text.padded 2 clock.hour
  | "CURRENT_MINUTE" => Text.padded 2 clock.minute
  | "CURRENT_SECOND" => Text.padded 2 clock.second
  | _ => ""

/-- `indentation` stands before each line but the first of a selection. -/
def value (vars : Variables) (ctx : EditContext) (indentation : List Char) (name : String) : String :=
  let name := bareName name
  match vars.custom.get? name with
  | some value => value
  | none => builtin vars.clock ctx indentation name

/-- Runs a transform that may refer to the variables. -/
def transform (vars : Variables) (ctx : EditContext) (t : Transform) (text : String) : String :=
  t.apply (vars.value ctx []) text

/-- The value of an occurrence of a variable. -/
def occurrenceValue (vars : Variables) (ctx : EditContext) (indentation : List Char)
    (v : VariableMark) : String :=
  let text := vars.value ctx indentation v.name
  match v.transform with
  | some t => vars.transform ctx t text
  | none => text

/-! ## Resolving -/

/-- What is resolved so far. -/
structure Resolved where
  /-- The last token first. -/
  tokens : List SnippetToken := []
  /-- The text on the current line. -/
  line : List Char := []
  /-- The markers of the variables met. -/
  met : List Nat := []

/-- The end of a text behind its last line end. -/
def lastLine (line text : List Char) : List Char :=
  match Text.cutAt '\n' text with
  | [] => line
  | [piece] => line ++ piece
  | _ :: pieces => pieces.getLastD []

/-- A text joins the text before it. -/
def Resolved.pushText (r : Resolved) (text : String) : Resolved :=
  let line := lastLine r.line text.toList
  match r.tokens with
  | .text before :: rest => { r with tokens := .text (before ++ text) :: rest, line }
  | tokens => { r with tokens := if text.isEmpty then tokens else .text text :: tokens, line }

/-- Resolves the tokens after the first `skip`. -/
def resolveFrom (vars : Variables) (ctx : EditContext) (r : Resolved) (skip : Nat) :
    List SnippetToken → Resolved
  | [] => r
  | token :: rest =>
    match skip, token with
    | n + 1, _ => resolveFrom vars ctx r n rest
    | 0, .text s => resolveFrom vars ctx (r.pushText s) 0 rest
    | 0, .tabstop t => resolveFrom vars ctx { r with tokens := .tabstop t :: r.tokens } 0 rest
    | 0, .var v =>
      if r.met.contains v.marker then resolveFrom vars ctx r 0 rest
      else
        let r := { r with met := v.marker :: r.met }
        let text := vars.occurrenceValue ctx (Text.indentation r.line) v
        if text.isEmpty then resolveFrom vars ctx r 0 rest
        else
          -- The value stands for the whole placeholder, its default included.
          let body := (bodyLength? v.marker rest).map (· + 1)
          resolveFrom vars ctx (r.pushText text) (body.getD 0) rest

/-- The snippet without variables. Where the value is empty the default stays. -/
def resolve (vars : Variables) (ctx : EditContext) (tokens : List SnippetToken) : List SnippetToken :=
  (vars.resolveFrom ctx {} 0 tokens).tokens.reverse

end Variables

end Scribe
