import Scribe.Buffer.Position
import Scribe.Unicode.Property

/-!
# What a snippet sees of the editor

The lines, the cursor, and what else the variables of a snippet tell about. An editor that knows no more
than its lines and its cursor leaves the rest as it is here.
-/

namespace Scribe

structure EditContext where
  lines : Array String
  cursor : Position
  selectedText : String := ""
  softTabs : Bool := true
  tabSize : Nat := 4
  clipboard : Option String := none
  filePath : Option String := none
  workspaceName : Option String := none
  fullName : Option String := none
  lineComment : Option String := none
  /-- Start and end. -/
  blockComment : Option (String × String) := none
  deriving DecidableEq, Repr, Inhabited

namespace EditContext

def line? (ctx : EditContext) (row : Nat) : Option String := ctx.lines[row]?

def lineOr (ctx : EditContext) (row : Nat) : String := (ctx.line? row).getD ""

/-- What a tab in a snippet becomes. -/
def tabString (ctx : EditContext) : String :=
  if ctx.softTabs then String.ofList (List.replicate ctx.tabSize ' ') else "\t"

def isWordChar (c : Char) : Bool := Unicode.isAlphanumeric c || c == '_'

/-- The word in which the cursor is or which it touches. -/
def currentWord (ctx : EditContext) : String :=
  let line := (ctx.lineOr ctx.cursor.row).toList
  let before := (line.take ctx.cursor.column).reverse.takeWhile isWordChar
  let after := (line.drop ctx.cursor.column).takeWhile isWordChar
  String.ofList (before.reverse ++ after)

end EditContext

end Scribe
