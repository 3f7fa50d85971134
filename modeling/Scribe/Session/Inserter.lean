import Scribe.Session.Event
import Scribe.Snippet.Store

/-!
# Inserting snippets

An inserter puts snippets into an editor, by their text or by the trigger at the cursor, and runs the
session that follows.
-/

namespace Scribe

/-- The commands bound to keys while a session runs. -/
inductive SessionCommand where
  /-- Expands the snippet at the cursor if there is one, and goes to the next tabstop otherwise. -/
  | next
  | previous
  /-- Ends the session. -/
  | cancel
  deriving DecidableEq, Repr

def SessionCommand.ofName? : String → Option SessionCommand
  | "snippet.tab_next" => some next
  | "snippet.tab_previous" => some previous
  | "snippet.cancel" => some cancel
  | _ => none

structure SnippetInserter where
  store : SnippetStore := {}
  vars : Variables
  session : Session
  deriving Repr

namespace SnippetInserter

variable {σ : Type} [Editor σ]

def create (vars : Variables) (linkMirrors : Bool := true) : SnippetInserter :=
  { vars, session := { linkMirrors, vars } }

def handle (i : SnippetInserter) (e : σ) (event : EditorEvent) : SnippetInserter × σ :=
  let (session, e) := i.session.handle e event
  ({ i with session }, e)

/-- Tells the session about changes. -/
def handleChanges (i : SnippetInserter) (e : σ) (deltas : List Delta) : SnippetInserter × σ :=
  let (session, e) := i.session.handleAll e (deltas.map .change)
  ({ i with session }, e)

/-- Follows the tabstops of a snippet inserted at `origin` and selects the first one. -/
def beginSession (i : SnippetInserter) (e : σ) (expanded : ExpandedSnippet) (origin : Position) :
    SnippetInserter × σ :=
  let session := if i.session.isActive then i.session
    else { linkMirrors := i.session.linkMirrors, vars := i.vars }
  let (session, e) := session.attach e
  let (session, e) := { session with vars := i.vars }.addTabstops e expanded.tabstops origin
  let (session, e) := session.tabNext e 1
  ({ i with session }, e)

/-- Puts a snippet in place of the selection. In a running session it is nested in the selected
tabstop. -/
def insert (i : SnippetInserter) (e : σ) (source : String) (options : InsertOptions) :
    ExpandedSnippet × SnippetInserter × σ :=
  let range := (Editor.selection e).toRange
  let expanded := expandSnippet i.vars (Editor.context e) options source
  if options.dryRun then (expanded, i, e)
  else
    let (e, deltas) := Editor.replace e range expanded.text
    let (i, e) := i.handleChanges e deltas
    (expanded, i.beginSession e expanded range.start)

/-- The text of the cursor's line before and after the cursor. -/
def aroundCursor (ctx : EditContext) : List Char × List Char :=
  (ctx.lineOr ctx.cursor.row).toList.splitAt ctx.cursor.column

def findTrigger? (i : SnippetInserter) (e : σ) : Option TriggerMatch :=
  let (before, after) := aroundCursor (Editor.context e)
  i.store.findTrigger? (i.store.activeScopes (Editor.mode e)) (String.ofList before) (String.ofList after)

/-- Puts the snippet of a match in place of its triggers. -/
def expandMatch (i : SnippetInserter) (e : σ) (m : TriggerMatch) (options : InsertOptions) :
    SnippetInserter × σ :=
  let cursor := (Editor.context e).cursor
  let start : Position := ⟨cursor.row, cursor.column - m.replaceBefore.length⟩
  let stop : Position := ⟨cursor.row, cursor.column + m.replaceAfter.length⟩
  let (e, deltas) := Editor.replace e (.between start stop) ""
  let (i, e) := i.handleChanges e deltas
  let e := Editor.setSelections e [.cursor start]
  let i := { i with vars := i.vars.setCaptures m.beforeCaptures m.afterCaptures }
  let (_, i, e) := i.insert e m.snippet.content options
  ({ i with vars := i.vars.clearCaptures }, e)

/-- Expands the snippet whose trigger stands at the cursor; answers whether there is one. -/
def expandTrigger (i : SnippetInserter) (e : σ) (options : InsertOptions) : Bool × SnippetInserter × σ :=
  match i.findTrigger? e with
  | none => (false, i, e)
  | some m => if options.dryRun then (true, i, e) else (true, i.expandMatch e m options)

def move (i : SnippetInserter) (e : σ) (step : Int) : SnippetInserter × σ :=
  let (session, e) := i.session.tabNext e step
  ({ i with session }, e)

/-- Runs a command; answers whether it did anything. -/
def run (i : SnippetInserter) (e : σ) (command : SessionCommand) : Bool × SnippetInserter × σ :=
  match command with
  | .next =>
    let (found, i, e) := i.expandTrigger e {}
    if found then (true, i, e)
    else if i.session.isActive then (true, i.move e 1)
    else (false, i, e)
  | .previous => if i.session.isActive then (true, i.move e (-1)) else (false, i, e)
  | .cancel =>
    if i.session.isActive then
      let (session, e) := i.session.detach e
      (true, { i with session }, e)
    else (false, i, e)

end SnippetInserter

end Scribe
