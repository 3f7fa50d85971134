import Scribe.Snippet.Lexeme
import Scribe.Snippet.Token

/-!
# Parsing snippets

Parsing never fails: what is no snippet syntax is text. The placeholders that are open in the body are
kept on a stack, and so are those in the format of a transform. A transform that does not end makes
the placeholder and all that follows it text.
-/

namespace Scribe

namespace SnippetParser

/-- An open placeholder of the body. -/
structure Frame where
  /-- The place of its opening token. -/
  token : Nat
  /-- The snippet from its `$` on. -/
  source : List Char

/-- What a placeholder of a format chooses between. -/
inductive BranchKind where
  /-- Text if the reference is not empty. -/
  | ifSet
  | ifElse (inElse : Bool)
  /-- Text if the reference is empty. -/
  | otherwise
  deriving DecidableEq, Repr

/-- An open placeholder of a format; its parts have their last token first. -/
structure FormatFrame where
  name : String
  kind : Option BranchKind := none
  ifSet : List FormatToken := []
  ifEmpty : List FormatToken := []

def FormatFrame.fillsEmpty (f : FormatFrame) : Bool :=
  match f.kind with
  | some (.ifElse true) | some .otherwise => true
  | _ => false

def FormatFrame.update (f : FormatFrame) (g : List FormatToken → List FormatToken) : FormatFrame :=
  if f.fillsEmpty then { f with ifEmpty := g f.ifEmpty } else { f with ifSet := g f.ifSet }

def FormatFrame.finish (f : FormatFrame) : FormatToken :=
  match f.kind with
  | none => .ref f.name
  | some .otherwise => .branch f.name [.ref f.name] f.ifEmpty.reverse
  | some _ => .branch f.name f.ifSet.reverse f.ifEmpty.reverse

/-- A transform being read. -/
structure OpenTransform where
  guard : String
  /-- The last token first. -/
  format : List FormatToken := []
  /-- The innermost placeholder first. -/
  frames : List FormatFrame := []

/-- A text joins the text before it. -/
def appendText (s : String) : List FormatToken → List FormatToken
  | .text t :: rest => .text (t ++ s) :: rest
  | tokens => .text s :: tokens

namespace OpenTransform

def update (t : OpenTransform) (g : List FormatToken → List FormatToken) : OpenTransform :=
  match t.frames with
  | f :: rest => { t with frames := f.update g :: rest }
  | [] => { t with format := g t.format }

def pushText (t : OpenTransform) (s : String) : OpenTransform := t.update (appendText s)
def push (t : OpenTransform) (token : FormatToken) : OpenTransform := t.update (token :: ·)

def closeFrame (t : OpenTransform) : OpenTransform :=
  match t.frames with
  | f :: rest => { t with frames := rest }.push f.finish
  | [] => t

/-- The format once all its placeholders are closed. -/
def closed (format : List FormatToken) : List FormatFrame → List FormatToken
  | [] => format.reverse
  | [f] => (f.finish :: format).reverse
  | f :: g :: rest => closed format (g.update (f.finish :: ·) :: rest)
termination_by frames => frames.length

def finish (t : OpenTransform) (flags : String) : Transform :=
  ⟨t.guard, closed t.format t.frames, flags⟩

/-- A colon goes over to the other branch of the innermost placeholder, once, and is text elsewhere. -/
def colon (t : OpenTransform) : OpenTransform :=
  match t.frames with
  | f :: rest =>
    if f.kind = some (.ifElse false) then
      { t with frames := { f with kind := some (.ifElse true) } :: rest }
    else t.pushText ":"
  | [] => t.pushText ":"

def escape (t : OpenTransform) (c : Char) : OpenTransform :=
  if c = 'n' then t.pushText "\n"
  else if c = 't' then t.pushText "\t"
  else if ['\x7d', '\x60', '$', '\\', '/', ':'].contains c then t.pushText (String.ofList [c])
  else match CaseChange.ofEscape? c with
    | some change => t.push (.case change)
    | none => t.pushText (String.ofList ['\\', c])

def openRef (t : OpenTransform) (name : String) : OpenTransform :=
  { t with frames := { name } :: t.frames }

def setKind (t : OpenTransform) (kind : BranchKind) : OpenTransform :=
  match t.frames with
  | f :: rest => { t with frames := { f with kind := some kind } :: rest }
  | [] => t

/-- Ends the innermost placeholder by a function; an unknown one counts for nothing. -/
def function (t : OpenTransform) (name : String) : OpenTransform :=
  match t.frames with
  | f :: rest =>
    { t with frames := rest }.push (match CaseFunction.ofName? name with
      | some fn => .function f.name fn
      | none => .ref f.name)
  | [] => t

end OpenTransform

/-- What the characters belong to. -/
inductive Region where
  | body
  | format
  deriving DecidableEq, Repr

inductive Mode where
  | inside (r : Region)
  /-- Right after the name of a placeholder. -/
  | opened (r : Region)
  deriving DecidableEq, Repr

structure State where
  tokens : Array SnippetToken := #[]
  /-- The innermost placeholder first. -/
  frames : List Frame := []
  transform : Option OpenTransform := none
  nextMarker : Nat := 0

namespace State

/-- A text joins the text before it; an empty one is nothing. -/
def pushText (st : State) (s : String) : State :=
  if s.isEmpty then st
  else match st.tokens.back? with
    | some (.text t) => { st with tokens := st.tokens.pop.push (.text (t ++ s)) }
    | _ => { st with tokens := st.tokens.push (.text s) }

def push (st : State) (t : SnippetToken) : State := { st with tokens := st.tokens.push t }

/-- Pushes a tabstop if the name is a number of 64 bits, a variable otherwise. -/
def pushReference (st : State) (name : List Char) : State :=
  let token := match Text.digits64? name with
    | some id => SnippetToken.tabstop { marker := st.nextMarker, id }
    | none => .var { marker := st.nextMarker, name := String.ofList name }
  { st.push token with nextMarker := st.nextMarker + 1 }

/-- Closes the innermost placeholder: its opening token, with the transform, is written again. -/
def close (st : State) (transform : Option Transform) : State :=
  match st.frames with
  | [] => st
  | f :: rest =>
    let tokens := match transform with
      | some t => st.tokens.modify f.token (SnippetToken.withTransform t)
      | none => st.tokens
    { st with tokens := match tokens[f.token]? with
                | some opening => tokens.push opening
                | none => tokens
              frames := rest }

def endTransform (st : State) (flags : String) : State :=
  let transform := st.transform.map fun t => t.finish flags
  { st with transform := none }.close transform

def mapTransform (st : State) (f : OpenTransform → OpenTransform) : State :=
  { st with transform := st.transform.map f }

end State

/-- The choices between commas; a backslash keeps a comma, a bar or a backslash from its meaning. -/
def choicesFrom (current : List Char) : List Char → List String
  | [] => [String.ofList current.reverse]
  | '\\' :: e :: rest =>
    if e = ',' || e = '|' || e = '\\' then choicesFrom (e :: current) rest
    else choicesFrom (e :: '\\' :: current) rest
  | c :: rest =>
    if c = ',' then String.ofList current.reverse :: choicesFrom [] rest
    else choicesFrom (c :: current) rest

def choices (inside : List Char) : List String := choicesFrom [] inside

/-- One lexeme of the body; `c` is its first character. Answers how many more it takes. -/
def stepBody (st : State) (c : Char) (rest : List Char) : State × Mode × Nat :=
  let (lexeme, used) := Lexeme.body c rest
  match lexeme with
  | .escape e =>
    let bare := (e = '\x7d' && !st.frames.isEmpty) || e = '\x60' || e = '$' || e = '\\'
    (st.pushText (String.ofList (if bare then [e] else ['\\', e])), .inside .body, used)
  | .close =>
    (if st.frames.isEmpty then st.pushText (String.ofList [c]) else st.close none, .inside .body, used)
  | .reference name => (st.pushReference name, .inside .body, used)
  | .opening name =>
    let frame := { token := st.tokens.size, source := c :: rest : Frame }
    let st := st.pushReference name
    ({ st with frames := frame :: st.frames }, .opened .body, used)
  | .plain c => (st.pushText (String.ofList [c]), .inside .body, used)

/-- What follows the name of a placeholder of the body. -/
def stepAfterName (st : State) (cs : List Char) : State × Region × Nat :=
  let (lexeme, used) := Lexeme.afterName cs
  match lexeme with
  | .choices inside =>
    let found := choices inside
    let tokens := match st.frames with
      | f :: _ => st.tokens.modify f.token (SnippetToken.withChoices found)
      | [] => st.tokens
    ({ st with tokens }.pushText (found.head?.getD ""), .body, used)
  | .guard inside => ({ st with transform := some { guard := String.ofList inside } }, .format, used)
  | .skip => (st, .body, used)

/-- One lexeme of a format. -/
def stepFormat (st : State) (c : Char) (rest : List Char) : State × Mode × Nat :=
  let (lexeme, used) := Lexeme.format c rest
  match lexeme with
  | .colon => (st.mapTransform (·.colon), .inside .format, used)
  | .escape e => (st.mapTransform (·.escape e), .inside .format, used)
  | .finish flags => (st.endTransform (String.ofList flags), .inside .body, used)
  | .reference name => (st.mapTransform (·.push (.ref (String.ofList name))), .inside .format, used)
  | .opening name => (st.mapTransform (·.openRef (String.ofList name)), .opened .format, used)
  | .close =>
    if (st.transform.map (·.frames.isEmpty)).getD true then
      -- The last slash is missing: the brace ends the transform.
      (st.endTransform "", .inside .body, used)
    else (st.mapTransform (·.closeFrame), .inside .format, used)
  | .plain c => (st.mapTransform (·.pushText (String.ofList [c])), .inside .format, used)

/-- What follows the name of a placeholder of a format. -/
def stepAfterReference (st : State) (cs : List Char) : State × Region × Nat :=
  let (lexeme, used) := Lexeme.afterReference cs
  match lexeme with
  | .function name => (st.mapTransform (·.function (String.ofList name)), .format, used)
  | .ifSet => (st.mapTransform (·.setKind .ifSet), .format, used)
  | .ifElse => (st.mapTransform (·.setKind (.ifElse false)), .format, used)
  | .otherwise => (st.mapTransform (·.setKind .otherwise), .format, used)
  | .skip => (st, .format, used)

def stepInside (st : State) (r : Region) (c : Char) (rest : List Char) : State × Mode × Nat :=
  match r with
  | .body => stepBody st c rest
  | .format => stepFormat st c rest

def stepOpened (st : State) (r : Region) (cs : List Char) : State × Region × Nat :=
  match r with
  | .body => stepAfterName st cs
  | .format => stepAfterReference st cs

/-- Parses to the end; `skip` characters belong to the lexeme before. Only what follows a name may
take no character, and then the next lexeme starts at the same place. -/
def parseFrom (st : State) (mode : Mode) (skip : Nat) : List Char → State
  | [] => st
  | c :: rest =>
    match skip with
    | n + 1 => parseFrom st mode n rest
    | 0 =>
      match mode with
      | .inside r =>
        let (st, mode, used) := stepInside st r c rest
        parseFrom st mode used rest
      | .opened r =>
        match stepOpened st r (c :: rest) with
        | (st, r, n + 1) => parseFrom st (.inside r) n rest
        | (st, r, 0) =>
          let (st, mode, used) := stepInside st r c rest
          parseFrom st mode used rest

/-- Makes text of a transform that is still open, from the `$` of its placeholder on. -/
def State.settle (st : State) : State :=
  match st.transform, st.frames with
  | some _, f :: rest =>
    { st with tokens := st.tokens.take f.token, frames := rest }.pushText (String.ofList f.source)
  | _, _ => st

end SnippetParser

/-- The tokens of a snippet. -/
def parseSnippet (source : String) : List SnippetToken :=
  (SnippetParser.parseFrom {} (.inside .body) 0 source.toList).settle.tokens.toList

end Scribe
