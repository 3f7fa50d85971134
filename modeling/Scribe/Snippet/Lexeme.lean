import Scribe.Unicode.Property

/-!
# The lexemes of snippets

What the characters at one place of a snippet spell, and how many of them. The body of a snippet, the
format of a transform and the place right after a `$` and an opening brace have lexemes of their own.
-/

namespace Scribe

namespace Lexeme

/-- The characters of a name in a body after the brace. -/
def isNameChar (c : Char) : Bool :=
  Unicode.isDecimal c || (c.toNat < 0x80 && c.isAlpha) || c == '_'

/-- What follows a `$`: digits if there are any, else a word. -/
def reference? (cs : List Char) : Option (List Char) :=
  let digits := cs.takeWhile Unicode.isDecimal
  if !digits.isEmpty then some digits
  else
    let word := cs.takeWhile Unicode.isWord
    if word.isEmpty then none else some word

/-- The characters up to the first `stop` that no backslash escapes. A backslash cannot stand before
a line end. -/
def quotedUntil? (stop : Char) : List Char → Option (List Char)
  | [] => none
  | '\\' :: d :: rest =>
    if d = '\n' then none else (quotedUntil? stop rest).map fun cs => '\\' :: d :: cs
  | c :: rest =>
    if c = stop then some []
    else if c = '\\' then none
    else (quotedUntil? stop rest).map (c :: ·)

/-- How many characters are passed over after a placeholder's name: all up to a brace, or up to and
with a colon. -/
def skipLength : List Char → Nat
  | [] => 0
  | '\\' :: d :: rest => if d = '\n' then 0 else skipLength rest + 2
  | c :: rest =>
    if c = ':' then 1
    else if c = '\x7d' || c = '\\' then 0
    else skipLength rest + 1

/-- What a body holds at one place. -/
inductive Body where
  | escape (c : Char)
  | close
  | reference (name : List Char)
  /-- A placeholder's dollar, brace and name. -/
  | opening (name : List Char)
  | plain (c : Char)
  deriving DecidableEq, Repr

/-- The lexeme and how many characters it takes after the first one. -/
def body (c : Char) (rest : List Char) : Body × Nat :=
  match c with
  | '\\' =>
    match rest with
    | d :: _ => if d = '\n' then (.plain c, 0) else (.escape d, 1)
    | [] => (.plain c, 0)
  | '\x7d' => (.close, 0)
  | '$' =>
    match reference? rest with
    | some name => (.reference name, name.length)
    | none =>
      match rest with
      | '\x7b' :: rest =>
        let name := rest.takeWhile isNameChar
        if name.isEmpty then (.plain c, 0) else (.opening name, name.length + 1)
      | _ => (.plain c, 0)
  | _ => (.plain c, 0)

/-- What follows the name of a placeholder in a body. -/
inductive AfterName where
  /-- The inside of a list of choices. -/
  | choices (inside : List Char)
  /-- The guard of a transform. -/
  | guard (inside : List Char)
  | skip
  deriving DecidableEq, Repr

/-- The lexeme and how many characters it takes, which may be none. -/
def afterName (cs : List Char) : AfterName × Nat :=
  match cs with
  | '|' :: rest =>
    match quotedUntil? '|' rest with
    | some inside => (.choices inside, inside.length + 2)
    | none => (.skip, skipLength cs)
  | '/' :: rest =>
    match quotedUntil? '/' rest with
    | some [] | none => (.skip, skipLength cs)
    | some inside => (.guard inside, inside.length + 2)
  | _ => (.skip, skipLength cs)

/-- What a format holds at one place. -/
inductive Format where
  | colon
  | escape (c : Char)
  /-- The slash, flags and brace that end a transform. -/
  | finish (flags : List Char)
  | reference (name : List Char)
  | opening (name : List Char)
  | close
  | plain (c : Char)
  deriving DecidableEq, Repr

/-- The lexeme and how many characters it takes after the first one. -/
def format (c : Char) (rest : List Char) : Format × Nat :=
  match c with
  | ':' => (.colon, 0)
  | '\\' =>
    match rest with
    | d :: _ => if d = '\n' then (.plain c, 0) else (.escape d, 1)
    | [] => (.plain c, 0)
  | '/' =>
    let flags := rest.takeWhile Unicode.isWord
    match rest.drop flags.length with
    | '\x7d' :: _ => (.finish flags, flags.length + 1)
    | _ => (.plain c, 0)
  | '$' =>
    match reference? rest with
    | some name => (.reference name, name.length)
    | none =>
      match rest with
      | '\x7b' :: rest =>
        let name := rest.takeWhile Unicode.isWord
        if name.isEmpty then (.plain c, 0) else (.opening name, name.length + 1)
      | _ => (.plain c, 0)
  | '\x7d' => (.close, 0)
  | _ => (.plain c, 0)

/-- What follows the name of a placeholder in a format. -/
inductive AfterReference where
  | function (name : List Char)
  | ifSet
  | ifElse
  | otherwise
  | skip
  deriving DecidableEq, Repr

/-- The lexeme and how many characters it takes, which may be none. -/
def afterReference (cs : List Char) : AfterReference × Nat :=
  match cs with
  | ':' :: rest =>
    let function? :=
      match rest with
      | '/' :: rest =>
        let name := rest.takeWhile Unicode.isWord
        match rest.drop name.length with
        | '\x7d' :: _ => if name.isEmpty then none else some name
        | _ => none
      | _ => none
    match function? with
    | some name => (.function name, name.length + 3)
    | none =>
      match rest with
      | '+' :: _ => (.ifSet, 2)
      | '?' :: _ => (.ifElse, 2)
      | '-' :: _ => (.otherwise, 2)
      | _ => (.otherwise, 1)
  | _ => (.skip, skipLength cs)

end Lexeme

end Scribe
