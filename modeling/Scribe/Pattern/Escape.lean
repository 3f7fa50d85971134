import Scribe.Pattern.Tree
import Scribe.Pattern.Error
import Scribe.Text.Basic

/-!
# Escapes in patterns

What a backslash and the characters after it stand for. Every reader here is given the characters
that follow and answers with what it read and how many of them it used.
-/

namespace Scribe.Pattern

def digitValue? (base : Nat) (c : Char) : Option Nat :=
  let n :=
    if c.isDigit then c.toNat - 48
    else if 'a' ≤ c ∧ c ≤ 'f' then c.toNat - 87
    else if 'A' ≤ c ∧ c ≤ 'F' then c.toNat - 55
    else base
  if n < base then some n else none

/-- The value of the leading digits, at most `most` of them, and their number. -/
def scanDigits (base most : Nat) (cs : List Char) : Nat × Nat :=
  let digits := (cs.takeWhile fun c => (digitValue? base c).isSome).take most
  (digits.foldl (fun n d => n * base + (digitValue? base d).getD 0) 0, digits.length)

/-- A number in decimal digits of any length. -/
def scanNumber (cs : List Char) : Nat × Nat :=
  let digits := cs.takeWhile Char.isDigit
  (digits.foldl (fun n d => 10 * n + (d.toNat - 48)) 0, digits.length)

def isScalar (code : Nat) : Bool := code < 0xd800 || (0xe000 ≤ code && code < 0x110000)

/-- How many bytes a character has that starts with this byte. -/
def sequenceLength (lead : Nat) : Nat :=
  if 0xc2 ≤ lead && lead < 0xe0 then 2
  else if 0xe0 ≤ lead && lead < 0xf0 then 3
  else if 0xf0 ≤ lead && lead < 0xf5 then 4
  else 1

/-- The bytes that follow, each written `\x` and two digits. -/
def scanBytes : Nat → List Char → Except PatternError (List Nat × Nat)
  | 0, _ => .ok ([], 0)
  | n + 1, '\\' :: 'x' :: cs =>
    let (byte, used) := scanDigits 16 2 cs
    (scanBytes n (cs.drop used)).map fun (bytes, more) => (byte :: bytes, used + 2 + more)
  | _ + 1, _ => .error .tooFewBytes

/-- The code that the bytes after `lead` complete. -/
def decodeBytes (lead : Nat) (bytes : List Nat) : Nat :=
  let top := match bytes.length with
    | 1 => lead - 0xc0
    | 2 => lead - 0xe0
    | _ => lead - 0xf0
  bytes.foldl (fun n b => n * 64 + (b - 0x80)) top

/-- The character whose encoding starts with the byte `lead`. -/
def readEncoded (lead : Nat) (cs : List Char) : Except PatternError (Char × Nat) := do
  if lead < 0x80 then return (Char.ofNat lead, 0)
  let (bytes, used) ← scanBytes (sequenceLength lead - 1) cs
  if bytes.isEmpty || bytes.any (fun b => b < 0x80 || 0xc0 ≤ b) then throw .badBytes
  let code := decodeBytes lead bytes
  if isScalar code then return (Char.ofNat code, used) else throw .badBytes

/-- The characters up to `close`. A parenthesis ends a name too, unless it comes first. -/
def leadingName (close : Char) : List Char → List Char
  | [] => []
  | c :: cs => if c == close then [] else c :: cs.takeWhile fun d => d != close && d != ')'

/-- A name that refers to a group may also be a number, with a sign if it counts from here. -/
def checkName (mayBeNumber : Bool) (name : List Char) : Except PatternError Unit :=
  let spelled := String.ofList name
  match name with
  | [] => .error .emptyName
  | c :: more =>
    if mayBeNumber && (c.isDigit || c == '-' || c == '+') then
      let digits := if c.isDigit then name else more
      if digits.isEmpty then .error (.badName spelled)
      else if digits.all Char.isDigit then .ok ()
      else .error (if digits.all Unicode.isWord then .badName spelled else .badNameChar spelled)
    else if c.isDigit || c == '-' || c == '+' then .error (.badName spelled)
    else if name.all Unicode.isWord then .ok ()
    else .error (.badNameChar spelled)

/-- A name up to `close`, and the characters used for both. -/
def scanName (close : Char) (mayBeNumber : Bool) (cs : List Char) :
    Except PatternError (List Char × Nat) := do
  let name := leadingName close cs
  checkName mayBeNumber name
  if (cs.drop name.length).head? = some close then return (name, name.length + 1)
  else throw (.badName (String.ofList name))

/-- The kind of character named by one letter; a capital asks for all others. -/
def kindEscape? : Char → Option CharSet
  | 'w' => some (.kind .word)
  | 'W' => some (.compl (.kind .word))
  | 'd' => some (.kind .digit)
  | 'D' => some (.compl (.kind .digit))
  | 's' => some (.kind .space)
  | 'S' => some (.compl (.kind .space))
  | 'h' => some (.kind .xdigit)
  | 'H' => some (.compl (.kind .xdigit))
  | _ => none

/-- The control characters that have a letter of their own. -/
def controlEscape? : Char → Option Char
  | 'n' => some '\n'
  | 't' => some '\t'
  | 'r' => some '\r'
  | 'f' => some '\x0c'
  | 'a' => some '\x07'
  | 'e' => some '\x1b'
  | 'v' => some '\x0b'
  | _ => none

def propertyName (written : List Char) : String :=
  String.ofList ((written.filter fun c => c != ' ' && c != '_' && c != '-').map Char.toLower)

/-- What an escape can stand for both inside and outside of a class. -/
inductive Escaped where
  | code (n : Nat)
  /-- A character given by the bytes of its encoding; case is never disregarded for it. -/
  | byteChar (c : Char)
  | kind (s : CharSet)

/-- The property whose name and closing brace come next. -/
def scanProperty (negated : Bool) (cs : List Char) : Except PatternError (Escaped × Nat) :=
  let written := cs.takeWhile (· != '\x7d')
  match CharKind.propertyNames.lookup (propertyName written) with
  | some kind =>
    if written.length < cs.length then .ok (.kind (.ofKind kind negated), written.length + 1)
    else .error (.unknownProperty (String.ofList written))
  | none => .error (.unknownProperty (String.ofList written))

/-- A property in braces; `cs` follows the letter, a `p` or, for all other characters, a `P`. -/
def scanPropertyEscape (letter : Char) (cs : List Char) : Except PatternError (Escaped × Nat) :=
  match cs with
  | '\x7b' :: '^' :: rest => (scanProperty (letter == 'p') rest).map fun (x, used) => (x, used + 2)
  | '\x7b' :: rest => (scanProperty (letter == 'P') rest).map fun (x, used) => (x, used + 1)
  | _ => .ok (.code letter.toNat, 0)

/-- A code between braces of which `used` digits have been read. Braces that hold no code are read as if
the backslash were not there. -/
def closeHex (code used : Nat) : List Char → Except PatternError (Escaped × Nat)
  | '\x7d' :: _ => .ok (if used = 0 then (.code 'x'.toNat, 0) else (.code code, used + 2))
  | d :: _ =>
    if used = 8 && (digitValue? 16 d).isSome then .error .tooManyHexDigits else .ok (.code 'x'.toNat, 0)
  | [] => .ok (.code 'x'.toNat, 0)

/-- A code in hexadecimal digits; `cs` follows the `x`. -/
def scanHex (cs : List Char) : Except PatternError (Escaped × Nat) :=
  match cs with
  | '\x7b' :: rest =>
    let (code, used) := scanDigits 16 8 rest
    closeHex code used (rest.drop used)
  | _ =>
    let (byte, used) := scanDigits 16 2 cs
    (readEncoded byte (cs.drop used)).map fun (d, more) => (.byteChar d, used + more)

def scanUnicode (cs : List Char) : Except PatternError (Escaped × Nat) :=
  let (code, used) := scanDigits 16 4 cs
  if used < 4 then .error .badCodePoint else .ok (.code code, used)

/-- The control character of the key that comes next, which may itself be written as an escape. -/
def scanControl : List Char → Except PatternError (Nat × Nat)
  | [] => .error .endAtControl
  | '?' :: _ => .ok (127, 1)
  | '\\' :: [] => .error .endAtEscape
  | '\\' :: 'c' :: rest => (scanControl rest).map fun (n, used) => (n &&& 0x9f, used + 2)
  | '\\' :: 'b' :: _ => .ok (8, 2)
  | '\\' :: c :: _ => .ok (((controlEscape? c).getD c).toNat &&& 0x9f, 2)
  | c :: _ => .ok (c.toNat &&& 0x9f, 1)

/-- Escapes that mean the same inside and outside of a class. `c` stands right after the backslash;
a character that has no meaning of its own stands for itself. -/
def scanEscape (c : Char) (cs : List Char) : Except PatternError (Escaped × Nat) :=
  match kindEscape? c with
  | some s => .ok (.kind s, 0)
  | none =>
  match controlEscape? c with
  | some d => .ok (.code d.toNat, 0)
  | none =>
  match c with
  | 'p' | 'P' => scanPropertyEscape c cs
  | 'x' => scanHex cs
  | 'u' => scanUnicode cs
  | 'c' => (scanControl cs).map fun (n, used) => (.code n, used)
  | _ => .ok (.code c.toNat, 0)

/-- An octal escape; `cs` starts with its first digit, and at most `most` are read. -/
def scanOctal (most : Nat) (cs : List Char) : Except PatternError (Char × Nat) :=
  let (byte, used) := scanDigits 8 most cs
  if 256 ≤ byte then .error .numberTooBig
  else (readEncoded byte (cs.drop used)).map fun (d, more) => (d, used + more)

end Scribe.Pattern
