import Scribe.Json.Basic

/-!
# Writing JSON

The compact text of a value: no blanks, short escapes where JSON has them, `\u` with four digits for
the other control characters, and every other character as it is.
-/

namespace Scribe.Json

def writeChar (c : Char) : List Char :=
  match c with
  | '"' => ['\\', '"']
  | '\\' => ['\\', '\\']
  | '\x08' => ['\\', 'b']
  | '\x0c' => ['\\', 'f']
  | '\n' => ['\\', 'n']
  | '\r' => ['\\', 'r']
  | '\t' => ['\\', 't']
  | c =>
    if c.toNat < 0x20 then
      ['\\', 'u', '0', '0', Text.hexDigit (c.toNat / 16), Text.hexDigit (c.toNat % 16)]
    else [c]

def writeString (s : String) : List Char := '"' :: s.toList.flatMap writeChar ++ ['"']

mutual

def writeValue : Json → List Char
  | .null => ['n', 'u', 'l', 'l']
  | .bool true => ['t', 'r', 'u', 'e']
  | .bool false => ['f', 'a', 'l', 's', 'e']
  | .num literal => literal.toList
  | .str s => writeString (s.getD "")
  | .arr items => '[' :: writeItems items
  | .obj fields => '\x7b' :: writeFields fields

/-- The items and the closing bracket. -/
def writeItems : List Json → List Char
  | [] => [']']
  | [v] => writeValue v ++ [']']
  | v :: w :: rest => writeValue v ++ ',' :: writeItems (w :: rest)

/-- The fields and the closing brace. -/
def writeFields : List (Option String × Json) → List Char
  | [] => ['\x7d']
  | [(k, v)] => writeString (k.getD "") ++ ':' :: writeValue v ++ ['\x7d']
  | (k, v) :: f :: rest => writeString (k.getD "") ++ ':' :: writeValue v ++ ',' :: writeFields (f :: rest)

end

def write (v : Json) : String := String.ofList (writeValue v)

end Scribe.Json
