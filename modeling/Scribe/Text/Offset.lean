/-!
# Places counted in bytes

A place in a text is the number of characters before it. Where a place has to be told in bytes, the
characters before it are counted by the length of their encoding.
-/

namespace Scribe.Text

/-- The number of bytes before the character at `index`. -/
def byteOffset (text : List Char) (index : Nat) : Nat :=
  (text.take index).foldl (fun n c => n + c.utf8Size) 0

/-- The first place at or after the given byte, if the text is that long. -/
def placeOfByte? : List Char → Nat → Option Nat
  | _, 0 => some 0
  | [], _ + 1 => none
  | c :: rest, byte => (placeOfByte? rest (byte - c.utf8Size)).map (· + 1)

end Scribe.Text
