import Scribe.Unicode.Property

/-!
# Pieces of text

Cutting a text at a separator, joining pieces, replacing characters, and the runs of whitespace at
its ends. The functions work on lists of characters; a text is read with `String.toList` and made
with `String.ofList`.
-/

namespace Scribe.Text

/-- The pieces between the separators; there is always one more piece than separators. -/
def cutAt (sep : Char) : List Char → List (List Char)
  | [] => [[]]
  | c :: rest =>
    if c = sep then [] :: cutAt sep rest
    else match cutAt sep rest with
      | piece :: pieces => (c :: piece) :: pieces
      | [] => [[c]]

/-- The pieces with `sep` between each two. -/
def joinWith (sep : List Char) : List (List Char) → List Char
  | [] => []
  | [piece] => piece
  | piece :: pieces => piece ++ sep ++ joinWith sep pieces

/-- Every occurrence of a character is replaced by a text. -/
def replaceChar (old : Char) (new : List Char) (text : List Char) : List Char :=
  text.flatMap fun c => if c = old then new else [c]

def splitLines (text : String) : List String :=
  (cutAt '\n' text.toList).map String.ofList

def joinLines (lines : List String) : String :=
  String.ofList (joinWith ['\n'] (lines.map String.toList))

/-- What stands before the first `sep` and after it, if there is one. -/
def cutOnce (sep : Char) : List Char → Option (List Char × List Char)
  | [] => none
  | c :: rest =>
    if c = sep then some ([], rest)
    else (cutOnce sep rest).map fun (before, after) => (c :: before, after)

/-- The leading characters that are whitespace. -/
def indentation (text : List Char) : List Char := text.takeWhile Unicode.isWhitespace

def dropTrailing (p : Char → Bool) (text : List Char) : List Char :=
  (text.reverse.dropWhile p).reverse

def trimEnd (text : List Char) : List Char := dropTrailing Unicode.isWhitespace text

/-- The first run of characters other than whitespace; empty if there is none. -/
def firstWord (text : List Char) : List Char :=
  (text.dropWhile Unicode.isWhitespace).takeWhile (!Unicode.isWhitespace ·)

/-- `rest` if the text is `start` followed by `rest`. -/
def dropStart? : List Char → List Char → Option (List Char)
  | [], text => some text
  | _ :: _, [] => none
  | c :: start, d :: text => if c = d then dropStart? start text else none

def startsWith (text start : List Char) : Bool := (dropStart? start text).isSome
def endsWith (text ending : List Char) : Bool := startsWith text.reverse ending.reverse

/-- Line ends written `\r\n` or `\r` become `\n`. -/
def normalizeLineEnds : List Char → List Char
  | [] => []
  | '\r' :: '\n' :: rest => '\n' :: normalizeLineEnds rest
  | c :: rest => (if c = '\r' then '\n' else c) :: normalizeLineEnds rest

end Scribe.Text
