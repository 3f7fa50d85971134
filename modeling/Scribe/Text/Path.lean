import Scribe.Text.Basic

/-!
# Paths of files

A path is a start, which is a slash, a single dot or nothing, and pieces between slashes. Empty pieces and
single dots at its end do not count.
-/

namespace Scribe

structure Path where
  start : List Char
  pieces : List (List Char)
  deriving DecidableEq, Repr

namespace Path

def isIdle (piece : List Char) : Bool := piece.isEmpty || piece == ['.']

def dropIdle (pieces : List (List Char)) : List (List Char) :=
  (pieces.reverse.dropWhile isIdle).reverse

/-- A dot is a start only if nothing or a slash follows it. -/
def ofText : List Char → Path
  | '/' :: rest => ⟨['/'], dropIdle (Text.cutAt '/' rest)⟩
  | ['.'] => ⟨['.'], []⟩
  | '.' :: '/' :: rest => ⟨['.'], dropIdle (Text.cutAt '/' ('/' :: rest))⟩
  | text => ⟨[], dropIdle (Text.cutAt '/' text)⟩

def toText (p : Path) : List Char := p.start ++ Text.joinWith ['/'] p.pieces

/-- The last piece, unless it leads upwards. -/
def fileName? (p : Path) : Option (List Char) :=
  p.pieces.getLast?.filter (· ≠ ['.', '.'])

/-- The path without its last piece; the root has none. -/
def parent? (p : Path) : Option Path :=
  match p.pieces, p.start with
  | [], ['.'] => some ⟨[], []⟩
  | [], _ => none
  | pieces, _ => some { p with pieces := dropIdle pieces.dropLast }

/-- The name up to its last dot. A dot that begins the name does not count. -/
def stem (name : List Char) : List Char :=
  match (Text.cutAt '.' name).dropLast with
  | [] | [[]] => name
  | pieces => Text.joinWith ['.'] pieces

end Path

end Scribe
