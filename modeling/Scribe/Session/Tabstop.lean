import Scribe.Buffer.Delta
import Scribe.Snippet.Expansion

/-!
# Tabstops of a session

The occurrences of a tabstop are followed as the buffer changes. The one that the user edits is the primary
one; those linked to it are written anew after each edit.
-/

namespace Scribe

/-- An occurrence of a tabstop in the buffer. -/
structure TrackedRange where
  /-- No other range of the session has this key. -/
  key : Nat
  range : Range
  /-- Whether its text derives from the primary occurrence. -/
  linked : Bool
  transform : Option Transform := none
  /-- The marker that shows it in the editor. -/
  marker : Option Nat := none
  deriving Repr

/-- Where a range is after a change. Text inserted at one of its ends belongs to it if it absorbs, and
stays outside otherwise. -/
def Range.shift (r : Range) (d : Delta) (absorbs : Bool) : Range :=
  let start := d.shift r.start absorbs
  let stop := d.shift r.stop !absorbs
  ⟨start, if stop < start then start else stop⟩

def TrackedRange.shift (r : TrackedRange) (d : Delta) (absorbs : Bool) : TrackedRange :=
  { r with range := r.range.shift d absorbs }

/-- All occurrences of a tabstop of an inserted snippet. -/
structure Tabstop where
  /-- No other tabstop of the session has this key; the numbers of nested snippets may be equal. -/
  key : Nat
  id : Nat
  ranges : List TrackedRange
  choices : Option (List String) := none
  /-- The keys of the tabstops in which it is nested. -/
  parents : List Nat := []
  deriving Repr

namespace Tabstop

def primary? (t : Tabstop) : Option TrackedRange := t.ranges.find? (!·.linked)

def hasLinked (t : Tabstop) : Bool := t.ranges.any (·.linked)

/-- The ranges that begin or end at a position. -/
def touching (ranges : List TrackedRange) (p : Position) : List TrackedRange :=
  ranges.filter fun r => r.range.start == p || r.range.stop == p

/-- Whether one of the ranges ends where another one begins. -/
def meetAt (ranges : List TrackedRange) (p : Position) : Bool :=
  ranges.any fun a => a.range.stop == p && ranges.any fun b => b.key != a.key && b.range.start == p

def precedes (a b : TrackedRange) : Bool :=
  a.range.start < b.range.start || (a.range.start == b.range.start && a.range.stop < b.range.stop)

/-- The first of the ranges in the text. -/
def foremost? : List TrackedRange → Option TrackedRange
  | [] => none
  | r :: rest => some (rest.foldl (fun best r => if precedes r best then r else best) r)

/-- Where two ranges meet, only one takes the text inserted there: the one being written, else one that is
edited, else the first one. -/
def edgeOwner? (ranges : List TrackedRange) (p : Position) (writing : Option Nat) : Option Nat :=
  let near := touching ranges p
  if meetAt near p then
    (near.find? (some ·.key == writing) <|> near.find? (!·.linked) <|> foremost? near).map (·.key)
  else none

end Tabstop

end Scribe
