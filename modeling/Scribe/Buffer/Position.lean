import Scribe.Text.Basic

/-!
# Positions, ranges and selections

A position is a row and a column, both counted from zero, columns in characters. Positions are ordered
as they stand in the text.
-/

namespace Scribe

structure Position where
  row : Nat := 0
  column : Nat := 0
  deriving DecidableEq, Repr, Inhabited

namespace Position

instance : LT Position := ⟨fun p q => p.row < q.row ∨ (p.row = q.row ∧ p.column < q.column)⟩
instance : LE Position := ⟨fun p q => p.row < q.row ∨ (p.row = q.row ∧ p.column ≤ q.column)⟩

instance (p q : Position) : Decidable (p < q) :=
  inferInstanceAs (Decidable (p.row < q.row ∨ (p.row = q.row ∧ p.column < q.column)))

instance (p q : Position) : Decidable (p ≤ q) :=
  inferInstanceAs (Decidable (p.row < q.row ∨ (p.row = q.row ∧ p.column ≤ q.column)))

/-- One character further; a line end leads to the start of the next row. -/
def step (p : Position) (c : Char) : Position :=
  if c = '\n' then ⟨p.row + 1, 0⟩ else ⟨p.row, p.column + 1⟩

/-- The end of a text that begins at this position. -/
def advance (p : Position) (text : List Char) : Position := text.foldl step p

/-- A position counted from the start of an insertion, counted from the start of the buffer. -/
def offsetBy (p origin : Position) : Position :=
  if p.row = 0 then ⟨origin.row, origin.column + p.column⟩ else ⟨origin.row + p.row, p.column⟩

end Position

/-- From `start` to `stop`. -/
structure Range where
  start : Position := {}
  stop : Position := {}
  deriving DecidableEq, Repr, Inhabited

namespace Range

/-- The range between two positions in either order. -/
def between (p q : Position) : Range := if q < p then ⟨q, p⟩ else ⟨p, q⟩

def point (p : Position) : Range := ⟨p, p⟩

def isEmpty (r : Range) : Bool := r.start == r.stop

/-- Its two ends belong to a range. -/
def contains (r : Range) (p : Position) : Bool := r.start ≤ p && p ≤ r.stop

/-- Inside and touching neither end. -/
def isStrictlyInside (r outer : Range) : Bool := outer.start < r.start && r.stop < outer.stop

/-- Where a position stands: before the range, in it, or after it. -/
def comparePoint (r : Range) (p : Position) : Ordering :=
  if p < r.start then .lt else if r.stop < p then .gt else .eq

end Range

/-- A selection goes from where it was begun to where the cursor is. -/
structure Selection where
  anchor : Position := {}
  lead : Position := {}
  deriving DecidableEq, Repr, Inhabited

namespace Selection

def cursor (p : Position) : Selection := ⟨p, p⟩

/-- The range with the cursor at its end. -/
def ofRange (r : Range) : Selection := ⟨r.start, r.stop⟩

def isEmpty (s : Selection) : Bool := s.anchor == s.lead

def toRange (s : Selection) : Range := .between s.anchor s.lead

end Selection

end Scribe
