import Scribe.Buffer.Position

/-!
# Changes of a buffer

A change inserts a text at a position or removes the text of a range, and moves the positions after it.
-/

namespace Scribe

inductive DeltaAction where
  | insert
  | remove
  deriving DecidableEq, Repr

/-- For an insertion `stop` is where the inserted text ends, for a removal where the removed text
ended. -/
structure Delta where
  action : DeltaAction
  start : Position
  stop : Position
  text : String
  deriving DecidableEq, Repr

namespace Delta

def insertion (start : Position) (text : String) : Delta :=
  ⟨.insert, start, start.advance text.toList, text⟩

def removal (range : Range) (text : String) : Delta :=
  ⟨.remove, range.start, range.stop, text⟩

def range (d : Delta) : Range := .between d.start d.stop

def isNoop (d : Delta) : Bool := d.start == d.stop

/-- Where a position is after the change. One at which text is inserted stays before it if `stays`,
and goes behind it otherwise. -/
def shift (d : Delta) (p : Position) (stays : Bool) : Position :=
  match d.action with
  | .insert =>
    if p < d.start ∨ (p = d.start ∧ stays) then p
    else if p.row = d.start.row then ⟨d.stop.row, d.stop.column + (p.column - d.start.column)⟩
    else ⟨p.row + d.stop.row - d.start.row, p.column⟩
  | .remove =>
    if p ≤ d.start then p
    else if p ≤ d.stop then d.start
    else if p.row = d.stop.row then ⟨d.start.row, d.start.column + (p.column - d.stop.column)⟩
    else ⟨p.row - (d.stop.row - d.start.row), p.column⟩

end Delta

end Scribe
