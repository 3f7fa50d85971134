import Scribe.Json.Basic

/-!
# Reading records from JSON

A record is an object whose fields are told by name, or a list of the values of its fields in their order.
A field may be left out, and may not be given twice.
-/

namespace Scribe.Json

/-- The value of a field that may be given once; `none` if it is given twice. -/
def once (fields : List (Option String × Json)) (name : String) : Option (Option Json) :=
  match fieldValues fields name with
  | [] => some none
  | [v] => some (some v)
  | _ => none

def string? : Json → Option String
  | .str s => s
  | _ => none

def bool? : Json → Option Bool
  | .bool b => some b
  | _ => none

def strings? : Json → Option (List String)
  | .arr items => items.mapM string?
  | _ => none

/-- A value that may also be null. -/
def orNull {α : Type} (read : Json → Option α) : Json → Option (Option α)
  | .null => some none
  | v => (read v).map some

/-- The value of a field that has a default. -/
def fieldOr {α : Type} (fallback : α) (read : Json → Option α) : Option Json → Option α
  | none => some fallback
  | some v => read v

inductive Record where
  | named (fields : List (Option String × Json))
  | listed (items : List Json)

namespace Record

/-- The value of a field, by its place or by one of its names. -/
def get? (r : Record) (place : Nat) (names : List String) : Option (Option Json) :=
  match r with
  | named fields =>
    match names.flatMap (fieldValues fields) with
    | [] => some none
    | [v] => some (some v)
    | _ => none
  | listed items => some items[place]?

/-- How many values a list has too many for a record of this many fields. -/
def excess (r : Record) (count : Nat) : Nat :=
  match r with
  | named _ => 0
  | listed items => items.length - count

/-- A text that may be left out or null. -/
def text? (r : Record) (place : Nat) (names : List String) : Option (Option String) := do
  fieldOr none (orNull string?) (← r.get? place names)

end Record

end Scribe.Json
