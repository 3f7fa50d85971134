import Scribe.Text.Quoted

/-!
# JSON values

A value keeps the fields of an object in the order they were written, repeated ones included. A
string is `none` if one of its escapes stands for half of a character, and a number keeps its
spelling: such a value is well formed, and only a reader that needs its meaning refuses it.
-/

namespace Scribe

inductive Json where
  | null
  | bool (b : Bool)
  | num (literal : String)
  | str (s : Option String)
  | arr (items : List Json)
  | obj (fields : List (Option String × Json))
  deriving Repr, BEq, Inhabited

namespace Json

def text (s : String) : Json := .str (some s)

def ofFields (fields : List (String × Json)) : Json :=
  .obj (fields.map fun f => (some f.1, f.2))

/-- The digits and the exponent of a number: `-12.5e3` is `125` with exponent `2`. -/
structure Decimal where
  digits : Nat
  exponent : Int

def Decimal.ofLiteral (literal : List Char) : Decimal :=
  let unsigned := literal.dropWhile (· == '-')
  let mantissa := unsigned.takeWhile fun c => c != 'e' && c != 'E'
  let scale := (unsigned.dropWhile fun c => c != 'e' && c != 'E').drop 1
  let value (ds : List Char) : Nat := ds.foldl (fun n d => 10 * n + (d.toNat - 48)) 0
  let magnitude := value (scale.filter Char.isDigit)
  let exponent : Int := if scale.head? == some '-' then -magnitude else magnitude
  let fraction := (mantissa.dropWhile (· != '.')).drop 1
  ⟨value (mantissa.filter Char.isDigit), exponent - fraction.length⟩

/-- Half a unit above the largest double: what lies below rounds to a double. -/
def doubleLimit : Nat := Nat.pow 2 1024 - Nat.pow 2 970

def Decimal.fitsDouble (d : Decimal) : Bool :=
  if d.digits = 0 then true
  else if d.exponent ≤ 0 then
    -- A number of `n` digits is below `10 ^ n`, so few digits need no division.
    let digitCount := (Nat.toDigits 10 d.digits).length
    if digitCount + d.exponent < 308 then true
    else d.digits < doubleLimit * Nat.pow 10 d.exponent.natAbs
  else if d.exponent > 400 then false
  else d.digits * Nat.pow 10 d.exponent.natAbs < doubleLimit

mutual

/-- Whether every string is whole and every number in the range of a double. -/
def isMeaningful : Json → Bool
  | .null | .bool _ => true
  | .num literal => (Decimal.ofLiteral literal.toList).fitsDouble
  | .str s => s.isSome
  | .arr items => itemsMeaningful items
  | .obj fields => fieldsMeaningful fields

def itemsMeaningful : List Json → Bool
  | [] => true
  | v :: rest => isMeaningful v && itemsMeaningful rest

def fieldsMeaningful : List (Option String × Json) → Bool
  | [] => true
  | (k, v) :: rest => k.isSome && isMeaningful v && fieldsMeaningful rest

end

mutual

/-- How many arrays and objects are open at the innermost place. -/
def depth : Json → Nat
  | .null | .bool _ | .num _ | .str _ => 0
  | .arr items => itemsDepth items + 1
  | .obj fields => fieldsDepth fields + 1

def itemsDepth : List Json → Nat
  | [] => 0
  | v :: rest => max (depth v) (itemsDepth rest)

def fieldsDepth : List (Option String × Json) → Nat
  | [] => 0
  | (_, v) :: rest => max (depth v) (fieldsDepth rest)

end

/-- The values of all fields of one name, in order. -/
def fieldValues (fields : List (Option String × Json)) (name : String) : List Json :=
  (fields.filter (·.1 == some name)).map (·.2)

end Json

end Scribe
