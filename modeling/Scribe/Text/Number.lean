/-!
# Numbers in texts
-/

namespace Scribe.Text

/-- The number spelled by decimal digits, if there are any, nothing else stands there, and it takes no
more than 64 bits. -/
def digits64? (text : List Char) : Option Nat :=
  if text.isEmpty || !text.all Char.isDigit then none
  else
    let n := text.foldl (fun n d => 10 * n + (d.toNat - 48)) 0
    if n < Nat.pow 2 64 then some n else none

/-- The same with an optional plus sign in front. -/
def number64? : List Char → Option Nat
  | '+' :: digits => digits64? digits
  | text => digits64? text

/-- Decimal digits, with zeros in front up to the given width. -/
def padded (width n : Nat) : String :=
  let digits := Nat.toDigits 10 n
  String.ofList (List.replicate (width - digits.length) '0' ++ digits)

end Scribe.Text
