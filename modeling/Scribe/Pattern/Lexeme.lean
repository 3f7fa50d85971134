import Scribe.Pattern.ClassReader

/-!
# Lexemes of patterns

The pieces that a pattern is read in: characters, classes, escapes, what opens and closes a group, and
quantifiers. Which one comes next depends on the options in force and, for a number after a backslash,
on how many groups there are by now.
-/

namespace Scribe.Pattern

/-- The options in force at a place of the pattern. -/
structure Flags where
  caseless : Bool := false
  /-- Whether the dot matches a line end. -/
  dotAll : Bool := false
  /-- Whether blanks and comments are skipped. -/
  extended : Bool := false
  deriving DecidableEq, Repr

/-- The groups that have no number. -/
inductive Frame where
  | plain
  | atomic
  | ahead (negated : Bool)
  | behind (negated : Bool)
  /-- Options set without a group of their own: they last until the enclosing group closes. -/
  | options
  deriving DecidableEq, Repr

structure Quantifier where
  least : Nat
  most : Option Nat
  greedy : Bool := true
  possessive : Bool := false
  deriving DecidableEq, Repr

inductive Lexeme where
  /-- Blanks and comments. -/
  | skip
  | char (c : Char)
  | tree (t : Tree)
  /-- A reference to a group by its number. -/
  | number (n : Nat)
  /-- A reference to a group as it is written between the brackets of a `\k`. -/
  | name (name : List Char)
  /-- The start of a group, and the options in it. -/
  | opening (frame : Frame) (flags : Flags)
  | capture (name? : Option String)
  /-- The start of a group with two branches, and the group that they depend on. -/
  | condition (name : List Char)
  | close
  | bar
  | quantifier (q : Quantifier)
  deriving DecidableEq, Repr

/-- The largest number that an interval may have. -/
def intervalLimit : Nat := 100000

/-- The rest of an interval whose lower bound has `n` digits; `cs` follows the comma. -/
def scanUpper (low n : Nat) (cs : List Char) : Except PatternError (Option (Quantifier × Bool × Nat)) :=
  let (high, m) := scanNumber cs
  if intervalLimit < high then .error .repeatTooBig
  else if n = 0 ∧ m = 0 then .ok none
  else match cs.drop m with
  | '\x7d' :: _ =>
    let used := n + 1 + m + 1
    .ok (some (
      if m = 0 then (⟨low, none, true, false⟩, false, used)
      else if high < low then (⟨high, some low, true, true⟩, false, used)
      else (⟨low, some high, true, false⟩, false, used)))
  | _ => .ok none

/-- An interval in braces, and whether it is one fixed number; `cs` follows the opening brace. Nothing if
it is no interval, and then the brace is an ordinary character. -/
def scanInterval (cs : List Char) : Except PatternError (Option (Quantifier × Bool × Nat)) :=
  let (low, n) := scanNumber cs
  if intervalLimit < low then .error .repeatTooBig
  else match cs.drop n with
  | ',' :: rest => scanUpper low n rest
  | '\x7d' :: _ => .ok (if n = 0 then none else some (⟨low, some low, true, false⟩, true, n + 1))
  | _ => .ok none

/-- A mark after a quantifier makes it lazy or possessive. An interval of one fixed number takes no
such mark, and no interval is made possessive by one. -/
def applyMark (q : Quantifier) (isFixed isInterval : Bool) (rest : List Char) : Quantifier × Nat :=
  match rest with
  | '?' :: _ => if isFixed || q.possessive then (q, 0) else ({ q with greedy := false }, 1)
  | '+' :: _ => if isInterval then (q, 0) else ({ q with possessive := true }, 1)
  | _ => (q, 0)

/-- Options up to the colon or parenthesis that ends them; whether it is a colon. -/
def scanFlags (flags : Flags) (value : Bool) (used : Nat) : List Char → Except PatternError (Flags × Bool × Nat)
  | [] => .error .endInGroup
  | ')' :: _ => .ok (flags, false, used + 1)
  | ':' :: _ => .ok (flags, true, used + 1)
  | '-' :: rest => scanFlags flags false (used + 1) rest
  | 'i' :: rest => scanFlags { flags with caseless := value } value (used + 1) rest
  | 'm' :: rest => scanFlags { flags with dotAll := value } value (used + 1) rest
  | 'x' :: rest => scanFlags { flags with extended := value } value (used + 1) rest
  | _ => .error .unknownOption

/-- The length of a comment up to and with its parenthesis. -/
def scanComment (used : Nat) : List Char → Except PatternError Nat
  | [] => .error .endInGroup
  | '\\' :: _ :: rest => scanComment (used + 2) rest
  | ')' :: _ => .ok (used + 1)
  | _ :: rest => scanComment (used + 1) rest

/-- A name and the condition that it puts after a parenthesis; `cs` follows that one. -/
def scanCondition (cs : List Char) : Except PatternError (Lexeme × Nat) :=
  match cs with
  | '<' :: rest => (scanName '>' true rest).map fun (name, used) => (.condition name, used + 2)
  | '\'' :: rest => (scanName '\'' true rest).map fun (name, used) => (.condition name, used + 2)
  | _ => (scanName ')' true cs).map fun (name, used) => (.condition name, used)

def scanNamed (close : Char) (cs : List Char) : Except PatternError (Lexeme × Nat) :=
  (scanName close false cs).map fun (name, used) => (.capture (some (String.ofList name)), used)

/-- What stands after `(?<`. -/
def scanAngle (flags : Flags) : List Char → Except PatternError (Lexeme × Nat)
  | [] => .error .unclosedGroup
  | '=' :: _ => .ok (.opening (.behind false) flags, 1)
  | '!' :: _ => .ok (.opening (.behind true) flags, 1)
  | cs => scanNamed '>' cs

/-- What stands after `(?`. -/
def scanOption (flags : Flags) (cs : List Char) : Except PatternError (Lexeme × Nat) :=
  match cs with
  | ':' :: _ => .ok (.opening .plain flags, 1)
  | '=' :: _ => .ok (.opening (.ahead false) flags, 1)
  | '!' :: _ => .ok (.opening (.ahead true) flags, 1)
  | '>' :: _ => .ok (.opening .atomic flags, 1)
  | '#' :: rest => (scanComment 1 rest).map fun used => (.skip, used)
  | '<' :: rest => (scanAngle flags rest).map fun (x, used) => (x, used + 1)
  | '\'' :: rest => (scanNamed '\'' rest).map fun (x, used) => (x, used + 1)
  | '(' :: rest => (scanCondition rest).map fun (x, used) => (x, used + 1)
  | ')' :: _ => .error .unknownOption
  | _ => (scanFlags flags true 0 cs).map fun (flags, grouped, used) =>
      (.opening (if grouped then .plain else .options) flags, used)

/-- What a parenthesis opens; `cs` follows it. -/
def scanOpening (flags : Flags) (cs : List Char) : Except PatternError (Lexeme × Nat) :=
  match cs with
  | '?' :: rest => (scanOption flags rest).map fun (x, used) => (x, used + 1)
  | _ => .ok (.capture none, 0)

/-- A number after a backslash refers to a group if it has one digit or that many groups are open by
now; otherwise it is an octal escape or, from eight on, the digit itself. -/
def scanReference (groupCount : Nat) (c : Char) (rest : List Char) :
    Except PatternError (Lexeme × Nat) :=
  let (n, used) := scanNumber (c :: rest)
  if n ≤ 1000 ∧ (n ≤ groupCount ∨ n ≤ 9) then .ok (.number n, used)
  else if c = '8' ∨ c = '9' then .ok (.char c, 1)
  else (scanOctal 3 (c :: rest)).map fun (d, used) => (.tree (.literal [d] false), used)

def anchorEscape? : Char → Option Anchor
  | 'b' => some .wordBoundary
  | 'B' => some .noWordBoundary
  | 'A' => some .textStart
  | 'Z' => some .lastLineEnd
  | 'z' => some .textEnd
  | 'G' => some .searchStart
  | _ => none

def newline : CharSet := .single '\n'

/-- A line end of any kind, the pair of carriage return and line feed taken as one. -/
def anyLineEnd : Tree :=
  .atomic (.alt (.literal ['\r', '\n'] false)
    (.set (.union (.range 10 13) (.union (.range 0x85 0x85) (.range 0x2028 0x2029)))))

/-- The trees of escapes that one letter makes up. -/
def treeEscape? (c : Char) : Option Tree :=
  match c with
  | 'K' => some .keep
  | 'R' => some anyLineEnd
  | 'N' => some (.set (.compl newline))
  | 'O' => some (.set (.kind .any))
  | _ => (anchorEscape? c).map .anchor

def Escaped.lexeme : Escaped → Except PatternError Lexeme
  | .code n =>
    if isScalar n then .ok (.char (Char.ofNat n))
    else if n < 0x110000 then .ok (.tree (.set .empty))
    else .error .badCodePoint
  | .byteChar d => .ok (.tree (.literal [d] false))
  | .kind s => .ok (.tree (.set s))

/-- A reference to a group by name; `cs` follows the `k`. -/
def scanNameReference (cs : List Char) : Except PatternError (Lexeme × Nat) :=
  match cs with
  | '<' :: rest => (scanName '>' true rest).map fun (name, used) => (.name name, used + 1)
  | '\'' :: rest => (scanName '\'' true rest).map fun (name, used) => (.name name, used + 1)
  | _ => .ok (.char 'k', 0)

/-- Patterns cannot be called; `cs` follows the `g`. -/
def scanCall (cs : List Char) : Except PatternError (Lexeme × Nat) :=
  match cs with
  | '<' :: rest => (scanName '>' true rest).bind fun (name, _) => .error (.undefinedCall (String.ofList name))
  | _ => .ok (.char 'g', 0)

/-- An escape; `cs` follows the backslash. -/
def scanBackslash (groupCount : Nat) : List Char → Except PatternError (Lexeme × Nat)
  | [] => .error .endAtEscape
  | c :: rest =>
    match treeEscape? c with
    | some t => .ok (.tree t, 1)
    | none =>
    match c with
    | 'k' => (scanNameReference rest).map fun (x, used) => (x, used + 1)
    | 'g' => (scanCall rest).map fun (x, used) => (x, used + 1)
    | '0' => (scanOctal 3 (c :: rest)).map fun (d, used) => (.tree (.literal [d] false), used)
    | _ =>
      if c.isDigit then scanReference groupCount c rest
      else do
        let (x, used) ← scanEscape c rest
        return (← x.lexeme, used + 1)

/-- A quantifier with the mark after it. -/
def scanQuantifier (q : Quantifier) (rest : List Char) : Lexeme × Nat :=
  let (q, used) := applyMark q false false rest
  (.quantifier q, used)

/-- What a brace is; `cs` follows it. -/
def scanBrace (cs : List Char) : Except PatternError (Lexeme × Nat) := do
  match ← scanInterval cs with
  | none => return (.char '\x7b', 0)
  | some (q, isFixed, used) =>
    let (q, mark) := applyMark q isFixed true (cs.drop used)
    return (.quantifier q, used + mark)

/-- A character that only the option for blanks and comments gives a meaning. -/
def scanPlain (flags : Flags) (c : Char) (rest : List Char) : Lexeme × Nat :=
  if flags.extended && [' ', '\t', '\n', '\r', '\x0c'].contains c then (.skip, 0)
  else if flags.extended && c == '#' then (.skip, (rest.takeWhile (· != '\n')).length + 1)
  else (.char c, 0)

/-- The lexeme that starts with `c`, and how many characters of the rest belong to it too. -/
def scan (flags : Flags) (groupCount : Nat) (c : Char) (rest : List Char) :
    Except PatternError (Lexeme × Nat) :=
  match c with
  | '\\' => scanBackslash groupCount rest
  | '(' => scanOpening flags rest
  | ')' => .ok (.close, 0)
  | '|' => .ok (.bar, 0)
  | '[' => (readClass rest).map fun (content, negated, used) =>
      (.tree (classTree content negated flags.caseless), used)
  | '^' => .ok (.tree (.anchor .lineStart), 0)
  | '$' => .ok (.tree (.anchor .lineEnd), 0)
  | '.' => .ok (.tree (.set (if flags.dotAll then .kind .any else .compl newline)), 0)
  | '*' => .ok (scanQuantifier ⟨0, none, true, false⟩ rest)
  | '+' => .ok (scanQuantifier ⟨1, none, true, false⟩ rest)
  | '?' => .ok (scanQuantifier ⟨0, some 1, true, false⟩ rest)
  | '\x7b' => scanBrace rest
  | _ => .ok (scanPlain flags c rest)

end Scribe.Pattern
