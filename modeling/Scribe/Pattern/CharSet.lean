import Scribe.Unicode.Case

/-!
# Sets of characters

What a class such as `[a-z\d]` or an escape such as `\w` denotes, and which characters it holds.
-/

namespace Scribe

/-- The named kinds of character that a pattern can ask for. -/
inductive CharKind where
  | any | assigned | ascii
  | alpha | alnum | blank | cntrl | digit | graph | lower | print | punct | space | upper | word | xdigit
  | category (c : Unicode.Category)
  | letter | mark | number | punctuation | symbol | separator | other | casedLetter
  deriving DecidableEq, Repr

namespace CharKind

open Unicode

def holds (kind : CharKind) (c : Char) : Bool :=
  match kind with
  | any => true
  | assigned => Unicode.category c != .cn
  | ascii => c.toNat < 0x80
  | alpha => isAlphabetic c
  | alnum => isAlphabetic c || isDecimal c
  | blank => Unicode.isBlank c
  | cntrl => isControl c
  | digit => isDecimal c
  | graph => isGraphic c
  | lower => isLowercase c
  | print => isGraphic c || Unicode.category c == .zs
  | punct => (Unicode.category c).isPunctuation || ['$', '+', '<', '=', '>', '^', '\x60', '|', '~'].contains c
  | space => isWhitespace c
  | upper => isUppercase c
  | word => isWord c
  | xdigit => c.isDigit || ('a' ≤ c && c ≤ 'f') || ('A' ≤ c && c ≤ 'F')
  | .category g => Unicode.category c == g
  | letter => (Unicode.category c).isLetter
  | mark => (Unicode.category c).isMark
  | number => (Unicode.category c).isNumber
  | punctuation => (Unicode.category c).isPunctuation
  | symbol => (Unicode.category c).isSymbol
  | separator => (Unicode.category c).isSeparator
  | other => (Unicode.category c).isOther
  | casedLetter => match Unicode.category c with
    | .lu | .ll | .lt => true
    | _ => false

/-- The names used in `[:name:]`. -/
def bracketNames : List (String × CharKind) :=
  [("alnum", alnum), ("alpha", alpha), ("blank", blank), ("cntrl", cntrl), ("digit", digit),
    ("graph", graph), ("lower", lower), ("print", print), ("punct", punct), ("space", space),
    ("upper", upper), ("xdigit", xdigit), ("ascii", ascii), ("word", word)]

/-- The names used in `\p`, in small letters without blanks, hyphens and underscores. -/
def propertyNames : List (String × CharKind) :=
  bracketNames ++
    [("any", any), ("assigned", assigned), ("alphabetic", alpha), ("lowercase", lower),
      ("uppercase", upper), ("whitespace", space), ("hexdigit", xdigit), ("asciihexdigit", xdigit),
      ("l", letter), ("letter", letter), ("m", mark), ("mark", mark), ("combiningmark", mark),
      ("n", number), ("number", number), ("p", punctuation), ("punctuation", punctuation),
      ("s", symbol), ("symbol", symbol), ("z", separator), ("separator", separator),
      ("c", other), ("other", other), ("lc", casedLetter), ("casedletter", casedLetter),
      ("lu", .category .lu), ("uppercaseletter", .category .lu),
      ("ll", .category .ll), ("lowercaseletter", .category .ll),
      ("lt", .category .lt), ("titlecaseletter", .category .lt),
      ("lm", .category .lm), ("modifierletter", .category .lm),
      ("lo", .category .lo), ("otherletter", .category .lo),
      ("mn", .category .mn), ("nonspacingmark", .category .mn),
      ("mc", .category .mc), ("spacingmark", .category .mc),
      ("me", .category .me), ("enclosingmark", .category .me),
      ("nd", .category .nd), ("decimalnumber", .category .nd),
      ("nl", .category .nl), ("letternumber", .category .nl),
      ("no", .category .no), ("othernumber", .category .no),
      ("pc", .category .pc), ("connectorpunctuation", .category .pc),
      ("pd", .category .pd), ("dashpunctuation", .category .pd),
      ("ps", .category .ps), ("openpunctuation", .category .ps),
      ("pe", .category .pe), ("closepunctuation", .category .pe),
      ("pi", .category .pi), ("initialpunctuation", .category .pi),
      ("pf", .category .pf), ("finalpunctuation", .category .pf),
      ("po", .category .po), ("otherpunctuation", .category .po),
      ("sm", .category .sm), ("mathsymbol", .category .sm),
      ("sc", .category .sc), ("currencysymbol", .category .sc),
      ("sk", .category .sk), ("modifiersymbol", .category .sk),
      ("so", .category .so), ("othersymbol", .category .so),
      ("zs", .category .zs), ("spaceseparator", .category .zs),
      ("zl", .category .zl), ("lineseparator", .category .zl),
      ("zp", .category .zp), ("paragraphseparator", .category .zp),
      ("cc", .category .cc), ("control", .category .cc),
      ("cf", .category .cf), ("format", .category .cf),
      ("cn", .category .cn), ("unassigned", .category .cn),
      ("co", .category .co), ("privateuse", .category .co),
      ("cs", .category .cs), ("surrogate", .category .cs)]

end CharKind

inductive CharSet where
  | empty
  /-- All code points from `first` to `last`. -/
  | range (first last : Nat)
  | kind (k : CharKind)
  | compl (s : CharSet)
  | union (s t : CharSet)
  | inter (s t : CharSet)
  /-- The characters that differ from one in `s` by case alone. -/
  | caseless (s : CharSet)
  deriving DecidableEq, Repr

namespace CharSet

def single (c : Char) : CharSet := .range c.toNat c.toNat

def ofKind (kind : CharKind) (negated : Bool) : CharSet := if negated then .compl (.kind kind) else .kind kind

/-- The characters with the folded form of `c`, `c` among them. -/
def caseVariants (c : Char) : List Char :=
  match Unicode.foldChar c with
  | [f] => c :: Unicode.unfoldChar f
  | _ => [c]

def holds : CharSet → Char → Bool
  | .empty, _ => false
  | .range first last, c => first ≤ c.toNat && c.toNat ≤ last
  | .kind k, c => k.holds c
  | .compl s, c => !s.holds c
  | .union s t, c => s.holds c || t.holds c
  | .inter s t, c => s.holds c && t.holds c
  | .caseless s, c => s.holds c || (caseVariants c).any s.holds

end CharSet

end Scribe
