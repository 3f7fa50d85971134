import Scribe.Pattern.Escape

/-!
# Reading character classes

A class is read from its first bracket to its last. Classes nest, `&&` intersects what stands on its
two sides, and a hyphen that cannot join two characters stands for itself.
-/

namespace Scribe.Pattern

/-- What the last item of a class may still become. -/
inductive Pending where
  | start
  /-- A character that a hyphen may turn into the start of a range. -/
  | code (n : Nat)
  /-- The start of a range, its hyphen already read. -/
  | rangeFrom (n : Nat)
  | kind
  | complete

structure OpenClass where
  negated : Bool
  pending : Pending
  /-- What was read since the last `&&`. -/
  members : CharSet
  /-- The intersection of the parts before it. -/
  earlier : Option CharSet

namespace OpenClass

def add (f : OpenClass) (s : CharSet) : OpenClass :=
  { f with members := if f.members = .empty then s else .union f.members s }

/-- A character that no hyphen has claimed becomes a member. -/
def settle (f : OpenClass) : OpenClass :=
  match f.pending with
  | .code n => f.add (.range n n)
  | _ => f

def addCode (f : OpenClass) (n : Nat) : Except PatternError OpenClass :=
  match f.pending with
  | .rangeFrom first =>
    if n < first then .error .emptyRange
    else .ok { f.add (.range first n) with pending := .complete }
  | _ => .ok { f.settle with pending := .code n }

def addKind (f : OpenClass) (s : CharSet) : Except PatternError OpenClass :=
  match f.pending with
  | .rangeFrom _ => .error .kindAtRangeEnd
  | _ => .ok { f.settle.add s with pending := .kind }

def addEscaped (f : OpenClass) : Escaped → Except PatternError OpenClass
  | .code n => f.addCode n
  | .byteChar c => f.addCode c.toNat
  | .kind s => f.addKind s

/-- A hyphen joins the character before it to what comes next, unless it stands `last` in its part. -/
def addHyphen (f : OpenClass) (last : Bool) : Except PatternError OpenClass :=
  match f.pending with
  | .code n => if last then f.addCode '-'.toNat else .ok { f with pending := .rangeFrom n }
  | _ => f.addCode '-'.toNat

/-- A nested class joins the members; a range that was begun before it is dropped. -/
def addClass (f : OpenClass) (s : CharSet) : OpenClass := f.add s

def meet (f : OpenClass) : CharSet :=
  match f.earlier with
  | some s => .inter s f.members
  | none => f.members

def intersect (f : OpenClass) : OpenClass :=
  { f.settle with pending := .start, members := .empty, earlier := some f.settle.meet }

/-- What the class holds before negation. -/
def content (f : OpenClass) : CharSet := f.settle.meet

def toSet (f : OpenClass) : CharSet :=
  if f.negated then .compl f.content else f.content

end OpenClass

/-- Begins a class. A bracket that would close it at once is a member if another one follows. -/
def startClass (negated : Bool) : List Char → Except PatternError (OpenClass × Nat)
  | ']' :: rest =>
    if rest.contains ']' then .ok (⟨negated, .code ']'.toNat, .empty, none⟩, 1) else .error .emptyClass
  | _ => .ok (⟨negated, .start, .empty, none⟩, 0)

/-- Begins a class right after its bracket. -/
def openClass : List Char → Except PatternError (OpenClass × Nat)
  | '^' :: rest => (startClass true rest).map fun (f, used) => (f, used + 1)
  | cs => startClass false cs

/-- Whether `:]` comes before any bracket that closes a class. -/
def bracketNameCloses : List Char → Bool
  | [] => false
  | ':' :: ']' :: _ => true
  | ']' :: _ => false
  | '\\' :: _ :: rest => bracketNameCloses rest
  | _ :: rest => bracketNameCloses rest

inductive Bracket where
  /-- A name such as `[:alpha:]`, with its length after the bracket. -/
  | name (s : CharSet) (used : Nat)
  | char
  | opens

/-- The name after `[:` or `[:^`, an ordinary bracket if no name comes. `lead` characters have been read
since the bracket. -/
def scanBracketName (negated : Bool) (lead : Nat) (cs : List Char) : Except PatternError Bracket :=
  match CharKind.bracketNames.find? fun p => Text.startsWith cs p.1.toList with
  | some (name, kind) =>
    if Text.startsWith (cs.drop name.length) [':', ']'] then
      .ok (.name (.ofKind kind negated) (lead + name.length + 2))
    else .error .unknownBracketName
  | none =>
    let rest := cs.dropWhile fun c => c != ':' && c != ']'
    if Text.startsWith rest [':', ']'] then .error .unknownBracketName else .ok .char

/-- The name after `[:`. -/
def scanColon : List Char → Except PatternError Bracket
  | '^' :: cs => scanBracketName true 2 cs
  | cs => scanBracketName false 1 cs

/-- What a bracket inside of a class is; `cs` follows it. -/
def scanBracket : List Char → Except PatternError Bracket
  | ':' :: cs => if bracketNameCloses cs then scanColon cs else .ok .opens
  | _ => .ok .opens

/-- An escape in a class; `cs` follows the backslash. -/
def scanClassEscape : List Char → Except PatternError (Escaped × Nat)
  | [] => .error .endAtEscape
  | 'b' :: _ => .ok (.code 8, 1)
  | c :: rest =>
    if (digitValue? 8 c).isSome then
      (scanOctal 3 (c :: rest)).map fun (d, used) => (.byteChar d, used)
    else (scanEscape c rest).map fun (x, used) => (x, used + 1)

inductive ClassStep where
  /-- The outermost class is closed: what it holds before negation, and whether it is negated. -/
  | done (content : CharSet) (negated : Bool)
  /-- How many of the coming characters have been read. -/
  | more (inner : OpenClass) (outer : List OpenClass) (used : Nat)

def classStep (f : OpenClass) (outer : List OpenClass) (c : Char) (rest : List Char) :
    Except PatternError ClassStep := do
  match c with
  | ']' =>
    match outer with
    | [] => return .done f.content f.negated
    | g :: outer => return .more (g.addClass f.toSet) outer 0
  | '\\' =>
    let (x, used) ← scanClassEscape rest
    return .more (← f.addEscaped x) outer used
  | '-' =>
    return .more (← f.addHyphen (rest.head? == some ']' || Text.startsWith rest ['&', '&'])) outer 0
  | '[' =>
    match ← scanBracket rest with
    | .name s used => return .more (← f.addKind s) outer used
    | .char => return .more (← f.addCode c.toNat) outer 0
    | .opens =>
      let (inner, used) ← openClass rest
      return .more inner ({ f.settle with pending := .complete } :: outer) used
  | '&' =>
    if rest.head? == some '&' then return .more f.intersect outer 1
    else return .more (← f.addCode c.toNat) outer 0
  | _ => return .more (← f.addCode c.toNat) outer 0

/-- Reads up to the bracket that closes the outermost class. `skip` characters of the rest belong to
the last step; `used` counts what has been read. -/
def readClassFrom (f : OpenClass) (outer : List OpenClass) (skip used : Nat) :
    List Char → Except PatternError (CharSet × Bool × Nat)
  | [] => .error .unclosedClass
  | c :: rest =>
    if skip = 0 then
      match classStep f outer c rest with
      | .error e => .error e
      | .ok (.done content negated) => .ok (content, negated, used + 1)
      | .ok (.more f outer skip) => readClassFrom f outer skip (used + 1) rest
    else readClassFrom f outer (skip - 1) (used + 1) rest

/-- What a class holds before negation, whether it is negated, and how many characters it takes;
`cs` follows its bracket. -/
def readClass (cs : List Char) : Except PatternError (CharSet × Bool × Nat) := do
  let (f, used) ← openClass cs
  readClassFrom f [] used 0 cs

/-- The tree for a class. When case is disregarded, a class also matches the longer texts that some
of its members fold to. -/
def classTree (content : CharSet) (negated caseless : Bool) : Tree :=
  if !caseless then .set (if negated then .compl content else content)
  else if negated then .set (.compl (.caseless content))
  else
    let longer := Unicode.foldMany.toList.filter fun e => content.holds (Char.ofNat e.1)
    Tree.altAll (.set (.caseless content) ::
      longer.map fun e => .literal (e.2.map Char.ofNat) true)

end Scribe.Pattern
