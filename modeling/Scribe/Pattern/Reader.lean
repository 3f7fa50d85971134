import Scribe.Pattern.Lexeme

/-!
# Reading patterns

A pattern is read in one pass from left to right, lexeme by lexeme. The open groups are kept on a stack;
each holds its finished branches and the pieces of the branch being read. A run of plain characters is
one piece, from which a quantifier takes the last character.
-/

namespace Scribe.Pattern

/-- What becomes of a group when it is closed. -/
inductive GroupKind where
  | frame (frame : Frame)
  | capture (index : Nat)
  | condition (groups : List Nat)
  deriving DecidableEq, Repr

inductive Piece where
  /-- A run of characters, the last one first. -/
  | run (reversed : List Char) (caseless : Bool)
  | tree (t : Tree)

def Piece.toTree : Piece → Tree
  | .run reversed caseless => .literal reversed.reverse caseless
  | .tree t => t

structure OpenGroup where
  kind : GroupKind
  /-- The options in force outside of the group. -/
  outerFlags : Flags
  /-- The finished branches, the last one first. -/
  branches : List Tree := []
  /-- The pieces of the branch being read, the last one first. -/
  pieces : List Piece := []

namespace OpenGroup

def push (g : OpenGroup) (t : Tree) : OpenGroup := { g with pieces := .tree t :: g.pieces }

def pushChar (g : OpenGroup) (c : Char) (caseless : Bool) : OpenGroup :=
  match g.pieces with
  | .run reversed b :: rest =>
    if b = caseless then { g with pieces := .run (c :: reversed) b :: rest }
    else { g with pieces := .run [c] caseless :: g.pieces }
  | _ => { g with pieces := .run [c] caseless :: g.pieces }

def branch (g : OpenGroup) : Tree := Tree.seqAll (g.pieces.reverse.map Piece.toTree)

def endBranch (g : OpenGroup) : OpenGroup :=
  { g with branches := g.branch :: g.branches, pieces := [] }

def alternatives (g : OpenGroup) : List Tree := (g.branch :: g.branches).reverse

def close (g : OpenGroup) : Except PatternError Tree :=
  let body := Tree.altAll g.alternatives
  match g.kind with
  | .frame .plain | .frame .options => .ok body
  | .frame .atomic => .ok (.atomic body)
  | .frame (.ahead negated) => .ok (.ahead negated body)
  | .frame (.behind negated) =>
    if negated && body.hasGroup then .error .badLookBehind else .ok (.behind negated body)
  | .capture index => .ok (.group index body)
  | .condition groups =>
    match g.alternatives with
    | [yes] => .ok (.ifGroup groups yes .empty)
    | [yes, no] => .ok (.ifGroup groups yes no)
    | _ => .error .badCondition

end OpenGroup

def Quantifier.apply (q : Quantifier) (t : Tree) : Tree :=
  let t := .repetition t q.least q.most q.greedy
  if q.possessive then .atomic t else t

structure Reader where
  flags : Flags
  inner : OpenGroup
  /-- The groups around it, from the inside out. -/
  outer : List OpenGroup := []
  groupCount : Nat := 0
  /-- The names given so far and their groups, the last one first. -/
  names : List (String × Nat) := []
  /-- The largest group number that is referred to. -/
  largestRef : Nat := 0

namespace Reader

def push (r : Reader) (t : Tree) : Reader := { r with inner := r.inner.push t }

def pushChar (r : Reader) (c : Char) : Reader :=
  { r with inner := r.inner.pushChar c r.flags.caseless }

def openGroup (r : Reader) (kind : GroupKind) (flags : Flags) : Reader :=
  { r with flags, inner := { kind, outerFlags := r.flags }, outer := r.inner :: r.outer }

def openCapture (r : Reader) (name? : Option String) : Reader :=
  let index := r.groupCount + 1
  { r.openGroup (.capture index) r.flags with
    groupCount := index
    names := (name?.map fun name => (name, index)).toList ++ r.names }

def refer (r : Reader) (groups : List Nat) : Reader :=
  { r with largestRef := groups.foldl max r.largestRef }

/-- Closes the innermost group that has a parenthesis of its own. -/
def closeFrom (g : OpenGroup) : List OpenGroup → Except PatternError (Flags × OpenGroup × List OpenGroup)
  | [] => .error .unopenedGroup
  | h :: outer => do
    let h := h.push (← g.close)
    if g.kind = .frame .options then closeFrom h outer else return (g.outerFlags, h, outer)

def closeGroup (r : Reader) : Except PatternError Reader := do
  let (flags, inner, outer) ← closeFrom r.inner r.outer
  return { r with flags, inner, outer }

/-- Closes what may stay open at the end of the pattern. -/
def finishFrom (g : OpenGroup) : List OpenGroup → Except PatternError Tree
  | [] => g.close
  | h :: outer => do
    if g.kind = .frame .options then finishFrom (h.push (← g.close)) outer
    else throw .unclosedGroup

def finish (r : Reader) : Except PatternError Tree := do
  let t ← finishFrom r.inner r.outer
  if r.groupCount < r.largestRef then throw .noSuchGroup
  return t

/-- The quantifier takes the last character of a run, or else the whole last piece. -/
def quantify (r : Reader) (q : Quantifier) : Except PatternError Reader :=
  if q.least = 1 ∧ q.most = some 1 then
    if r.inner.pieces.isEmpty then .error .nothingToRepeat else .ok r
  else match r.inner.pieces with
  | [] => .error .nothingToRepeat
  | .run (c :: d :: more) caseless :: rest =>
    let last := .tree (q.apply (.literal [c] caseless))
    .ok { r with inner := { r.inner with pieces := last :: .run (d :: more) caseless :: rest } }
  | piece :: rest =>
    .ok { r with inner := { r.inner with pieces := .tree (q.apply piece.toTree) :: rest } }

/-- The groups of a name, or the group of a number; a signed number counts from here. -/
def resolve (r : Reader) (name : List Char) : Except PatternError (List Nat) :=
  match name with
  | '-' :: digits =>
    let back := (scanNumber digits).1
    if back = 0 || r.groupCount + 1 ≤ back then .error .noSuchGroup
    else .ok [r.groupCount + 1 - back]
  | '+' :: digits => .ok [r.groupCount + (scanNumber digits).1]
  | c :: _ =>
    if c.isDigit then
      match (scanNumber name).1 with
      | 0 => .error .noSuchGroup
      | n => .ok [n]
    else
      let spelled := String.ofList name
      match r.names.filter (·.1 == spelled) with
      | [] => .error (.undefinedName spelled)
      | found => .ok (found.map (·.2))
  | [] => .error .emptyName

def pushBackref (r : Reader) (groups : List Nat) : Reader :=
  (r.refer groups).push (.backref groups r.flags.caseless)

def take (r : Reader) : Lexeme → Except PatternError Reader
  | .skip => .ok r
  | .char c => .ok (r.pushChar c)
  | .tree t => .ok (r.push t)
  | .number n => .ok (r.pushBackref [n])
  | .name name => do return r.pushBackref (← r.resolve name)
  | .opening frame flags => .ok (r.openGroup (.frame frame) flags)
  | .capture name? => .ok (r.openCapture name?)
  | .condition name => do
    let groups ← r.resolve name
    return (r.refer groups).openGroup (.condition groups) r.flags
  | .close => r.closeGroup
  | .bar => .ok { r with inner := r.inner.endBranch }
  | .quantifier q => r.quantify q

/-- One step: `c` has been read and `rest` follows. Answers how many characters of the rest it has
used too. -/
def step (r : Reader) (c : Char) (rest : List Char) : Except PatternError (Reader × Nat) := do
  let (x, used) ← scan r.flags r.groupCount c rest
  return (← r.take x, used)

end Reader

/-- Reads to the end. `skip` characters belong to the step before. -/
def readFrom (r : Reader) (skip : Nat) : List Char → Except PatternError Reader
  | [] => .ok r
  | c :: rest =>
    if skip = 0 then
      match r.step c rest with
      | .error e => .error e
      | .ok (r, skip) => readFrom r skip rest
    else readFrom r (skip - 1) rest

/-- The reader in front of a pattern. -/
def Reader.initial (flags : Flags) : Reader :=
  { flags, inner := { kind := .frame .plain, outerFlags := flags } }

/-- The tree of a pattern and the number of its groups. -/
def read (source : List Char) (caseless : Bool) : Except PatternError (Tree × Nat) := do
  let r ← readFrom (Reader.initial { caseless }) 0 source
  return (← r.finish, r.groupCount)

end Scribe.Pattern
