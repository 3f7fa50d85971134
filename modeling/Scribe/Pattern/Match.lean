import Scribe.Pattern.Tree

/-!
# Matching

A tree is matched by backtracking: `Tree.run` offers every way in which the tree can match, in order
of preference, to what has to match after it, and answers with the first success of the whole.
A text is an array of characters and a place in it is the number of characters before it.
-/

namespace Scribe

/-- A stretch of a text, from `start` up to `stop`. -/
structure Span where
  start : Nat
  stop : Nat
  deriving DecidableEq, Repr, Inhabited

def Span.isEmpty (s : Span) : Bool := s.stop ≤ s.start

namespace Pattern

/-- What a match sees: the text and the place where the search began. -/
structure Input where
  text : Array Char
  origin : Nat

/-- How far a match has come. -/
structure Progress where
  pos : Nat
  /-- Where the match is reported to start. -/
  start : Nat
  /-- What each group has matched last; place 0 is not used. -/
  groups : Array (Option Span)
  deriving DecidableEq, Repr

/-- What has to match afterwards. -/
abbrev After := Progress → Option Progress

namespace Input

variable (input : Input)

def isNewlineAt (i : Nat) : Bool := input.text[i]? == some '\n'

def isWordAt (i : Nat) : Bool := (input.text[i]?.map Unicode.isWord).getD false

def anchorHolds (a : Anchor) (pos : Nat) : Bool :=
  let size := input.text.size
  match a with
  | .lineStart => pos == 0 || (pos < size && input.isNewlineAt (pos - 1))
  | .lineEnd => pos == size || input.isNewlineAt pos
  | .textStart => pos == 0
  | .textEnd => pos == size
  | .lastLineEnd => pos == size || (pos + 1 == size && input.isNewlineAt pos)
  | .searchStart => pos == input.origin
  | .wordBoundary => (0 < pos && input.isWordAt (pos - 1)) != input.isWordAt pos
  | .noWordBoundary => (0 < pos && input.isWordAt (pos - 1)) == input.isWordAt pos

/-- The end of the characters `cs` if they stand at `pos`. -/
def literalEnd (pos : Nat) : List Char → Option Nat
  | [] => some pos
  | c :: cs => if input.text[pos]? = some c then literalEnd (pos + 1) cs else none

/-- The end of a stretch at `pos` whose folded form is what is left of `pending`, from the last
character read, followed by `folded`. -/
def foldedEnd (pos : Nat) (pending : List Char) : List Char → Option Nat
  | [] => if pending.isEmpty then some pos else none
  | f :: folded =>
    match pending with
    | g :: pending => if f = g then foldedEnd pos pending folded else none
    | [] =>
      match input.text[pos]? with
      | none => none
      | some c =>
        match Unicode.foldChar c with
        | g :: pending => if f = g then foldedEnd (pos + 1) pending folded else none
        | [] => none

/-- The end of a copy at `pos` of the text of a span, each character up to case. -/
def copyEnd (caseless : Bool) (pos : Nat) (span : Span) : Option Nat :=
  let wanted := (input.text.extract span.start span.stop).toList
  let found := (input.text.extract pos (pos + wanted.length)).toList
  let fold := fun cs : List Char => if caseless then cs.map Unicode.foldChar else cs.map ([·])
  if fold wanted = fold found then some (pos + wanted.length) else none

/-- How many characters from `pos` on satisfy `p`, counting up to `limit`. -/
def countRun (p : Char → Bool) (pos : Nat) : Nat → Nat
  | 0 => 0
  | limit + 1 =>
    match input.text[pos]? with
    | some c => if p c then countRun p (pos + 1) limit + 1 else 0
    | none => 0

end Input

/-- One after the other, the first success. -/
def orElse (a : Option Progress) (b : Unit → Option Progress) : Option Progress :=
  match a with
  | some r => some r
  | none => b ()

/-- Goes on after each of the lengths `least + n`, …, `least`, the longest first. -/
def longestFirst (s : Progress) (k : After) (least : Nat) : Nat → Option Progress
  | 0 => k { s with pos := s.pos + least }
  | n + 1 => orElse (k { s with pos := s.pos + least + (n + 1) }) fun _ => longestFirst s k least n

/-- Goes on after each of the lengths `length`, …, `length + n`, the shortest first. -/
def shortestFirst (s : Progress) (k : After) (length : Nat) : Nat → Option Progress
  | 0 => k { s with pos := s.pos + length }
  | n + 1 => orElse (k { s with pos := s.pos + length }) fun _ => shortestFirst s k (length + 1) n

/-- A run of characters that satisfy `p`, between `least` and `most` of them. -/
def runChars (input : Input) (p : Char → Bool) (least : Nat) (most : Option Nat) (greedy : Bool)
    (s : Progress) (k : After) : Option Progress :=
  let room := input.text.size - s.pos
  let count := input.countRun p s.pos (min room (most.getD room))
  if count < least then none
  else if greedy then longestFirst s k least (count - least)
  else shortestFirst s k least (count - least)

/-- The body exactly `n` times. -/
def times (body : Progress → After → Option Progress) : Nat → Progress → After → Option Progress
  | 0, s, k => k s
  | n + 1, s, k => body s fun s => times body n s k

/-- The body up to `n` times. -/
def upTo (body : Progress → After → Option Progress) (greedy : Bool) :
    Nat → Progress → After → Option Progress
  | 0, s, k => k s
  | n + 1, s, k =>
    if greedy then orElse (body s fun s => upTo body greedy n s k) fun _ => k s
    else orElse (k s) fun _ => body s fun s => upTo body greedy n s k

/-- The body any number of times. A round that takes nothing is the last one, so that `room` rounds
are enough for a text with fewer characters left. -/
def anyTimes (body : Progress → After → Option Progress) (greedy : Bool) :
    Nat → Progress → After → Option Progress
  | 0, s, k => k s
  | room + 1, s, k =>
    let again := fun _ : Unit =>
      body s fun t => if t.pos = s.pos then k t else anyTimes body greedy room t k
    if greedy then orElse (again ()) fun _ => k s else orElse (k s) again

/-- Tries the starts from `start` back, `n` further ones, for a match that ends where `s` stands. -/
def behindFrom (body : Progress → After → Option Progress) (s : Progress) (start : Nat) :
    Nat → Option Progress
  | 0 => body { s with pos := start } fun t => if t.pos = s.pos then some t else none
  | n + 1 =>
    orElse (body { s with pos := start } fun t => if t.pos = s.pos then some t else none)
      fun _ => behindFrom body s (start - 1) n

/-- A match of the body that ends where `s` stands; the shortest stretches are tried first. -/
def lookBehind (body : Progress → After → Option Progress) (width : Nat × Option Nat)
    (s : Progress) : Option Progress :=
  if s.pos < width.1 then none
  else
    let longest := min s.pos (width.2.getD s.pos)
    if longest < width.1 then none
    else behindFrom body s (s.pos - width.1) (longest - width.1)

/-- The test for a tree that matches exactly one character, of one kind. -/
def oneChar? : Tree → Option (Char → Bool)
  | .set s => some s.holds
  | .literal [c] false => some (· == c)
  | _ => none

/-- The way of going on from `s` after the tree has matched. -/
def run (input : Input) : Tree → Progress → After → Option Progress
  | .empty, s, k => k s
  | .literal text caseless, s, k =>
    let stop := if caseless then input.foldedEnd s.pos [] (text.flatMap Unicode.foldChar)
      else input.literalEnd s.pos text
    match stop with
    | some pos => k { s with pos }
    | none => none
  | .set set, s, k =>
    match input.text[s.pos]? with
    | some c => if set.holds c then k { s with pos := s.pos + 1 } else none
    | none => none
  | .anchor a, s, k => if input.anchorHolds a s.pos then k s else none
  | .backref groups caseless, s, k =>
    match groups.findSome? fun i => s.groups[i]?.join.bind (input.copyEnd caseless s.pos) with
    | some pos => k { s with pos }
    | none => none
  | .group index body, s, k =>
    run input body s fun t =>
      k { t with groups := t.groups.setIfInBounds index (some ⟨s.pos, t.pos⟩) }
  | .atomic body, s, k =>
    match run input body s some with
    | some t => k t
    | none => none
  | .ahead negated body, s, k =>
    match run input body s some with
    | some t => if negated then none else k { t with pos := s.pos }
    | none => if negated then k s else none
  | .behind negated body, s, k =>
    match lookBehind (run input body) body.width s with
    | some t => if negated then none else k { t with pos := s.pos }
    | none => if negated then k s else none
  | .repetition body least most greedy, s, k =>
    match oneChar? body with
    | some p => runChars input p least most greedy s k
    | none =>
      times (run input body) least s fun s =>
        match most with
        | some most => upTo (run input body) greedy (most - least) s k
        | none => anyTimes (run input body) greedy (input.text.size - s.pos + 1) s k
  | .seq first second, s, k => run input first s fun s => run input second s k
  | .alt first second, s, k => orElse (run input first s k) fun _ => run input second s k
  | .keep, s, k => k { s with start := s.pos }
  | .ifGroup groups yes no, s, k =>
    if groups.any fun i => (s.groups[i]?.join).isSome then run input yes s k else run input no s k

/-- The first match that starts at `start` or at one of the `n` places after it. -/
def searchFrom (input : Input) (tree : Tree) (groupCount : Nat) (start : Nat) : Nat → Option Progress
  | 0 => run input tree ⟨start, start, Array.replicate (groupCount + 1) none⟩ some
  | n + 1 =>
    orElse (run input tree ⟨start, start, Array.replicate (groupCount + 1) none⟩ some)
      fun _ => searchFrom input tree groupCount (start + 1) n

end Pattern

end Scribe
