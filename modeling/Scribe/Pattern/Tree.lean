import Scribe.Pattern.CharSet

/-!
# Syntax trees of patterns

A pattern as the reader leaves it: groups are numbered, names are resolved and options are spread
over the nodes that they concern.
-/

namespace Scribe

/-- The assertions that look at one place of the text and take nothing. -/
inductive Anchor where
  | lineStart | lineEnd
  | textStart | textEnd
  /-- The end of the text or a line end right before it. -/
  | lastLineEnd
  /-- The place where the search began. -/
  | searchStart
  | wordBoundary | noWordBoundary
  deriving DecidableEq, Repr

inductive Tree where
  | empty
  /-- These characters in a row; up to case if `caseless`. -/
  | literal (text : List Char) (caseless : Bool)
  | set (s : CharSet)
  | anchor (a : Anchor)
  /-- What one of the groups has matched last, the first that fits. -/
  | backref (groups : List Nat) (caseless : Bool)
  | group (index : Nat) (body : Tree)
  /-- The first way in which the body matches, and no other. -/
  | atomic (body : Tree)
  | ahead (negated : Bool) (body : Tree)
  | behind (negated : Bool) (body : Tree)
  | repetition (body : Tree) (least : Nat) (most : Option Nat) (greedy : Bool)
  | seq (first second : Tree)
  | alt (first second : Tree)
  /-- The match is reported as if it started here. -/
  | keep
  /-- `yes` if one of the groups has matched, `no` otherwise. -/
  | ifGroup (groups : List Nat) (yes no : Tree)
  deriving DecidableEq, Repr

namespace Tree

def seqAll : List Tree → Tree
  | [] => .empty
  | [t] => t
  | t :: rest => .seq t (seqAll rest)

def altAll : List Tree → Tree
  | [] => .empty
  | [t] => t
  | t :: rest => .alt t (altAll rest)

/-- The numbers of characters that the tree can match: a lower and, if there is one, an upper bound. -/
def width : Tree → Nat × Option Nat
  | .empty | .anchor _ | .ahead _ _ | .behind _ _ | .keep => (0, some 0)
  | .literal text caseless =>
    if caseless then
      let folded := text.flatMap Unicode.foldChar
      ((folded.length + 2) / 3, some folded.length)
    else (text.length, some text.length)
  | .set _ => (1, some 1)
  | .backref _ _ => (0, none)
  | .group _ body | .atomic body => width body
  | .repetition body least most _ =>
    let (lo, hi) := width body
    (lo * least, match hi, most with
      | some 0, _ => some 0
      | some hi, some most => some (hi * most)
      | _, _ => none)
  | .seq s t => ((width s).1 + (width t).1, do return (← (width s).2) + (← (width t).2))
  | .alt s t | .ifGroup _ s t =>
    (min (width s).1 (width t).1, do return max (← (width s).2) (← (width t).2))

/-- Whether the tree holds a group that is numbered. -/
def hasGroup : Tree → Bool
  | .group _ _ => true
  | .atomic t | .ahead _ t | .behind _ t | .repetition t _ _ _ => hasGroup t
  | .seq s t | .alt s t | .ifGroup _ s t => hasGroup s || hasGroup t
  | _ => false

end Tree

end Scribe
