import Scribe.Pattern.Basic

/-!
# Several patterns searched at once

The rules of a state are joined into one pattern `(r₀)|(r₁)|…`. At the earliest place where any of them
matches the first one wins, and the group around a rule tells which it was. References to groups by
number are moved by the number of groups in front.
-/

namespace Scribe

structure RulePattern where
  source : String
  caseless : Bool
  deriving DecidableEq, Repr

/-- The place of a rule in the joined pattern: the group around it, and how many groups of its own
follow that one. -/
structure UnionSlot where
  wrapper : Nat
  groupCount : Nat
  deriving DecidableEq, Repr

structure PatternUnion where
  slots : List UnionSlot
  /-- Nothing if there are no rules. -/
  joined : Option Pattern
  deriving Repr

structure UnionMatch where
  rule : Nat
  whole : Span
  /-- The span of the rule as a whole, then those of its own groups. -/
  spans : List (Option Span)
  deriving DecidableEq, Repr

/-- The rule whose pattern is wrong, and what is wrong with it. -/
structure UnionError where
  index : Nat
  pattern : String
  cause : PatternError
  deriving DecidableEq, Repr

namespace PatternUnion

def isNonzeroDigit (c : Char) : Bool := c.isDigit && c != '0'

/-- The number in front, zero if it takes more than 64 bits. -/
def leadingNumber (cs : List Char) : Nat :=
  let n := (Pattern.scanNumber cs).1
  if n < Nat.pow 2 64 then n else 0

/-- Adds `offset` to the group numbers after backslashes, except in classes, which last from a bracket
to the next closing one. While `skipping`, the digits of a number that was replaced are passed over.
The sum is written out in full, also where it takes more than 64 bits. No reference has such a number: outside of a
comment the reader takes its first digits for an escape. -/
def moveRefs (offset : Nat) (inClass skipping : Bool) : List Char → List Char
  | [] => []
  | '\\' :: d :: rest =>
    if !inClass && isNonzeroDigit d then
      '\\' :: Nat.toDigits 10 (leadingNumber (d :: rest) + offset) ++ moveRefs offset inClass true rest
    else '\\' :: d :: moveRefs offset inClass false rest
  | c :: rest =>
    if skipping && c.isDigit then moveRefs offset inClass true rest
    else
      let inClass := if c = '[' then true else if c = ']' then false else inClass
      c :: moveRefs offset inClass false rest

/-- One alternative of the joined pattern. -/
def alternative (rule : RulePattern) (wrapper : Nat) : List Char :=
  let body := moveRefs wrapper false false rule.source.toList
  if rule.caseless then "((?i:".toList ++ body ++ "))".toList else '(' :: body ++ [')']

/-- Compiles each rule by itself, so that a wrong one is reported by its place, and collects the
alternatives. `index` and `wrapper` are those of the first rule of the list. -/
def collect (index wrapper : Nat) : List RulePattern → Except UnionError (List UnionSlot × List (List Char))
  | [] => .ok ([], [])
  | rule :: rest =>
    match Pattern.compile rule.source rule.caseless with
    | .error cause => .error ⟨index, rule.source, cause⟩
    | .ok p =>
      match collect (index + 1) (wrapper + p.groupCount + 1) rest with
      | .error e => .error e
      | .ok (slots, alternatives) =>
        .ok (⟨wrapper, p.groupCount⟩ :: slots, alternative rule wrapper :: alternatives)

def compile (rules : List RulePattern) : Except UnionError PatternUnion :=
  if rules.isEmpty then .ok ⟨[], none⟩
  else
    match collect 0 1 rules with
    | .error e => .error e
    | .ok (slots, alternatives) =>
      let source := String.ofList (Text.joinWith ['|'] alternatives)
      match Pattern.compile source with
      | .error cause => .error ⟨0, source, cause⟩
      | .ok p => .ok ⟨slots, some p⟩

/-- How many groups the rule has itself. -/
def groupCount (u : PatternUnion) (rule : Nat) : Nat :=
  ((u.slots[rule]?).map (·.groupCount)).getD 0

/-- The first slot, counted from `index`, whose wrapper took part in the match. -/
def findSlot (spans : List (Option Span)) (index : Nat) : List UnionSlot → Option (Nat × UnionSlot)
  | [] => none
  | slot :: rest =>
    if (spans[slot.wrapper]?.join).isSome then some (index, slot) else findSlot spans (index + 1) rest

def find? (u : PatternUnion) (text : Array Char) (start : Nat) : Option UnionMatch := do
  let p ← u.joined
  let m ← p.find? text start
  let (rule, slot) ← findSlot m.spans 0 u.slots
  return {
    rule
    whole := m.whole
    spans := (m.spans.drop slot.wrapper).take (slot.groupCount + 1) }

end PatternUnion

end Scribe
