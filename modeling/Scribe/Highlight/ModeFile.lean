import Scribe.Highlight.RuleTable
import Scribe.Json.Fields
import Scribe.Json.Reader
import Scribe.Json.Writer

/-!
# Tables as JSON

A rule table written as an object from state names to lists of entries. An entry is an object with
`include`, one with `defaultToken`, or a rule; the first of these shapes that fits is taken, and fields
that the shape does not know are ignored. Writing a table and reading it gives the table.
-/

namespace Scribe

namespace ModeFile

open Json (once string? bool? strings? orNull fieldOr)

inductive TokenText where
  | one (kind : String)
  | many (kinds : List String)
  deriving DecidableEq, Repr

/-- The fields of a rule apart from `push`. -/
structure Rule where
  token : TokenText := .one Token.textKind
  regex : String
  next : Option String := none
  pop : Bool := false
  caseless : Bool := false
  merge : Option Bool := none
  deriving DecidableEq, Repr

inductive Entry where
  | include (state : String)
  | defaultKind (kind : String)
  /-- A rule, with the state that it pushes if it pushes one by name. -/
  | rule (r : Rule) (push : Option String)
  /-- A rule that pushes entries written in its place. -/
  | inline (r : Rule) (entries : List Entry)
  deriving Repr

/-! ## Reading fields -/

def token? (v : Json) : Option TokenText :=
  match v with
  | .str s => s.map .one
  | _ => (strings? v).map .many

/-- What a rule pushes. -/
inductive Push where
  | nothing
  | state (name : String)
  | entries (es : List Entry)

/-- The rule of these fields, `push` apart. -/
def rule? (f : Json.Record) : Option Rule := do
  if f.excess 7 ≠ 0 then none
  let token ← fieldOr (.one Token.textKind) token? (← f.get? 0 ["token"])
  let regex ← string? (← (← f.get? 1 ["regex"]))
  let next ← fieldOr none (orNull string?) (← f.get? 2 ["next"])
  let pop ← fieldOr false bool? (← f.get? 4 ["pop"])
  let caseless ← fieldOr false bool? (← f.get? 5 ["caseInsensitive"])
  let merge ← fieldOr none (orNull bool?) (← f.get? 6 ["merge"])
  return { token, regex, next, pop, caseless, merge }

/-- An entry of one of the first two shapes. -/
def simple? (fields : List (Option String × Json)) : Option Entry :=
  match (once fields "include").join.bind string? with
  | some state => some (.include state)
  | none =>
    match (once fields "defaultToken").join.bind string? with
    | some kind => some (.defaultKind kind)
    | none => none

def assemble (r : Rule) : Push → Entry
  | .nothing => .rule r none
  | .state name => .rule r (some name)
  | .entries es => .inline r es

mutual

/-- A rule may also be given as the list of its fields in the order of writing. Each level of nesting
takes two steps of `room`. -/
def asEntry : Nat → Json → Option Entry
  | 0, _ => none
  | room + 1, .obj fields =>
    match simple? fields with
    | some e => some e
    | none => asRuleEntry room (.named fields)
  | room + 1, .arr items => asRuleEntry room (.listed items)
  | _ + 1, _ => none

def asRuleEntry : Nat → Json.Record → Option Entry
  | 0, _ => none
  | room + 1, f => do
    let r ← rule? f
    let push ← match ← f.get? 3 ["push"] with
      | none | some .null => some .nothing
      | some (.str s) => s.map .state
      | some (.arr items) => (items.mapM (asEntry room)).map .entries
      | some _ => none
    return assemble r push

end

end ModeFile

/-- A table as it is written in a file. -/
structure ModeFile where
  states : Dict String (List ModeFile.Entry)
  deriving Repr

namespace ModeFile

/-- Deeper nesting than this is refused. -/
def maxDepth : Nat := 127

def state? (field : Option String × Json) : Option (String × List Entry) := do
  match field with
  | (some name, .arr items) => return (name, ← items.mapM (asEntry (2 * maxDepth)))
  | _ => none

/-- The table that the value describes; of two states with one name the later one counts. -/
def ofJson? (v : Json) : Option ModeFile :=
  if maxDepth < v.depth || !v.isMeaningful then none
  else match v with
    | .obj fields => (fields.mapM state?).map fun states => ⟨Dict.ofList states⟩
    | _ => none

def read? (text : String) : Option ModeFile := (Json.read? text).bind ofJson?

/-! ## Writing -/

def TokenText.toJson : TokenText → Json
  | one kind => .text kind
  | many kinds => .arr (kinds.map .text)

/-- The fields of a rule in order, with what it pushes. -/
def Rule.toFields (r : Rule) (push : Option Json) : List (String × Json) :=
  [("token", r.token.toJson), ("regex", .text r.regex)] ++
    (r.next.map fun s => ("next", Json.text s)).toList ++
    (push.map fun v => ("push", v)).toList ++
    (if r.pop then [("pop", .bool true)] else []) ++
    (if r.caseless then [("caseInsensitive", .bool true)] else []) ++
    (r.merge.map fun b => ("merge", Json.bool b)).toList

mutual

def Entry.toJson : Entry → Json
  | .include state => .ofFields [("include", .text state)]
  | .defaultKind kind => .ofFields [("defaultToken", .text kind)]
  | .rule r push => .ofFields (r.toFields (push.map .text))
  | .inline r entries => .ofFields (r.toFields (some (.arr (Entry.toJsonAll entries))))

def Entry.toJsonAll : List Entry → List Json
  | [] => []
  | e :: rest => e.toJson :: Entry.toJsonAll rest

end

def toJson (f : ModeFile) : Json :=
  .ofFields (f.states.entries.map fun (name, entries) => (name, .arr (Entry.toJsonAll entries)))

def write (f : ModeFile) : String := f.toJson.write

/-! ## The table -/

def TokenText.toSpec : TokenText → TokenSpec
  | one kind => .literal kind
  | many kinds => .groups kinds

/-- A rule that leads to the state `pop` by name pops, and `push` goes before `pop` before `next`. -/
def Rule.toRule (r : Rule) (push : Option String) : Scribe.Rule :=
  { token := r.token.toSpec
    regex := r.regex
    jump := match push, r.pop, r.next with
      | some state, _, _ => some (.push state)
      | none, true, _ => some .pop
      | none, false, some state => if state == "pop" then some .pop else some (.next state)
      | none, false, none => none
    caseless := r.caseless
    merge := r.merge.getD true }

mutual

def Entry.toEntry : Entry → Scribe.Entry
  | .include state => .include state
  | .defaultKind kind => .defaultKind kind
  | .rule r push => .rule (r.toRule push)
  | .inline r entries => .inline { r.toRule none with jump := none } (Entry.toEntries entries)

def Entry.toEntries : List Entry → List Scribe.Entry
  | [] => []
  | e :: rest => e.toEntry :: Entry.toEntries rest

end

def toTable (f : ModeFile) : RuleTable := ⟨f.states.mapValues Entry.toEntries⟩

end ModeFile

end Scribe
