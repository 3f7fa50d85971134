import Scribe.Error
import Scribe.Highlight.RuleTable
import Scribe.Pattern.Union

/-!
# Compiled tables

A table is checked and compiled once: inline rules get a state with a name, included rules are taken
in, every state that a rule leads to must exist, and the patterns of a state are joined.
-/

namespace Scribe

/-- Bounds on the work for one line. -/
structure ScanOptions where
  /-- After that many matches the rest of the line is given up. -/
  maxMatches : Nat := 2000
  /-- The number of characters in a token of the rest. -/
  overflowChunk : Nat := 500
  maxMatches_pos : 0 < maxMatches := by omega
  overflowChunk_pos : 0 < overflowChunk := by omega
  deriving DecidableEq, Repr

namespace ScanOptions

instance : Inhabited ScanOptions := ⟨{}⟩

/-- A budget of zero counts as one. -/
def withMaxMatches (o : ScanOptions) (n : Nat) : ScanOptions :=
  { o with maxMatches := max n 1, maxMatches_pos := by omega }

/-- A length of zero counts as one. -/
def withOverflowChunk (o : ScanOptions) (n : Nat) : ScanOptions :=
  { o with overflowChunk := max n 1, overflowChunk_pos := by omega }

end ScanOptions

structure CompiledRule where
  token : TokenSpec
  jump : Option Jump
  onMatch : Option Handler
  merge : Bool

structure CompiledState where
  name : String
  defaultKind : String
  patterns : PatternUnion
  rules : Array CompiledRule

structure Tokenizer where
  /-- In order of name. -/
  states : Dict String CompiledState
  start : CompiledState
  options : ScanOptions

mutual

/-- Names the states of inline rules after the state that holds them and a running number. Answers
with the entry as it is then, the number used last, and the named states. -/
def Entry.hoist (owner : String) (count : Nat) : Entry → Entry × Nat × List (String × List Entry)
  | .inline r entries =>
    let name := owner ++ "#" ++ toString (count + 1)
    let (entries, count, inner) := Entry.hoistAll name (count + 1) entries
    (.rule { r with jump := some (.push name) }, count, inner ++ [(name, entries)])
  | e => (e, count, [])

def Entry.hoistAll (owner : String) (count : Nat) :
    List Entry → List Entry × Nat × List (String × List Entry)
  | [] => ([], count, [])
  | e :: rest =>
    let (e, count, inner) := e.hoist owner count
    let (rest, count, more) := Entry.hoistAll owner count rest
    (e :: rest, count, inner ++ more)

end

namespace RuleTable

/-- The table without inline rules. -/
def hoisted (t : RuleTable) : Dict String (List Entry) :=
  t.states.entries.foldl (fun states (name, entries) =>
    let (entries, _, inner) := Entry.hoistAll name 0 entries
    (states.insert name entries).insertMany inner) Dict.empty

end RuleTable

/-- The rules of a state with those that it includes in their places. A state on the `path`, which is
being expanded already, is passed over; so no path is longer than there are states, and `room` for
that many is enough. -/
def includedRules (states : Dict String (List Entry)) :
    Nat → List String → String → Except Error (List Rule)
  | 0, _, _ => .ok []
  | room + 1, path, name =>
    let path := name :: path
    ((states.get? name).getD []).foldlM (fun rules entry =>
      match entry with
      | .rule r | .inline r _ => .ok (rules ++ [r])
      | .include target =>
        if !states.contains target then .error (.unknownInclude name target)
        else if path.contains target then .ok rules
        else (includedRules states room path target).map (rules ++ ·)
      | .defaultKind _ => .ok rules) []

/-- The state that the rule names, unless it leads nowhere by name. -/
def Rule.target? (r : Rule) : Option String :=
  match r.jump with
  | some (.next state) | some (.push state) => some state
  | _ => none

/-- The last kind that the state itself gives. -/
def defaultKindOf (entries : List Entry) : String :=
  (entries.reverse.findSome? fun
    | .defaultKind kind => some kind
    | _ => none).getD Token.textKind

/-- A list of kinds only makes sense if it has one for each group, and more than one; otherwise its
first kind stands for the whole match. -/
def TokenSpec.fit (token : TokenSpec) (groupCount : Nat) : TokenSpec :=
  match token with
  | .groups kinds =>
    if kinds.length ≤ 1 ∨ kinds.length ≠ groupCount then .literal (kinds.head?.getD Token.textKind)
    else token
  | _ => token

def compileState (states : Dict String (List Entry)) (name : String) (entries : List Entry) :
    Except Error CompiledState := do
  let rules ← includedRules states (states.entries.length + 1) [] name
  match rules.findSome? fun r => r.target?.filter (!states.contains ·) with
  | some target => throw (.unknownState name target)
  | none =>
    match PatternUnion.compile (rules.map fun r => ⟨r.regex, r.caseless⟩) with
    | .error e => throw (.badPattern name e.index e.pattern e.cause)
    | .ok patterns =>
      let compiled := rules.mapIdx fun i r =>
        { token := r.token.fit (patterns.groupCount i), jump := r.jump, onMatch := r.onMatch,
          merge := r.merge : CompiledRule }
      return { name, defaultKind := defaultKindOf entries, patterns, rules := compiled.toArray }

namespace Tokenizer

def compile (table : RuleTable) (options : ScanOptions := {}) : Except Error Tokenizer := do
  if !table.states.contains startState then throw .missingStart
  let states := table.hoisted
  let compiled ← states.entries.mapM fun (name, entries) =>
    (compileState states name entries).map fun s => (name, s)
  let states : Dict String CompiledState := ⟨compiled⟩
  match states.get? startState with
  | some start => return { states, start, options }
  | none => throw .missingStart

def stateNames (t : Tokenizer) : List String := t.states.keys

def hasState (t : Tokenizer) (name : String) : Bool := t.states.contains name

/-- The names of the states and the options. -/
def render (t : Tokenizer) : String :=
  let names := Text.joinWith ", ".toList (t.stateNames.map fun n => (Text.quote n).toList)
  "Tokenizer \x7b states: [" ++ String.ofList names ++ "], options: TokenizerOptions \x7b max_matches_per_line: " ++
    toString t.options.maxMatches ++ ", overflow_chunk: " ++ toString t.options.overflowChunk ++ " \x7d \x7d"

end Tokenizer

end Scribe
