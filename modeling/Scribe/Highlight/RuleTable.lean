import Scribe.Highlight.StateStack

/-!
# Rule tables

A table gives each state of a mode a list of entries: rules, other states to include, and the kind of
text that no rule matches. A new table is made from one by replacing or extending states, or by
embedding all states of another table under a label.
-/

namespace Scribe

/-- Finds the kind of a token from the text of a match and of its groups. -/
abbrev Classifier := List String → String

/-- Called with the text of a match, the name of the state and the stack; answers with the tokens
for the text and the stack as it shall be. -/
abbrev Handler := String → String → StateStack → List Token × StateStack

inductive TokenSpec where
  | literal (kind : String)
  /-- One kind for each group of the pattern. -/
  | groups (kinds : List String)
  | classify (f : Classifier)

/-- What becomes of the stack after a match. -/
inductive Jump where
  | next (state : String)
  | push (state : String)
  | pop
  deriving DecidableEq, Repr

structure Rule where
  token : TokenSpec
  regex : String
  jump : Option Jump := none
  onMatch : Option Handler := none
  caseless : Bool := false
  /-- Whether the token may join one of the same kind before it. -/
  merge : Bool := true

inductive Entry where
  | rule (r : Rule)
  /-- A rule that enters a state of its own, without a name, made of these entries. -/
  | inline (r : Rule) (entries : List Entry)
  /-- The rules of another state, taken in at this place. -/
  | include (state : String)
  /-- The kind of the text that no rule of the state matches. -/
  | defaultKind (kind : String)

structure RuleTable where
  states : Dict String (List Entry) := Dict.empty

def Jump.apply (j : Jump) (stack : StateStack) : StateStack :=
  match j with
  | next state => stack.next state
  | push state => stack.push state
  | pop => stack.pop

/-- The label in front of the name, unless it is there already. -/
def labelled (label name : String) : String :=
  if Text.startsWith name.toList label.toList then name else label ++ name

def Jump.relabel (label : String) : Jump → Jump
  | next state => .next (labelled label state)
  | push state => .push (labelled label state)
  | pop => .pop

def Rule.relabel (label : String) (r : Rule) : Rule :=
  { r with jump := r.jump.map (Jump.relabel label) }

mutual

/-- The states that the entry mentions get the label, those of inline rules too. -/
def Entry.relabel (label : String) : Entry → Entry
  | .rule r => .rule (r.relabel label)
  | .inline r entries => .inline r (Entry.relabelAll label entries)
  | .include state => .include (labelled label state)
  | .defaultKind kind => .defaultKind kind

def Entry.relabelAll (label : String) : List Entry → List Entry
  | [] => []
  | e :: rest => e.relabel label :: Entry.relabelAll label rest

end

namespace RuleTable

def state? (t : RuleTable) (name : String) : Option (List Entry) := t.states.get? name

/-- Adds a state or replaces it. -/
def setState (t : RuleTable) (name : String) (entries : List Entry) : RuleTable :=
  ⟨t.states.insert name entries⟩

/-- Puts entries at a place of a state, at its end if it is shorter; an absent state counts as empty. -/
def insertAt (t : RuleTable) (name : String) (index : Nat) (entries : List Entry) : RuleTable :=
  let old := (t.state? name).getD []
  t.setState name (old.take index ++ entries ++ old.drop index)

def prepend (t : RuleTable) (name : String) (entries : List Entry) : RuleTable :=
  t.insertAt name 0 entries

def append (t : RuleTable) (name : String) (entries : List Entry) : RuleTable :=
  t.setState name ((t.state? name).getD [] ++ entries)

/-- Adds all states of another table under a label. The `escapes` stand in front of each of them as
they are: they are the way back. -/
def embed (t : RuleTable) (label : String) (inner : RuleTable) (escapes : List Entry) : RuleTable :=
  ⟨t.states.insertMany (inner.states.entries.map fun (name, entries) =>
    (label ++ name, escapes ++ Entry.relabelAll label entries))⟩

end RuleTable

end Scribe
