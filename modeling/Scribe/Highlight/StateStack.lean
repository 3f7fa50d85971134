import Scribe.Dict
import Scribe.Highlight.Token
import Scribe.Text.Basic
import Scribe.Text.Quoted

/-!
# The stack of states

What a line hands on to the next one: the names of the states that are open, and texts that handlers
have stored under a key. Leaving the outermost state leads back to the start.
-/

namespace Scribe

structure StateStack where
  /-- The current state first, then those around it from the inside out. -/
  frames : List String
  data : Dict String String := Dict.empty
  deriving DecidableEq, Repr

namespace StateStack

def ofState (state : String) : StateStack := { frames := [state] }

def initial : StateStack := ofState startState

instance : Inhabited StateStack := ⟨initial⟩

def current (s : StateStack) : String := s.frames.head?.getD startState

def depth (s : StateStack) : Nat := s.frames.length

/-- A single state and nothing stored. -/
def isFlat (s : StateStack) : Bool := s.frames.length == 1 && s.data.isEmpty

/-- Replaces the current state. -/
def next (s : StateStack) (state : String) : StateStack :=
  { s with frames := state :: s.frames.tail }

def push (s : StateStack) (state : String) : StateStack :=
  { s with frames := state :: s.frames }

def pop (s : StateStack) : StateStack :=
  match s.frames with
  | _ :: f :: rest => { s with frames := f :: rest }
  | _ => s.next startState

def reset (_ : StateStack) : StateStack := initial

def data? (s : StateStack) (key : String) : Option String := s.data.get? key

def setData (s : StateStack) (key value : String) : StateStack :=
  { s with data := s.data.insert key value }

def removeData (s : StateStack) (key : String) : StateStack :=
  { s with data := s.data.erase key }

/-- The states from the outermost to the current one, and the stored texts if there are any. -/
def render (s : StateStack) : String :=
  let frames := Text.joinWith " > ".toList (s.frames.reverse.map String.toList)
  let entries := s.data.entries.map fun (k, v) => (Text.quote k ++ ": " ++ Text.quote v).toList
  let stored := if s.data.isEmpty then [] else
    [' ', '\x7b'] ++ Text.joinWith ", ".toList entries ++ ['\x7d']
  String.ofList ("StateStack[".toList ++ frames ++ [']'] ++ stored)

end StateStack

end Scribe
