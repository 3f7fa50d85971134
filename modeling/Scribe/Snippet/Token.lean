import Scribe.Snippet.Transform

/-!
# Parsed snippets

A snippet is a list of texts, tabstops and variables. A placeholder with a body stands in the list
twice, before and after it, under one marker.
-/

namespace Scribe

/-- An occurrence of a tabstop. -/
structure TabstopMark where
  marker : Nat
  id : Nat
  choices : Option (List String) := none
  transform : Option Transform := none
  deriving Repr

/-- An occurrence of a variable. -/
structure VariableMark where
  marker : Nat
  name : String
  transform : Option Transform := none
  deriving Repr

inductive SnippetToken where
  | text (s : String)
  | tabstop (t : TabstopMark)
  | var (v : VariableMark)
  deriving Repr

namespace SnippetToken

def marker? : SnippetToken → Option Nat
  | text _ => none
  | tabstop t => some t.marker
  | var v => some v.marker

def text? : SnippetToken → Option String
  | text s => some s
  | _ => none

def withTransform (transform : Transform) : SnippetToken → SnippetToken
  | text s => .text s
  | tabstop t => .tabstop { t with transform := some transform }
  | var v => .var { v with transform := some transform }

def withChoices (choices : List String) : SnippetToken → SnippetToken
  | tabstop t => .tabstop { t with choices := some choices }
  | token => token

end SnippetToken

/-- How many tokens stand before the one that closes the placeholder of this marker. -/
def bodyLength? (marker : Nat) (rest : List SnippetToken) : Option Nat :=
  rest.findIdx? fun t => t.marker? == some marker

end Scribe
