import Scribe.Snippet.Placeholder

/-!
# Walking through a snippet

The tokens of a snippet are gone through from left to right. Where a tabstop opens, its default is put in ahead, so
that the tabstops in it are met in their turn. What is open around it is left out.
-/

namespace Scribe

namespace Expansion

structure Occurrence where
  id : Nat
  marker : Nat
  transform : Option Transform

/-- What follows the body of the placeholder of this marker; without a body nothing is left out. -/
def behindBody (marker : Nat) (rest : List SnippetToken) : List SnippetToken :=
  rest.drop (((bodyLength? marker rest).map (· + 1)).getD 0)

/-- A list of tokens that is gone through once. Where a tabstop opens, its default is put in ahead. -/
structure Walk where
  /-- The last token first. -/
  passed : List SnippetToken := []
  ahead : List SnippetToken
  /-- The tabstops that are open, the innermost first, each with the marker of its occurrence. -/
  opened : List (Nat × Nat) := []
  /-- The last one first. -/
  occurrences : List Occurrence := []
  /-- The last one first. -/
  closings : List (Nat × List Nat) := []
  nextMarker : Nat

def freshMarker (tokens : List SnippetToken) : Nat :=
  tokens.foldl (fun n t => max n ((t.marker?.map (· + 1)).getD 0)) 0

namespace Walk

def start (tokens : List SnippetToken) : Walk := { ahead := tokens, nextMarker := freshMarker tokens }

section
variable (found : Dict Nat Placeholder) (transform : Transform → String → String)

/-- One token further. What stands between the two tokens of an occurrence gives way to the default. A token of a
tabstop that is open in another occurrence stays as it is. -/
def step (w : Walk) : Option Walk :=
  match w.ahead with
  | [] => none
  | .tabstop t :: rest =>
    let on := { w with passed := .tabstop t :: w.passed, ahead := rest }
    match w.opened.lookup t.id with
    | some marker =>
      if marker = t.marker then
        let opened := w.opened.filter (·.1 != t.id)
        some { on with opened, closings := (t.id, opened.map (·.1)) :: w.closings }
      else some on
    | none =>
      let opened := (t.id, t.marker) :: w.opened
      match found.get? t.id with
      | none => some { on with opened }
      | some p =>
        let (value, nextMarker) := content transform p t (opened.map (·.1)) w.nextMarker
        some { on with
          ahead := value ++ .tabstop t :: behindBody t.marker rest
          opened
          occurrences := ⟨t.id, t.marker, t.transform⟩ :: w.occurrences
          nextMarker }
  | token :: rest => some { w with passed := token :: w.passed, ahead := rest }

end

end Walk

end Expansion

end Scribe
