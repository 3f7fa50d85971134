import Scribe.Dict
import Scribe.Snippet.Parser

/-!
# Defaults of tabstops

What the occurrences of a tabstop in a snippet tell about it, and what is put in where it occurs.
-/

namespace Scribe

namespace Expansion

/-- What a tabstop holds wherever it occurs. -/
inductive Default where
  | none
  | text (s : String)
  /-- There are tabstops in it. -/
  | nested (tokens : List SnippetToken)

structure Placeholder where
  default : Default := .none
  choices : Option (List String) := .none

/-- A text as default wins over one with tabstops in it, whichever comes first. Of two of a kind the
first wins. -/
def Placeholder.withBody (p : Placeholder) (body : List SnippetToken) : Placeholder :=
  if body.any (·.marker?.isSome) then
    match p.default with
    | .none => { p with default := .nested body }
    | _ => p
  else if body.isEmpty then p
  else
    match p.default with
    | .text _ => p
    | _ => { p with default := .text (String.join (body.filterMap (·.text?))) }

/-- Adds what the first token of an occurrence tells about its tabstop; `rest` follows it. -/
def Placeholder.note (p : Placeholder) (t : TabstopMark) (rest : List SnippetToken) : Placeholder :=
  let p := { p with choices := p.choices <|> t.choices }
  match bodyLength? t.marker rest with
  | some n => p.withBody (rest.take n)
  | none => p

/-- The tabstops by number; `met` holds the markers of the occurrences already seen. -/
def collect (found : Dict Nat Placeholder) (met : List Nat) : List SnippetToken → Dict Nat Placeholder
  | [] => found
  | .tabstop t :: rest =>
    if met.contains t.marker then collect found met rest
    else
      let p := ((found.get? t.id).getD {}).note t rest
      collect (found.insert t.id p) (t.marker :: met) rest
  | _ :: rest => collect found met rest

/-! ## Copies -/

/-- Copies a default under new markers, without the tabstops that are open; `renamed` pairs the old
markers with the new ones. -/
def copyDefault (opened : List Nat) (renamed : List (Nat × Nat)) (nextMarker : Nat) :
    List SnippetToken → List SnippetToken × Nat
  | [] => ([], nextMarker)
  | .tabstop t :: rest =>
    if opened.contains t.id then copyDefault opened renamed nextMarker rest
    else
      match renamed.lookup t.marker with
      | some marker =>
        let (copy, next) := copyDefault opened renamed nextMarker rest
        (.tabstop { marker, id := t.id } :: copy, next)
      | none =>
        let (copy, next) := copyDefault opened ((t.marker, nextMarker) :: renamed) (nextMarker + 1) rest
        (.tabstop { marker := nextMarker, id := t.id } :: copy, next)
  | token :: rest =>
    let (copy, next) := copyDefault opened renamed nextMarker rest
    (token :: copy, next)

/-- What an occurrence holds, its tabstops not yet filled. -/
def content (transform : Transform → String → String) (p : Placeholder) (t : TabstopMark)
    (opened : List Nat) (nextMarker : Nat) : List SnippetToken × Nat :=
  match p.default with
  | .none => ([], nextMarker)
  | .text s => ([.text ((t.transform.map (transform · s)).getD s)], nextMarker)
  | .nested tokens => copyDefault opened [] nextMarker tokens

end Expansion

end Scribe
