import Scribe.Snippet.Filling
import Scribe.Snippet.Variables

/-!
# Expanding snippets

An expansion is a text and the places of the tabstops in it. Places are counted from the start of the
insertion.
-/

namespace Scribe

/-- One occurrence of a tabstop. If it has a transform, its text derives from that of the primary one. -/
structure TabstopRange where
  range : Range
  transform : Option Transform := none
  deriving Repr

/-- All occurrences of a tabstop. -/
structure TabstopGroup where
  id : Nat
  /-- In the order of the text. -/
  ranges : List TabstopRange
  choices : Option (List String) := none
  /-- The tabstops in which this one is nested, in ascending order. -/
  parents : List Nat := []
  deriving Repr

structure ExpandedSnippet where
  text : String
  /-- In the order in which they are visited: ascending, and 0 last. -/
  tabstops : List TabstopGroup
  deriving Repr

def TabstopRange.offsetBy (r : TabstopRange) (origin : Position) : TabstopRange :=
  { r with range := ⟨r.range.start.offsetBy origin, r.range.stop.offsetBy origin⟩ }

namespace ExpandedSnippet

def group? (e : ExpandedSnippet) (id : Nat) : Option TabstopGroup := e.tabstops.find? (·.id == id)

def order (e : ExpandedSnippet) : List Nat := e.tabstops.map (·.id)

/-- The places counted from the start of the buffer, where the snippet is inserted at `origin`. -/
def offsetBy (e : ExpandedSnippet) (origin : Position) : ExpandedSnippet :=
  { e with tabstops := e.tabstops.map fun g => { g with ranges := g.ranges.map (·.offsetBy origin) } }

end ExpandedSnippet

namespace Expansion

/-! ## Places -/

/-- The range of each marker; `none` until it is met. -/
abbrev Places := Array (Option Range)

/-- The first token of a marker begins its range and the second one ends it. -/
def Places.mark (places : Places) (marker : Nat) (at_ : Position) : Places :=
  match places[marker]?.join with
  | some range => places.setIfInBounds marker (some { range with stop := at_ })
  | none => places.setIfInBounds marker (some (.point at_))

/-- Where the tokens lead from a position, and the places of their markers. -/
def placesFrom (at_ : Position) (places : Places) : List SnippetToken → Position × Places
  | [] => (at_, places)
  | .text s :: rest => placesFrom (at_.advance s.toList) places rest
  | .tabstop t :: rest => placesFrom at_ (places.mark t.marker at_) rest
  | .var _ :: rest => placesFrom at_ places rest

/-- Adds a number to an ascending list. -/
def insertId (id : Nat) : List Nat → List Nat
  | [] => [id]
  | n :: rest => if id < n then id :: n :: rest else if n < id then n :: insertId id rest else n :: rest

def groupOf (places : Places) (filled : Filled) (id : Nat) (p : Placeholder) : TabstopGroup where
  id
  ranges := (filled.occurrences.filter (·.id == id)).filterMap fun o =>
    places[o.marker]?.join.map fun r => ⟨r, o.transform⟩
  choices := p.choices
  parents := ((filled.closings.filter (·.1 == id)).flatMap (·.2)).foldr insertId []

/-- There is always a tabstop 0: without one in the snippet it is the end of the text. -/
def layout (found : Dict Nat Placeholder) (filled : Filled) : ExpandedSnippet :=
  let (stop, places) := placesFrom {} (Array.replicate filled.nextMarker none) filled.tokens
  let occurring := found.entries.filter fun e => filled.occurrences.any (·.id == e.1)
  let groups := occurring.map fun e => groupOf places filled e.1 e.2
  let final := match groups.filter (·.id == 0) with
    | [] => [{ id := 0, ranges := [⟨Range.point stop, none⟩] }]
    | zero => zero
  { text := String.join (filled.tokens.filterMap (·.text?))
    tabstops := groups.filter (·.id != 0) ++ final }

end Expansion

/-- How a snippet is inserted. -/
structure InsertOptions where
  /-- Find out what would happen and change nothing. -/
  dryRun : Bool := false
  /-- Do not begin new lines with the indentation of the current one. -/
  excludeIndent : Bool := false
  deriving DecidableEq, Repr

namespace SnippetToken

def mapText (f : List Char → List Char) : SnippetToken → SnippetToken
  | text s => .text (String.ofList (f s.toList))
  | token => token

end SnippetToken

/-- The whitespace at the start of the cursor's line, as far as the cursor. -/
def EditContext.indentation (ctx : EditContext) : List Char :=
  (Text.indentation (ctx.lineOr ctx.cursor.row).toList).take ctx.cursor.column

/-- A snippet as it is inserted at the cursor. -/
def expandSnippet (vars : Variables) (ctx : EditContext) (options : InsertOptions) (source : String) :
    ExpandedSnippet :=
  let tokens := parseSnippet (String.ofList (source.toList.filter (· ≠ '\r')))
  let lineEnd := '\n' :: (if options.excludeIndent then [] else ctx.indentation)
  let tokens := tokens.map (·.mapText (Text.replaceChar '\n' lineEnd))
  let tokens := vars.resolve ctx tokens
  let tokens := tokens.map (·.mapText (Text.replaceChar '\t' ctx.tabString.toList))
  let found := Expansion.collect Dict.empty [] tokens
  Expansion.layout found (Expansion.instantiate found (vars.transform ctx) tokens)

end Scribe
