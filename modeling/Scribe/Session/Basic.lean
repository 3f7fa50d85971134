import Scribe.Buffer.Editor
import Scribe.Session.Tabstop

/-!
# Snippet sessions

A session follows the tabstops of the snippets inserted in one editor and moves the selection between
them. Going to the final tabstop ends it.
-/

namespace Scribe

structure Session where
  /-- In the order in which they are visited; the first one is the final tabstop of the first snippet. -/
  tabstops : List Tabstop := []
  index : Nat := 0
  /-- The key of the tabstop selected. -/
  selectedKey : Option Nat := none
  isActive : Bool := false
  /-- Whether only the first occurrence of a tabstop is edited, and the others are linked to it. -/
  linkMirrors : Bool := true
  vars : Variables
  nextKey : Nat := 0
  /-- Whether linked ranges are being written. -/
  inChange : Bool := false
  /-- The linked range being written. -/
  writing : Option Nat := none
  deriving Repr

namespace Session

variable {σ : Type} [Editor σ]

def selected? (s : Session) : Option Tabstop :=
  s.selectedKey.bind fun key => s.tabstops.find? (·.key == key)

def ranges (s : Session) : List TrackedRange := s.tabstops.flatMap (·.ranges)

def range? (s : Session) (key : Nat) : Option TrackedRange := s.ranges.find? (·.key == key)

def mapRanges (s : Session) (f : TrackedRange → TrackedRange) : Session :=
  { s with tabstops := s.tabstops.map fun t => { t with ranges := t.ranges.map f } }

/-! ## Begin and end -/

/-- A running session goes on. -/
def attach (s : Session) (e : σ) : Session × σ :=
  if s.isActive then (s, e)
  else ({ s with tabstops := [], index := 0, selectedKey := none, isActive := true },
    Editor.bindCommands e true)

def removeMarkers (e : σ) (ranges : List TrackedRange) : σ :=
  (ranges.filterMap (·.marker)).foldl Editor.removeMarker e

/-- Ends the session and removes its markers. -/
def detach (s : Session) (e : σ) : Session × σ :=
  if !s.isActive then (s, e)
  else ({ s with tabstops := [], index := 0, selectedKey := none, isActive := false, inChange := false },
    Editor.bindCommands (removeMarkers e s.ranges) false)

/-! ## Tabstops -/

/-- Follows the ranges of a tabstop in a snippet inserted at `origin`; `edited` tells whether one of its
ranges is edited. A range whose ends are in the wrong order is turned around. -/
def trackRanges (linkMirrors : Bool) (origin : Position) (e : σ) (nextKey : Nat) (edited : Bool) :
    List TabstopRange → List TrackedRange × σ × Nat
  | [] => ([], e, nextKey)
  | r :: rest =>
    let placed := (r.offsetBy origin).range
    let range := Range.between placed.start placed.stop
    let linked := r.transform.isSome || (linkMirrors && edited)
    let (e, marker) := Editor.addMarker e range
    let tracked := { key := nextKey, range, linked, transform := r.transform, marker := some marker }
    let (ranges, e, nextKey) := trackRanges linkMirrors origin e (nextKey + 1) (edited || !linked) rest
    (tracked :: ranges, e, nextKey)

/-- Follows the tabstops of a snippet; the first of the groups has the key `key`. -/
def trackGroups (linkMirrors : Bool) (origin : Position) (keyOf : Nat → Option Nat) (e : σ)
    (key nextKey : Nat) : List TabstopGroup → List Tabstop × σ × Nat
  | [] => ([], e, nextKey)
  | g :: rest =>
    let (ranges, e, nextKey) := trackRanges linkMirrors origin e nextKey false g.ranges
    let tabstop : Tabstop :=
      { key, id := g.id, ranges, choices := g.choices, parents := g.parents.filterMap keyOf }
    let (tabstops, e, nextKey) := trackGroups linkMirrors origin keyOf e (key + 1) nextKey rest
    (tabstop :: tabstops, e, nextKey)

/-- The last element goes first. -/
def lastFirst {α : Type} (xs : List α) : List α := xs.getLast?.toList ++ xs.dropLast

/-- Follows the tabstops of a snippet inserted at `origin`. They come right after the one that is
selected. The final tabstop of the first snippet is where the session ends. -/
def addTabstops (s : Session) (e : σ) (groups : List TabstopGroup) (origin : Position) : Session × σ :=
  let keyOf := fun id => (groups.findIdx? (·.id == id)).map (s.nextKey + ·)
  let (batch, e, nextKey) :=
    trackGroups s.linkMirrors origin keyOf e s.nextKey (s.nextKey + groups.length) groups
  let batch := if s.tabstops.isEmpty then lastFirst batch else batch
  let before := s.tabstops.take (s.index + 1)
  let after := s.tabstops.drop (s.index + 1)
  ({ s with tabstops := before ++ batch ++ after, nextKey }, e)

/-! ## Moving -/

/-- What is selected with a tabstop: its primary range, backwards if there are choices, and the other
ranges that are edited. -/
def selectionsOf (t : Tabstop) (primary : TrackedRange) : List Selection :=
  let first := if t.choices.isSome then ⟨primary.range.stop, primary.range.start⟩
    else Selection.ofRange primary.range
  let others := t.ranges.filter fun r => !r.linked && r.key != primary.key
  first :: others.map fun r => .ofRange r.range

/-- Selects the tabstop at a place. -/
def selectTabstop (s : Session) (e : σ) (index : Nat) : Session × σ :=
  let s := { s with index }
  match s.tabstops[index]? with
  | none => (s, e)
  | some t =>
    match t.primary? <|> t.ranges.head? with
    | none => (s, e)
    | some primary =>
      let e := Editor.setSelections e (selectionsOf t primary)
      let e := match t.choices with
        | some choices => Editor.offerChoices e choices
        | none => e
      ({ s with selectedKey := some t.key }, e)

/-- The place that a step leads to. It never leads below the second tabstop, and a step past the last one
leads to the final one. -/
def placeAfter (s : Session) (step : Int) : Nat :=
  let count := s.tabstops.length
  let place := (s.index + (if step = 0 then 1 else step)).toNat
  if count ≤ max place 1 then 0 else max place 1

/-- Goes on by a number of tabstops, or back if it is negative. The final tabstop ends the session. -/
def tabNext (s : Session) (e : σ) (step : Int) : Session × σ :=
  if !s.isActive || s.tabstops.isEmpty then (s, e)
  else
    let place := s.placeAfter step
    let (s, e) := s.selectTabstop e place
    if place = 0 then s.detach e else (s, e)

/-! ## Losing ranges -/

/-- The session without the tabstop at a place. -/
def dropTabstop (s : Session) (place : Nat) (t : Tabstop) : Session :=
  { s with
    tabstops := s.tabstops.eraseIdx place
    selectedKey := if s.selectedKey = some t.key then none else s.selectedKey
    index := if place < s.index then s.index - 1 else s.index }

/-- Stops following a range. A tabstop without ranges goes, and without tabstops the session ends. -/
def removeRange (s : Session) (e : σ) (key : Nat) : Session × σ :=
  match s.tabstops.findIdx? fun t => t.ranges.any (·.key == key) with
  | none => (s, e)
  | some place =>
    match s.tabstops[place]? with
    | none => (s, e)
    | some t =>
      let e := removeMarkers e (t.ranges.filter (·.key == key))
      let kept := t.ranges.filter (·.key != key)
      if kept.isEmpty then
        let s := s.dropTabstop place t
        if s.tabstops.isEmpty then s.detach e else (s, e)
      else ({ s with tabstops := s.tabstops.set place { t with ranges := kept } }, e)

def removeRanges (s : Session) (e : σ) : List Nat → Session × σ
  | [] => (s, e)
  | key :: rest =>
    let (s, e) := s.removeRange e key
    s.removeRanges e rest

end Session

end Scribe
