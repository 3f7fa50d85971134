import Scribe.Session.Basic

/-!
# Events of a session

The editor tells a running session what happens. A change moves the ranges, a selection outside of them
ends the session, and after a command the linked ranges are written anew.
-/

namespace Scribe

inductive EditorEvent where
  /-- The buffer has changed, other than by the session itself. -/
  | change (d : Delta)
  | changeSelection
  /-- Another document is shown. -/
  | changeDocument
  | afterCommand (readOnly : Bool)
  deriving DecidableEq, Repr

namespace Session

variable {σ : Type} [Editor σ]

/-! ## Changes -/

/-- Whether the change removes a range that is not selected along with what is around it. A range in which
the selected one is nested goes only if more than it is removed. -/
def isSwallowed (removed : Range) (isParent : Bool) (r : Range) : Bool :=
  if isParent then removed.contains r.start && removed.contains r.stop && r != removed
  else r.isStrictlyInside removed

/-- The ranges of a tabstop that a change removes. -/
def swallowed (s : Session) (parents : List Nat) (d : Delta) (t : Tabstop) : List Nat :=
  if d.action = .remove ∧ s.selectedKey ≠ some t.key then
    (t.ranges.filter fun r => isSwallowed d.range (parents.contains t.key) r.range).map (·.key)
  else []

/-- The tabstop after a change. The selected one and those around it take what is inserted at their
ends. -/
def shiftTabstop (s : Session) (parents : List Nat) (d : Delta) (t : Tabstop) : Tabstop :=
  let takes := s.selectedKey == some t.key || parents.contains t.key
  let owner := if d.action = .insert ∧ takes then Tabstop.edgeOwner? t.ranges d.start s.writing else none
  { t with ranges := t.ranges.map fun r => r.shift d (takes && (owner.all (· == r.key))) }

/-- The markers of ranges that have moved follow them. -/
def moveMarkers (e : σ) (before after : List TrackedRange) : σ :=
  (before.zip after).foldl (fun e (old, new) =>
    match new.marker with
    | some marker => if old.range = new.range then e else Editor.updateMarker e marker new.range
    | none => e) e

def onChange (s : Session) (e : σ) (d : Delta) : Session × σ :=
  let parents := (s.selected?.map (·.parents)).getD []
  let dropped := s.tabstops.flatMap (s.swallowed parents d)
  let moved := { s with tabstops := s.tabstops.map (s.shiftTabstop parents d) }
  let (s, e) := moved.removeRanges (moveMarkers e s.ranges moved.ranges) dropped
  if !s.inChange && d.action = .remove && Editor.isEmpty e then s.detach e else (s, e)

def onChanges (s : Session) (e : σ) : List Delta → Session × σ
  | [] => (s, e)
  | d :: rest =>
    let (s, e) := s.onChange e d
    s.onChanges e rest

/-! ## Selections -/

/-- Whether a range holds the whole selection. -/
def holds (r : Range) (sel : Selection) : Bool :=
  r.contains sel.lead && (sel.isEmpty || r.contains sel.anchor)

def onChangeSelection (s : Session) (e : σ) : Session × σ :=
  let selection := Editor.selection e
  if s.ranges.any fun r => !r.linked && holds r.range selection then (s, e) else s.detach e

/-! ## Linked ranges -/

/-- Gives a linked range its text. -/
def writeMirror (s : Session) (e : σ) (text : String) (key : Nat) (transform : Option Transform) :
    Session × σ :=
  match s.range? key with
  | none => (s, e)
  | some r =>
    let value := match transform with
      | some t => s.vars.transform (Editor.context e) t text
      | none => text
    if Editor.textRange e r.range = value then (s, e)
    else
      let (e, deltas) := Editor.replace e r.range value
      let (s, e) := { s with writing := some key }.onChanges e deltas
      let range := Range.between r.range.start (r.range.start.advance value.toList)
      let e := match (s.range? key).bind (·.marker) with
        | some marker => Editor.updateMarker e marker range
        | none => e
      let s := s.mapRanges fun r => if r.key = key then { r with range } else r
      ({ s with writing := none }, e)

def writeMirrors (s : Session) (e : σ) (text : String) : List TrackedRange → Session × σ
  | [] => (s, e)
  | r :: rest =>
    let (s, e) := s.writeMirror e text r.key r.transform
    s.writeMirrors e text rest

/-- Writes the linked ranges of the selected tabstop from its primary range. -/
def updateLinked (s : Session) (e : σ) : Session × σ :=
  match s.selected? with
  | none => (s, e)
  | some t =>
    match t.primary?, t.ranges.filter (·.linked) with
    | none, _ | _, [] => (s, e)
    | some primary, mirrors =>
      let text := Editor.textRange e primary.range
      let (s, e) := { s with inChange := true }.writeMirrors e text mirrors
      ({ s with inChange := false }, e)

/-! ## Events -/

/-- A session that does not run hears nothing. -/
def handle (s : Session) (e : σ) (event : EditorEvent) : Session × σ :=
  if !s.isActive then (s, e)
  else match event with
    | .change d => s.onChange e d
    | .changeSelection => s.onChangeSelection e
    | .changeDocument => s.detach e
    | .afterCommand readOnly => if readOnly then (s, e) else s.updateLinked e

def handleAll (s : Session) (e : σ) : List EditorEvent → Session × σ
  | [] => (s, e)
  | event :: rest =>
    let (s, e) := s.handle e event
    s.handleAll e rest

end Session

end Scribe
