import Scribe.Buffer.Context
import Scribe.Buffer.Delta
import Scribe.Dict

/-!
# Buffers

A buffer holds lines, selections and markers. It has at least one line, and no line holds a line end.
-/

namespace Scribe

structure Buffer where
  lines : Array String := #[""]
  /-- The first one is the primary selection. -/
  selections : List Selection := [{}]
  mode : String := "text"
  markers : Dict Nat Range := Dict.empty
  nextMarker : Nat := 0
  softTabs : Bool := true
  tabSize : Nat := 4
  clipboard : Option String := none
  filePath : Option String := none
  lineComment : Option String := none
  blockComment : Option (String × String) := none
  /-- The choices offered last. -/
  completions : List String := []
  /-- Whether the keys of a snippet session are in use. -/
  commandsBound : Bool := false
  deriving DecidableEq, Repr, Inhabited

namespace Buffer

def ofText (text : String) : Buffer := { lines := (Text.splitLines text).toArray }

def text (b : Buffer) : String := Text.joinLines b.lines.toList

def line (b : Buffer) (row : Nat) : List Char := (b.lines[row]?.getD "").toList

/-- A tab is at least one column wide. -/
def withTabs (b : Buffer) (softTabs : Bool) (tabSize : Nat) : Buffer :=
  { b with softTabs, tabSize := max tabSize 1 }

def isEmpty (b : Buffer) : Bool := b.lines.size == 1 && (b.line 0).isEmpty

/-- The position, or the nearest one before it that the buffer has. -/
def clamp (b : Buffer) (p : Position) : Position :=
  let lastRow := b.lines.size - 1
  if lastRow < p.row then ⟨lastRow, (b.line lastRow).length⟩
  else ⟨p.row, min p.column (b.line p.row).length⟩

def clampRange (b : Buffer) (r : Range) : Range := ⟨b.clamp r.start, b.clamp r.stop⟩

/-! ## Selections -/

def selection (b : Buffer) : Selection := b.selections.head?.getD {}

def cursor (b : Buffer) : Position := b.selection.lead

def setCursor (b : Buffer) (p : Position) : Buffer :=
  { b with selections := [.cursor (b.clamp p)] }

def select (b : Buffer) (r : Range) : Buffer :=
  { b with selections := [.ofRange (.between (b.clamp r.start) (b.clamp r.stop))] }

/-- There is always a selection: an empty list changes nothing. -/
def setSelections (b : Buffer) (selections : List Selection) : Buffer :=
  if selections.isEmpty then b
  else { b with selections := selections.map fun s => ⟨b.clamp s.anchor, b.clamp s.lead⟩ }

/-! ## Text -/

def textRange (b : Buffer) (r : Range) : String :=
  let ⟨start, stop⟩ := b.clampRange r
  if start.row = stop.row then
    String.ofList (((b.line start.row).take stop.column).drop start.column)
  else
    let between := (List.range' (start.row + 1) (stop.row - start.row - 1)).map b.line
    String.ofList (Text.joinWith ['\n']
      ((b.line start.row).drop start.column :: between ++ [(b.line stop.row).take stop.column]))

/-- The text between two positions of the buffer is left out. -/
def removeText (b : Buffer) (start stop : Position) : Buffer :=
  let joined := String.ofList ((b.line start.row).take start.column ++ (b.line stop.row).drop stop.column)
  { b with lines := b.lines.extract 0 start.row ++ #[joined] ++ b.lines.extract (stop.row + 1) b.lines.size }

/-- A text is put in at a position of the buffer. -/
def insertText (b : Buffer) (at_ : Position) (text : String) : Buffer :=
  let line := b.line at_.row
  let filled := line.take at_.column ++ text.toList ++ line.drop at_.column
  let new := (Text.cutAt '\n' filled).map String.ofList
  { b with lines := b.lines.extract 0 at_.row ++ new.toArray ++ b.lines.extract (at_.row + 1) b.lines.size }

/-- Replaces a range and leaves the selections alone; answers with the changes, a removal before an
insertion, neither of them empty. -/
def splice (b : Buffer) (r : Range) (text : String) : Buffer × List Delta :=
  let ⟨start, stop⟩ := b.clampRange r
  let (b, removed) :=
    if start = stop then (b, [])
    else (b.removeText start stop, [Delta.removal (.between start stop) (b.textRange (.between start stop))])
  if text.isEmpty then (b, removed)
  else (b.insertText start text, removed ++ [Delta.insertion start text])

/-- Replaces a range; the selections move with the text, and stay before what is inserted at them. -/
def replace (b : Buffer) (r : Range) (text : String) : Buffer × List Delta :=
  let (b, deltas) := b.splice r text
  let move := fun p : Position => deltas.foldl (fun p d => d.shift p true) p
  ({ b with selections := b.selections.map fun s => ⟨move s.anchor, move s.lead⟩ }, deltas)

/-- The selections with their places in the list, the last one in the text first; of two that start
together the one listed first comes first. -/
def typingOrder (selections : List Selection) : List (Nat × Selection) :=
  (selections.zipIdx.map fun (s, i) => (i, s)).mergeSort fun a b =>
    b.2.toRange.start ≤ a.2.toRange.start

/-- Types at the listed selections one after the other. `done` holds the cursors left so far, which
move with the later changes. -/
def typeAt (text : String) (b : Buffer) (done : List (Nat × Position)) :
    List (Nat × Selection) → Buffer × List (Nat × Position) × List Delta
  | [] => (b, done, [])
  | (i, s) :: rest =>
    let range := s.toRange
    let (after, deltas) := b.splice range text
    let done := done.map fun (j, p) => (j, deltas.foldl (fun p d => d.shift p false) p)
    let cursor := (after.clamp range.start).advance text.toList
    let (b, done, more) := typeAt text after ((i, cursor) :: done) rest
    (b, done, deltas ++ more)

/-- Types a text at every selection in place of what is selected. Each selection becomes a cursor behind
its own text. -/
def typeText (b : Buffer) (text : String) : Buffer × List Delta :=
  let (after, cursors, deltas) := typeAt text b [] (typingOrder b.selections)
  let selections := (List.range b.selections.length).map fun i =>
    Selection.cursor ((cursors.lookup i).getD {})
  ({ after with selections }, deltas)

/-! ## Markers -/

def addMarker (b : Buffer) (r : Range) : Buffer × Nat :=
  ({ b with markers := b.markers.insert b.nextMarker r, nextMarker := b.nextMarker + 1 }, b.nextMarker)

def updateMarker (b : Buffer) (id : Nat) (r : Range) : Buffer :=
  { b with markers := b.markers.modify id fun _ => r }

def removeMarker (b : Buffer) (id : Nat) : Buffer := { b with markers := b.markers.erase id }

/-! ## What snippets see -/

def context (b : Buffer) : EditContext :=
  { lines := b.lines
    cursor := b.cursor
    selectedText := b.textRange b.selection.toRange
    softTabs := b.softTabs
    tabSize := b.tabSize
    clipboard := b.clipboard
    filePath := b.filePath
    lineComment := b.lineComment
    blockComment := b.blockComment }

end Buffer

end Scribe
