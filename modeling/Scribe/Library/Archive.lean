import Scribe.Library.Basic

/-!
# Archives

A library can be put away as texts and built again from them. An archive keeps the modes that were read from
a table, their other names, and the snippets; modes made in code are left out.
-/

namespace Scribe

/-- Pairs of a name and a text. -/
structure Archive where
  /-- The tables as JSON, in the order in which the modes were added. -/
  modes : List (String × String)
  /-- The other names, each with the name of its mode, in order. -/
  aliases : List (String × String)
  /-- The definitions of each scope as JSON. -/
  snippets : List (String × String)
  deriving DecidableEq, Repr

namespace SnippetDefinition

def writeAll (ds : List SnippetDefinition) : String := (Json.arr (ds.map toJson)).write

def readAll? (text : String) : Option (List SnippetDefinition) :=
  match Json.read? text with
  | some (.arr items) => items.mapM ofJson?
  | _ => none

end SnippetDefinition

namespace Library

/-- The name that an entry adds to its mode: none if the mode was added with it, or made in code. -/
def aliasOf (l : Library) (entry : String × Nat) : Option (String × String) :=
  match l.modes[entry.2]? with
  | some m => if m.name == entry.1 || m.source.isNone then none else some (entry.1, m.name)
  | none => none

def archive (l : Library) : Archive where
  modes := l.modes.filterMap fun m => m.source.map fun f => (m.name, f.write)
  aliases := l.places.entries.filterMap l.aliasOf
  snippets := l.snippets.entries.map fun (scope, ds) => (scope, SnippetDefinition.writeAll ds)

def restoreMode (l : Library) (mode : String × String) : Except Error Library :=
  match ModeFile.read? mode.2 with
  | some f => l.addFile mode.1 f
  | none => .error .malformed

def restoreSnippets (l : Library) (scope : String × String) : Except Error Library :=
  match SnippetDefinition.readAll? scope.2 with
  | some ds => .ok (l.addSnippets (some scope.1) ds)
  | none => .error .malformed

/-- The library of an archive. Its modes have the usual bounds. -/
def ofArchive (a : Archive) : Except Error Library := do
  let l ← a.modes.foldlM restoreMode {}
  a.snippets.foldlM restoreSnippets (a.aliases.foldl (fun l entry => l.addAlias entry.2 entry.1) l)

end Library

/-! ## Archives as text -/

namespace Archive

def pairsJson (pairs : List (String × String)) : Json :=
  .arr (pairs.map fun (a, b) => .arr [.text a, .text b])

def pair? : Json → Option (String × String)
  | .arr [.str (some a), .str (some b)] => some (a, b)
  | _ => none

def pairs? : Json → Option (List (String × String))
  | .arr items => items.mapM pair?
  | _ => none

def write (a : Archive) : String :=
  (Json.arr [pairsJson a.modes, pairsJson a.aliases, pairsJson a.snippets]).write

def read? (text : String) : Option Archive :=
  match Json.read? text with
  | some (.arr [modes, aliases, snippets]) => do
    return ⟨← pairs? modes, ← pairs? aliases, ← pairs? snippets⟩
  | _ => none

end Archive

namespace Library

def dump (l : Library) : ByteArray := l.archive.write.toUTF8

/-- The library in a file. A file that is no archive counts as unreadable. -/
def load (file : Option ByteArray) : Except Error Library :=
  match (file.bind String.fromUTF8?).bind Archive.read? with
  | some a => ofArchive a
  | none => .error .unreadable

end Library

end Scribe
