import Scribe.Session.Inserter
import Mathlib.Logic.Relation

/-!
# Runs

A run is any sequence of what can happen to an inserter and the buffer in which it works: snippets are inserted,
commands are run, the editor tells events, and the user changes the buffer.
-/

namespace Scribe

/-- An inserter and the buffer in which it works. -/
abbrev Scene := SnippetInserter × Buffer

namespace Scene

/-- One step. `edits b ds b'` tells what the user can do to a buffer: it becomes `b'`, and the changes `ds` are
told in order. -/
inductive Step (edits : Buffer → List Delta → Buffer → Prop) : Scene → Scene → Prop
  | insert {i : SnippetInserter} {b : Buffer} (source : String) (options : InsertOptions) :
    Step edits (i, b) (i.insert b source options).2
  | expandTrigger {i : SnippetInserter} {b : Buffer} (options : InsertOptions) :
    Step edits (i, b) (i.expandTrigger b options).2
  | run {i : SnippetInserter} {b : Buffer} (command : SessionCommand) : Step edits (i, b) (i.run b command).2
  | changeSelection {i : SnippetInserter} {b : Buffer} : Step edits (i, b) (i.handle b .changeSelection)
  | changeDocument {i : SnippetInserter} {b : Buffer} : Step edits (i, b) (i.handle b .changeDocument)
  | afterCommand {i : SnippetInserter} {b : Buffer} (readOnly : Bool) :
    Step edits (i, b) (i.handle b (.afterCommand readOnly))
  | edit {i : SnippetInserter} {b b' : Buffer} {ds : List Delta} :
    edits b ds b' → Step edits (i, b) (i.handleChanges b' ds)
  | configure {i : SnippetInserter} {b : Buffer} (store : SnippetStore) (vars : Variables) :
    Step edits (i, b) ({ i with store, vars }, b)

/-- A run of any length. -/
abbrev Runs (edits : Buffer → List Delta → Buffer → Prop) : Scene → Scene → Prop :=
  Relation.ReflTransGen (Step edits)

/-- An inserter that has not been used, and a buffer without markers. -/
structure Initial (x : Scene) : Prop where
  session : ∃ vars linkMirrors, x.1.session = (SnippetInserter.create vars linkMirrors).session
  markers : x.2.markers = Dict.empty
  unbound : x.2.commandsBound = false

/-- What holds at the start and is preserved by each step holds in every run. -/
theorem Runs.invariant {edits : Buffer → List Delta → Buffer → Prop} {P : Scene → Prop} {x y : Scene}
    (h : Runs edits x y) (hstep : ∀ {x y : Scene}, Step edits x y → P x → P y) (hx : P x) : P y := by
  induction h with
  | refl => exact hx
  | tail _ hs ih => exact hstep hs ih

end Scene

end Scribe
