import Scribe.Buffer.Basic

/-!
# Editors

What a snippet session asks of the editor that it runs in. An editor may leave out the last three
operations: its markers then stay where they are, it offers no choices, and no key changes its meaning.
-/

namespace Scribe

class Editor (σ : Type) where
  context : σ → EditContext
  /-- The mode of the document. -/
  mode : σ → String
  /-- The primary selection. -/
  selection : σ → Selection
  /-- Replaces all selections; the first one becomes the primary selection. -/
  setSelections : σ → List Selection → σ
  textRange : σ → Range → String
  /-- Replaces the text of a range and answers with the changes made. -/
  replace : σ → Range → String → σ × List Delta
  isEmpty : σ → Bool
  addMarker : σ → Range → σ × Nat
  removeMarker : σ → Nat → σ
  updateMarker : σ → Nat → Range → σ := fun e _ _ => e
  offerChoices : σ → List String → σ := fun e _ => e
  /-- Whether the keys of a session are in use. -/
  bindCommands : σ → Bool → σ := fun e _ => e

instance : Editor Buffer where
  context := Buffer.context
  mode := Buffer.mode
  selection := Buffer.selection
  setSelections := Buffer.setSelections
  textRange := Buffer.textRange
  replace := Buffer.replace
  isEmpty := Buffer.isEmpty
  addMarker := Buffer.addMarker
  removeMarker := Buffer.removeMarker
  updateMarker := Buffer.updateMarker
  offerChoices b choices := { b with completions := choices }
  bindCommands b active := { b with commandsBound := active }

end Scribe
