import Scribe.Proofs.Buffer.Inside
import Scribe.Proofs.Session.Inserted
import Scribe.Proofs.Session.Rest
import Scribe.Proofs.Session.Tour

/-!
# Snippets put into a session

A session that runs goes on with the tabstops of a snippet besides those that it follows, and one that does not run
begins with them. The new ones have the keys from the first one on that is free.
-/

namespace Scribe

open Position (place)

namespace SnippetInserter

open Session (Valid Running Tracking)

variable {i : SnippetInserter} {b : Buffer} {expanded : ExpandedSnippet} {origin : Position}

/-- A session that runs goes on, and loses no tabstop. -/
theorem running_beginSession_of_running {t : Tabstop} (h : Running i.session b t) (he : expanded.IsExpansion)
    (origin : Position) :
    (∃ u, Running (i.beginSession b expanded origin).1.session (i.beginSession b expanded origin).2 u) ∧
      ∀ v ∈ i.session.tabstops, v ∈ (i.beginSession b expanded origin).1.session.tabstops := by
  have hstarted := started_of_active h.active b
  have hindex := (List.getElem?_eq_some_iff.mp h.getElem).1
  obtain ⟨batch, markers, nextMarker, nextKey, hadd, hlen, -⟩ :=
    Session.addTabstops_eq (following_started (.running t h)) he.ranges_ne_nil origin
  have hpos := List.length_pos_iff.mpr he.ne_nil
  have hadded : ((i.started b).1.addTabstops (i.started b).2 expanded.tabstops origin).1.tabstops =
      i.session.tabstops.take (i.session.index + 1) ++ batch ++ i.session.tabstops.drop (i.session.index + 1) := by
    rw [hadd, hstarted]
  obtain ⟨u, hrun, -⟩ := running_beginSession (.running t h) he rfl (by
    rw [Session.names, List.length_map, hadded, hstarted, List.length_append, List.length_append, List.length_take]
    dsimp only
    omega)
  refine ⟨⟨u, hrun⟩, fun v hv => ?_⟩
  have hactive := hrun.active
  rw [beginSession_started] at hactive ⊢
  dsimp only at hactive ⊢
  rw [Session.tabstops_tabNext _ _ 1 hactive, hadded, List.append_assoc, List.mem_append, List.mem_append]
  rw [← List.take_append_drop (i.session.index + 1) i.session.tabstops, List.mem_append] at hv
  exact hv.imp_right .inr

end SnippetInserter

namespace Scene

open Session (Valid Running Tracking)

variable {x : Scene}

/-- A session that runs after a move ran before, with the same tabstops. -/
theorem tabstops_move {step : Int} (h : (x.move step).1.session.isActive = true) :
    x.1.session.isActive = true ∧ (x.move step).1.session.tabstops = x.1.session.tabstops := by
  refine ⟨?_, Session.tabstops_tabNext x.1.session x.2 step h⟩
  by_contra hidle
  rw [move_of_inactive (Bool.eq_false_iff.mpr hidle)] at h
  exact hidle h

/-- The first key that a tabstop of a snippet gets. -/
def firstKey (x : Scene) (source : String) (options : InsertOptions) : Nat :=
  ((x.heard source options).1.started (x.heard source options).2).1.nextKey

/-- Where the text of a snippet is put, and what the buffer holds then. -/
theorem exists_heard (h : AtRest x) (source : String) (options : InsertOptions) :
    let value := (expandSnippet x.1.vars x.2.context options source).text
    ∃ m n, m ≤ n ∧ n ≤ x.2.chars.length ∧ x.2.selection.toRange = ⟨place x.2.chars m, place x.2.chars n⟩ ∧
      (x.2.replace x.2.selection.toRange value).2 = x.2.spliceDeltas m n value ∧
      KeepsMarkers x.2 (x.2.spliceDeltas m n value) (x.2.replace x.2.selection.toRange value).1 ∧
      AtRest (x.heard source options) ∧
      (x.heard source options).2.chars = (x.2.replace x.2.selection.toRange value).1.chars ∧
      (x.heard source options).2.chars = x.2.chars.take m ++ value.toList ++ x.2.chars.drop n := by
  intro value
  obtain ⟨i, b⟩ := x
  obtain ⟨m, n, lines, selections, hmn, hn, hrange, he, hchars, hrest, hsame⟩ := SnippetInserter.atRest_replaced h value
  have hheard : heard (i, b) source options = i.handleChanges { b with lines, selections } (b.spliceDeltas m n value) := by
    unfold heard
    dsimp only
    rw [he]
  dsimp only
  rw [hheard, he]
  exact ⟨m, n, hmn, hn, hrange, rfl, ⟨rfl, rfl, rfl⟩, hrest, hsame.chars, hsame.chars.trans hchars⟩

theorem AtRest.insert (h : AtRest x) (source : String) (options : InsertOptions) : AtRest (x.insert source options) :=
  SnippetInserter.atRest_insert h source options

/-- The tabstops of a snippet are those that have the keys from the first free one on. -/
theorem tracking_insert (h : AtRest x) {source : String} {options : InsertOptions} (hd : options.dryRun = false)
    (hactive : (x.insert source options).1.session.isActive = true) {t : Tabstop}
    (ht : t ∈ (x.insert source options).1.session.tabstops) :
    (t ∈ ((x.heard source options).1.started (x.heard source options).2).1.tabstops ∧
      t.key < x.firstKey source options) ∨
    ∃ g ∈ (expandSnippet x.1.vars x.2.context options source).tabstops,
      Tracking (x.heard source options).1.session.linkMirrors x.2.selection.toRange.start
        (x.firstKey source options) g t := by
  obtain ⟨-, -, -, -, -, -, -, hrest, -, -⟩ := exists_heard h source options
  rw [insert_eq_begin x source hd] at hactive ht
  rcases SnippetInserter.mem_beginSession hactive ht with hold | hnew
  · have hfollow := SnippetInserter.following_started hrest.steady.valid
    exact .inl ⟨hold, hfollow.lt _ (List.mem_append_left _ (List.mem_map_of_mem hold))⟩
  · exact .inr hnew

end Scene

end Scribe
