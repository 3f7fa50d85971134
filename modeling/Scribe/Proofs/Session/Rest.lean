import Scribe.Proofs.Buffer.Typing
import Scribe.Proofs.Session.Steady

/-!
# Scenes at rest

Whatever happens to an inserter and its buffer, as long as the user tells the changes as they are, the session
follows ranges of the text of the buffer.
-/

namespace Scribe

open Position (place)

/-- What a user does to a buffer: the changes that are told lead from the old text to the new one, and the
selections are in it. -/
structure Buffer.Edits (b : Buffer) (ds : List Delta) (b' : Buffer) : Prop extends Scene.KeepsMarkers b ds b' where
  sound : b'.Sound
  chain : Delta.Chain b.chars ds b'.chars

namespace Buffer

variable {b : Buffer}

theorem edits_typeText (hb : b.Sound) (text : String) : b.Edits (b.typeText text).2 (b.typeText text).1 where
  toKeepsMarkers := Scene.keepsMarkers_typeText b text
  sound := (typeText_chain hb text).1
  chain := (typeText_chain hb text).2

theorem edits_setCursor (hb : b.Sound) (p : Position) : b.Edits [] (b.setCursor p) where
  markers := rfl
  nextMarker := rfl
  commandsBound := rfl
  sound := sound_setCursor hb p
  chain := .nil

end Buffer

namespace Scene

open Session (Steady SameText)

/-- The session is at rest, and follows ranges of the buffer. -/
structure AtRest (x : Scene) : Prop where
  steady : Steady x.1.session x.2 x.2.chars
  sound : x.2.Sound

end Scene

namespace SnippetInserter

open Session (Valid Steady SameText Placed)
open Scene (AtRest)

variable {i : SnippetInserter} {b b' : Buffer} {ds : List Delta}

theorem atRest_handleChanges {text : List Char} (h : Steady i.session b text) (hb : b.Sound)
    (hds : Delta.Chain text ds b.chars) :
    AtRest (i.handleChanges b ds) ∧ SameText b (i.handleChanges b ds).2 := by
  obtain ⟨hsteady, hsame⟩ := Session.steady_changes hds h
  refine ⟨⟨?_, hsame.sound hb⟩, hsame⟩
  rw [← hsame.chars] at hsteady
  exact hsteady

/-- The session does not see that the text changes before it is told. -/
theorem steady_host (h : AtRest (i, b)) (hk : Scene.KeepsMarkers b ds b') : Steady i.session b' b.chars where
  valid := h.steady.valid.host ⟨hk.markers, hk.nextMarker⟩ hk.commandsBound
  inChange := h.steady.inChange
  writing := h.steady.writing
  placed := h.steady.placed

theorem atRest_edit (h : AtRest (i, b)) (he : b.Edits ds b') : AtRest (i.handleChanges b' ds) :=
  (atRest_handleChanges (steady_host h he.toKeepsMarkers) he.sound he.chain).1

theorem atRest_move (h : AtRest (i, b)) (step : Int) : AtRest (i.move b step) := by
  obtain ⟨hsound, hlines⟩ := Session.sound_tabNext (s := i.session) h.sound step
  refine ⟨?_, hsound⟩
  have hsteady := Session.steady_tabNext h.steady step
  rwa [← Buffer.chars_congr hlines] at hsteady

theorem atRest_detach (h : AtRest (i, b)) :
    AtRest ({ i with session := (i.session.detach b).1 }, (i.session.detach b).2) :=
  ⟨Session.steady_detach h.steady _, (Session.sameText_detach i.session b).sound h.sound⟩

theorem atRest_handle (h : AtRest (i, b)) (event : EditorEvent) (hevent : ∀ d, event ≠ .change d) :
    AtRest (i.handle b event) := by
  show AtRest ({ i with session := (i.session.handle b event).1 }, (i.session.handle b event).2)
  cases h.steady.valid with
  | idle hidle =>
    rw [Session.handle_of_inactive hidle.inactive]
    exact h
  | running t hrun =>
    rw [Session.handle_of_active hrun.active]
    cases event with
    | change d => exact absurd rfl (hevent d)
    | changeSelection =>
      dsimp only
      unfold Session.onChangeSelection
      dsimp only
      split
      · exact h
      · exact atRest_detach h
    | changeDocument => exact atRest_detach h
    | afterCommand readOnly =>
      dsimp only
      split
      · exact h
      · obtain ⟨hsteady, hsound⟩ := Session.steady_updateLinked h.steady h.sound hrun
        exact ⟨hsteady, hsound⟩

theorem handle_afterCommand (h : i.session.isActive = true) (b : Buffer) : i.handle b (.afterCommand false) =
    ({ i with session := (i.session.updateLinked b).1 }, (i.session.updateLinked b).2) := by
  unfold handle
  rw [Session.handle_of_active h]
  rfl

/-! ## Inserting -/

theorem atRest_beginSession (h : AtRest (i, b)) {expanded : ExpandedSnippet} {text rest : List Char} {m : Nat}
    (hm : m ≤ text.length) (hchars : b.chars = text.take m ++ expanded.text.toList ++ rest)
    (hne : expanded.tabstops ≠ [])
    (hg : ∀ g ∈ expanded.tabstops, Expansion.Laid.Group expanded.text.toList g.ranges) :
    AtRest (i.beginSession b expanded (place text m)) := by
  have hstart := following_started h.steady.valid
  obtain ⟨hc, hw, hp⟩ := placed_started h.steady b
  have hsame := sameText_started i b
  rw [beginSession_started]
  dsimp only at hstart hc hw hp hsame ⊢
  rw [hchars] at hp
  generalize i.started b = start at *
  obtain ⟨session, e⟩ := start
  dsimp only at hstart hc hw hp hsame ⊢
  have hplaced := Session.placed_addTabstops (b := e) hm hp hg
  obtain ⟨batch, markers, nextMarker, nextKey, he, hlen, hfollow⟩ :=
    Session.addTabstops_eq hstart (fun g hgm => (hg g hgm).ne_nil) (place text m)
  rw [he] at hplaced ⊢
  have hsound : ({ e with markers, nextMarker } : Buffer).Sound := (hsame.sound h.sound).congr rfl rfl
  have hchars' : ({ e with markers, nextMarker } : Buffer).chars = text.take m ++ expanded.text.toList ++ rest :=
    hsame.chars.trans hchars
  refine ⟨?_, (Session.sound_tabNext hsound 1).1⟩
  have hsteady := Session.steady_tabNext_of_following hfollow (fun hnil => ?_) hc hw hplaced 1
  · rw [← hchars', ← Buffer.chars_congr (Session.sound_tabNext hsound 1).2] at hsteady
    exact hsteady
  · simp only [List.append_eq_nil_iff] at hnil
    rw [hnil.1.2, List.length_nil] at hlen
    exact hne (List.length_eq_zero_iff.mp hlen.symm)

/-- A text takes the place of the selection, and the session hears of it. -/
theorem atRest_replaced (h : AtRest (i, b)) (text : String) : ∃ m n lines selections, m ≤ n ∧ n ≤ b.chars.length ∧
    b.selection.toRange = ⟨place b.chars m, place b.chars n⟩ ∧
    b.replace b.selection.toRange text = ({ b with lines, selections }, b.spliceDeltas m n text) ∧
    ({ b with lines, selections } : Buffer).chars = b.chars.take m ++ text.toList ++ b.chars.drop n ∧
    AtRest (i.handleChanges { b with lines, selections } (b.spliceDeltas m n text)) ∧
    SameText { b with lines, selections } (i.handleChanges { b with lines, selections } (b.spliceDeltas m n text)).2 := by
  have hb : b.Sound := h.sound
  obtain ⟨m, n, hmn, hn, hrange⟩ := Buffer.on_selection hb
  obtain ⟨lines, selections, he, hsound, hchars⟩ := Buffer.replace_place hb hmn hn text
  have hchain := Buffer.chain_spliceDeltas hmn hn text
  rw [← hchars] at hchain
  have hkeeps : Scene.KeepsMarkers b (b.spliceDeltas m n text) { b with lines, selections } := ⟨rfl, rfl, rfl⟩
  exact ⟨m, n, lines, selections, hmn, hn, hrange, hrange ▸ he, hchars,
    atRest_handleChanges (steady_host h hkeeps) hsound hchain⟩

theorem atRest_insert (h : AtRest (i, b)) (source : String) (options : InsertOptions) :
    AtRest (i.insert b source options).2 := by
  rw [insert_eq]
  have hgroups := fun g => group_expandSnippet i.vars b.context options source (g := g)
  have hne := tabstops_expandSnippet_ne_nil i.vars b.context options source
  generalize expandSnippet i.vars b.context options source = expanded at hgroups hne ⊢
  dsimp only
  split
  · exact h
  · obtain ⟨m, n, lines, selections, hmn, hn, hrange, he, hchars, hrest, hsame⟩ := atRest_replaced h expanded.text
    rw [he, hrange]
    exact atRest_beginSession hrest (Nat.le_trans hmn hn) (hsame.chars.trans hchars) hne hgroups

theorem atRest_expandMatch (h : AtRest (i, b)) (m : TriggerMatch) (options : InsertOptions) :
    AtRest (i.expandMatch b m options) := by
  rw [expandMatch_eq]
  dsimp only
  have hb : b.Sound := h.sound
  obtain ⟨lines, selections, he, hsound, hchain⟩ :=
    Buffer.replace_chain hb (Buffer.start_le_stop_between ⟨b.cursor.row, b.cursor.column - m.replaceBefore.length⟩
      ⟨b.cursor.row, b.cursor.column + m.replaceAfter.length⟩) ""
  generalize b.replace (Range.between _ _) "" = replaced at he hsound hchain ⊢
  have hkeeps : Scene.KeepsMarkers b replaced.2 replaced.1 := by
    rw [he]
    exact ⟨rfl, rfl, rfl⟩
  obtain ⟨hrest, -⟩ := atRest_handleChanges (steady_host h hkeeps) hsound hchain
  generalize i.handleChanges replaced.1 replaced.2 = heard at hrest ⊢
  generalize [Selection.cursor _] = cursor
  have hlines := Session.lines_setSelections heard.2 cursor
  obtain ⟨selections', hset⟩ := Session.setSelections_eq heard.2 cursor
  have hsteady := hrest.steady
  rw [← Buffer.chars_congr hlines] at hsteady
  have hrest' : AtRest ({ heard.1 with vars := heard.1.vars.setCaptures m.beforeCaptures m.afterCaptures },
      heard.2.setSelections cursor) := by
    refine ⟨⟨?_, hsteady.inChange, hsteady.writing, hsteady.placed⟩, Buffer.sound_setSelections hrest.sound cursor⟩
    rw [hset]
    exact hsteady.valid.host ⟨rfl, rfl⟩ rfl
  have hinsert := atRest_insert hrest' m.snippet.content options
  exact ⟨hinsert.steady, hinsert.sound⟩

theorem atRest_expandTrigger (h : AtRest (i, b)) (options : InsertOptions) :
    AtRest (i.expandTrigger b options).2 := by
  rcases i.expandTrigger_cases b options with he | ⟨m, -, he⟩
  · rw [he]
    exact h
  · rw [he]
    exact atRest_expandMatch h m options

theorem atRest_run (h : AtRest (i, b)) (command : SessionCommand) : AtRest (i.run b command).2 := by
  rcases i.run_cases b command with he | ⟨step, he⟩ | ⟨step, he⟩ | he | he <;> rw [he]
  · exact atRest_expandTrigger h {}
  · exact atRest_move (atRest_expandTrigger h {}) step
  · exact atRest_move h step
  · exact atRest_detach h
  · exact h

end SnippetInserter

namespace Scene

theorem atRest_of_step {x y : Scene} (hs : Step Buffer.Edits x y) (h : AtRest x) : AtRest y := by
  cases hs with
  | insert source options => exact SnippetInserter.atRest_insert h source options
  | expandTrigger options => exact SnippetInserter.atRest_expandTrigger h options
  | run command => exact SnippetInserter.atRest_run h command
  | changeSelection => exact SnippetInserter.atRest_handle h .changeSelection nofun
  | changeDocument => exact SnippetInserter.atRest_handle h .changeDocument nofun
  | afterCommand readOnly => exact SnippetInserter.atRest_handle h (.afterCommand readOnly) nofun
  | edit he => exact SnippetInserter.atRest_edit h he
  | configure store vars => exact ⟨h.steady, h.sound⟩

theorem atRest_of_initial {x : Scene} (h : Initial x) (hb : x.2.Sound) : AtRest x := by
  have hvalid := valid_of_initial h
  obtain ⟨vars, linkMirrors, hs⟩ := h.session
  refine ⟨⟨hvalid, ?_, ?_, Session.placed_of_nil ?_ _⟩, hb⟩ <;> rw [hs] <;> rfl

/-- Every scene that is reached is at rest. -/
theorem atRest_of_runs {x y : Scene} (hx : Initial x) (hb : x.2.Sound) (h : Runs Buffer.Edits x y) : AtRest y :=
  h.invariant atRest_of_step (atRest_of_initial hx hb)

/-- A snippet is inserted, the cursor is put somewhere, and a text is typed there. -/
def insertAndTypeAt (x : Scene) (source : String) (p : Position) (text : String) : Scene :=
  let y := (x.1.insert x.2 source {}).2
  let z := y.1.handle (y.2.setCursor p) .changeSelection
  z.1.handleChanges (z.2.typeText text).1 (z.2.typeText text).2

theorem runs_insertAndTypeAt {x : Scene} (h : AtRest x) (source : String) (p : Position) (text : String) :
    Runs Buffer.Edits x (x.insertAndTypeAt source p text) := by
  obtain ⟨i, b⟩ := x
  have hinsert : Step Buffer.Edits (i, b) (i.insert b source {}).2 := .insert source {}
  unfold insertAndTypeAt
  dsimp only
  generalize (i.insert b source {}).2 = y at hinsert ⊢
  have hy := atRest_of_step hinsert h
  obtain ⟨i', b'⟩ := y
  have hmove : Step Buffer.Edits (i', b') (i', b'.setCursor p) := .edit (Buffer.edits_setCursor hy.sound p)
  have hz := atRest_of_step hmove hy
  have htell : Step Buffer.Edits (i', b'.setCursor p) (i'.handle (b'.setCursor p) .changeSelection) := .changeSelection
  dsimp only
  generalize i'.handle (b'.setCursor p) .changeSelection = z at htell ⊢
  have hz' := atRest_of_step htell hz
  have htype : Step Buffer.Edits z (z.1.handleChanges (z.2.typeText text).1 (z.2.typeText text).2) :=
    .edit (Buffer.edits_typeText hz'.sound text)
  exact (((Relation.ReflTransGen.single hinsert).tail hmove).tail htell).tail htype

end Scene

end Scribe
