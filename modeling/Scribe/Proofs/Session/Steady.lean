import Scribe.Proofs.Session.Added
import Scribe.Proofs.Session.Frame
import Scribe.Proofs.Session.Lifecycle

/-!
# Sessions at rest

Between operations no range is being written, and the ranges that are followed are placed in the text of the
buffer. Every operation leads from one such state to another one.
-/

namespace Scribe

open Position (place)

namespace Session

/-- A session that writes no range, and follows ranges of the text. -/
structure Steady (s : Session) (b : Buffer) (text : List Char) : Prop where
  valid : Valid s b
  inChange : s.inChange = false
  writing : s.writing = none
  placed : Placed s text

/-- The markers and what else a session does to a buffer apart from its text. -/
structure SameText (b b' : Buffer) : Prop where
  lines : b'.lines = b.lines
  selections : b'.selections = b.selections

variable {s : Session} {b b' b'' : Buffer} {t : Tabstop} {d : Delta} {text text' : List Char}

theorem SameText.refl (b : Buffer) : SameText b b := ⟨rfl, rfl⟩

theorem SameText.trans (h : SameText b b') (h' : SameText b' b'') : SameText b b'' :=
  ⟨h'.lines.trans h.lines, h'.selections.trans h.selections⟩

theorem SameText.sound (h : SameText b b') (hb : b.Sound) : b'.Sound := hb.congr h.lines h.selections

theorem SameText.chars (h : SameText b b') : b'.chars = b.chars := Buffer.chars_congr h.lines

theorem placed_of_nil (h : s.tabstops = []) (text : List Char) : Placed s text where
  on r hr := by
    rw [ranges, h] at hr
    cases hr
  apart t ht := by
    rw [h] at ht
    cases ht

/-! ## Ending -/

theorem sameText_detach (s : Session) (b : Buffer) : SameText b (s.detach b).2 := by
  unfold detach
  split
  · exact .refl b
  · rw [removeMarkers_eq]
    exact ⟨rfl, rfl⟩

theorem steady_detach (h : Steady s b text) (text' : List Char) : Steady (s.detach b).1 (s.detach b).2 text' := by
  have hidle := idle_of_valid_detach h.valid
  refine ⟨.idle hidle, ?_, ?_, placed_of_nil hidle.tabstops text'⟩
  · unfold detach
    split
    · exact h.inChange
    · rfl
  · unfold detach
    split
    · exact h.writing
    · exact h.writing

/-! ## Changes -/

theorem steady_onChange (h : Steady s b text) (hrun : Running s b t) (happ : Delta.Applies text d text') :
    Steady (s.onChange b d).1 (s.onChange b d).2 text' ∧ SameText b (s.onChange b d).2 := by
  obtain ⟨index, markers, hrun', he⟩ := onChange_eq hrun d
  have hplaced := placed_changed hrun.toFollowing h.placed happ
    (fun _ r _ hw => by rw [h.writing] at hw; cases hw) index
  have hsteady : Steady { s with tabstops := s.changed d, index } { b with markers } text' :=
    ⟨.running _ hrun', h.inChange, h.writing, hplaced⟩
  rw [he]
  split
  · have hsame : SameText b { b with markers } := ⟨rfl, rfl⟩
    exact ⟨steady_detach hsteady text', hsame.trans (sameText_detach _ _)⟩
  · exact ⟨hsteady, rfl, rfl⟩

theorem steady_change (h : Steady s b text) (happ : Delta.Applies text d text') :
    Steady (s.handle b (.change d)).1 (s.handle b (.change d)).2 text' ∧ SameText b (s.handle b (.change d)).2 := by
  cases h.valid with
  | idle hidle =>
    rw [handle_of_inactive hidle.inactive]
    exact ⟨⟨h.valid, h.inChange, h.writing, placed_of_nil hidle.tabstops text'⟩, .refl b⟩
  | running t hrun =>
    rw [handle_of_active hrun.active]
    exact steady_onChange h hrun happ

/-- A session that hears the changes of the text one after the other stays at rest. -/
theorem steady_changes : ∀ {ds : List Delta} {text text' : List Char} {s : Session} {b : Buffer},
    Delta.Chain text ds text' → Steady s b text →
    Steady (s.handleAll b (ds.map .change)).1 (s.handleAll b (ds.map .change)).2 text' ∧
      SameText b (s.handleAll b (ds.map .change)).2
  | [], _, _, _, b, .nil, h => ⟨h, .refl b⟩
  | d :: ds, text, text', s, b, .cons happ hchain, h => by
    obtain ⟨hd, hsame⟩ := steady_change h happ
    obtain ⟨hds, hsame'⟩ := steady_changes hchain hd
    rw [List.map_cons, handleAll_cons]
    exact ⟨hds, hsame.trans hsame'⟩

/-! ## Moving -/

theorem lines_setSelections (b : Buffer) (selections : List Selection) :
    (b.setSelections selections).lines = b.lines := by
  unfold Buffer.setSelections
  split <;> rfl

theorem sound_selectTabstop (hb : b.Sound) (place : Nat) :
    (s.selectTabstop b place).2.Sound ∧ (s.selectTabstop b place).2.lines = b.lines := by
  unfold selectTabstop
  dsimp only
  split
  · exact ⟨hb, rfl⟩
  · split
    · exact ⟨hb, rfl⟩
    · rename_i t _ _ primary _
      have hsound := Buffer.sound_setSelections hb (selectionsOf t primary)
      have hlines := lines_setSelections b (selectionsOf t primary)
      cases t.choices with
      | none => exact ⟨hsound, hlines⟩
      | some choices => exact ⟨hsound.congr rfl rfl, hlines⟩

theorem sound_tabNext (hb : b.Sound) (step : Int) :
    (s.tabNext b step).2.Sound ∧ (s.tabNext b step).2.lines = b.lines := by
  unfold tabNext
  split
  · exact ⟨hb, rfl⟩
  · dsimp only
    obtain ⟨hsound, hlines⟩ := sound_selectTabstop (s := s) hb (s.placeAfter step)
    split
    · have hsame := sameText_detach (s.selectTabstop b (s.placeAfter step)).1 (s.selectTabstop b (s.placeAfter step)).2
      exact ⟨hsame.sound hsound, hsame.lines.trans hlines⟩
    · exact ⟨hsound, hlines⟩

theorem steady_tabNext_of_following (h : Following s b) (hne : s.tabstops ≠ []) (hc : s.inChange = false)
    (hw : s.writing = none) (hp : Placed s text) (step : Int) :
    Steady (s.tabNext b step).1 (s.tabNext b step).2 text := by
  obtain ⟨t, selections, completions, -, hrun, he⟩ := tabNext_eq h hne step
  have hsteady : Steady { s with index := s.placeAfter step, selectedKey := some t.key }
      { b with selections, completions } text := ⟨.running t hrun, hc, hw, hp.on, hp.apart⟩
  rw [he]
  split
  · exact steady_detach hsteady text
  · exact hsteady

theorem steady_tabNext (h : Steady s b text) (step : Int) : Steady (s.tabNext b step).1 (s.tabNext b step).2 text := by
  cases h.valid with
  | idle hidle =>
    rw [tabNext_of_inactive hidle.inactive]
    exact h
  | running t hrun =>
    refine steady_tabNext_of_following hrun.toFollowing (fun hnil => ?_) h.inChange h.writing h.placed step
    have := hrun.getElem
    rw [hnil] at this
    cases this

/-! ## Writing linked ranges -/

theorem placed_writeMirrors (source : String) : ∀ (ms : List TrackedRange) {s : Session} {b : Buffer} {t : Tabstop},
    Running s b t → s.inChange = true → s.writing = none → b.Sound → Placed s b.chars →
    (∀ r ∈ ms, ∃ x ∈ t.ranges, x.linked = true ∧ x.key = r.key) →
    ∃ t', Running (s.writeMirrors b source ms).1 (s.writeMirrors b source ms).2 t' ∧
      (s.writeMirrors b source ms).1.writing = none ∧ (s.writeMirrors b source ms).2.Sound ∧
      Placed (s.writeMirrors b source ms).1 (s.writeMirrors b source ms).2.chars
  | [], _, _, t, h, _, hw, hb, hp, _ => ⟨t, h, hw, hb, hp⟩
  | r :: rest, s, b, t, h, hc, hw, hb, hp, hms => by
    obtain ⟨x, hx, hl, hk⟩ := hms r List.mem_cons_self
    obtain ⟨tabstops, index, lines, selections, markers, g, he, hrun, hsound, hleaves, -, -⟩ :=
      writeMirror_leaves (I := fun _ _ => True) h hc hw hb hp hx hl source r.transform (fun _ _ hi => hi)
        (fun _ hi => hi) trivial
    rw [writeMirrors_cons, ← hk, he]
    refine placed_writeMirrors source rest hrun hc hw hsound hleaves.placed fun r hr => ?_
    obtain ⟨y, hy, hly, hky⟩ := hms r (List.mem_cons_of_mem _ hr)
    exact ⟨_, Tabstop.mem_place_of_mem hy, hly, hky⟩

theorem steady_updateLinked (h : Steady s b b.chars) (hb : b.Sound) (hrun : Running s b t) :
    Steady (s.updateLinked b).1 (s.updateLinked b).2 (s.updateLinked b).2.chars ∧ (s.updateLinked b).2.Sound := by
  unfold updateLinked
  rw [selected?_eq hrun]
  dsimp only
  split
  · exact ⟨h, hb⟩
  · exact ⟨h, hb⟩
  · obtain ⟨t', hrun', hw, hsound, hp⟩ := placed_writeMirrors _ _ (hrun.set s.vars true s.writing) rfl h.writing hb
      ⟨h.placed.on, h.placed.apart⟩ fun r hr => ⟨r, (List.mem_filter.mp hr).1, (List.mem_filter.mp hr).2, rfl⟩
    exact ⟨⟨.running t' (hrun'.set _ false _), rfl, hw, hp.on, hp.apart⟩, hsound⟩

end Session

/-! ## Beginning -/

namespace SnippetInserter

open Session (Placed SameText Steady)

variable {i : SnippetInserter} {b : Buffer} {text : List Char}

theorem sameText_started (i : SnippetInserter) (b : Buffer) : SameText b (i.started b).2 := by
  cases h : i.session.isActive with
  | true =>
    rw [started_of_active h]
    exact .refl b
  | false =>
    rw [started_of_inactive h]
    exact ⟨rfl, rfl⟩

theorem placed_started (h : Steady i.session b text) (b' : Buffer) :
    (i.started b').1.inChange = false ∧ (i.started b').1.writing = none ∧ Placed (i.started b').1 text := by
  cases ha : i.session.isActive with
  | true =>
    rw [started_of_active ha]
    exact ⟨h.inChange, h.writing, h.placed.on, h.placed.apart⟩
  | false =>
    rw [started_of_inactive ha]
    exact ⟨rfl, rfl, Session.placed_of_nil rfl text⟩

end SnippetInserter

end Scribe
