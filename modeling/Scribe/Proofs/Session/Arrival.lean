import Scribe.Proofs.Buffer.Followed
import Scribe.Proofs.Session.Begun

/-!
# Arriving at a tabstop

A tabstop is selected by its primary range, or by its first one if all of them are linked. A session that hears of
this selection looks only at the ranges that are not linked, so it may take the selection for one that has left the
tabstops.
-/

namespace Scribe

/-- The range that is selected with a tabstop. -/
def Tabstop.target? (t : Tabstop) : Option TrackedRange := t.primary? <|> t.ranges.head?

theorem Tabstop.mem_of_target? {t : Tabstop} {f : TrackedRange} (h : t.target? = some f) : f ∈ t.ranges := by
  unfold target? at h
  cases hp : t.primary? with
  | some p =>
    rw [hp] at h
    obtain rfl : p = f := by simpa using h
    exact List.mem_of_find?_eq_some hp
  | none =>
    rw [hp] at h
    exact List.mem_of_head? (by simpa using h)

theorem Tabstop.exists_target? {t : Tabstop} (h : t.ranges ≠ []) : ∃ f, t.target? = some f := by
  unfold target?
  cases hp : t.primary? with
  | some p => exact ⟨p, rfl⟩
  | none => exact ⟨t.ranges.head h, by simp [List.head?_eq_some_head h]⟩

namespace Session

variable {s : Session} {b : Buffer} {t : Tabstop} {f : TrackedRange} {r : Range}

/-- A range holds a selection of another range, in either direction, if it goes around that range. -/
theorem holds_of_ends {q : Range} (h : q.start ≤ q.stop) (backwards : Bool) :
    holds r (if backwards then ⟨q.stop, q.start⟩ else .ofRange q) = true ↔ q.Within r := by
  have hpoint : q.start = q.stop → (q.Within r ↔ r.start ≤ q.start ∧ q.start ≤ r.stop) := by
    intro he
    rw [Range.Within, ← he]
  cases backwards
  · by_cases he : q.start = q.stop
    · rw [hpoint he]
      simp [holds, Selection.ofRange, Selection.isEmpty, Range.contains, he]
    · simp only [holds, Selection.ofRange, Selection.isEmpty, Range.contains, Range.Within, Bool.false_eq_true,
        if_false, Bool.and_eq_true, Bool.or_eq_true, decide_eq_true_eq, beq_iff_eq, he, false_or]
      constructor
      · rintro ⟨⟨-, hstop⟩, hstart, -⟩
        exact ⟨hstart, hstop⟩
      · rintro ⟨hstart, hstop⟩
        exact ⟨⟨Position.le_trans hstart h, hstop⟩, hstart, Position.le_trans h hstop⟩
  · by_cases he : q.start = q.stop
    · rw [hpoint he]
      simp [holds, Selection.isEmpty, Range.contains, he]
    · have he' : q.stop ≠ q.start := fun hback => he hback.symm
      simp only [holds, Selection.isEmpty, Range.contains, Range.Within, if_true, Bool.and_eq_true, Bool.or_eq_true,
        decide_eq_true_eq, beq_iff_eq, he', false_or]
      constructor
      · rintro ⟨⟨hstart, -⟩, -, hstop⟩
        exact ⟨hstart, hstop⟩
      · rintro ⟨hstart, hstop⟩
        exact ⟨⟨hstart, Position.le_trans h hstop⟩, Position.le_trans hstart h, hstop⟩

theorem selections_selectTabstop {place : Nat} (ht : s.tabstops[place]? = some t) (hf : t.target? = some f)
    (hhas : ∀ r ∈ t.ranges, b.Has r.range.start ∧ b.Has r.range.stop) :
    (s.selectTabstop b place).2.selections = selectionsOf t f := by
  have hclamp : ∀ x ∈ selectionsOf t f, (⟨b.clamp x.anchor, b.clamp x.lead⟩ : Selection) = x := by
    intro x hx
    rcases List.mem_cons.mp hx with rfl | hx
    · obtain ⟨hstart, hstop⟩ := hhas f (Tabstop.mem_of_target? hf)
      split <;> simp [Selection.ofRange, Buffer.clamp_of_has hstart, Buffer.clamp_of_has hstop]
    · obtain ⟨r, hr, rfl⟩ := List.mem_map.mp hx
      obtain ⟨hstart, hstop⟩ := hhas r (List.mem_of_mem_filter hr)
      simp [Selection.ofRange, Buffer.clamp_of_has hstart, Buffer.clamp_of_has hstop]
  have hset : (Buffer.setSelections b (selectionsOf t f)).selections = selectionsOf t f :=
    (List.map_congr_left hclamp).trans (List.map_id _)
  unfold Tabstop.target? at hf
  unfold selectTabstop
  simp only [ht, hf]
  refine Eq.trans ?_ hset
  cases t.choices <;> rfl

theorem selection_of_selections (h : b.selections = selectionsOf t f) :
    b.selection = if t.choices.isSome then ⟨f.range.stop, f.range.start⟩ else .ofRange f.range := by
  unfold Buffer.selection
  rw [h]
  rfl

/-- A session that runs after a move has just selected a tabstop. -/
theorem selections_tabNext (h : Following s b) (hne : s.tabstops ≠ []) (hb : b.WellFormed) {step : Int}
    (hp : Placed (s.tabNext b step).1 b.chars) (ha : (s.tabNext b step).1.isActive = true) :
    ∃ t f, (s.tabNext b step).1.selected? = some t ∧ t.target? = some f ∧ f.range.On b.chars ∧
      (s.tabNext b step).2.selections = selectionsOf t f := by
  obtain ⟨t, selections, completions, ht, hrun, he⟩ := tabNext_eq h hne step
  have hplace : s.placeAfter step ≠ 0 := by
    intro hzero
    rw [he, if_pos hzero, isActive_detach] at ha
    cases ha
  have hmem := List.mem_of_getElem? ht
  obtain ⟨f, hf⟩ := Tabstop.exists_target? (h.occupied t hmem)
  have hon : ∀ r ∈ t.ranges, r.range.On b.chars := fun r hr => by
    apply hp.on r
    rw [mem_ranges, tabstops_tabNext s b step ha]
    exact ⟨t, hmem, hr⟩
  have hhas : ∀ r ∈ t.ranges, b.Has r.range.start ∧ b.Has r.range.stop := fun r hr => by
    obtain ⟨hstart, hstop, -⟩ := (Buffer.holds_iff hb).mpr (hon r hr)
    exact ⟨hstart, hstop⟩
  refine ⟨t, f, ?_, hf, hon f (Tabstop.mem_of_target? hf), ?_⟩
  · rw [he, if_neg hplace]
    exact selected?_eq hrun
  · rw [← selections_selectTabstop ht hf hhas]
    have hgo : (!s.isActive || s.tabstops.isEmpty) = false := by
      simpa [h.active] using hne
    unfold tabNext
    simp only [hgo, Bool.false_eq_true, if_false, hplace]

end Session

namespace Scene

open Session (Running)

/-- The selection is that of a tabstop. -/
structure At (z : Scene) (t : Tabstop) (f : TrackedRange) : Prop where
  selected : z.1.session.selected? = some t
  target : t.target? = some f
  on : f.range.On z.2.chars
  selection : z.2.selection = if t.choices.isSome then ⟨f.range.stop, f.range.start⟩ else .ofRange f.range

/-- What selects a tabstop. -/
inductive Selects : Scene → Scene → Prop
  | move {x : Scene} (step : Int) : Selects x (x.move step)
  | insert {x : Scene} (source : String) {options : InsertOptions} :
    options.dryRun = false → Selects x (x.insert source options)

variable {x y z : Scene} {t : Tabstop} {f : TrackedRange}

theorem At.toRange_selection (h : At z t f) : z.2.selection.toRange = f.range := by
  have hle := h.on.start_le_stop
  have hforward : ¬ f.range.stop < f.range.start := Position.not_lt.mpr hle
  rw [h.selection]
  cases t.choices with
  | none => simp [Selection.toRange, Selection.ofRange, Range.between, hforward]
  | some choices =>
    by_cases hlt : f.range.start < f.range.stop
    · simp [Selection.toRange, Range.between, hlt]
    · have he := Position.le_antisymm hle (Position.not_lt.mp hlt)
      have hrange : (⟨f.range.start, f.range.stop⟩ : Range) = f.range := rfl
      simpa [Selection.toRange, Range.between, he] using hrange

section
open Session (Following)

theorem at_tabNext {i : SnippetInserter} {s : Session} {b : Buffer} {step : Int} (h : Following s b)
    (hne : s.tabstops ≠ []) (hb : b.Sound)
    (hrest : AtRest ({ i with session := (s.tabNext b step).1 }, (s.tabNext b step).2))
    (ha : (s.tabNext b step).1.isActive = true) :
    ∃ t f, At ({ i with session := (s.tabNext b step).1 }, (s.tabNext b step).2) t f ∧
      (s.tabNext b step).2.selections = Session.selectionsOf t f := by
  have hchars := Buffer.chars_congr (Session.sound_tabNext (s := s) hb step).2
  have hp : Session.Placed (s.tabNext b step).1 b.chars := hchars ▸ hrest.steady.placed
  obtain ⟨t, f, hselected, htarget, hon, hselections⟩ := Session.selections_tabNext h hne hb.wellFormed hp ha
  exact ⟨t, f, ⟨hselected, htarget, hchars.symm ▸ hon, Session.selection_of_selections hselections⟩, hselections⟩

end

theorem atRest_of_selects (h : AtRest y) (hz : Selects y z) : AtRest z := by
  cases hz with
  | move step => exact SnippetInserter.atRest_move h step
  | insert source _ => exact SnippetInserter.atRest_insert h source _

/-- A session that runs after a tabstop was selected stands at that tabstop, with the selections of it. -/
theorem selections_of_selects (h : AtRest y) (hz : Selects y z) (ha : z.1.session.isActive = true) :
    ∃ t f, At z t f ∧ z.2.selections = Session.selectionsOf t f := by
  have hrest := atRest_of_selects h hz
  cases hz with
  | move step =>
    obtain ⟨u, hrun⟩ := h.steady.valid.exists_running (tabstops_move ha).1
    exact at_tabNext hrun.toFollowing (List.ne_nil_of_mem (Session.mem_tabstops hrun)) h.sound hrest ha
  | @insert source options hd =>
    obtain ⟨-, -, -, -, -, -, -, hheard, -, -⟩ := exists_heard h source options
    have hexpanded : (expandSnippet y.1.vars y.2.context options source).IsExpansion := ⟨_, _, _, _, rfl⟩
    rw [insert_eq_begin y source hd, SnippetInserter.beginSession_started] at hrest ha ⊢
    generalize expandSnippet y.1.vars y.2.context options source = expanded at hexpanded hrest ha ⊢
    generalize y.heard source options = told at hheard hrest ha ⊢
    obtain ⟨hfollow, hne⟩ := SnippetInserter.following_addTabstops hheard.steady.valid hexpanded
      y.2.selection.toRange.start
    have hsound := (SnippetInserter.sameText_added told.1 told.2 expanded y.2.selection.toRange.start).sound hheard.sound
    exact at_tabNext hfollow hne hsound hrest ha

theorem at_of_selects (h : AtRest y) (hz : Selects y z) (ha : z.1.session.isActive = true) : ∃ t f, At z t f := by
  obtain ⟨t, f, hat, -⟩ := selections_of_selects h hz ha
  exact ⟨t, f, hat⟩

/-- A session that hears of the selection runs on if a range that is not linked goes around the one selected. -/
theorem At.changeSelection (h : At z t f) (ha : z.1.session.isActive = true) :
    z.1.handle z.2 .changeSelection =
      if ∃ r ∈ z.1.session.ranges, r.linked = false ∧ f.range.Within r.range then z
      else ({ z.1 with session := (z.1.session.detach z.2).1 }, (z.1.session.detach z.2).2) := by
  have hholds : (z.1.session.ranges.any fun r => !r.linked && Session.holds r.range (Editor.selection z.2)) = true ↔
      ∃ r ∈ z.1.session.ranges, r.linked = false ∧ f.range.Within r.range := by
    have hsel : Editor.selection z.2 = z.2.selection := rfl
    simp only [List.any_eq_true, Bool.and_eq_true, Bool.not_eq_true', hsel, h.selection,
      Session.holds_of_ends h.on.start_le_stop]
  unfold SnippetInserter.handle
  rw [Session.handle_of_active ha]
  dsimp only
  unfold Session.onChangeSelection
  dsimp only
  by_cases hin : ∃ r ∈ z.1.session.ranges, r.linked = false ∧ f.range.Within r.range
  · rw [if_pos (hholds.mpr hin), if_pos hin]
  · rw [if_neg (mt hholds.mp hin), if_neg hin]

/-- In every run a tabstop that is reached is selected as a whole, by its first range that is not linked, or by its
first one if all are. A session that hears of this selection stays as it is if a range that is not linked goes around
the one selected, as it does for a tabstop that has such a range itself, and ends otherwise. -/
theorem stays_iff_of_runs {x y z : Scene} (hx : Initial x) (hb : x.2.Sound) (h : Runs Buffer.Edits x y)
    (hz : Selects y z) (ha : z.1.session.isActive = true) :
    ∃ t f, z.1.session.selected? = some t ∧ t.target? = some f ∧ z.2.selection.toRange = f.range ∧
      let heard := z.1.handle z.2 .changeSelection
      (heard.1.session.isActive = true ↔ ∃ r ∈ z.1.session.ranges, r.linked = false ∧ f.range.Within r.range) ∧
      (heard.1.session.isActive = true → heard = z) ∧
      (t.primary? ≠ none → heard = z) := by
  have hrest := atRest_of_runs hx hb h
  obtain ⟨t, f, hat⟩ := at_of_selects hrest hz ha
  refine ⟨t, f, hat.selected, hat.target, hat.toRange_selection, ?_⟩
  intro heard
  have hheard : heard = _ := hat.changeSelection ha
  by_cases hin : ∃ r ∈ z.1.session.ranges, r.linked = false ∧ f.range.Within r.range
  · rw [if_pos hin] at hheard
    rw [hheard]
    exact ⟨⟨fun _ => hin, fun _ => ha⟩, fun _ => rfl, fun _ => rfl⟩
  · rw [if_neg hin] at hheard
    have hended : heard.1.session.isActive = false := by
      rw [hheard]
      exact Session.isActive_detach z.1.session z.2
    have hstopped : ¬ heard.1.session.isActive = true := by
      rw [hended]
      exact Bool.false_ne_true
    refine ⟨⟨fun hon => absurd hon hstopped, fun h' => absurd h' hin⟩, fun hon => absurd hon hstopped, fun hp => ?_⟩
    -- A primary range goes around itself.
    obtain ⟨p, hprimary⟩ := Option.ne_none_iff_exists'.mp hp
    obtain rfl : p = f := by simpa [Tabstop.target?, hprimary] using hat.target
    have hrun := Session.running_of_selected? (atRest_of_selects hrest hz).steady.valid hat.selected
    have hmem := hrun.range_mem (Tabstop.mem_of_target? hat.target)
    have hedited : p.linked = false := by simpa using List.find?_some hprimary
    exact absurd ⟨p, hmem, hedited, Position.le_refl _, Position.le_refl _⟩ hin

/-- The second tabstop has only a transformed occurrence, which touches the first one. -/
theorem stays_iff_of_runs_touching :
    let x : Scene := (SnippetInserter.create { clock := ⟨2024, 3, 5, 7, 8, 9⟩ }, .ofText "")
    let y := x.insert "$1$\x7b2/a/b/\x7d " {}
    let z := y.move 1
    Initial x ∧ x.2.Sound ∧ Runs Buffer.Edits x y ∧ Selects y z ∧ z.1.session.isActive = true ∧
      (∃ t f, z.1.session.selected? = some t ∧ t.primary? = none ∧ t.target? = some f ∧
        z.2.selection.toRange = f.range) ∧
      z.1.handle z.2 .changeSelection = z := by
  intro x y z
  have hx : Initial x := ⟨⟨_, _, rfl⟩, rfl, rfl⟩
  have hb : x.2.Sound := Buffer.sound_ofText ""
  have hruns : Runs Buffer.Edits x y := Relation.ReflTransGen.single (Step.insert _ {})
  have hz : Selects y z := .move 1
  have ha : z.1.session.isActive = true := by decide +kernel
  have hlinked : ∃ t ∈ z.1.session.selected?, t.primary?.isNone = true := by decide +kernel
  have haround : ∃ f ∈ z.1.session.selected?.bind Tabstop.target?,
      ∃ r ∈ z.1.session.ranges, r.linked = false ∧ r.range = f.range := by decide +kernel
  obtain ⟨t, f, ht, hf, hselection, hiff, hsame, -⟩ := stays_iff_of_runs hx hb hruns hz ha
  obtain ⟨t', ht', hprimary⟩ := hlinked
  obtain rfl := Option.some.inj (ht.symm.trans ht')
  obtain ⟨f', hf', r, hr, hedited, hrange⟩ := haround
  obtain rfl : f = f' := by simpa [ht, hf] using hf'
  have hin : f.range.Within r.range := by
    rw [hrange]
    exact ⟨Position.le_refl _, Position.le_refl _⟩
  exact ⟨hx, hb, hruns, hz, ha, ⟨t, f, ht, by simpa using hprimary, hf, hselection⟩,
    hsame (hiff.mpr ⟨r, hr, hedited, hin⟩)⟩

/-- The only occurrence of the second tabstop is transformed. The session ends as soon as it hears that the tabstop is
selected. -/
theorem transformed_tabstop_left :
    let x : Scene := (SnippetInserter.create { clock := ⟨2024, 3, 5, 7, 8, 9⟩ }, .ofText "")
    let y := x.insert "$1 $\x7b2/a/b/\x7d " {}
    let z := y.move 1
    Initial x ∧ x.2.Sound ∧ Runs Buffer.Edits x y ∧ y.1.session.isActive = true ∧ z.1.session.isActive = true ∧
      z.1.session.selected?.map (·.id) = some 2 ∧
      (z.1.handle z.2 .changeSelection).1.session.isActive = false := by
  intro x y z
  refine ⟨⟨⟨_, _, rfl⟩, rfl, rfl⟩, Buffer.sound_ofText "", ?_, ?_⟩
  · exact Relation.ReflTransGen.single (Step.insert _ {})
  · decide +kernel

end Scene

end Scribe
