import Scribe.Proofs.Buffer.Inside
import Scribe.Proofs.Session.Flat
import Scribe.Proofs.Session.Inserted
import Scribe.Proofs.Session.Rest

/-!
# Filling in a snippet

A snippet without nested tabstops and without transforms is filled in by moving between its tabstops and changing
the text in the primary range of the selected one. After each command the other occurrences read the same.
-/

namespace Scribe

open Position (place)

/-- What a user does in a range of a buffer. -/
structure Buffer.EditsIn (r : Range) (b : Buffer) (ds : List Delta) (b' : Buffer) : Prop
    extends Scene.KeepsMarkers b ds b' where
  sound : b'.Sound
  inside : Delta.Inside r b.chars ds b'.chars

/-- A text is typed over a selection in a range. -/
theorem Buffer.editsIn_typeText {b : Buffer} (hb : b.Sound) {r : Range} (hr : r.On b.chars) {s : Selection}
    (hs : b.selections = [s]) (hstart : r.start ≤ s.toRange.start) (hstop : s.toRange.stop ≤ r.stop) (text : String) :
    b.EditsIn r (b.typeText text).2 (b.typeText text).1 where
  toKeepsMarkers := Scene.keepsMarkers_typeText b text
  sound := (edits_typeText hb text).sound
  inside := inside_typeText hb hr hs hstart hstop text

theorem Buffer.EditsIn.edits {r : Range} {b b' : Buffer} {ds : List Delta} (h : EditsIn r b ds b') : b.Edits ds b' :=
  { h.toKeepsMarkers with sound := h.sound, chain := h.inside.chain }

namespace Session

variable {s₀ s : Session} {b : Buffer} {t : Tabstop} {out text text' : List Char}

theorem flat_changes : ∀ {ds : List Delta} {r : Range} {text text' : List Char} {s : Session} {b : Buffer}
    {t : Tabstop} {p : TrackedRange}, Delta.Inside r text ds text' → Running s b t → s.writing = none →
    t.primary? = some p →
    p.range = r → Flat s₀ out s text → (s.handleAll b (ds.map .change)).1.isActive = true →
    Flat s₀ out (s.handleAll b (ds.map .change)).1 text'
  | [], _, _, _, _, _, _, _, .nil, _, _, _, _, hf, _ => hf
  | d :: ds, _, _, _, s, b, t, p, .cons happ hstart hstop hend hds, h, hw, hp, rfl, hf, hactive => by
    obtain ⟨index, markers, hrun, he⟩ := handle_change_of_active h (isActive_handle hactive)
    rw [List.map_cons, handleAll_cons, he] at hactive ⊢
    have htakes : s.takes d t p = true := by
      cases hd : d.action with
      | insert => exact hf.takes_primary h hp hw hd hstop
      | remove =>
        unfold takes
        simp [hd, owns_selected h]
    have hp' : (s.shiftTabstop s.around d t).primary? = some (p.shift d true) := by
      rw [shiftTabstop_eq, ← htakes]
      unfold Tabstop.primary? at hp ⊢
      rw [List.find?_map]
      exact congrArg (Option.map _) hp
    exact flat_changes hds hrun hw hp' rfl (hf.edit h hp hw happ hstart hstop hend index) hactive

end Session

namespace Scene

open Session (Running Steady Flat)

/-- A step of filling in a snippet. -/
inductive FillsIn : Scene → Scene → Prop
  | move {i : SnippetInserter} {b : Buffer} (step : Int) : FillsIn (i, b) (i.move b step)
  | edit {i : SnippetInserter} {b b' : Buffer} {ds : List Delta} {t : Tabstop} {p : TrackedRange} :
    i.session.selected? = some t → t.primary? = some p → b.EditsIn p.range ds b' →
    FillsIn (i, b) (i.handleChanges b' ds)
  | afterCommand {i : SnippetInserter} {b : Buffer} : FillsIn (i, b) (i.handle b (.afterCommand false))

/-- A snippet that is being filled in; the session may have ended. -/
structure Filled (s₀ : Session) (out : List Char) (x : Scene) : Prop where
  rest : AtRest x
  flat : x.1.session.isActive = true → Flat s₀ out x.1.session x.2.chars

variable {s₀ : Session} {out : List Char}

theorem filled_move {i : SnippetInserter} {b : Buffer} (h : Filled s₀ out (i, b)) (step : Int) :
    Filled s₀ out (i.move b step) := by
  refine ⟨SnippetInserter.atRest_move h.rest step, ?_⟩
  show (i.session.tabNext b step).1.isActive = true → Flat s₀ out (i.session.tabNext b step).1
    (i.session.tabNext b step).2.chars
  cases h.rest.steady.valid with
  | idle hidle =>
    rw [Session.tabNext_of_inactive hidle.inactive]
    exact h.flat
  | running t hrun =>
    intro hactive
    have hf : Flat s₀ out i.session b.chars := h.flat hrun.active
    have hne : i.session.tabstops ≠ [] := List.ne_nil_of_mem (Session.mem_tabstops hrun)
    obtain ⟨t', selections, completions, -, hrun', he⟩ := Session.tabNext_eq hrun.toFollowing hne step
    rw [he] at hactive ⊢
    by_cases hplace : i.session.placeAfter step = 0
    · rw [if_pos hplace, (Session.idle_detach hrun'.toFollowing).inactive] at hactive
      cases hactive
    · rw [if_neg hplace]
      exact hf.congr rfl

theorem filled_edit {i : SnippetInserter} {b b' : Buffer} {ds : List Delta} {t : Tabstop} {p : TrackedRange}
    (h : Filled s₀ out (i, b)) (ht : i.session.selected? = some t) (hp : t.primary? = some p)
    (he : b.EditsIn p.range ds b') : Filled s₀ out (i.handleChanges b' ds) := by
  have hrun := Session.running_of_selected? h.rest.steady.valid ht
  have hrun' : Running i.session b' t := hrun.host ⟨he.markers, he.nextMarker⟩ he.commandsBound
  have hhost := SnippetInserter.steady_host h.rest he.toKeepsMarkers
  obtain ⟨hrest, hsame⟩ := SnippetInserter.atRest_handleChanges hhost he.sound he.inside.chain
  refine ⟨hrest, fun hactive => ?_⟩
  rw [hsame.chars]
  exact Session.flat_changes he.inside hrun' h.rest.steady.writing hp rfl (h.flat hrun.active) hactive

theorem filled_afterCommand {i : SnippetInserter} {b : Buffer} (h : Filled s₀ out (i, b)) :
    Filled s₀ out (i.handle b (.afterCommand false)) := by
  refine ⟨SnippetInserter.atRest_handle h.rest (.afterCommand false) nofun, ?_⟩
  cases h.rest.steady.valid with
  | idle hidle =>
    intro hactive
    rw [SnippetInserter.handle_of_inactive hidle.inactive] at hactive ⊢
    exact h.flat hactive
  | running t hrun =>
    intro _
    have hf : Flat s₀ out i.session b.chars := h.flat hrun.active
    rw [SnippetInserter.handle_afterCommand hrun.active]
    cases hp : t.primary? with
    | none =>
      rw [Session.updateLinked_of_no_primary hrun hp]
      exact hf
    | some p =>
      obtain ⟨g, -, hf'⟩ := hf.updateLinked hrun h.rest.steady.inChange h.rest.steady.writing h.rest.sound
        h.rest.steady.placed hp
      exact hf'

/-- A text is typed, and the session hears of it. -/
def typed (x : Scene) (text : String) : Scene :=
  x.1.handleChanges (x.2.typeText text).1 (x.2.typeText text).2

theorem editsIn_typed {x : Scene} (h : AtRest x) {t : Tabstop} {p : TrackedRange}
    (ht : x.1.session.selected? = some t) (hp : t.primary? = some p) {s : Selection} (hs : x.2.selections = [s])
    (hstart : p.range.start ≤ s.toRange.start) (hstop : s.toRange.stop ≤ p.range.stop) (text : String) :
    x.2.EditsIn p.range (x.2.typeText text).2 (x.2.typeText text).1 := by
  have hrun := Session.running_of_selected? h.steady.valid ht
  have hon := h.steady.placed.on p (hrun.range_mem (Tabstop.mem_of_primary? hp).1)
  exact Buffer.editsIn_typeText h.sound hon hs hstart hstop text

theorem fillsIn_typed {x : Scene} (h : AtRest x) {t : Tabstop} {p : TrackedRange}
    (ht : x.1.session.selected? = some t) (hp : t.primary? = some p) {s : Selection} (hs : x.2.selections = [s])
    (hstart : p.range.start ≤ s.toRange.start) (hstop : s.toRange.stop ≤ p.range.stop) (text : String) :
    FillsIn x (x.typed text) :=
  .edit ht hp (editsIn_typed h ht hp hs hstart hstop text)

/-! ## Inserting -/

theorem filled_insert {i : SnippetInserter} {b : Buffer} (h : AtRest (i, b)) (hidle : i.session.isActive = false)
    (hlink : i.session.linkMirrors = true) (source : String) (options : InsertOptions)
    (hplain : ∀ g ∈ (expandSnippet i.vars b.context options source).tabstops,
      g.parents = [] ∧ ∀ r ∈ g.ranges, r.transform = none) :
    let start := (i.insert b source options).2
    Filled start.1.session (outside start.2.chars (start.1.session.ranges.map (·.range))) start ∧
      ∀ t ∈ start.1.session.tabstops, ∃ g ∈ (expandSnippet i.vars b.context options source).tabstops,
        List.Forall₂ (fun r x => x.range = (r.offsetBy b.selection.toRange.start).range) g.ranges t.ranges := by
  intro start
  have hrest : AtRest start := SnippetInserter.atRest_insert h source options
  cases hdry : options.dryRun with
  | true =>
    have hstart : start = (i, b) := by
      show (i.insert b source options).2 = _
      rw [SnippetInserter.insert_eq]
      exact if_pos hdry
    have hnil : i.session.tabstops = [] := (h.steady.valid.idle_of_inactive hidle).tabstops
    rw [hstart] at hrest ⊢
    refine ⟨⟨hrest, fun hactive => by cases hactive.symm.trans hidle⟩, fun t ht => ?_⟩
    dsimp only at ht
    rw [hnil] at ht
    cases ht
  | false =>
    obtain ⟨m, n, lines, selections, hmn, hn, hrange, hsound, hchars, hinsert⟩ :=
      SnippetInserter.exists_insert h.sound hidle source hdry
    have hm := Nat.le_trans hmn hn
    have hgroups := fun g => group_expandSnippet i.vars b.context options source (g := g)
    have hlines : start.2.lines = lines := by
      show (i.insert b source options).2.2.lines = lines
      rw [hinsert]
      exact SnippetInserter.lines_beginSession hsound _ _
    -- The session that begins follows nothing yet, and one that is over follows nothing any more.
    have htracking : ∀ t ∈ start.1.session.tabstops,
        ∃ g ∈ (expandSnippet i.vars b.context options source).tabstops, Session.Tracking true (place b.chars m) 0 g t := by
      intro t ht
      have hactive : start.1.session.isActive = true := by
        by_contra hover
        rw [(hrest.steady.valid.idle_of_inactive (eq_false_of_ne_true hover)).tabstops] at ht
        cases ht
      have hstart : start = _ := hinsert
      rw [hstart] at hactive ht
      rcases SnippetInserter.mem_beginSession hactive ht with hold | hnew
      · rw [SnippetInserter.started_of_inactive hidle] at hold
        cases hold
      · rwa [SnippetInserter.started_of_inactive hidle, hlink] at hnew
    refine ⟨⟨hrest, fun _ => ?_⟩, fun t ht => ?_⟩
    · rw [(Buffer.chars_congr hlines).trans hchars]
      exact Session.flat_of_tracked hm hgroups hplain htracking
    · obtain ⟨g, hg, -, -, ⟨b', nextKey, hranges⟩, -⟩ := htracking t ht
      refine ⟨g, hg, ?_⟩
      rw [hrange, hranges]
      exact (Session.forall₂_range_trackRanges hm (hgroups g hg).on nextKey false).imp fun _ _ hrx => hrx.2

theorem filled_of_step {x y : Scene} (hs : FillsIn x y) (h : Filled s₀ out x) : Filled s₀ out y := by
  cases hs with
  | move step => exact filled_move h step
  | edit ht hp he => exact filled_edit h ht hp he
  | afterCommand => exact filled_afterCommand h

theorem filled_of_fillsIn {x y : Scene} (hs : Relation.ReflTransGen FillsIn x y) (h : Filled s₀ out x) :
    Filled s₀ out y := by
  induction hs with
  | refl => exact h
  | tail _ hstep ih => exact filled_of_step hstep ih

/-! ## After a command -/

theorem reads_afterCommand {i : SnippetInserter} {b : Buffer} (h : Filled s₀ out (i, b)) {t : Tabstop}
    {p : TrackedRange} (ht : (i.handle b (.afterCommand false)).1.session.selected? = some t)
    (hp : t.primary? = some p) {r : TrackedRange} (hr : r ∈ t.ranges) (hl : r.linked = true) :
    (i.handle b (.afterCommand false)).2.textRange r.range =
      (i.handle b (.afterCommand false)).2.textRange p.range := by
  cases h.rest.steady.valid with
  | idle hidle =>
    rw [SnippetInserter.handle_of_inactive hidle.inactive] at ht
    have hactive := (Session.running_of_selected? (.idle hidle) ht).active
    rw [hidle.inactive] at hactive
    cases hactive
  | running u hrun =>
    have hf : Flat s₀ out i.session b.chars := h.flat hrun.active
    rw [SnippetInserter.handle_afterCommand hrun.active] at ht ⊢
    dsimp only at ht ⊢
    cases hprim : u.primary? with
    | none =>
      rw [Session.updateLinked_of_no_primary hrun hprim, Session.selected?_eq hrun] at ht
      cases ht
      rw [hprim] at hp
      cases hp
    | some q =>
      obtain ⟨g, hg, -⟩ := hf.updateLinked hrun h.rest.steady.inChange h.rest.steady.writing h.rest.sound
        h.rest.steady.placed hprim
      rw [Session.selected?_eq hg.running] at ht
      cases ht
      rw [Tabstop.primary?_place, hprim] at hp
      cases hp
      obtain ⟨r₀, hr₀, rfl⟩ := Tabstop.mem_place.mp hr
      rw [Session.textRange_eq hg.sound (hg.written r₀ hr₀ hl), Session.textRange_eq hg.sound (hg.primary trivial)]

/-- A snippet without nested tabstops and without transforms is inserted, and filled in by any moves between its
tabstops, edits in the primary range of the selected one, and commands. After a command the other occurrences of the
selected tabstop read what its primary range reads, its ranges are in the order of the snippet, one behind the other,
and the text outside of all ranges is that right after the insertion. -/
theorem mirrors_follow_primary {x₀ x y : Scene} (hx : Initial x₀) (hb : x₀.2.Sound) (hruns : Runs Buffer.Edits x₀ x)
    (hidle : x.1.session.isActive = false) (hlink : x.1.session.linkMirrors = true) {source : String}
    {options : InsertOptions}
    (hplain : ∀ g ∈ (expandSnippet x.1.vars x.2.context options source).tabstops,
      g.parents = [] ∧ ∀ r ∈ g.ranges, r.transform = none)
    (hfill : Relation.ReflTransGen FillsIn (x.1.insert x.2 source options).2 y) {t : Tabstop}
    (ht : (y.1.handle y.2 (.afterCommand false)).1.session.selected? = some t) :
    let start := (x.1.insert x.2 source options).2
    let z := y.1.handle y.2 (.afterCommand false)
    (∀ p, t.primary? = some p → ∀ r ∈ t.ranges, r.linked = true →
      z.2.textRange r.range = z.2.textRange p.range) ∧
    (∃ t₀ ∈ start.1.session.tabstops, t₀.key = t.key ∧
      (t.ranges.map (·.key)).Sublist (t₀.ranges.map (·.key)) ∧
      ∃ g ∈ (expandSnippet x.1.vars x.2.context options source).tabstops,
        List.Forall₂ (fun r x₀ => x₀.range = (r.offsetBy x.2.selection.toRange.start).range) g.ranges t₀.ranges) ∧
    t.ranges.Pairwise (fun r r' => r.range.stop ≤ r'.range.start) ∧
    outside z.2.chars (z.1.session.ranges.map (·.range)) =
      outside start.2.chars (start.1.session.ranges.map (·.range)) := by
  intro start z
  obtain ⟨hstart, hgroups⟩ := filled_insert (atRest_of_runs hx hb hruns) hidle hlink source options hplain
  have hy := filled_of_fillsIn hfill hstart
  have hz := filled_afterCommand hy
  have hrun := Session.running_of_selected? hz.rest.steady.valid ht
  have hflat := hz.flat hrun.active
  have hmem := Session.mem_tabstops hrun
  obtain ⟨t₀, ht₀, hkey, hsub⟩ := hflat.kept t hmem
  exact ⟨fun p hp r hr hl => reads_afterCommand hy ht hp hr hl, ⟨t₀, ht₀, hkey, hsub, hgroups t₀ ht₀⟩,
    hflat.ordered t hmem, hflat.outside⟩

/-- The first tabstop is typed over. -/
theorem mirrors_follow_primary_typed :
    let x : Scene := (SnippetInserter.create { clock := ⟨2024, 3, 5, 7, 8, 9⟩ }, .ofText "")
    let start := (x.1.insert x.2 "${1:foo} $1;$0" {}).2
    let y := typed start "bar"
    let z := y.1.handle y.2 (.afterCommand false)
    Relation.ReflTransGen FillsIn start y ∧ y.2.text = "bar foo;" ∧ z.2.text = "bar bar;" ∧
      ∃ t p, z.1.session.selected? = some t ∧ t.primary? = some p ∧
        (∀ r ∈ t.ranges, r.linked = true → z.2.textRange r.range = z.2.textRange p.range) ∧
        outside z.2.chars (z.1.session.ranges.map (·.range)) = [' ', ';'] := by
  intro x start y z
  have hx : Initial x := ⟨⟨_, _, rfl⟩, rfl, rfl⟩
  have hb : x.2.Sound := Buffer.sound_ofText ""
  have hrest : AtRest start := SnippetInserter.atRest_insert (atRest_of_initial hx hb) _ _
  -- The tabstop is selected from its start to its end.
  have hselected : ∃ t ∈ start.1.session.selected?, ∃ p ∈ t.primary?,
      start.2.selections = [.ofRange p.range] ∧ p.range = ⟨⟨0, 0⟩, ⟨0, 3⟩⟩ := by decide +kernel
  obtain ⟨t, ht, p, hp, hs, hrange⟩ := hselected
  have hfill : FillsIn start y := by
    refine fillsIn_typed hrest ht hp hs ?_ ?_ "bar" <;> rw [hrange] <;> decide
  have hplain : ∀ g ∈ (expandSnippet x.1.vars x.2.context {} "${1:foo} $1;$0").tabstops,
      g.parents = [] ∧ ∀ r ∈ g.ranges, r.transform = none := by decide +kernel
  have hafter : ∃ t ∈ z.1.session.selected?, ∃ p ∈ t.primary?, True := by decide +kernel
  obtain ⟨t', ht', p', hp', -⟩ := hafter
  obtain ⟨hreads, -, -, hout⟩ :=
    mirrors_follow_primary hx hb .refl rfl rfl hplain (.single hfill) ht'
  have hy : y.2.text = "bar foo;" := by decide +kernel
  have hz : z.2.text = "bar bar;" := by decide +kernel
  have hbegin : outside (x.1.insert x.2 "${1:foo} $1;$0" {}).2.2.chars
      ((x.1.insert x.2 "${1:foo} $1;$0" {}).2.1.session.ranges.map (·.range)) = [' ', ';'] := by decide +kernel
  exact ⟨.single hfill, hy, hz, t', p', ht', hp', hreads p' hp', hout.trans hbegin⟩

end Scene

end Scribe
