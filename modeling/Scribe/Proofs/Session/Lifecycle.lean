import Scribe.Proofs.Session.Mirrors
import Scribe.Proofs.Session.Run
import Scribe.Proofs.Snippet.Layout

/-!
# The life of a session

At every time a session either runs, with a tabstop selected and its markers in the buffer, or it does not run
and has left nothing behind.
-/

namespace Scribe

namespace Session

/-- Between operations a session runs or does not. -/
inductive Valid (s : Session) (b : Buffer) : Prop
  | idle (h : Idle s b) : Valid s b
  | running (t : Tabstop) (h : Running s b t) : Valid s b

variable {s : Session} {b : Buffer} {t : Tabstop}

theorem running_of_selected? (h : Valid s b) (ht : s.selected? = some t) : Running s b t := by
  cases h with
  | idle h =>
    unfold selected? at ht
    rw [h.tabstops] at ht
    cases hk : s.selectedKey <;> rw [hk] at ht <;> cases ht
  | running t' h =>
    rw [selected?_eq h] at ht
    cases ht
    exact h

theorem Valid.exists_running (h : Valid s b) (ha : s.isActive = true) : ∃ t, Running s b t := by
  cases h with
  | idle h => cases ha.symm.trans h.inactive
  | running t h => exact ⟨t, h⟩

theorem Valid.idle_of_inactive (h : Valid s b) (hi : s.isActive = false) : Idle s b := by
  cases h with
  | idle h => exact h
  | running t h => cases hi.symm.trans h.active

/-! ## Events -/

theorem valid_onChange (h : Running s b t) (d : Delta) : Valid (s.onChange b d).1 (s.onChange b d).2 := by
  obtain ⟨index, markers, hrun, he⟩ := onChange_eq h d
  rw [he]
  split
  · exact .idle (idle_detach hrun.toFollowing)
  · exact .running _ hrun

theorem idle_of_valid_detach (h : Valid s b) : Idle (s.detach b).1 (s.detach b).2 := by
  cases h with
  | idle h =>
    unfold detach
    rw [h.inactive]
    exact h
  | running t h => exact idle_detach h.toFollowing

theorem valid_onChangeSelection (h : Running s b t) : Valid (s.onChangeSelection b).1 (s.onChangeSelection b).2 := by
  unfold onChangeSelection
  dsimp only
  split
  · exact .running t h
  · exact .idle (idle_detach h.toFollowing)

theorem handle_of_inactive (h : s.isActive = false) (event : EditorEvent) : s.handle b event = (s, b) := by
  unfold handle
  rw [h]
  rfl

theorem handle_of_active (h : s.isActive = true) (event : EditorEvent) :
    s.handle b event = match event with
      | .change d => s.onChange b d
      | .changeSelection => s.onChangeSelection b
      | .changeDocument => s.detach b
      | .afterCommand readOnly => if readOnly then (s, b) else s.updateLinked b := by
  unfold handle
  rw [h]
  rfl

theorem valid_handle (h : Valid s b) (event : EditorEvent) :
    Valid (s.handle b event).1 (s.handle b event).2 := by
  cases h with
  | idle h =>
    rw [handle_of_inactive h.inactive]
    exact .idle h
  | running t h =>
    rw [handle_of_active h.active]
    cases event with
    | change d => exact valid_onChange h d
    | changeSelection => exact valid_onChangeSelection h
    | changeDocument => exact .idle (idle_detach h.toFollowing)
    | afterCommand readOnly =>
      dsimp only
      split
      · exact .running t h
      · obtain ⟨t', hrun⟩ := running_updateLinked h
        exact .running t' hrun

theorem handleAll_cons (s : Session) (b : Buffer) (event : EditorEvent) (rest : List EditorEvent) :
    s.handleAll b (event :: rest) = (s.handle b event).1.handleAll (s.handle b event).2 rest := rfl

theorem handleAll_of_inactive (h : s.isActive = false) : ∀ events : List EditorEvent, s.handleAll b events = (s, b)
  | [] => rfl
  | event :: rest => by
    rw [handleAll_cons, handle_of_inactive h]
    exact handleAll_of_inactive h rest

theorem isActive_handle {event : EditorEvent} {rest : List EditorEvent}
    (h : (s.handleAll b (event :: rest)).1.isActive = true) : (s.handle b event).1.isActive = true := by
  by_contra hidle
  rw [handleAll_cons, handleAll_of_inactive (eq_false_of_ne_true hidle)] at h
  exact hidle h

/-- A change that does not end the session moves its tabstops, and does no more to it. -/
theorem handle_change_of_active {d : Delta} (h : Running s b t)
    (hactive : (s.handle b (.change d)).1.isActive = true) : ∃ index markers,
    Running { s with tabstops := s.changed d, index } { b with markers } (s.shiftTabstop s.around d t) ∧
      s.handle b (.change d) = ({ s with tabstops := s.changed d, index }, { b with markers }) := by
  obtain ⟨index, markers, hrun, he⟩ := onChange_eq h d
  have hhandle : s.handle b (.change d) = s.onChange b d := handle_of_active h.active _
  rw [hhandle, he] at hactive ⊢
  by_cases hempty : (!s.inChange && d.action = .remove && b.isEmpty) = true
  · rw [if_pos hempty, (idle_detach hrun.toFollowing).inactive] at hactive
    cases hactive
  · rw [if_neg hempty]
    exact ⟨index, markers, hrun, rfl⟩

theorem valid_handleAll : ∀ (events : List EditorEvent) {s : Session} {b : Buffer}, Valid s b →
    Valid (s.handleAll b events).1 (s.handleAll b events).2
  | [], _, _, h => h
  | event :: rest, s, b, h => by
    rw [handleAll_cons]
    exact valid_handleAll rest (valid_handle h event)

theorem Valid.host (h : Valid s b) {b' : Buffer} (hm : SameMarkers b b')
    (hb : b'.commandsBound = b.commandsBound) : Valid s b' := by
  cases h with
  | idle h => exact .idle ⟨h.inactive, h.tabstops, by rw [hm.1]; exact h.markers, hb.trans h.unbound⟩
  | running t h => exact .running t (h.host hm hb)

/-! ## Moving and beginning -/

theorem tabNext_of_inactive (h : s.isActive = false) (b : Buffer) (step : Int) : s.tabNext b step = (s, b) := by
  unfold tabNext
  rw [h]
  rfl

theorem valid_tabNext_of_following (h : Following s b) (hne : s.tabstops ≠ []) (step : Int) :
    Valid (s.tabNext b step).1 (s.tabNext b step).2 := by
  obtain ⟨t, selections, completions, -, hrun, he⟩ := tabNext_eq h hne step
  rw [he]
  split
  · exact .idle (idle_detach hrun.toFollowing)
  · exact .running t hrun

theorem valid_tabNext (h : Valid s b) (step : Int) : Valid (s.tabNext b step).1 (s.tabNext b step).2 := by
  cases h with
  | idle h =>
    rw [tabNext_of_inactive h.inactive]
    exact .idle h
  | running t h =>
    refine valid_tabNext_of_following h.toFollowing (fun hnil => ?_) step
    have := h.getElem
    rw [hnil] at this
    cases this

end Session

namespace SnippetInserter

open Session (Valid Following)

variable {i : SnippetInserter} {b : Buffer}

/-- Where the tabstops of a snippet are added. -/
def started (i : SnippetInserter) (b : Buffer) : Session × Buffer :=
  let start := (if i.session.isActive then i.session
    else { linkMirrors := i.session.linkMirrors, vars := i.vars }).attach b
  ({ start.1 with vars := i.vars }, start.2)

theorem beginSession_started (i : SnippetInserter) (b : Buffer) (expanded : ExpandedSnippet) (origin : Position) :
    let added := (i.started b).1.addTabstops (i.started b).2 expanded.tabstops origin
    i.beginSession b expanded origin =
      ({ i with session := (added.1.tabNext added.2 1).1 }, (added.1.tabNext added.2 1).2) := rfl

theorem started_of_active (h : i.session.isActive = true) (b : Buffer) :
    i.started b = ({ i.session with vars := i.vars }, b) := by
  have hattach : i.session.attach b = (i.session, b) := if_pos h
  simp [started, h, hattach]

/-- A session that begins follows nothing yet. -/
theorem started_of_inactive (h : i.session.isActive = false) (b : Buffer) :
    i.started b = ({ linkMirrors := i.session.linkMirrors, vars := i.vars, isActive := true },
      { b with commandsBound := true }) := by
  unfold started
  rw [h]
  rfl

theorem linkMirrors_started (i : SnippetInserter) (b : Buffer) :
    (i.started b).1.linkMirrors = i.session.linkMirrors := by
  cases h : i.session.isActive with
  | true => rw [started_of_active h]
  | false => rw [started_of_inactive h]

theorem following_started (h : Valid i.session b) : Following (i.started b).1 (i.started b).2 := by
  cases h with
  | idle h =>
    have hm : b.markers = Dict.empty := by
      cases hb : b.markers with
      | mk entries => exact congrArg Dict.mk (by simpa [hb] using h.markers)
    rw [started_of_inactive h.inactive]
    exact {
      active := rfl
      bound := rfl
      occupied := fun t ht => by cases ht
      nodup := .nil
      lt := fun k hk => by cases hk
      marked := .nil hm }
  | running t h =>
    rw [started_of_active h.active]
    exact {
      active := h.active
      bound := h.bound
      occupied := h.occupied
      nodup := h.nodup
      lt := h.lt
      marked := h.marked }

theorem valid_beginSession (h : Valid i.session b) {expanded : ExpandedSnippet} (hne : expanded.tabstops ≠ [])
    (hr : ∀ g ∈ expanded.tabstops, g.ranges ≠ []) (origin : Position) :
    Valid (i.beginSession b expanded origin).1.session (i.beginSession b expanded origin).2 := by
  obtain ⟨batch, markers, nextMarker, nextKey, he, hlen, hfollow⟩ :=
    Session.addTabstops_eq (following_started h) hr origin
  rw [beginSession_started, he]
  refine Session.valid_tabNext_of_following hfollow (fun hnil => ?_) 1
  simp only [List.append_eq_nil_iff] at hnil
  rw [hnil.1.2, List.length_nil] at hlen
  exact hne (List.length_eq_zero_iff.mp hlen.symm)

theorem handle_of_inactive (h : i.session.isActive = false) (event : EditorEvent) : i.handle b event = (i, b) := by
  unfold handle
  rw [Session.handle_of_inactive h]

theorem handleChanges_of_inactive (h : i.session.isActive = false) (ds : List Delta) :
    i.handleChanges b ds = (i, b) := by
  unfold handleChanges
  rw [Session.handleAll_of_inactive h]

theorem move_of_inactive (h : i.session.isActive = false) (step : Int) : i.move b step = (i, b) := by
  unfold move
  rw [Session.tabNext_of_inactive h]

theorem valid_handleChanges (h : Valid i.session b) (ds : List Delta) :
    Valid (i.handleChanges b ds).1.session (i.handleChanges b ds).2 :=
  Session.valid_handleAll _ h

theorem valid_handle (h : Valid i.session b) (event : EditorEvent) :
    Valid (i.handle b event).1.session (i.handle b event).2 :=
  Session.valid_handle h event

theorem valid_replace (h : Valid i.session b) (r : Range) (text : String) :
    Valid i.session (b.replace r text).1 := by
  obtain ⟨lines, selections, he⟩ := Session.replace_eq b r text
  rw [he]
  exact h.host ⟨rfl, rfl⟩ rfl

theorem insert_eq (i : SnippetInserter) (b : Buffer) (source : String) (options : InsertOptions) :
    (i.insert b source options).2 =
      let expanded := expandSnippet i.vars b.context options source
      if options.dryRun then (i, b)
      else
        let replaced := b.replace b.selection.toRange expanded.text
        let heard := i.handleChanges replaced.1 replaced.2
        heard.1.beginSession heard.2 expanded b.selection.toRange.start := by
  have hr : ∀ r text, Editor.replace b r text = b.replace r text := fun _ _ => rfl
  have hs : Editor.selection b = b.selection := rfl
  have hc : Editor.context b = b.context := rfl
  unfold insert
  rw [hs, hc]
  generalize expandSnippet i.vars b.context options source = expanded
  dsimp only
  rw [hr]
  split
  · rfl
  · generalize b.replace b.selection.toRange expanded.text = replaced
    obtain ⟨b', ds⟩ := replaced
    rfl

theorem valid_insert (h : Valid i.session b) (source : String) (options : InsertOptions) :
    Valid (i.insert b source options).2.1.session (i.insert b source options).2.2 := by
  rw [insert_eq]
  dsimp only
  split
  · exact h
  · exact valid_beginSession (valid_handleChanges (valid_replace h _ _) _)
      (tabstops_expandSnippet_ne_nil _ _ _ _) (fun g hg => (group_expandSnippet _ _ _ _ hg).ne_nil) _

theorem expandMatch_eq (i : SnippetInserter) (b : Buffer) (m : TriggerMatch) (options : InsertOptions) :
    i.expandMatch b m options =
      let start : Position := ⟨b.cursor.row, b.cursor.column - m.replaceBefore.length⟩
      let stop : Position := ⟨b.cursor.row, b.cursor.column + m.replaceAfter.length⟩
      let replaced := b.replace (.between start stop) ""
      let heard := i.handleChanges replaced.1 replaced.2
      let inserted := ({ heard.1 with vars := heard.1.vars.setCaptures m.beforeCaptures m.afterCaptures }).insert
        (heard.2.setSelections [.cursor start]) m.snippet.content options
      ({ inserted.2.1 with vars := inserted.2.1.vars.clearCaptures }, inserted.2.2) := by
  have hr : ∀ r text, Editor.replace b r text = b.replace r text := fun _ _ => rfl
  have hc : (Editor.context b).cursor = b.cursor := rfl
  unfold expandMatch
  rw [hc]
  dsimp only
  rw [hr]
  generalize b.replace _ "" = replaced
  obtain ⟨b', ds⟩ := replaced
  dsimp only
  generalize i.handleChanges b' ds = heard
  obtain ⟨i', b''⟩ := heard
  have hsel : ∀ ss, Editor.setSelections b'' ss = b''.setSelections ss := fun _ => rfl
  dsimp only
  rw [hsel]

theorem valid_expandMatch (h : Valid i.session b) (m : TriggerMatch) (options : InsertOptions) :
    Valid (i.expandMatch b m options).1.session (i.expandMatch b m options).2 := by
  rw [expandMatch_eq]
  dsimp only
  generalize Range.between _ _ = triggers
  have hheard := valid_handleChanges (valid_replace h triggers "") (b.replace triggers "").2
  generalize i.handleChanges (b.replace triggers "").1 (b.replace triggers "").2 = heard at hheard ⊢
  refine valid_insert ?_ _ _
  obtain ⟨selections, he⟩ := Session.setSelections_eq heard.2
    [.cursor ⟨b.cursor.row, b.cursor.column - m.replaceBefore.length⟩]
  rw [he]
  exact hheard.host ⟨rfl, rfl⟩ rfl

theorem expandTrigger_cases (i : SnippetInserter) (b : Buffer) (options : InsertOptions) :
    (i.expandTrigger b options).2 = (i, b) ∨
      ∃ m, (i.expandTrigger b options).1 = true ∧ (i.expandTrigger b options).2 = i.expandMatch b m options := by
  unfold expandTrigger
  split
  · exact .inl rfl
  · split
    · exact .inl rfl
    · exact .inr ⟨_, rfl, rfl⟩

theorem valid_expandTrigger (h : Valid i.session b) (options : InsertOptions) :
    Valid (i.expandTrigger b options).2.1.session (i.expandTrigger b options).2.2 := by
  rcases i.expandTrigger_cases b options with he | ⟨m, -, he⟩
  · rw [he]
    exact h
  · rw [he]
    exact valid_expandMatch h m options

/-- A command expands a trigger, moves, ends the session, or does nothing. -/
theorem run_cases (i : SnippetInserter) (b : Buffer) (command : SessionCommand) :
    (i.run b command).2 = (i.expandTrigger b {}).2 ∨
      (∃ step, (i.run b command).2 = (i.expandTrigger b {}).2.1.move (i.expandTrigger b {}).2.2 step) ∨
      (∃ step, (i.run b command).2 = i.move b step) ∨
      (i.run b command).2 = ({ i with session := (i.session.detach b).1 }, (i.session.detach b).2) ∨
      (i.run b command).2 = (i, b) := by
  unfold run
  cases command with
  | next =>
    dsimp only
    split
    · exact .inl rfl
    · split
      · exact .inr (.inl ⟨1, rfl⟩)
      · exact .inl rfl
  | previous =>
    dsimp only
    split
    · exact .inr (.inr (.inl ⟨-1, rfl⟩))
    · exact .inr (.inr (.inr (.inr rfl)))
  | cancel =>
    dsimp only
    split
    · exact .inr (.inr (.inr (.inl rfl)))
    · exact .inr (.inr (.inr (.inr rfl)))

theorem valid_move (h : Valid i.session b) (step : Int) :
    Valid (i.move b step).1.session (i.move b step).2 :=
  Session.valid_tabNext h step

theorem valid_run (h : Valid i.session b) (command : SessionCommand) :
    Valid (i.run b command).2.1.session (i.run b command).2.2 := by
  rcases i.run_cases b command with he | ⟨step, he⟩ | ⟨step, he⟩ | he | he <;> rw [he]
  · exact valid_expandTrigger h {}
  · exact valid_move (valid_expandTrigger h {}) step
  · exact valid_move h step
  · exact .idle (Session.idle_of_valid_detach h)
  · exact h

end SnippetInserter

namespace Scene

open Session (Valid)

/-- What a session leaves alone when it does not run, and how it stands when it does. -/
structure Consistent (x : Scene) : Prop where
  inactive : x.1.session.isActive = false →
    x.1.session.tabstops = [] ∧ x.2.markers.entries = [] ∧ x.2.commandsBound = false
  bound : x.1.session.isActive = true → x.2.commandsBound = true
  index : x.1.session.isActive = true → x.1.session.index < x.1.session.tabstops.length
  selected : x.1.session.isActive = true →
    x.1.session.selected? = x.1.session.tabstops[x.1.session.index]?
  occupied : ∀ t ∈ x.1.session.tabstops, t.ranges ≠ []
  nodup : (x.1.session.tabstops.map (·.key) ++ x.1.session.ranges.map (·.key)).Nodup
  marked : (x.1.session.ranges.map fun r => (r.marker, r.range)).Perm
    (x.2.markers.entries.map fun e => (some e.1, e.2))
  alive : x.2.markers.keys.Nodup

theorem consistent_of_valid {x : Scene} (h : Valid x.1.session x.2) : x.Consistent := by
  cases h with
  | idle h =>
    have hranges : x.1.session.ranges = [] := by
      rw [Session.ranges, h.tabstops]
      rfl
    have hactive : x.1.session.isActive ≠ true := by simp [h.inactive]
    exact {
      inactive := fun _ => ⟨h.tabstops, h.markers, h.unbound⟩
      bound := fun ha => absurd ha hactive
      index := fun ha => absurd ha hactive
      selected := fun ha => absurd ha hactive
      occupied := by rw [h.tabstops]; exact fun t ht => by cases ht
      nodup := by rw [hranges, h.tabstops]; exact .nil
      marked := by rw [hranges, h.markers]; exact .nil
      alive := by rw [Dict.keys, h.markers]; exact .nil }
  | running t h =>
    exact {
      inactive := fun ha => by rw [h.active] at ha; cases ha
      bound := fun _ => h.bound
      index := fun _ => (List.getElem?_eq_some_iff.mp h.getElem).1
      selected := fun _ => (Session.selected?_eq h).trans h.getElem.symm
      occupied := h.occupied
      nodup := h.nodup
      marked := h.marked.perm
      alive := h.marked.nodup }

/-- The user leaves the markers and the keys of the session to it; any changes may be told. -/
structure KeepsMarkers (b : Buffer) (_ds : List Delta) (b' : Buffer) : Prop where
  markers : b'.markers = b.markers
  nextMarker : b'.nextMarker = b.nextMarker
  commandsBound : b'.commandsBound = b.commandsBound

theorem keepsMarkers_typeText (b : Buffer) (text : String) :
    KeepsMarkers b (b.typeText text).2 (b.typeText text).1 := by
  have htype : ∀ (sels : List (Nat × Selection)) (b : Buffer) (done : List (Nat × Position)),
      ∃ lines, (Buffer.typeAt text b done sels).1 = { b with lines } := by
    intro sels
    induction sels with
    | nil => exact fun b _ => ⟨b.lines, rfl⟩
    | cons e rest ih =>
      intro b done
      obtain ⟨lines, hs⟩ := Session.splice_eq b e.2.toRange text
      obtain ⟨lines', ht⟩ := ih (b.splice e.2.toRange text).1 _
      exact ⟨lines', ht.trans (by rw [hs])⟩
  obtain ⟨lines, h⟩ := htype (Buffer.typingOrder b.selections) b []
  unfold Buffer.typeText
  dsimp only
  rw [h]
  exact ⟨rfl, rfl, rfl⟩

/-- A snippet is inserted, and a text is typed where it puts the cursor. -/
def insertAndType (x : Scene) (source text : String) : Scene :=
  let y := (x.1.insert x.2 source {}).2
  y.1.handleChanges (y.2.typeText text).1 (y.2.typeText text).2

theorem runs_insertAndType (x : Scene) (source text : String) :
    Runs KeepsMarkers x (x.insertAndType source text) := by
  obtain ⟨i, b⟩ := x
  have hinsert : Step KeepsMarkers (i, b) (i.insert b source {}).2 := .insert source {}
  unfold insertAndType
  dsimp only
  generalize (i.insert b source {}).2 = y at hinsert ⊢
  exact (Relation.ReflTransGen.single hinsert).tail (.edit (keepsMarkers_typeText y.2 text))

theorem valid_of_step {edits : Buffer → List Delta → Buffer → Prop}
    (hedits : ∀ {b ds b'}, edits b ds b' → KeepsMarkers b ds b') {x y : Scene} (hs : Step edits x y)
    (h : Valid x.1.session x.2) : Valid y.1.session y.2 := by
  cases hs with
  | insert source options => exact SnippetInserter.valid_insert h source options
  | expandTrigger options => exact SnippetInserter.valid_expandTrigger h options
  | run command => exact SnippetInserter.valid_run h command
  | changeSelection => exact SnippetInserter.valid_handle h .changeSelection
  | changeDocument => exact SnippetInserter.valid_handle h .changeDocument
  | afterCommand readOnly => exact SnippetInserter.valid_handle h (.afterCommand readOnly)
  | edit he =>
    obtain ⟨hm, hn, hb⟩ := hedits he
    exact SnippetInserter.valid_handleChanges (h.host ⟨hm, hn⟩ hb) _
  | configure store vars => exact h

theorem valid_of_initial {x : Scene} (h : Initial x) : Valid x.1.session x.2 := by
  obtain ⟨vars, linkMirrors, hs⟩ := h.session
  rw [hs]
  exact .idle ⟨rfl, rfl, by rw [h.markers]; rfl, h.unbound⟩

/-- However an inserter and its buffer have come to be as they are, they agree on the session. -/
theorem consistent_of_runs {x y : Scene} (hx : Initial x) (h : Runs KeepsMarkers x y) : y.Consistent :=
  consistent_of_valid (h.invariant (P := fun x => Valid x.1.session x.2)
    (fun hs hv => valid_of_step id hs hv) (valid_of_initial hx))

/-- A tabstop is typed into while the session runs. -/
theorem consistent_of_runs_typed :
    let start : Scene := (SnippetInserter.create { clock := ⟨2024, 3, 5, 7, 8, 9⟩ }, {})
    let told := (start.insertAndType "a${1:x}b$1" "yz")
    Initial start ∧ told.1.session.isActive = true ∧ Consistent told := by
  intro start told
  have hstart : Initial start := ⟨⟨_, _, rfl⟩, rfl, rfl⟩
  exact ⟨hstart, by decide +kernel, consistent_of_runs hstart (start.runs_insertAndType "a${1:x}b$1" "yz")⟩

end Scene

end Scribe
