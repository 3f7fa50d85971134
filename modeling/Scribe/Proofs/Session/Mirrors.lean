import Scribe.Proofs.Session.Moves

/-!
# Writing linked ranges

A linked range is written by replacing its text. The session hears the changes, stays as it is but for the
tabstops, and puts the range around the new text.
-/

namespace Scribe

namespace Session

variable {s : Session} {b : Buffer} {t : Tabstop}

/-! ## Changes while ranges are written -/

/-- While ranges are written a change does not end the session. -/
theorem onChange_writing (h : Running s b t) (hc : s.inChange = true) (d : Delta) : ∃ index markers,
    s.onChange b d = ({ s with tabstops := s.changed d, index }, { b with markers }) ∧
      Running { s with tabstops := s.changed d, index } { b with markers } (s.shiftTabstop s.around d t) := by
  obtain ⟨index, markers, hrun, he⟩ := onChange_eq h d
  refine ⟨index, markers, ?_, hrun⟩
  rw [he, hc]
  rfl

theorem onChanges_cons (s : Session) (b : Buffer) (d : Delta) (ds : List Delta) :
    s.onChanges b (d :: ds) = (s.onChange b d).1.onChanges (s.onChange b d).2 ds := rfl

theorem onChanges_writing : ∀ (ds : List Delta) {s : Session} {b : Buffer} {t : Tabstop}, Running s b t →
    s.inChange = true → ∃ tabstops index markers t',
      s.onChanges b ds = ({ s with tabstops, index }, { b with markers }) ∧
        Running { s with tabstops, index } { b with markers } t'
  | [], s, b, t, h, _ => ⟨s.tabstops, s.index, b.markers, t, rfl, h⟩
  | d :: ds, s, b, t, h, hc => by
    obtain ⟨index, markers, he, hrun⟩ := onChange_writing h hc d
    obtain ⟨tabstops', index', markers', t', he', hrun'⟩ := onChanges_writing ds hrun hc
    refine ⟨tabstops', index', markers', t', ?_, hrun'⟩
    rw [onChanges_cons, he]
    exact he'

/-! ## Placing a range -/

/-- The range of this key put elsewhere, with its marker. -/
def placeRange (s : Session) (b : Buffer) (key : Nat) (range : Range) : Session × Buffer :=
  (s.mapRanges fun r => if r.key = key then { r with range } else r,
    match (s.range? key).bind (·.marker) with
    | some marker => Editor.updateMarker b marker range
    | none => b)

theorem ranges_mapRanges (s : Session) (f : TrackedRange → TrackedRange) :
    (s.mapRanges f).ranges = s.ranges.map f := by
  simp [mapRanges, ranges, List.flatMap_map, List.map_flatMap]

theorem keys_mapRanges (s : Session) {f : TrackedRange → TrackedRange} (hf : ∀ r, (f r).key = r.key) :
    (s.mapRanges f).keys = s.keys := by
  unfold keys
  rw [ranges_mapRanges, List.map_map]
  congr 1
  · simp [mapRanges]
  · exact List.map_congr_left fun r _ => hf r

theorem marked_placeRange (h : Following s b) (key : Nat) (range : Range) :
    ∃ markers, (s.placeRange b key range).2 = { b with markers } ∧
      Marked { b with markers } (s.ranges.map fun r => if r.key = key then { r with range } else r) := by
  unfold placeRange
  dsimp only
  cases hr : s.range? key with
  | none =>
    have hsame : (s.ranges.map fun r => if r.key = key then { r with range } else r) = s.ranges := by
      refine (List.map_congr_left fun r hr' => ?_).trans (List.map_id _)
      have hne : ¬ r.key = key := by simpa using List.find?_eq_none.mp hr r hr'
      rw [if_neg hne]
      rfl
    refine ⟨b.markers, rfl, ?_⟩
    rw [hsame]
    exact h.marked
  | some r =>
    have hkey : r.key = key := by simpa using List.find?_some hr
    obtain ⟨id, -, hid⟩ := h.marked.exists_marker (List.mem_of_find?_eq_some hr)
    obtain ⟨before, after, hsplit⟩ := List.append_of_mem (List.mem_of_find?_eq_some hr)
    -- No other range has the key.
    have hnodup := h.nodup_ranges
    rw [hsplit, List.map_append, List.map_cons] at hnodup
    have hother := (List.nodup_cons.mp (List.nodup_middle.mp hnodup)).1
    have hsame : ∀ xs : List TrackedRange, (∀ x ∈ xs, x ∈ before ++ after) →
        (xs.map fun r => if r.key = key then { r with range } else r) = xs := by
      intro xs hxs
      refine (List.map_congr_left fun x hx => ?_).trans (List.map_id _)
      have hne : ¬ x.key = key := by
        intro he
        rw [← hkey] at he
        refine hother ?_
        rw [← List.map_append]
        exact List.mem_map.mpr ⟨x, hxs x hx, he⟩
      rw [if_neg hne]
      rfl
    have hmarked := h.marked
    rw [hsplit] at hmarked ⊢
    rw [List.map_append, List.map_cons, hsame before fun x hx => List.mem_append_left _ hx,
      hsame after fun x hx => List.mem_append_right _ hx, if_pos hkey, Option.bind_some]
    have hid' : ({ r with range } : TrackedRange).marker = some id := hid
    have hupdate := hmarked.update hid hid'
    rw [hid] at hupdate ⊢
    exact ⟨_, rfl, hupdate⟩

theorem running_placeRange (h : Running s b t) (key : Nat) (range : Range) :
    ∃ markers, (s.placeRange b key range).2 = { b with markers } ∧
      Running (s.placeRange b key range).1 { b with markers }
        { t with ranges := t.ranges.map fun r => if r.key = key then { r with range } else r } := by
  obtain ⟨markers, he, hm⟩ := marked_placeRange h.toFollowing key range
  have hkeys : (s.placeRange b key range).1.keys = s.keys :=
    s.keys_mapRanges fun r => by split <;> rfl
  refine ⟨markers, he, ?_⟩
  exact {
    active := h.active
    bound := h.bound
    occupied := fun t' ht' => by
      obtain ⟨t, ht, rfl⟩ := List.mem_map.mp ht'
      simpa using h.occupied t ht
    nodup := hkeys ▸ h.nodup
    lt := hkeys ▸ h.lt
    marked := by
      rw [placeRange, ranges_mapRanges]
      exact hm
    getElem := by
      show (List.map _ s.tabstops)[s.index]? = _
      rw [List.getElem?_map, h.getElem]
      rfl
    selectedKey := h.selectedKey }

/-! ## Writing a range -/

/-- What a linked range reads once it is written. -/
def mirrored (s : Session) (ctx : EditContext) (text : String) (transform : Option Transform) : String :=
  match transform with
  | some t => s.vars.transform ctx t text
  | none => text

theorem writeMirror_eq (s : Session) (b : Buffer) (text : String) (key : Nat) (transform : Option Transform) :
    s.writeMirror b text key transform =
      match s.range? key with
      | none => (s, b)
      | some r =>
        let value := s.mirrored b.context text transform
        if b.textRange r.range = value then (s, b)
        else
          let result :=
            { s with writing := some key }.onChanges (b.replace r.range value).1 (b.replace r.range value).2
          let placed := result.1.placeRange result.2 key
            (Range.between r.range.start (r.range.start.advance value.toList))
          ({ placed.1 with writing := none }, placed.2) := rfl

theorem splice_eq (b : Buffer) (r : Range) (text : String) : ∃ lines, (b.splice r text).1 = { b with lines } := by
  unfold Buffer.splice
  dsimp only
  split <;> split <;> exact ⟨_, rfl⟩

theorem replace_eq (b : Buffer) (r : Range) (text : String) :
    ∃ lines selections, (b.replace r text).1 = { b with lines, selections } := by
  obtain ⟨lines, h⟩ := splice_eq b r text
  unfold Buffer.replace
  dsimp only
  rw [h]
  exact ⟨lines, _, rfl⟩

/-- Where the session writes and what it knows besides its tabstops makes no difference to whether it runs. -/
theorem Running.set (h : Running s b t) (vars : Variables) (inChange : Bool) (writing : Option Nat) :
    Running { s with vars, inChange, writing } b t :=
  { h with }

theorem Running.host (h : Running s b t) {b' : Buffer} (hm : SameMarkers b b')
    (hb : b'.commandsBound = b.commandsBound) : Running s b' t :=
  { h with bound := hb.trans h.bound, marked := h.marked.same hm }

theorem running_writeMirror (h : Running s b t) (hc : s.inChange = true) (text : String) (key : Nat)
    (transform : Option Transform) : ∃ t', Running (s.writeMirror b text key transform).1
      (s.writeMirror b text key transform).2 t' ∧ (s.writeMirror b text key transform).1.inChange = true := by
  rw [writeMirror_eq]
  cases s.range? key with
  | none => exact ⟨t, h, hc⟩
  | some r =>
    dsimp only
    split
    · exact ⟨t, h, hc⟩
    · obtain ⟨lines, selections, hb⟩ := replace_eq b r.range (s.mirrored b.context text transform)
      rw [hb]
      have hrun : Running { s with writing := some key } { b with lines, selections } t :=
        (h.set s.vars s.inChange (some key)).host ⟨rfl, rfl⟩ rfl
      obtain ⟨tabstops, index, markers, t', he, hrun'⟩ := onChanges_writing
        (b.replace r.range (s.mirrored b.context text transform)).2 hrun hc
      rw [he]
      obtain ⟨markers', hp, hrun''⟩ := running_placeRange hrun' key
        (Range.between r.range.start (r.range.start.advance (s.mirrored b.context text transform).toList))
      rw [hp]
      exact ⟨_, hrun''.set _ _ none, hc⟩

theorem writeMirrors_cons (s : Session) (b : Buffer) (text : String) (r : TrackedRange) (rest : List TrackedRange) :
    s.writeMirrors b text (r :: rest) =
      (s.writeMirror b text r.key r.transform).1.writeMirrors (s.writeMirror b text r.key r.transform).2 text
        rest := rfl

theorem running_writeMirrors (text : String) : ∀ (rs : List TrackedRange) {s : Session} {b : Buffer} {t : Tabstop},
    Running s b t → s.inChange = true →
    ∃ t', Running (s.writeMirrors b text rs).1 (s.writeMirrors b text rs).2 t'
  | [], _, _, t, h, _ => ⟨t, h⟩
  | r :: rest, s, b, _, h, hc => by
    obtain ⟨t', hrun, hc'⟩ := running_writeMirror h hc text r.key r.transform
    rw [writeMirrors_cons]
    exact running_writeMirrors text rest hrun hc'

theorem running_updateLinked (h : Running s b t) : ∃ t', Running (s.updateLinked b).1 (s.updateLinked b).2 t' := by
  unfold updateLinked
  rw [selected?_eq h]
  dsimp only
  split
  · exact ⟨t, h⟩
  · exact ⟨t, h⟩
  · obtain ⟨t', hrun⟩ := running_writeMirrors _ _ (h.set s.vars true s.writing) rfl
    exact ⟨t', hrun.set _ false _⟩

end Session

end Scribe
