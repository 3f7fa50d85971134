import Scribe.Proofs.Session.Lifecycle

/-!
# Losing tabstops

While a session hears changes and writes its linked ranges it may lose tabstops. Those that are left keep their order,
and the same one stays selected.
-/

namespace Scribe

namespace Session

/-- The keys and the numbers of the tabstops. -/
def names (s : Session) : List (Nat × Nat) := s.tabstops.map fun t => (t.key, t.id)

/-- Some tabstops may have gone. -/
structure Thinned (s s' : Session) : Prop where
  names : s'.names.Sublist s.names
  selectedKey : s'.selectedKey = s.selectedKey
  nextKey : s'.nextKey = s.nextKey

variable {s s' s'' : Session} {b : Buffer} {t : Tabstop}

theorem Thinned.refl (s : Session) : Thinned s s := ⟨.refl _, rfl, rfl⟩

theorem Thinned.trans (h : Thinned s s') (h' : Thinned s' s'') : Thinned s s'' :=
  ⟨h'.names.trans h.names, h'.selectedKey.trans h.selectedKey, h'.nextKey.trans h.nextKey⟩

theorem nodup_names (h : Following s b) : (s.names.map (·.1)).Nodup := by
  have := (List.nodup_append.mp h.nodup).1
  simpa [names, Function.comp_def] using this

/-! ## Changes -/

theorem thinned_changed (s : Session) (d : Delta) (index : Nat) :
    Thinned s { s with tabstops := s.changed d, index } := by
  refine ⟨?_, rfl, rfl⟩
  let kept := (s.tabstops.map (s.shiftTabstop s.around d)).map fun t =>
    { t with ranges := t.ranges.filter fun r => decide (r.key ∉ s.dropped d) }
  have hsub : (kept.filter (!·.ranges.isEmpty)).Sublist kept := List.filter_sublist
  have hkept : kept.map (fun t => (t.key, t.id)) = s.names := by
    simp [kept, names, shiftTabstop, Function.comp_def]
  have := hsub.map fun t => (t.key, t.id)
  rwa [hkept] at this

theorem thinned_onChange (h : Running s b t) (d : Delta) (ha : (s.onChange b d).1.isActive = true) :
    Thinned s (s.onChange b d).1 := by
  obtain ⟨index, markers, -, he⟩ := onChange_eq h d
  rw [he] at ha ⊢
  split at ha
  · rw [isActive_detach] at ha
    cases ha
  · rw [if_neg ‹_›]
    exact s.thinned_changed d index

theorem thinned_onChanges : ∀ (ds : List Delta) {s : Session} {b : Buffer} {t : Tabstop}, Running s b t →
    s.inChange = true → Thinned s (s.onChanges b ds).1
  | [], s, _, _, _, _ => .refl s
  | d :: ds, s, b, t, h, hc => by
    obtain ⟨index, markers, he, hrun⟩ := onChange_writing h hc d
    rw [onChanges_cons, he]
    exact (s.thinned_changed d index).trans (thinned_onChanges ds hrun hc)

theorem thinned_writeMirror (h : Running s b t) (hc : s.inChange = true) (text : String) (key : Nat)
    (transform : Option Transform) : Thinned s (s.writeMirror b text key transform).1 := by
  rw [writeMirror_eq]
  cases s.range? key with
  | none => exact .refl s
  | some r =>
    dsimp only
    split
    · exact .refl s
    · obtain ⟨lines, selections, hb⟩ := replace_eq b r.range (s.mirrored b.context text transform)
      have hrun : Running { s with writing := some key } { b with lines, selections } t :=
        (h.set s.vars s.inChange (some key)).host ⟨rfl, rfl⟩ rfl
      have hthin := thinned_onChanges (b.replace r.range (s.mirrored b.context text transform)).2 hrun hc
      rw [← hb] at hthin
      generalize Session.onChanges (σ := Buffer) _ _ _ = result at hthin ⊢
      refine ⟨?_, hthin.selectedKey, hthin.nextKey⟩
      have hnames := hthin.names
      simpa [names, placeRange, mapRanges, Function.comp_def] using hnames

theorem thinned_writeMirrors (text : String) : ∀ (rs : List TrackedRange) {s : Session} {b : Buffer} {t : Tabstop},
    Running s b t → s.inChange = true → Thinned s (s.writeMirrors b text rs).1
  | [], s, _, _, _, _ => .refl s
  | r :: rest, s, b, t, h, hc => by
    obtain ⟨t', hrun, hc'⟩ := running_writeMirror h hc text r.key r.transform
    rw [writeMirrors_cons]
    exact (thinned_writeMirror h hc text r.key r.transform).trans (thinned_writeMirrors text rest hrun hc')

theorem thinned_updateLinked (h : Running s b t) : Thinned s (s.updateLinked b).1 := by
  unfold updateLinked
  rw [selected?_eq h]
  dsimp only
  split
  · exact .refl s
  · exact .refl s
  · rename_i primary _ _
    have hthin := thinned_writeMirrors (b.textRange primary.range) (t.ranges.filter (·.linked))
      (h.set s.vars true s.writing) rfl
    exact ⟨hthin.names, hthin.selectedKey, hthin.nextKey⟩

/-- What a running session hears it outlives with some of its tabstops, or it ends. -/
theorem thinned_handle (h : Running s b t) (event : EditorEvent) (ha : (s.handle b event).1.isActive = true) :
    Thinned s (s.handle b event).1 := by
  rw [handle_of_active h.active] at ha ⊢
  cases event with
  | change d => exact thinned_onChange h d ha
  | changeSelection =>
    dsimp only [onChangeSelection] at ha ⊢
    split at ha
    · rw [if_pos ‹_›]
      exact .refl s
    · rw [isActive_detach] at ha
      cases ha
  | changeDocument =>
    dsimp only at ha
    rw [isActive_detach] at ha
    cases ha
  | afterCommand readOnly =>
    dsimp only at ha ⊢
    split
    · exact .refl s
    · exact thinned_updateLinked h

/-! ## Losing a tabstop -/

theorem mem_dropped_iff (h : Following s b) {u : Tabstop} (hu : u ∈ s.tabstops) (hk : s.selectedKey ≠ some u.key)
    {r : TrackedRange} (hr : r ∈ u.ranges) (d : Delta) : r.key ∈ s.dropped d ↔
      d.action = .remove ∧ isSwallowed d.range (s.around.contains u.key) r.range = true := by
  unfold dropped
  rw [List.mem_flatMap]
  constructor
  · rintro ⟨u', hu', hmem⟩
    unfold swallowed at hmem
    split at hmem
    · rename_i hcond
      obtain ⟨r', hr', he⟩ := List.mem_map.mp hmem
      obtain ⟨hr', hin⟩ := List.mem_filter.mp hr'
      obtain rfl := h.tabstop_eq hu hu' hr hr' he
      obtain rfl := h.range_eq (mem_ranges.mpr ⟨u', hu', hr'⟩) (mem_ranges.mpr ⟨u', hu, hr⟩) he
      exact ⟨hcond.1, hin⟩
    · cases hmem
  · rintro ⟨hremove, hin⟩
    refine ⟨u, hu, ?_⟩
    unfold swallowed
    rw [if_pos ⟨hremove, hk⟩]
    exact List.mem_map_of_mem (List.mem_filter.mpr ⟨hr, hin⟩)

/-- A tabstop that is not selected stays as long as the change leaves it a range. -/
theorem mem_changed_iff (h : Following s b) {u : Tabstop} (hu : u ∈ s.tabstops) (hk : s.selectedKey ≠ some u.key)
    (d : Delta) : (∃ u' ∈ s.changed d, u'.key = u.key) ↔
      ∃ r ∈ u.ranges, ¬ (d.action = .remove ∧ isSwallowed d.range (s.around.contains u.key) r.range = true) := by
  have hkeep : (∃ u' ∈ s.changed d, u'.key = u.key) ↔ ∃ r ∈ u.ranges, r.key ∉ s.dropped d := by
    constructor
    · rintro ⟨u', hu', he⟩
      obtain ⟨hu', hsome⟩ := List.mem_filter.mp hu'
      obtain ⟨moved, hmoved, rfl⟩ := List.mem_map.mp hu'
      obtain ⟨v, hv, rfl⟩ := List.mem_map.mp hmoved
      obtain rfl := h.tabstop_eq_of_key hv hu he
      simpa [shiftTabstop, TrackedRange.shift] using hsome
    · rintro ⟨r, hr, hkeep⟩
      refine ⟨_, List.mem_filter.mpr ⟨List.mem_map_of_mem (List.mem_map_of_mem hu), ?_⟩, rfl⟩
      simpa [shiftTabstop, TrackedRange.shift] using ⟨r, hr, hkeep⟩
  rw [hkeep]
  exact exists_congr fun r => and_congr_right fun hr => not_congr (mem_dropped_iff h hu hk hr d)

end Session

end Scribe
