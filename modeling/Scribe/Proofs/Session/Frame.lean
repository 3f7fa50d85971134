import Scribe.Proofs.Buffer.Outside
import Scribe.Proofs.Session.Rewrite

/-!
# What a rewriting leaves alone

While one range of the selected tabstop is written, the ranges of that tabstop that are apart from it read the
same and stay apart from it, and so does the text outside of its linked ranges.
-/

namespace Scribe

namespace Tabstop

/-- The tabstop with its ranges elsewhere. -/
def place (t : Tabstop) (f : TrackedRange → Range) : Tabstop :=
  { t with ranges := t.ranges.map fun r => { r with range := f r } }

/-- The linked ranges. -/
def linkedRanges (t : Tabstop) : List Range := (t.ranges.filter (·.linked)).map (·.range)

variable {t : Tabstop} {f : TrackedRange → Range}

theorem place_self (t : Tabstop) : t.place (·.range) = t := by
  have : (t.ranges.map fun r => { r with range := r.range }) = t.ranges := List.map_id _
  unfold place
  rw [this]

theorem mem_place {r' : TrackedRange} : r' ∈ (t.place f).ranges ↔ ∃ r ∈ t.ranges, { r with range := f r } = r' :=
  List.mem_map

theorem mem_place_of_mem {r : TrackedRange} (hr : r ∈ t.ranges) : { r with range := f r } ∈ (t.place f).ranges :=
  mem_place.mpr ⟨r, hr, rfl⟩

theorem linked_place (t : Tabstop) (f : TrackedRange → Range) :
    (t.place f).ranges.filter (·.linked) = (t.ranges.filter (·.linked)).map fun r => { r with range := f r } :=
  List.filter_map

theorem linkedRanges_place (t : Tabstop) (f : TrackedRange → Range) :
    (t.place f).linkedRanges = (t.ranges.filter (·.linked)).map f := by
  unfold linkedRanges
  rw [linked_place, List.map_map]
  rfl

theorem primary?_place (t : Tabstop) (f : TrackedRange → Range) :
    (t.place f).primary? = t.primary?.map fun r => { r with range := f r } := by
  unfold primary? place
  rw [List.find?_map]
  rfl

theorem primary?_place_of {p : TrackedRange} (h : t.primary? = some p) :
    (t.place f).primary? = some { p with range := f p } := by
  rw [primary?_place, h]
  rfl

theorem mem_of_primary? {p : TrackedRange} (h : t.primary? = some p) : p ∈ t.ranges ∧ p.linked = false := by
  refine ⟨List.mem_of_find?_eq_some h, ?_⟩
  simpa using List.find?_some h

theorem primary_ne {p r : TrackedRange} (h : t.primary? = some p) (hl : r.linked = true) : p ≠ r := by
  rintro rfl
  rw [(mem_of_primary? h).2] at hl
  cases hl

end Tabstop

namespace Session

variable {s s' : Session} {b : Buffer} {t : Tabstop} {text₀ text text' : List Char} {m : TrackedRange}
  {f : TrackedRange → Range}

theorem shiftTabstop_place (s : Session) (d : Delta) (t : Tabstop) (f : TrackedRange → Range) :
    s.shiftTabstop s.around d (t.place f) =
      t.place fun r => (f r).shift d (s.takes d (t.place f) { r with range := f r }) := by
  rw [shiftTabstop_eq]
  unfold Tabstop.place
  rw [List.map_map]
  rfl

/-- Where the ranges of the tabstop `t`, which stood in the text `text₀`, stand while `m` is written. -/
structure Leaves (t : Tabstop) (m : TrackedRange) (text₀ : List Char) (s : Session) (text : List Char)
    (f : TrackedRange → Range) : Prop where
  running : ∃ b, Running s b (t.place f)
  placed : Placed s text
  reads : ∀ r ∈ t.ranges, r.key ≠ m.key → r.range.Apart m.range →
    (f r).Apart (f m) ∧ ∀ piece, r.range.Reads text₀ piece → (f r).Reads text piece
  apart : ∀ x ∈ t.ranges, ∀ y ∈ t.ranges, x.key ≠ m.key → y.key ≠ m.key → x.range.Apart y.range →
    (f x).Apart (f y)
  outside : outside text ((t.ranges.filter (·.linked)).map f) = outside text₀ t.linkedRanges

theorem leaves_refl (h : Running s b t) (hp : Placed s text) (m : TrackedRange) :
    Leaves t m text s text (·.range) where
  running := ⟨b, (Tabstop.place_self t).symm ▸ h⟩
  placed := hp
  reads _ _ _ hap := ⟨hap, fun _ hr => hr⟩
  apart _ _ _ _ _ _ hap := hap
  outside := rfl

theorem Leaves.on (h : Leaves t m text₀ s text f) {r : TrackedRange} (hr : r ∈ t.ranges) : (f r).On text := by
  obtain ⟨b, hrun⟩ := h.running
  exact h.placed.on _ (hrun.range_mem (Tabstop.mem_place_of_mem hr))

theorem eq_of_place_key (hrun : Running s b (t.place f)) {x y : TrackedRange} (hx : x ∈ t.ranges)
    (hy : y ∈ t.ranges) (hk : x.key = y.key) : x = y := by
  have hpair := pairwise_range_keys hrun.toFollowing (mem_tabstops hrun)
  unfold Tabstop.place at hpair
  rw [List.pairwise_map] at hpair
  exact List.inj_on_of_nodup_map (List.pairwise_map.mpr hpair) hx hy hk

/-- A change with which `m` is written. The range stands at `f m` then. -/
theorem Leaves.change (h : Leaves t m text₀ s text f) (hm : m ∈ t.ranges) {value : String}
    (hs : Rewrite m.key value (s, text) (s', text')) : ∃ d index b b',
      s' = { s with tabstops := s.changed d, index } ∧ Delta.Applies text d text' ∧ Running s b (t.place f) ∧
      Running s' b' (s.shiftTabstop s.around d (t.place f)) ∧ s.writing = some m.key ∧
      (d.action = .remove → f m = ⟨d.start, d.stop⟩) ∧
      (d.action = .insert → f m = .point d.start ∧ value ≠ "" ∧
        s.takes d (t.place f) { m with range := f m } = true ∧
        ∀ r ∈ t.ranges, r.key ≠ m.key →
          (f r).shift d (s.takes d (t.place f) { r with range := f r }) = (f r).shift d false) := by
  cases hs with
  | @mk _ b b' u m' _ _ d index hrun hrun' hm' hk hw hremove hinsert happ =>
    obtain ⟨b₀, hrun₀⟩ := h.running
    obtain rfl := hrun₀.unique hrun
    -- The range that is written is the one of this key.
    obtain ⟨x, hx, rfl⟩ := Tabstop.mem_place.mp hm'
    obtain rfl := eq_of_place_key hrun hx hm hk
    have hown := owns_selected hrun
    have hw' : s.writing = some ({ x with range := f x } : TrackedRange).key := hw
    refine ⟨d, index, b, b', rfl, happ, hrun, hrun', hw, hremove, fun hd => ?_⟩
    obtain ⟨hpoint, hne⟩ := hinsert hd
    refine ⟨hpoint, hne, takes_written hd hown hw' hm' (by rw [hpoint]; rfl), fun r hr hkr => ?_⟩
    exact shift_beside_written hd hown hw' hm' hpoint (Tabstop.mem_place_of_mem hr) hkr

/-- Each change of a rewriting leaves the rest alone. -/
theorem Leaves.rewrite (h : Leaves t m text₀ s text f) (hm : m ∈ t.ranges) (hl : m.linked = true) {value : String}
    (hs : Rewrite m.key value (s, text) (s', text')) : ∃ f', Leaves t m text₀ s' text' f' := by
  obtain ⟨d, index, b, b', rfl, happ, hrun, hrun', hw, hremove, hinsert⟩ := h.change hm hs
  rw [shiftTabstop_place] at hrun'
  have hmem := Tabstop.mem_place_of_mem (f := f) hm
  obtain ⟨hstart, hstop, hend⟩ := Range.around_written hremove fun hd => (hinsert hd).1
  refine ⟨_, ⟨b', hrun'⟩, ?_, fun r hr hne hap => ?_, fun y hy z hz hny hnz hap => ?_, ?_⟩
  · -- Only the range that is written has its key.
    refine placed_changed hrun.toFollowing h.placed happ (fun hd r hr hwr => ?_) index
    rw [hw] at hwr
    rw [hrun.range_eq hr (hrun.range_mem hmem) (Option.some.inj hwr).symm, (hinsert hd).1]
    rfl
  · obtain ⟨hap', hreads⟩ := h.reads r hr hne hap
    cases hd : d.action with
    | remove =>
      refine ⟨hap'.shift_removal happ hd (h.on hr) (h.on hm) _ _, fun piece hp => ?_⟩
      refine (hreads piece hp).shift_removal happ hd ?_ _
      rw [hremove hd] at hap'
      exact hap'
    | insert =>
      obtain ⟨hpoint, -, htakes, hbeside⟩ := hinsert hd
      rw [hbeside r hr hne, htakes]
      refine ⟨?_, fun piece hp => ?_⟩
      · exact hap'.shift_point happ hd (h.on hr) (h.on hm) hpoint
      · rw [hpoint] at hap'
        exact (hreads piece hp).shift_insertion happ hd hap'
  · have hap' := h.apart y hy z hz hny hnz hap
    cases hd : d.action with
    | remove => exact hap'.shift_removal happ hd (h.on hy) (h.on hz) _ _
    | insert =>
      obtain ⟨-, -, -, hbeside⟩ := hinsert hd
      rw [hbeside y hy hny, hbeside z hz hnz]
      rcases hap' with hle | hle
      · exact .inl (Range.stop_le_start_shift happ (h.on hy) (h.on hz) hle _ _ fun _ hf => by cases hf)
      · exact .inr (Range.stop_le_start_shift happ (h.on hz) (h.on hy) hle _ _ fun _ hf => by cases hf)
  · rw [← h.outside]
    have hlinked := List.mem_filter.mpr ⟨hm, hl⟩
    refine outside_moved (fun r hr => ?_) happ ⟨fun r' hr' => ?_, fun r hr => ?_⟩
      ⟨f m, List.mem_map_of_mem hlinked, hstart, fun hd => ⟨hstop hd, ?_⟩, hend⟩
    · obtain ⟨y, hy, rfl⟩ := List.mem_map.mp hr
      exact h.on (List.mem_filter.mp hy).1
    · obtain ⟨y, hy, rfl⟩ := List.mem_map.mp hr'
      exact ⟨f y, List.mem_map_of_mem hy, _, rfl⟩
    · obtain ⟨y, hy, rfl⟩ := List.mem_map.mp hr
      exact .inl ⟨_, List.mem_map.mpr ⟨y, hy, rfl⟩⟩
    · obtain ⟨-, -, htakes, -⟩ := hinsert hd
      exact List.mem_map.mpr ⟨m, hlinked, by rw [htakes]⟩

/-- What holds before a range is written and is kept by each change of the rewriting holds afterwards. -/
theorem Leaves.rewrites {I : Session → List Char → Prop} (hm : m ∈ t.ranges) (hl : m.linked = true) {value : String}
    (hI : ∀ {s s' : Session} {text text' : List Char} {f : TrackedRange → Range}, Leaves t m text₀ s text f →
      Rewrite m.key value (s, text) (s', text') → I s text → I s' text')
    {x y : Session × List Char} (hs : Relation.ReflTransGen (Rewrite m.key value) x y)
    (h : Leaves t m text₀ x.1 x.2 f) (hi : I x.1 x.2) : (∃ f', Leaves t m text₀ y.1 y.2 f') ∧ I y.1 y.2 := by
  induction hs with
  | refl => exact ⟨⟨f, h⟩, hi⟩
  | tail _ hstep ih =>
    obtain ⟨⟨f', h'⟩, hi'⟩ := ih
    exact ⟨h'.rewrite hm hl hstep, hI h' hstep hi'⟩

theorem Leaves.set (h : Leaves t m text₀ s text f) (writing : Option Nat) :
    Leaves t m text₀ { s with writing } text f where
  running := by
    obtain ⟨b, hrun⟩ := h.running
    exact ⟨b, hrun.set s.vars s.inChange writing⟩
  placed := ⟨h.placed.on, h.placed.apart⟩
  reads := h.reads
  apart := h.apart
  outside := h.outside

/-- Writing a linked range of the selected tabstop gives it its text and leaves the rest alone. -/
theorem writeMirror_leaves {I : Session → List Char → Prop} (h : Running s b t) (hc : s.inChange = true)
    (hw : s.writing = none) (hb : b.Sound) (hp : Placed s b.chars) (hm : m ∈ t.ranges) (hl : m.linked = true)
    (source : String) (transform : Option Transform)
    (hI : ∀ {s₁ s₂ : Session} {text₁ text₂ : List Char} {f : TrackedRange → Range}, Leaves t m b.chars s₁ text₁ f →
      Rewrite m.key (s.mirrored b.context source transform) (s₁, text₁) (s₂, text₂) → I s₁ text₁ → I s₂ text₂)
    (hset : ∀ {s : Session} {text : List Char} (writing : Option Nat), I s text → I { s with writing } text)
    (hi : I s b.chars) : ∃ tabstops index lines selections markers g,
      s.writeMirror b source m.key transform =
        ({ s with tabstops, index }, { b with lines, selections, markers }) ∧
      Running { s with tabstops, index } { b with lines, selections, markers } (t.place g) ∧
      ({ b with lines, selections, markers } : Buffer).Sound ∧
      Leaves t m b.chars { s with tabstops, index } ({ b with lines, selections, markers } : Buffer).chars g ∧
      (g m).Reads ({ b with lines, selections, markers } : Buffer).chars
        (s.mirrored b.context source transform).toList ∧
      I { s with tabstops, index } ({ b with lines, selections, markers } : Buffer).chars := by
  have hmem := h.range_mem hm
  obtain ⟨tabstops, index, lines, selections, markers, t', r', he, hrun, hsound, hsteps, hr', hk', hreads⟩ :=
    writeMirror_rewrite h hc hw hb hm (hp.on m hmem) source transform
  have hplaced : Placed { s with writing := some m.key } b.chars := ⟨hp.on, hp.apart⟩
  have hleaves := leaves_refl (h.set s.vars s.inChange (some m.key)) hplaced m
  obtain ⟨⟨g, hg⟩, hi'⟩ := hleaves.rewrites hm hl hI hsteps (hset (some m.key) hi)
  have hg' := hg.set s.writing
  obtain ⟨b', hrun'⟩ := hg'.running
  obtain rfl := hrun.unique hrun'
  -- The range with the key is the one that was to be written.
  obtain ⟨x, hx, rfl⟩ := Tabstop.mem_place.mp hr'
  obtain rfl := eq_of_place_key hrun hx hm hk'
  exact ⟨tabstops, index, lines, selections, markers, g, he, hrun, hsound, hg', hreads, hset s.writing hi'⟩

end Session

end Scribe
