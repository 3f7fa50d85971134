import Scribe.Proofs.Buffer.Sound
import Scribe.Proofs.Session.Edges
import Scribe.Proofs.Session.Mirrors
import Mathlib.Logic.Relation

/-!
# Rewriting linked ranges

The ranges that are followed are ranges of the text, and the linked ones of a tabstop are apart. Writing one of
them takes at most two changes, the removal of what it reads and the insertion of what it shall read.
-/

namespace Scribe

open Position (place)

namespace Session

variable {s : Session} {b : Buffer} {t : Tabstop} {d : Delta} {text text' : List Char}

/-! ## Placed ranges -/

/-- The ranges that are followed are in the text, and the linked ones of a tabstop are apart. -/
structure Placed (s : Session) (text : List Char) : Prop where
  on : ∀ r ∈ s.ranges, r.range.On text
  apart : ∀ t ∈ s.tabstops, (t.ranges.filter (·.linked)).Pairwise fun x y => x.range.Apart y.range

/-- A tabstop after a change is one from before it, with its ranges moved and some of them dropped. -/
theorem mem_changed {u' : Tabstop} (hu : u' ∈ s.changed d) : ∃ u ∈ s.tabstops, u'.key = u.key ∧
    u'.parents = u.parents ∧ u'.ranges.Sublist (u.ranges.map fun r => r.shift d (s.takes d u r)) := by
  obtain ⟨v, hv, rfl⟩ := List.mem_map.mp (List.mem_filter.mp hu).1
  obtain ⟨u, hu₀, rfl⟩ := List.mem_map.mp hv
  exact ⟨u, hu₀, rfl, rfl, List.filter_sublist⟩

theorem mem_ranges_changed {index : Nat} {r' : TrackedRange}
    (hr : r' ∈ ({ s with tabstops := s.changed d, index } : Session).ranges) :
    ∃ u ∈ s.tabstops, ∃ r ∈ u.ranges, r' = r.shift d (s.takes d u r) := by
  obtain ⟨u', hu', hr⟩ := mem_ranges.mp hr
  obtain ⟨u, hu, -, -, hsub⟩ := mem_changed hu'
  obtain ⟨r, hr₀, rfl⟩ := List.mem_map.mp (hsub.subset hr)
  exact ⟨u, hu, r, hr₀, rfl⟩

theorem pairwise_range_keys (h : Following s b) {u : Tabstop} (hu : u ∈ s.tabstops) :
    u.ranges.Pairwise fun x y => x.key ≠ y.key := by
  have hnodup := h.nodup_ranges
  rw [ranges, List.map_flatMap, List.nodup_flatMap] at hnodup
  exact List.pairwise_map.mp (hnodup.1 u hu)

/-- A change of the text leaves the ranges placed, if a range that is being written is empty when it gets its
text. -/
theorem placed_changed (h : Following s b) (hp : Placed s text) (happ : Delta.Applies text d text')
    (hwrite : d.action = .insert → ∀ r ∈ s.ranges, s.writing = some r.key → r.range.start = r.range.stop)
    (index : Nat) : Placed { s with tabstops := s.changed d, index } text' where
  on r' hr' := by
    obtain ⟨u, hu, r, hr, rfl⟩ := mem_ranges_changed hr'
    exact (hp.on r (mem_ranges.mpr ⟨u, hu, hr⟩)).shift happ _
  apart u' hu' := by
    obtain ⟨u, hu, -, -, hsub⟩ := mem_changed hu'
    refine List.Pairwise.sublist (hsub.filter _) ?_
    have hlinked : (u.ranges.map fun r => r.shift d (s.takes d u r)).filter (·.linked) =
        (u.ranges.filter (·.linked)).map fun r => r.shift d (s.takes d u r) := List.filter_map
    rw [hlinked, List.pairwise_map]
    have hpair := (hp.apart u hu).and ((pairwise_range_keys h hu).filter (·.linked))
    refine hpair.imp_of_mem fun {x y} hx hy hxy => ?_
    obtain ⟨hx, hlx⟩ := List.mem_filter.mp hx
    obtain ⟨hy, hly⟩ := List.mem_filter.mp hy
    exact apart_shift happ (fun x hx y hy => eq_of_range_key h hu hx hy)
      (fun hd r hr => hwrite hd r (mem_ranges.mpr ⟨u, hu, hr⟩)) hx hy hxy.2 hlx hly
      (hp.on x (mem_ranges.mpr ⟨u, hu, hx⟩)) (hp.on y (mem_ranges.mpr ⟨u, hu, hy⟩)) hxy.1

/-! ## Steps of a rewriting -/

/-- A change with which a range of the selected tabstop is written: all that it reads is removed, or it is empty
and gets its text. -/
inductive Rewrite (key : Nat) (value : String) : Session × List Char → Session × List Char → Prop
  | mk {s : Session} {b b' : Buffer} {t : Tabstop} {m : TrackedRange} {text text' : List Char} {d : Delta}
    {index : Nat} :
    Running s b t → Running { s with tabstops := s.changed d, index } b' (s.shiftTabstop s.around d t) →
    m ∈ t.ranges → m.key = key → s.writing = some key →
    (d.action = .remove → m.range = ⟨d.start, d.stop⟩) →
    (d.action = .insert → m.range = .point d.start ∧ value ≠ "") → Delta.Applies text d text' →
    Rewrite key value (s, text) ({ s with tabstops := s.changed d, index }, text')

theorem range?_eq (h : Following s b) {r : TrackedRange} (hr : r ∈ s.ranges) : s.range? r.key = some r := by
  unfold range?
  cases hf : s.ranges.find? (·.key == r.key) with
  | none =>
    have := List.find?_eq_none.mp hf r hr
    simp at this
  | some r' =>
    have hk : r'.key = r.key := by simpa using List.find?_some hf
    rw [h.range_eq (List.mem_of_find?_eq_some hf) hr hk]

theorem placeRange_eq_self (h : Following s b) {r : TrackedRange} (hr : r ∈ s.ranges) :
    (s.placeRange b r.key r.range).1 = s := by
  have hsame : ∀ u ∈ s.tabstops,
      (u.ranges.map fun x => if x.key = r.key then { x with range := r.range } else x) = u.ranges := by
    intro u hu
    refine (List.map_congr_left fun x hx => ?_).trans (List.map_id _)
    have hx' : x ∈ s.ranges := mem_ranges.mpr ⟨u, hu, hx⟩
    by_cases hk : x.key = r.key
    · rw [if_pos hk, h.range_eq hx' hr hk]
      rfl
    · rw [if_neg hk]
      rfl
  have htabstops : (s.tabstops.map fun u =>
      { u with ranges := u.ranges.map fun x => if x.key = r.key then { x with range := r.range } else x }) =
      s.tabstops := by
    refine (List.map_congr_left fun u hu => ?_).trans (List.map_id _)
    rw [hsame u hu]
    rfl
  show { s with tabstops := _ } = s
  rw [htabstops]

theorem onChanges_append (ds ds' : List Delta) : ∀ (s : Session) (b : Buffer),
    s.onChanges b (ds ++ ds') = (s.onChanges b ds).1.onChanges (s.onChanges b ds).2 ds' := by
  induction ds with
  | nil => intro s b; rfl
  | cons d ds ih => intro s b; exact ih (s.onChange b d).1 (s.onChange b d).2

theorem point_shift (p : Position) (new : String) :
    (Range.point p).shift (.insertion p new) true = ⟨p, p.advance new.toList⟩ := by
  have hstart : (Delta.insertion p new).shift p true = p := by
    rw [Delta.shift_of_insert rfl]
    exact if_pos (.inr ⟨rfl, rfl⟩)
  have hstop : (Delta.insertion p new).shift p false = p.advance new.toList := by
    have := Delta.shift_insertion_behind p new [] false (.inl rfl)
    exact this
  unfold Range.shift Range.point
  dsimp only
  rw [hstart, Bool.not_true, hstop, if_neg (Position.not_lt.mpr (Position.le_advance p _))]

/-- What comes of some changes with which the range of this key is written, and the range itself afterwards. -/
structure Rewritten (key : Nat) (value : String) (s : Session) (b : Buffer) (ds : List Delta) (text text' : List Char)
    (r' : TrackedRange) : Prop where
  result : ∃ tabstops index markers t', s.onChanges b ds = ({ s with tabstops, index }, { b with markers }) ∧
    Running { s with tabstops, index } { b with markers } t' ∧ r' ∈ t'.ranges ∧
    Relation.ReflTransGen (Rewrite key value) (s, text) ({ s with tabstops, index }, text')
  key_eq : r'.key = key

section
variable {key : Nat} {value : String} {r : TrackedRange} (h : Running s b t) (hr : r ∈ t.ranges) (hk : r.key = key)
include h hr hk

theorem rewritten_nil : Rewritten key value s b [] text text r :=
  ⟨⟨s.tabstops, s.index, b.markers, t, rfl, h, hr, .refl⟩, hk⟩

theorem rewritten_change (hc : s.inChange = true) (hw : s.writing = some key) (happ : Delta.Applies text d text')
    (hremove : d.action = .remove → r.range = ⟨d.start, d.stop⟩)
    (hinsert : d.action = .insert → r.range = .point d.start ∧ value ≠ "") :
    Rewritten key value s b [d] text text' (r.shift d (s.takes d t r)) := by
  obtain ⟨index, markers, he, hrun⟩ := onChange_writing h hc d
  refine ⟨⟨s.changed d, index, markers, _, ?_, hrun, List.mem_map_of_mem hr, ?_⟩, hk⟩
  · rw [onChanges_cons, he]
    rfl
  · exact .single (.mk h hrun hr hk hw hremove hinsert happ)

theorem rewritten_removal (value : String) (hc : s.inChange = true) (hw : s.writing = some key) {m n : Nat} (hmn : m ≤ n)
    (hn : n ≤ text.length) (hrange : r.range = ⟨place text m, place text n⟩) : ∃ r',
      Rewritten key value s b
        (if m = n then []
          else [Delta.removal ⟨place text m, place text n⟩ (String.ofList ((text.take n).drop m))])
        text (text.take m ++ text.drop n) r' ∧ r'.range = .point (place text m) := by
  by_cases he : m = n
  · subst he
    rw [if_pos rfl, List.take_append_drop]
    exact ⟨r, rewritten_nil h hr hk, hrange⟩
  · rw [if_neg he]
    have happ : Delta.Applies text _ _ := .removal hmn hn
    refine ⟨_, rewritten_change h hr hk hc hw happ (fun _ => hrange) (fun hd => by cases hd), ?_⟩
    exact Range.shift_removed happ rfl hrange _

theorem rewritten_insertion (value : String) (hc : s.inChange = true) (hw : s.writing = some key) {m : Nat}
    (hm : m ≤ text.length) (n : Nat) (hpoint : r.range = .point (place text m)) : ∃ r',
      Rewritten key value s b (if value = "" then [] else [Delta.insertion (place text m) value])
        (text.take m ++ text.drop n) (text.take m ++ value.toList ++ text.drop n) r' ∧
      r'.range = ⟨place text m, (place text m).advance value.toList⟩ ∧
      r'.range.Reads (text.take m ++ value.toList ++ text.drop n) value.toList := by
  by_cases hv : value = ""
  · subst hv
    rw [if_pos rfl, String.toList_empty, List.append_nil]
    have hplace := (Position.place_take_append hm (Nat.le_refl m) (text.drop n)).symm
    refine ⟨r, rewritten_nil h hr hk, hpoint, m, m, Nat.le_refl m, ?_, ?_, ?_⟩
    · rw [List.length_append, List.length_take]
      omega
    · rw [← hplace]
      exact hpoint
    · rw [List.drop_eq_nil_iff, List.length_take]
      exact Nat.min_le_left _ _
  · rw [if_neg hv]
    have happ := Delta.applies_insertion hm n value
    have htakes : s.takes (.insertion (place text m) value) t r = true :=
      takes_written rfl (owns_selected h) (hw.trans (congrArg some hk.symm)) hr (by rw [hpoint]; rfl)
    have hstep := rewritten_change h hr hk hc hw happ (fun hd => by cases hd) fun _ => ⟨hpoint, hv⟩
    rw [htakes] at hstep
    refine ⟨_, hstep, ?_, Range.reads_shift_point happ rfl hpoint⟩
    show r.range.shift _ true = _
    rw [hpoint, point_shift]

end

/-- The changes with which a range of the selected tabstop gets a text are a rewriting, and lead to the range around
that text. -/
theorem rewritten_replace (h : Running s b t) (hc : s.inChange = true) (hb : b.Sound) {r : TrackedRange}
    (hr : r ∈ t.ranges) (hon : r.range.On b.chars) (value : String) :
    ∃ tabstops index lines selections markers t' r',
      (b.replace r.range value).1 = { b with lines, selections } ∧
      Delta.Chain b.chars (b.replace r.range value).2 ({ b with lines, selections, markers } : Buffer).chars ∧
      { s with writing := some r.key }.onChanges (b.replace r.range value).1 (b.replace r.range value).2 =
        ({ s with tabstops, index, writing := some r.key }, { b with lines, selections, markers }) ∧
      Running { s with tabstops, index, writing := some r.key } { b with lines, selections, markers } t' ∧
      ({ b with lines, selections, markers } : Buffer).Sound ∧
      Relation.ReflTransGen (Rewrite r.key value) ({ s with writing := some r.key }, b.chars)
        ({ s with tabstops, index, writing := some r.key },
          ({ b with lines, selections, markers } : Buffer).chars) ∧
      r' ∈ t'.ranges ∧ r'.key = r.key ∧ r'.range = .between r.range.start (r.range.start.advance value.toList) ∧
      r'.range.Reads ({ b with lines, selections, markers } : Buffer).chars value.toList := by
  obtain ⟨m, n, hmn, hn, hrange⟩ := hon
  have hm := Nat.le_trans hmn hn
  obtain ⟨lines, selections, hreplace, hsound, hchars⟩ := Buffer.replace_place hb hmn hn value
  have hchain := Buffer.chain_spliceDeltas hmn hn value
  have hrun : Running { s with writing := some r.key } { b with lines, selections } t :=
    (h.set s.vars s.inChange (some r.key)).host ⟨rfl, rfl⟩ rfl
  obtain ⟨r₁, ⟨⟨tabstops, index, markers, t₁, he₁, hrun₁, hmem₁, hsteps₁⟩, hk₁⟩, hpoint⟩ :=
    rewritten_removal hrun hr rfl value hc rfl hmn hn hrange
  obtain ⟨r₂, hr₂, hrange₂, hreads⟩ := rewritten_insertion hrun₁ hmem₁ hk₁ value hc rfl hm n hpoint
  obtain ⟨⟨tabstops', index', markers', t₂, he₂, hrun₂, hmem₂, hsteps₂⟩, hk₂⟩ := hr₂
  have hbetween : Range.between (place b.chars m) ((place b.chars m).advance value.toList) = r₂.range := by
    unfold Range.between
    rw [if_neg (Position.not_lt.mpr (Position.le_advance _ _)), hrange₂]
  have hchars' : ({ b with lines, selections, markers := markers' } : Buffer).chars =
      b.chars.take m ++ value.toList ++ b.chars.drop n := hchars
  rw [hrange, hreplace]
  refine ⟨tabstops', index', lines, selections, markers', t₂, r₂, rfl, ?_, ?_, hrun₂, hsound.congr rfl rfl, ?_, hmem₂,
    hk₂, hbetween.symm, ?_⟩
  · rwa [hchars']
  · unfold Buffer.spliceDeltas
    rw [onChanges_append, he₁, he₂]
  · rw [hchars']
    exact hsteps₁.trans hsteps₂
  · rw [hchars']
    exact hreads

/-- A linked range that has to be written is where the changes have put it. -/
theorem writeMirror_of_ne (h : Running s b t) (hc : s.inChange = true) (hb : b.Sound) {r : TrackedRange}
    (hr : r ∈ t.ranges) (hon : r.range.On b.chars) (source : String) (transform : Option Transform)
    (hne : b.textRange r.range ≠ s.mirrored b.context source transform) :
    let replaced := b.replace r.range (s.mirrored b.context source transform)
    let heard := { s with writing := some r.key }.onChanges replaced.1 replaced.2
    ∃ markers t', s.writeMirror b source r.key transform =
        ({ heard.1 with writing := none }, { heard.2 with markers }) ∧
      Running { heard.1 with writing := none } { heard.2 with markers } t' := by
  obtain ⟨tabstops, index, lines, selections, markers, t', r', -, -, he, hrun, -, -, hr', hk', hrange', -⟩ :=
    rewritten_replace h hc hb hr hon (s.mirrored b.context source transform)
  -- The range already stands around its text.
  have hself := placeRange_eq_self hrun.toFollowing (hrun.range_mem hr')
  obtain ⟨markers', hplaced, hrun'⟩ := running_placeRange hrun r.key r'.range
  rw [hk'] at hself
  rw [hself] at hrun'
  rw [writeMirror_eq, range?_eq h.toFollowing (h.range_mem hr)]
  dsimp only
  rw [if_neg hne, he, ← hrange', hself, hplaced]
  exact ⟨markers', _, rfl, hrun'.set s.vars s.inChange none⟩

/-- Writing a linked range is a rewriting, and afterwards it reads what it shall read. -/
theorem writeMirror_rewrite (h : Running s b t) (hc : s.inChange = true) (hw : s.writing = none) (hb : b.Sound)
    {r : TrackedRange} (hr : r ∈ t.ranges) (hon : r.range.On b.chars) (source : String)
    (transform : Option Transform) :
    ∃ tabstops index lines selections markers t' r',
      s.writeMirror b source r.key transform = ({ s with tabstops, index }, { b with lines, selections, markers }) ∧
      Running { s with tabstops, index } { b with lines, selections, markers } t' ∧
      ({ b with lines, selections, markers } : Buffer).Sound ∧
      Relation.ReflTransGen (Rewrite r.key (s.mirrored b.context source transform))
        ({ s with writing := some r.key }, b.chars)
        ({ s with tabstops, index, writing := some r.key },
          ({ b with lines, selections, markers } : Buffer).chars) ∧
      r' ∈ t'.ranges ∧ r'.key = r.key ∧
      r'.range.Reads ({ b with lines, selections, markers } : Buffer).chars
        (s.mirrored b.context source transform).toList := by
  by_cases heq : b.textRange r.range = s.mirrored b.context source transform
  · obtain ⟨m, n, hmn, hn, hrange⟩ := hon
    have hsame : s.writeMirror b source r.key transform = (s, b) := by
      rw [writeMirror_eq, range?_eq h.toFollowing (h.range_mem hr)]
      exact if_pos heq
    refine ⟨s.tabstops, s.index, b.lines, b.selections, b.markers, t, r, hsame, h, hb, .refl, hr, rfl, ?_⟩
    refine ⟨m, n, hmn, hn, hrange, ?_⟩
    rw [← heq, hrange, Buffer.textRange_place hb.wellFormed hmn hn, String.toList_ofList]
  · obtain ⟨tabstops, index, lines, selections, markers, t', r', -, -, he, hrun, hsound, hsteps, hr', hk', -, hreads⟩ :=
      rewritten_replace h hc hb hr hon (s.mirrored b.context source transform)
    obtain ⟨markers', t'', hwrite, hrun'⟩ := writeMirror_of_ne h hc hb hr hon source transform heq
    rw [he] at hwrite hrun'
    obtain rfl := hrun'.unique (hrun.set s.vars s.inChange none)
    refine ⟨tabstops, index, lines, selections, markers', t'', r', ?_, ?_, hsound.congr rfl rfl, hsteps, hr', hk', hreads⟩
    · rw [hwrite]
      exact congrArg (fun w => (Session.mk _ _ _ _ _ _ _ _ w, _)) hw.symm
    · exact hrun'.set s.vars s.inChange s.writing

end Session

end Scribe
