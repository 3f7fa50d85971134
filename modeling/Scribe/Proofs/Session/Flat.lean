import Scribe.Proofs.Session.Added
import Scribe.Proofs.Session.Update

/-!
# Snippets without nested tabstops

In a session of such a snippet the ranges of a tabstop stand one behind the other, and only the first one is edited.
This stays so under changes inside of the primary range, and when linked ranges are written; and neither is seen
outside of the ranges.
-/

namespace Scribe

/-- Of two keys in a list without duplicates, the one that stands before the other is not behind it. -/
theorem not_mem_of_sublist_pair {done rest : List Nat} {k k' : Nat} (hn : (done ++ k' :: rest).Nodup)
    (hs : [k, k'].Sublist (done ++ k' :: rest)) : k ∉ k' :: rest := by
  obtain ⟨front, back, he, hfront, hback⟩ := List.sublist_append_iff.mp hs
  obtain ⟨-, hrest, hdisj⟩ := List.nodup_append.mp hn
  cases front with
  | nil =>
    obtain rfl : [k, k'] = back := he
    have hmem : k' ∈ rest := by
      cases hback with
      | cons _ hback => exact hback.subset (List.mem_cons_of_mem _ List.mem_cons_self)
      | cons_cons _ hback => exact hback.subset List.mem_cons_self
    exact absurd hmem (List.nodup_cons.mp hrest).1
  | cons first front =>
    rw [List.cons_append, List.cons.injEq] at he
    intro hk
    exact hdisj k (hfront.subset (he.1 ▸ List.mem_cons_self)) k hk rfl

namespace Session

/-- What the session of a snippet without nested tabstops and transforms is like. Right after the insertion it is
`s₀`, and the text outside of all ranges is `out`. -/
structure Flat (s₀ : Session) (out : List Char) (s : Session) (text : List Char) : Prop where
  alone : ∀ t ∈ s.tabstops, t.parents = []
  plain : ∀ r ∈ s.ranges, r.transform = none
  linked : ∀ t ∈ s.tabstops, t.ranges.Pairwise fun _ y => y.linked = true
  on : ∀ r ∈ s.ranges, r.range.On text
  ordered : ∀ t ∈ s.tabstops, t.ranges.Pairwise fun x y => x.range.stop ≤ y.range.start
  outside : outside text (s.ranges.map (·.range)) = out
  kept : ∀ t ∈ s.tabstops, ∃ t₀ ∈ s₀.tabstops, t₀.key = t.key ∧
    (t.ranges.map (·.key)).Sublist (t₀.ranges.map (·.key))

variable {s₀ s s' : Session} {b : Buffer} {t : Tabstop} {p : TrackedRange} {d : Delta} {out text text' : List Char}

theorem Flat.congr (hf : Flat s₀ out s text) (h : s'.tabstops = s.tabstops) : Flat s₀ out s' text := by
  have hranges : s'.ranges = s.ranges := by
    unfold ranges
    rw [h]
  exact ⟨h ▸ hf.alone, hranges ▸ hf.plain, h ▸ hf.linked, hranges ▸ hf.on, h ▸ hf.ordered,
    hranges ▸ hf.outside, h ▸ hf.kept⟩

theorem flat_of_tracked {value rest : List Char} {m : Nat} {groups : List TabstopGroup} (hm : m ≤ text.length)
    (hg : ∀ g ∈ groups, Expansion.Laid.Group value g.ranges)
    (hplain : ∀ g ∈ groups, g.parents = [] ∧ ∀ r ∈ g.ranges, r.transform = none)
    {first : Nat} (hs : ∀ t ∈ s.tabstops, ∃ g ∈ groups, Tracking true (Position.place text m) first g t) :
    Flat s (Scribe.outside (text.take m ++ value ++ rest) (s.ranges.map (·.range))) s
      (text.take m ++ value ++ rest) where
  alone t ht := by
    obtain ⟨g, hgm, -, -, -, keyOf, hparents, -⟩ := hs t ht
    rw [hparents, (hplain g hgm).1]
    rfl
  plain r hr := by
    obtain ⟨t, ht, hr⟩ := mem_ranges.mp hr
    obtain ⟨g, hgm, -, -, ⟨b, nextKey, hranges⟩, -⟩ := hs t ht
    rw [hranges] at hr
    have htracked : List.Forall₂ _ g.ranges (trackRanges true (Position.place text m) b nextKey false g.ranges).1 :=
      forall₂_trackRanges _ _ _ _
    obtain ⟨hlen, hget⟩ := List.forall₂_iff_get.mp htracked
    obtain ⟨k, hk, rfl⟩ := List.getElem_of_mem hr
    have hk' : k < g.ranges.length := hlen ▸ hk
    exact (hget k hk' hk).2.1.trans ((hplain g hgm).2 _ (List.getElem_mem hk'))
  linked t ht := by
    obtain ⟨g, hgm, -, -, ⟨b, nextKey, hranges⟩, -⟩ := hs t ht
    rw [hranges]
    exact (linked_trackRanges g.ranges b nextKey false (hplain g hgm).2).2
  on r hr := by
    obtain ⟨t, ht, hr⟩ := mem_ranges.mp hr
    obtain ⟨g, hgm, -, -, ⟨b, nextKey, hranges⟩, -⟩ := hs t ht
    rw [hranges] at hr
    exact (placed_trackRanges hm (hg g hgm) rest nextKey false).1 r hr
  ordered t ht := by
    obtain ⟨g, hgm, -, -, ⟨b, nextKey, hranges⟩, -⟩ := hs t ht
    rw [hranges]
    exact (placed_trackRanges hm (hg g hgm) rest nextKey false).2
  outside := rfl
  kept t ht := ⟨t, ht, rfl, .refl _⟩

/-! ## What a change drops -/

theorem around_eq_nil (h : Running s b t) (hf : Flat s₀ out s text) : s.around = [] := by
  unfold around
  rw [selected?_eq h]
  exact hf.alone t (mem_tabstops h)

theorem mem_changed_of_not_dropped {u : Tabstop} (hu : u ∈ s.tabstops) {r : TrackedRange} (hr : r ∈ u.ranges)
    (hk : r.key ∉ s.dropped d) (index : Nat) :
    r.shift d (s.takes d u r) ∈ ({ s with tabstops := s.changed d, index } : Session).ranges := by
  show _ ∈ (keepRanges (s.dropped d) (s.tabstops.map (s.shiftTabstop s.around d))).flatMap (·.ranges)
  rw [ranges_keepRanges]
  refine List.mem_filter.mpr ⟨List.mem_flatMap.mpr ⟨_, List.mem_map_of_mem hu, List.mem_map_of_mem hr⟩, ?_⟩
  exact decide_eq_true hk

theorem removed_of_dropped (h : Running s b t) (hf : Flat s₀ out s text) (happ : Delta.Applies text d text')
    {r : TrackedRange} (hr : r ∈ s.ranges) (hk : r.key ∈ s.dropped d) :
    d.action = .remove ∧ d.start ≤ r.range.start ∧ r.range.stop ≤ d.stop := by
  obtain ⟨u, hu, hk⟩ := List.mem_flatMap.mp hk
  unfold swallowed at hk
  rw [around_eq_nil h hf] at hk
  split at hk
  · rename_i hcond
    obtain ⟨r', hr', he⟩ := List.mem_map.mp hk
    obtain ⟨hmem, hinside⟩ := List.mem_filter.mp hr'
    obtain rfl := h.range_eq (mem_ranges.mpr ⟨u, hu, hmem⟩) hr he
    have hrange : d.range = ⟨d.start, d.stop⟩ := by
      cases happ with
      | insertion => cases hcond.1
      | removal hij hj =>
        have hle := (Position.place_le_iff (Nat.le_trans hij hj) hj).mpr hij
        exact if_neg (Position.not_lt.mpr hle)
    rw [hrange] at hinside
    simp only [isSwallowed, List.contains_nil, Bool.false_eq_true, if_false, Range.isStrictlyInside, Bool.and_eq_true,
      decide_eq_true_eq] at hinside
    exact ⟨hcond.1, Position.le_of_lt hinside.1, Position.le_of_lt hinside.2⟩
  · cases hk

/-! ## Changes -/

section
variable (h : Running s b t) (hf : Flat s₀ out s text)
include h hf

/-- The ranges of no other tabstop take anything. -/
theorem Flat.eq_of_takes {u : Tabstop} (hu : u ∈ s.tabstops) {x : TrackedRange} (ht : s.takes d u x = true) : t = u := by
  have howns : s.owns u = true := by
    unfold takes at ht
    exact (Bool.and_eq_true_iff.mp ht).1
  unfold owns at howns
  rw [around_eq_nil h hf, h.selectedKey] at howns
  exact h.tabstop_eq_of_key (mem_tabstops h) hu (by simpa using howns)

/-- A change in a range of the selected tabstop that takes it leaves the text outside of all ranges as it is. -/
theorem Flat.outside_changed (happ : Delta.Applies text d text')
    (hin : ∃ r ∈ t.ranges, r.range.start ≤ d.start ∧
      (d.action = .insert → d.start ≤ r.range.stop ∧ s.takes d t r = true) ∧
      (d.action = .remove → d.stop ≤ r.range.stop)) (index : Nat) :
    Scribe.outside text' (({ s with tabstops := s.changed d, index } : Session).ranges.map (·.range)) = out := by
  rw [← hf.outside]
  obtain ⟨r, hr, hstart, hinsert, hremove⟩ := hin
  have hmem := h.range_mem hr
  refine outside_moved (fun r hr => ?_) happ ⟨fun r' hr' => ?_, fun r hr => ?_⟩
    ⟨r.range, List.mem_map_of_mem hmem, hstart, fun hd => ⟨(hinsert hd).1, ?_⟩, hremove⟩
  · obtain ⟨x, hx, rfl⟩ := List.mem_map.mp hr
    exact hf.on x hx
  · obtain ⟨x', hx', rfl⟩ := List.mem_map.mp hr'
    obtain ⟨u, hu, x, hx, rfl⟩ := mem_ranges_changed hx'
    exact ⟨_, List.mem_map_of_mem (mem_ranges.mpr ⟨u, hu, hx⟩), _, rfl⟩
  · obtain ⟨x, hx, rfl⟩ := List.mem_map.mp hr
    by_cases hk : x.key ∈ s.dropped d
    · exact .inr (removed_of_dropped h hf happ hx hk)
    · obtain ⟨u, hu, hxu⟩ := mem_ranges.mp hx
      exact .inl ⟨_, List.mem_map.mpr ⟨_, mem_changed_of_not_dropped hu hxu hk index, rfl⟩⟩
  · have hshift := mem_changed_of_not_dropped (mem_tabstops h) hr (not_mem_dropped h d r hr) index
    rw [(hinsert hd).2] at hshift
    exact List.mem_map.mpr ⟨_, hshift, rfl⟩

/-- A change in a range of the selected tabstop that takes it keeps a flat session flat, if of two ranges that meet
where a text is inserted the first one is not passed over. -/
theorem Flat.changed (happ : Delta.Applies text d text')
    (hmeet : d.action = .insert → ∀ {x y : TrackedRange}, [x, y].Sublist t.ranges → s.takes d t y = true →
      x.range.stop = d.start → y.range.start = d.start → s.takes d t x = false ∧ x.range.start ≠ d.start)
    (hin : ∃ r ∈ t.ranges, r.range.start ≤ d.start ∧
      (d.action = .insert → d.start ≤ r.range.stop ∧ s.takes d t r = true) ∧
      (d.action = .remove → d.stop ≤ r.range.stop)) (index : Nat) :
    Flat s₀ out { s with tabstops := s.changed d, index } text' where
  alone u' hu' := by
    obtain ⟨u, hu, -, hparents, -⟩ := mem_changed hu'
    rw [hparents]
    exact hf.alone u hu
  plain r' hr' := by
    obtain ⟨u, hu, r, hr, rfl⟩ := mem_ranges_changed hr'
    exact hf.plain r (mem_ranges.mpr ⟨u, hu, hr⟩)
  linked u' hu' := by
    obtain ⟨u, hu, -, -, hsub⟩ := mem_changed hu'
    exact List.Pairwise.sublist hsub (List.pairwise_map.mpr (hf.linked u hu))
  on r' hr' := by
    obtain ⟨u, hu, r, hr, rfl⟩ := mem_ranges_changed hr'
    exact (hf.on r (mem_ranges.mpr ⟨u, hu, hr⟩)).shift happ _
  ordered u' hu' := by
    obtain ⟨u, hu, -, -, hsub⟩ := mem_changed hu'
    refine List.Pairwise.sublist hsub (List.pairwise_map.mpr ?_)
    rw [List.pairwise_iff_forall_sublist]
    intro x y hxy
    have hx : x ∈ u.ranges := hxy.subset List.mem_cons_self
    have hy : y ∈ u.ranges := hxy.subset (List.mem_cons_of_mem _ List.mem_cons_self)
    have hle := List.pairwise_iff_forall_sublist.mp (hf.ordered u hu) hxy
    refine Range.stop_le_start_shift happ (hf.on x (mem_ranges.mpr ⟨u, hu, hx⟩))
      (hf.on y (mem_ranges.mpr ⟨u, hu, hy⟩)) hle _ _ fun hd ht hs hs' => ?_
    obtain rfl := hf.eq_of_takes h hu ht
    exact hmeet hd hxy ht hs hs'
  outside := hf.outside_changed h happ hin index
  kept u' hu' := by
    obtain ⟨u, hu, hkey, -, hsub⟩ := mem_changed hu'
    obtain ⟨t₀, ht₀, hk, hkeys⟩ := hf.kept u hu
    refine ⟨t₀, ht₀, hk.trans hkey.symm, List.Sublist.trans ?_ hkeys⟩
    have hmap : (u.ranges.map fun r => r.shift d (s.takes d u r)).map (·.key) = u.ranges.map (·.key) := by
      rw [List.map_map]
      rfl
    rw [← hmap]
    exact hsub.map _

end

/-! ## The primary range -/

section
variable (h : Running s b t) (hf : Flat s₀ out s text) (hp : t.primary? = some p)
include h hf hp

/-- The primary range is the first one, and the only one that is edited. -/
theorem Flat.primary_first {y : TrackedRange} (hy : y ∈ t.ranges) (hne : y ≠ p) :
    y.linked = true ∧ p.range.stop ≤ y.range.start := by
  obtain ⟨hmem, hl⟩ := Tabstop.mem_of_primary? hp
  have hlinked := hf.linked t (mem_tabstops h)
  have hordered := hf.ordered t (mem_tabstops h)
  obtain ⟨front, back, he⟩ := List.append_of_mem hmem
  rw [he] at hlinked hordered hy
  have hlinked' := (List.pairwise_append.mp hlinked).2
  have hordered' := (List.pairwise_append.mp hordered).2
  rcases List.mem_append.mp hy with hy | hy
  · rw [hlinked'.2 y hy p List.mem_cons_self] at hl
    cases hl
  · rcases List.mem_cons.mp hy with rfl | hy
    · exact absurd rfl hne
    · exact ⟨(List.pairwise_cons.mp hlinked'.1).1 y hy, (List.pairwise_cons.mp hordered'.1).1 y hy⟩

theorem Flat.eq_primary {y : TrackedRange} (hy : y ∈ t.ranges) (hl : y.linked = false) : y = p := by
  by_contra hne
  have := (hf.primary_first h hp hy hne).1
  rw [hl] at this
  cases this

/-- What is inserted in the primary range or at its ends belongs to it. -/
theorem Flat.takes_primary (hw : s.writing = none) (hd : d.action = .insert)
    (hstop : d.start ≤ p.range.stop) : s.takes d t p = true := by
  have hmem := (Tabstop.mem_of_primary? hp).1
  have hown := owns_selected h
  by_cases hmeet : Tabstop.meetAt (Tabstop.touching t.ranges d.start) d.start = true
  · -- One of the ranges that meet is the primary one, or stands right behind it.
    have htouch : p ∈ Tabstop.touching t.ranges d.start := by
      obtain ⟨x, hx, hx'⟩ := List.any_eq_true.mp hmeet
      by_cases hxp : x = p
      · rwa [← hxp]
      · have hle := (hf.primary_first h hp (Tabstop.mem_touching.mp hx).1 hxp).2
        have hon := hf.on x (h.range_mem (Tabstop.mem_touching.mp hx).1)
        have hxs : x.range.stop = d.start := by
          simp only [Bool.and_eq_true, beq_iff_eq] at hx'
          exact hx'.1
        have hge : p.range.stop ≤ d.start := hxs ▸ Position.le_trans hle hon.start_le_stop
        exact Tabstop.mem_touching.mpr ⟨hmem, .inr (Position.le_antisymm hge hstop)⟩
    exact Session.takes_primary hown hw hd hp (Tabstop.mem_touching.mp htouch).2
  · rw [takes_insert hd, Tabstop.edgeOwner?_of_not_meetAt hmeet, hown]
    rfl

/-- A change inside of the primary range keeps a flat session flat. -/
theorem Flat.edit (hw : s.writing = none) (happ : Delta.Applies text d text') (hstart : p.range.start ≤ d.start)
    (hstop : d.start ≤ p.range.stop) (hend : d.action = .remove → d.stop ≤ p.range.stop) (index : Nat) :
    Flat s₀ out { s with tabstops := s.changed d, index } text' := by
  obtain ⟨hmem, hl⟩ := Tabstop.mem_of_primary? hp
  refine hf.changed h happ (fun hd {x y} hxy ht hs hs' => ?_)
    ⟨p, hmem, hstart, fun hd => ⟨hstop, hf.takes_primary h hp hw hd hstop⟩, hend⟩ index
  -- The range that takes the text is the primary one, and no other one stands before it.
  have hx : x ∈ t.ranges := hxy.subset List.mem_cons_self
  have hy : y ∈ t.ranges := hxy.subset (List.mem_cons_of_mem _ List.mem_cons_self)
  have hk := List.pairwise_iff_forall_sublist.mp (pairwise_range_keys h.toFollowing (mem_tabstops h)) hxy
  obtain ⟨o, -, ho, -⟩ := Tabstop.edgeOwner?_of_meetAt s.writing (Tabstop.meetAt_touching hx hy hk hs hs')
  have hp' := hf.takes_primary h hp hw hd hstop
  rw [takes_of_owner hd ho, Bool.and_eq_true, beq_iff_eq] at ht hp'
  obtain rfl := eq_of_range_key h.toFollowing (mem_tabstops h) hy hmem (ht.2.symm.trans hp'.2)
  rw [List.pairwise_iff_forall_sublist.mp (hf.linked t (mem_tabstops h)) hxy] at hl
  cases hl

end

/-! ## Linked ranges -/

section
variable {source : String} {out' : List Char} {rest : List Nat} {x : TrackedRange}
  (hm : Mirroring source (fun _ => source) out' True (x.key :: rest) s b t)
include hm

/-- What stands before the range that is to be written next reads what it shall read. -/
theorem Flat.reads_before (hf : Flat s₀ out s b.chars) (hl : x.linked = true) {y : TrackedRange}
    (hs : [y, x].Sublist t.ranges) : y.range.Reads b.chars source.toList := by
  have hy : y ∈ t.ranges := hs.subset List.mem_cons_self
  cases hly : y.linked with
  | true =>
    refine hm.written y hy hly ?_
    obtain ⟨done, horder⟩ := hm.order
    have hkeys : ((t.ranges.filter (·.linked)).map (·.key)).Nodup :=
      List.pairwise_map.mpr ((pairwise_range_keys hm.running.toFollowing (mem_tabstops hm.running)).filter _)
    have hpair : [y.key, x.key].Sublist ((t.ranges.filter (·.linked)).map (·.key)) := by
      have := (hs.filter (·.linked)).map (·.key)
      simpa [hly, hl] using this
    rw [horder] at hkeys hpair
    exact not_mem_of_sublist_pair hkeys hpair
  | false =>
    cases hp : t.primary? with
    | none =>
      have := List.find?_eq_none.mp hp y hy
      simp [hly] at this
    | some p =>
      rw [hf.eq_primary hm.running hp hy hly]
      exact hm.primary trivial p hp

end

/-- The changes with which a linked range is written keep a flat session flat. Those before it have been written, so
they are not passed over. -/
theorem Flat.rewrite {source : String} {out' : List Char} {rest : List Nat} {s₁ : Session} {b₁ : Buffer}
    {u : Tabstop} {x : TrackedRange} {f : TrackedRange → Range}
    (hm : Mirroring source (fun _ => source) out' True (x.key :: rest) s₁ b₁ u) (hx : x ∈ u.ranges)
    (hl : x.linked = true) (hlv : Leaves u x b₁.chars s text f) (hstep : Rewrite x.key source (s, text) (s', text'))
    (hf₁ : Flat s₀ out s₁ b₁.chars) (hf : Flat s₀ out s text) : Flat s₀ out s' text' := by
  obtain ⟨d, index, b, b', rfl, happ, hrun, -, -, hremove, hinsert⟩ := hlv.change hx hstep
  have hmem := Tabstop.mem_place_of_mem (f := f) hx
  obtain ⟨hstart, hstop, hend⟩ := Range.around_written hremove fun hd => (hinsert hd).1
  refine hf.changed hrun happ (fun hd {y z} hyz htz hys hzs => ?_)
    ⟨_, hmem, hstart, fun hd => ⟨hstop hd, (hinsert hd).2.2.1⟩, hend⟩ index
  obtain ⟨-, hvalue, htakes, -⟩ := hinsert hd
  -- The range that takes the text is the one that is written.
  have hkeys := List.pairwise_iff_forall_sublist.mp (pairwise_range_keys hrun.toFollowing (mem_tabstops hrun)) hyz
  have hy : y ∈ (u.place f).ranges := hyz.subset List.mem_cons_self
  have hz : z ∈ (u.place f).ranges := hyz.subset (List.mem_cons_of_mem _ List.mem_cons_self)
  refine ⟨takes_unique hd hy hz hkeys hys hzs htz, ?_⟩
  obtain ⟨o, -, ho, -⟩ := Tabstop.edgeOwner?_of_meetAt s.writing (Tabstop.meetAt_touching hy hz hkeys hys hzs)
  rw [takes_of_owner hd ho, Bool.and_eq_true, beq_iff_eq] at htz htakes
  have hzm := eq_of_range_key hrun.toFollowing (mem_tabstops hrun) hz hmem (htz.2.symm.trans htakes.2)
  -- What stands before it has a text.
  obtain ⟨ys, hsub, he⟩ := List.sublist_map_iff.mp hyz
  obtain ⟨y₀, z₀, rfl⟩ : ∃ y₀ z₀, ys = [y₀, z₀] := by
    match ys, he with
    | [y₀, z₀], _ => exact ⟨y₀, z₀, rfl⟩
  obtain ⟨rfl, rfl⟩ : y = { y₀ with range := f y₀ } ∧ z = { z₀ with range := f z₀ } := by simpa using he
  have hy₀ : y₀ ∈ u.ranges := hsub.subset List.mem_cons_self
  have hz₀ : z₀ ∈ u.ranges := hsub.subset (List.mem_cons_of_mem _ List.mem_cons_self)
  have hzk : z₀.key = x.key := by injection hzm
  obtain rfl := eq_of_place_key hrun hz₀ hx hzk
  have hreads := hf₁.reads_before hm hl hsub
  have hap := List.pairwise_iff_forall_sublist.mp (hf₁.ordered u (mem_tabstops hm.running)) hsub
  have hreads' := (hlv.reads y₀ hy₀ hkeys (.inl hap)).2 _ hreads
  intro hstart
  refine hvalue (String.toList_eq_nil_iff.mp (hreads'.nil_iff.mpr ?_))
  exact hstart.trans hys.symm

theorem Flat.updateLinked (h : Running s b t) (hc : s.inChange = false) (hw : s.writing = none) (hb : b.Sound)
    (hplaced : Placed s b.chars) (hf : Flat s₀ out s b.chars) (hp : t.primary? = some p) :
    ∃ g, Updated s b t p (fun _ => b.textRange p.range) True (s.updateLinked b).1 (s.updateLinked b).2 g ∧
      Flat s₀ out (s.updateLinked b).1 (s.updateLinked b).2.chars := by
  refine updated_updateLinked h hc hb hp hw hplaced (fun hm hx hl hlv hstep hf₁ hf => hf₁.rewrite hm hx hl hlv hstep hf)
    (fun _ _ hf => hf.congr rfl) (fun ctx r hr _ => ?_)
    (fun _ r hr hlr => .inl (.inr (hf.primary_first h hp hr (Tabstop.primary_ne hp hlr).symm).2)) hf
  rw [hf.plain r (h.range_mem hr)]
  rfl

end Session

end Scribe
