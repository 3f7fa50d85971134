import Scribe.Proofs.Session.Moves
import Scribe.Proofs.Session.Rewrite
import Scribe.Proofs.Snippet.Layout

/-!
# Where new tabstops stand

The tabstops of a snippet are followed where the snippet has been put. Their ranges are in the text, one behind
the other.
-/

namespace Scribe

open Position (place after)

namespace TabstopRange

section
variable {value : List Char} {r r' : TabstopRange} {text : List Char} {m : Nat} (hm : m ≤ text.length)
include hm

theorem offsetBy_place (value rest : List Char) {n : Nat} (hn : n ≤ value.length) :
    (place value n).offsetBy (place text m) = place (text.take m ++ value ++ rest) (m + n) := by
  have hlen : (text.take m).length = m := List.length_take_of_le (by omega)
  have hright := Position.place_append_right (text.take m) (value ++ rest) n
  rw [hlen, List.take_append_of_le_length hn, ← List.append_assoc] at hright
  rw [hright, place, Position.offsetBy_after]
  rfl

theorem on_offsetBy (hr : r.range.On value) (rest : List Char) :
    (r.offsetBy (place text m)).range.On (text.take m ++ value ++ rest) := by
  obtain ⟨p, q, hpq, hq, hrange⟩ := hr
  refine ⟨m + p, m + q, by omega, ?_, ?_⟩
  · rw [List.length_append, List.length_append, List.length_take]
    omega
  · show Range.mk (r.range.start.offsetBy _) (r.range.stop.offsetBy _) = _
    rw [hrange, offsetBy_place hm value rest (Nat.le_trans hpq hq), offsetBy_place hm value rest hq]

/-- It is inside of the text of the snippet. -/
theorem within_offsetBy (hr : r.range.On value) :
    (r.offsetBy (place text m)).range.Within ⟨place text m, (place text m).advance value⟩ := by
  obtain ⟨p, q, hpq, hq, hrange⟩ := hr
  have hlen : (text.take m).length = m := List.length_take_of_le (by omega)
  have htext : (text.take m ++ value).length = m + value.length := by rw [List.length_append, hlen]
  have hleft := (Position.place_take_append hm (Nat.le_refl m) value).symm
  have hright : (place text m).advance value = place (text.take m ++ value) (m + value.length) := by
    rw [hleft, ← Position.advance_place _ (Nat.le_add_right m value.length), ← htext, List.take_length,
      List.drop_left' hlen]
  have hoffset : (r.offsetBy (place text m)).range =
      ⟨place (text.take m ++ value) (m + p), place (text.take m ++ value) (m + q)⟩ := by
    show Range.mk (r.range.start.offsetBy _) (r.range.stop.offsetBy _) = _
    have hend := offsetBy_place hm value [] hq
    have hbegin := offsetBy_place hm value [] (Nat.le_trans hpq hq)
    rw [List.append_nil] at hend hbegin
    rw [hrange, hbegin, hend]
  rw [hoffset, hright, hleft, Range.within_place_iff (by omega) (by omega) (by omega) (by omega)]
  omega

theorem stop_le_start_offsetBy (hr : r.range.On value) (hr' : r'.range.On value)
    (h : r.range.stop ≤ r'.range.start) :
    (r.offsetBy (place text m)).range.stop ≤ (r'.offsetBy (place text m)).range.start := by
  obtain ⟨p, q, hpq, hq, hrange⟩ := hr
  obtain ⟨p', q', hpq', hq', hrange'⟩ := hr'
  have hp' := Nat.le_trans hpq' hq'
  rw [hrange, hrange'] at h
  have hle : q ≤ p' := (Position.place_le_iff hq hp').mp h
  show r.range.stop.offsetBy _ ≤ r'.range.start.offsetBy _
  rw [hrange, hrange', offsetBy_place hm value [] hq, offsetBy_place hm value [] hp', Position.place_le_iff]
  · omega
  · rw [List.append_nil, List.length_append, List.length_take]
    omega
  · rw [List.append_nil, List.length_append, List.length_take]
    omega

end

end TabstopRange

namespace Session

variable {s : Session} {b : Buffer} {t : Tabstop} {origin : Position} {linkMirrors : Bool}

/-! ## What is followed -/

theorem forall₂_trackRanges : ∀ (rs : List TabstopRange) (b : Buffer) (nextKey : Nat) (edited : Bool),
    List.Forall₂ (fun r x => x.range = .between (r.offsetBy origin).range.start (r.offsetBy origin).range.stop ∧
      x.transform = r.transform ∧ (x.linked = false → x.transform = none)) rs
      (trackRanges linkMirrors origin b nextKey edited rs).1
  | [], _, _, _ => .nil
  | r :: rest, b, nextKey, edited => by
    rw [trackRanges_cons]
    refine .cons ⟨rfl, rfl, fun hl => ?_⟩ (forall₂_trackRanges rest _ _ _)
    show r.transform = none
    simpa using (Bool.or_eq_false_iff.mp hl).1

/-- Behind a range that is edited all others are linked. -/
theorem linked_trackRanges : ∀ (rs : List TabstopRange) (b : Buffer) (nextKey : Nat) (edited : Bool),
    (∀ r ∈ rs, r.transform = none) →
    (edited = true → ∀ x ∈ (trackRanges true origin b nextKey edited rs).1, x.linked = true) ∧
      (trackRanges true origin b nextKey edited rs).1.Pairwise fun _ y => y.linked = true
  | [], _, _, _, _ => ⟨fun _ x hx => (by cases hx), .nil⟩
  | r :: rest, b, nextKey, edited, hnone => by
    rw [trackRanges_cons]
    have hlinked : (tracked true origin nextKey b.nextMarker edited r).linked = edited := by
      unfold tracked
      simp [hnone r List.mem_cons_self]
    have hedited : (edited || !(tracked true origin nextKey b.nextMarker edited r).linked) = true := by
      rw [hlinked]
      cases edited <;> rfl
    obtain ⟨hall, hpair⟩ := linked_trackRanges rest
      (b.addMarker (tracked true origin nextKey b.nextMarker edited r).range).1 (nextKey + 1)
      (edited || !(tracked true origin nextKey b.nextMarker edited r).linked)
      fun r hr => hnone r (List.mem_cons_of_mem _ hr)
    refine ⟨fun he x hx => ?_, List.pairwise_cons.mpr ⟨hall hedited, hpair⟩⟩
    rcases List.mem_cons.mp hx with rfl | hx
    · exact hlinked.trans he
    · exact hall hedited x hx

theorem mem_trackGroups (keyOf : Nat → Option Nat) : ∀ (groups : List TabstopGroup) (b : Buffer) (key nextKey : Nat),
    t ∈ (trackGroups linkMirrors origin keyOf b key nextKey groups).1 →
    ∃ g ∈ groups, t.id = g.id ∧ key ≤ t.key ∧ ∃ (b' : Buffer) (nextKey' : Nat),
      t.ranges = (trackRanges linkMirrors origin b' nextKey' false g.ranges).1 ∧ t.parents = g.parents.filterMap keyOf
  | [], _, _, _, ht => by cases ht
  | g :: rest, b, key, nextKey, ht => by
    rw [trackGroups_cons] at ht
    rcases List.mem_cons.mp ht with rfl | ht
    · exact ⟨g, List.mem_cons_self, rfl, Nat.le_refl _, b, nextKey, rfl, rfl⟩
    · obtain ⟨g', hg', hid, hkey, h⟩ := mem_trackGroups keyOf rest _ _ _ ht
      exact ⟨g', List.mem_cons_of_mem _ hg', hid, Nat.le_of_succ_le hkey, h⟩

/-- The tabstop follows a group, and has as its parents tabstops of the same snippet, whose keys go from `first` on. -/
structure Tracking (linkMirrors : Bool) (origin : Position) (first : Nat) (g : TabstopGroup) (t : Tabstop) : Prop where
  id : t.id = g.id
  le_key : first ≤ t.key
  ranges : ∃ (b : Buffer) (nextKey : Nat), t.ranges = (trackRanges linkMirrors origin b nextKey false g.ranges).1
  parents : ∃ keyOf : Nat → Option Nat, t.parents = g.parents.filterMap keyOf ∧ ∀ id, ∀ k ∈ keyOf id, first ≤ k

theorem Tracking.le_of_mem_parents {first : Nat} {g : TabstopGroup} (h : Tracking linkMirrors origin first g t)
    {k : Nat} (hk : k ∈ t.parents) : first ≤ k := by
  obtain ⟨keyOf, hp, hle⟩ := h.parents
  rw [hp] at hk
  obtain ⟨id, -, hid⟩ := List.mem_filterMap.mp hk
  exact hle id k hid

theorem mem_addTabstops {groups : List TabstopGroup} (ht : t ∈ (s.addTabstops b groups origin).1.tabstops) :
    t ∈ s.tabstops ∨ ∃ g ∈ groups, Tracking s.linkMirrors origin s.nextKey g t := by
  unfold addTabstops at ht
  dsimp only at ht
  rcases List.mem_append.mp ht with ht | ht
  · rcases List.mem_append.mp ht with ht | ht
    · exact .inl (List.mem_of_mem_take ht)
    · refine .inr ?_
      have hbatch : ∀ tabstops : List Tabstop, t ∈ (if s.tabstops.isEmpty then lastFirst tabstops else tabstops) →
          t ∈ tabstops := by
        intro tabstops ht
        split at ht
        · exact (lastFirst_perm tabstops).mem_iff.mp ht
        · exact ht
      obtain ⟨g, hg, hid, hkey, b', nextKey, hr, hp⟩ := mem_trackGroups _ _ _ _ _ (hbatch _ ht)
      refine ⟨g, hg, hid, hkey, ⟨b', nextKey, hr⟩, _, hp, fun id k hk => ?_⟩
      obtain ⟨place, -, rfl⟩ := Option.map_eq_some_iff.mp hk
      exact Nat.le_add_right _ _
  · exact .inl (List.mem_of_mem_drop ht)

/-! ## Where it is followed -/

section
variable {text value : List Char} {m : Nat} (hm : m ≤ text.length)
include hm

theorem forall₂_range_trackRanges {rs : List TabstopRange} (hon : ∀ r ∈ rs, r.range.On value) (nextKey : Nat)
    (edited : Bool) : List.Forall₂ (fun r x => r.range.On value ∧ x.range = (r.offsetBy (place text m)).range) rs
      (trackRanges linkMirrors (place text m) b nextKey edited rs).1 := by
  refine (List.forall₂_and_left _ _ |>.mpr ⟨hon, forall₂_trackRanges rs b nextKey edited⟩).imp ?_
  rintro r x ⟨hon, hx, -⟩
  refine ⟨hon, ?_⟩
  have hle := (TabstopRange.on_offsetBy hm hon []).start_le_stop
  rw [hx, Range.between, if_neg (Position.not_lt.mpr hle)]

/-- Its ranges stand where the snippet has been put. -/
theorem Tracking.forall₂_range {first : Nat} {g : TabstopGroup} (h : Tracking linkMirrors (place text m) first g t)
    (hon : ∀ r ∈ g.ranges, r.range.On value) :
    List.Forall₂ (fun r x => r.range.On value ∧ x.range = (r.offsetBy (place text m)).range) g.ranges t.ranges := by
  obtain ⟨b, nextKey, hranges⟩ := h.ranges
  rw [hranges]
  exact forall₂_range_trackRanges hm hon nextKey false

theorem Tracking.exists_range {first : Nat} {g : TabstopGroup} (h : Tracking linkMirrors (place text m) first g t)
    (hon : ∀ r ∈ g.ranges, r.range.On value) {x : TrackedRange} (hx : x ∈ t.ranges) :
    ∃ r ∈ g.ranges, r.range.On value ∧ x.range = (r.offsetBy (place text m)).range ∧ x.transform = r.transform ∧
      (x.linked = false → x.transform = none) := by
  obtain ⟨hlen, hget⟩ := List.forall₂_iff_get.mp (h.forall₂_range hm hon)
  obtain ⟨b, nextKey, hranges⟩ := h.ranges
  have hall : List.Forall₂ _ g.ranges t.ranges := hranges ▸ forall₂_trackRanges g.ranges b nextKey false
  obtain ⟨k, hk, rfl⟩ := List.getElem_of_mem hx
  have hk' : k < g.ranges.length := hlen ▸ hk
  obtain ⟨hon, hrange⟩ := hget k hk' hk
  exact ⟨g.ranges.get ⟨k, hk'⟩, List.get_mem _ _, hon, hrange, ((List.forall₂_iff_get.mp hall).2 k hk' hk).2⟩

theorem placed_trackRanges {rs : List TabstopRange} (hg : Expansion.Laid.Group value rs) (rest : List Char)
    (nextKey : Nat) (edited : Bool) :
    (∀ r ∈ (trackRanges linkMirrors (place text m) b nextKey edited rs).1,
      r.range.On (text.take m ++ value ++ rest)) ∧
    (trackRanges linkMirrors (place text m) b nextKey edited rs).1.Pairwise
      fun x y => x.range.stop ≤ y.range.start := by
  have hsame : List.Forall₂ (fun r x => r.range.On value ∧ x.range = (r.offsetBy (place text m)).range) rs
      (trackRanges linkMirrors (place text m) b nextKey edited rs).1 :=
    forall₂_range_trackRanges hm hg.on nextKey edited
  generalize (trackRanges linkMirrors (place text m) b nextKey edited rs).1 = ranges at hsame
  have hordered := hg.ordered
  clear hg
  induction hsame with
  | nil => exact ⟨fun r hr => (by cases hr), .nil⟩
  | @cons r x rs ranges hrx hrest ih =>
    obtain ⟨hon, hpair⟩ := ih (List.pairwise_cons.mp hordered).2
    refine ⟨fun y hy => ?_, List.pairwise_cons.mpr ⟨fun y hy => ?_, hpair⟩⟩
    · rcases List.mem_cons.mp hy with rfl | hy
      · rw [hrx.2]
        exact TabstopRange.on_offsetBy hm hrx.1 rest
      · exact hon y hy
    · obtain ⟨hlen, hget⟩ := List.forall₂_iff_get.mp hrest
      obtain ⟨k, hk, rfl⟩ := List.getElem_of_mem hy
      have hk' : k < rs.length := hlen ▸ hk
      obtain ⟨hon', hy'⟩ : (rs[k]).range.On value ∧ (ranges[k]).range = ((rs[k]).offsetBy (place text m)).range :=
        hget k hk' hk
      have hr' : rs[k] ∈ rs := List.getElem_mem hk'
      rw [hrx.2, hy']
      exact TabstopRange.stop_le_start_offsetBy hm hrx.1 hon' ((List.pairwise_cons.mp hordered).1 _ hr')

/-- New tabstops are placed where the snippet has been put. -/
theorem placed_addTabstops {rest : List Char} (hp : Placed s (text.take m ++ value ++ rest))
    {groups : List TabstopGroup} (hg : ∀ g ∈ groups, Expansion.Laid.Group value g.ranges) :
    Placed (s.addTabstops b groups (place text m)).1 (text.take m ++ value ++ rest) where
  on r hr := by
    obtain ⟨t, ht, hr⟩ := mem_ranges.mp hr
    rcases mem_addTabstops ht with ht | ⟨g, hgm, -, -, ⟨b', nextKey, hranges⟩, -⟩
    · exact hp.on r (mem_ranges.mpr ⟨t, ht, hr⟩)
    · rw [hranges] at hr
      exact (placed_trackRanges hm (hg g hgm) rest nextKey false).1 r hr
  apart t ht := by
    rcases mem_addTabstops ht with ht | ⟨g, hgm, -, -, ⟨b', nextKey, hranges⟩, -⟩
    · exact hp.apart t ht
    · rw [hranges]
      have hpair : (trackRanges s.linkMirrors (place text m) b' nextKey false g.ranges).1.Pairwise
          fun x y => x.range.stop ≤ y.range.start := (placed_trackRanges hm (hg g hgm) rest nextKey false).2
      exact (hpair.filter _).imp .inl

end

end Session

end Scribe
