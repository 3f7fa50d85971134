import Scribe.Proofs.Session.Change

/-!
# Adding tabstops and moving between them

The tabstops of a snippet get new keys and new markers. Moving selects a tabstop that there is, and ends the
session at the first one.
-/

namespace Scribe

namespace Session

variable {s : Session} {b : Buffer}

/-! ## Moving -/

theorem setSelections_eq (b : Buffer) (new : List Selection) :
    ∃ selections, b.setSelections new = { b with selections } := by
  unfold Buffer.setSelections
  split
  · exact ⟨b.selections, rfl⟩
  · exact ⟨_, rfl⟩

theorem selectTabstop_eq {place : Nat} {t : Tabstop} (ht : s.tabstops[place]? = some t) (hne : t.ranges ≠ []) :
    ∃ selections completions, s.selectTabstop b place =
      ({ s with index := place, selectedKey := some t.key }, { b with selections, completions }) := by
  obtain ⟨primary, hp⟩ : ∃ r, (t.primary? <|> t.ranges.head?) = some r := by
    cases hpr : t.primary? with
    | some r => exact ⟨r, rfl⟩
    | none =>
      cases hr : t.ranges with
      | nil => exact absurd hr hne
      | cons r rest => exact ⟨r, rfl⟩
  obtain ⟨selections, hsel⟩ := setSelections_eq b (selectionsOf t primary)
  have hsel' : Editor.setSelections b (selectionsOf t primary) = { b with selections } := hsel
  unfold selectTabstop
  simp only [ht, hp, hsel']
  cases t.choices with
  | none => exact ⟨selections, b.completions, rfl⟩
  | some choices => exact ⟨selections, choices, rfl⟩

theorem placeAfter_lt (s : Session) (step : Int) (h : s.tabstops ≠ []) :
    s.placeAfter step < s.tabstops.length := by
  have hpos := List.length_pos_iff.mpr h
  unfold placeAfter
  dsimp only
  generalize max (s.index + (if step = 0 then 1 else step)).toNat 1 = place
  split <;> omega

theorem running_select (h : Following s b) {place : Nat} {t : Tabstop} (ht : s.tabstops[place]? = some t)
    (selections : List Selection) (completions : List String) :
    Running { s with index := place, selectedKey := some t.key } { b with selections, completions } t where
  active := h.active
  bound := h.bound
  occupied := h.occupied
  nodup := h.nodup
  lt := h.lt
  marked := h.marked.same ⟨rfl, rfl⟩
  getElem := ht
  selectedKey := rfl

/-- Moving selects the tabstop at the place that the step leads to; the first one ends the session. -/
theorem tabNext_eq (h : Following s b) (hne : s.tabstops ≠ []) (step : Int) :
    ∃ t selections completions, s.tabstops[s.placeAfter step]? = some t ∧
      Running { s with index := s.placeAfter step, selectedKey := some t.key }
        { b with selections, completions } t ∧
      s.tabNext b step =
        if s.placeAfter step = 0 then
          ({ s with index := s.placeAfter step, selectedKey := some t.key } : Session).detach
            { b with selections, completions }
        else ({ s with index := s.placeAfter step, selectedKey := some t.key },
          { b with selections, completions }) := by
  have hlt := s.placeAfter_lt step hne
  have ht := List.getElem?_eq_getElem hlt
  obtain ⟨selections, completions, hsel⟩ := selectTabstop_eq (b := b) ht (h.occupied _ (List.getElem_mem hlt))
  refine ⟨_, selections, completions, ht, running_select h ht selections completions, ?_⟩
  unfold tabNext
  have hgo : (!s.isActive || s.tabstops.isEmpty) = false := by
    rw [h.active]
    simpa using hne
  simp only [hgo, Bool.false_eq_true, if_false, hsel]

/-! ## Following new tabstops -/

section
variable (linkMirrors : Bool) (origin : Position)

/-- How the first range of a tabstop is followed. -/
def tracked (nextKey marker : Nat) (edited : Bool) (r : TabstopRange) : TrackedRange where
  key := nextKey
  range := Range.between (r.offsetBy origin).range.start (r.offsetBy origin).range.stop
  linked := r.transform.isSome || (linkMirrors && edited)
  transform := r.transform
  marker := some marker

theorem trackRanges_cons (b : Buffer) (nextKey : Nat) (edited : Bool) (r : TabstopRange)
    (rest : List TabstopRange) :
    trackRanges linkMirrors origin b nextKey edited (r :: rest) =
      let first := tracked linkMirrors origin nextKey b.nextMarker edited r
      let result := trackRanges linkMirrors origin (b.addMarker first.range).1 (nextKey + 1)
        (edited || !first.linked) rest
      (first :: result.1, result.2.1, result.2.2) := rfl

theorem trackRanges_marked : ∀ (rs : List TabstopRange) (b : Buffer) (nextKey : Nat) (edited : Bool)
    (old : List TrackedRange), Marked b old →
    ∃ ranges markers nextMarker, trackRanges linkMirrors origin b nextKey edited rs =
        (ranges, { b with markers, nextMarker }, nextKey + rs.length) ∧
      Marked { b with markers, nextMarker } (old ++ ranges) ∧
      ranges.map (·.key) = List.range' nextKey rs.length
  | [], b, nextKey, _, old, h => ⟨[], b.markers, b.nextMarker, rfl, by simpa using h, rfl⟩
  | r :: rest, b, nextKey, edited, old, h => by
    have hadd := h.add (tracked linkMirrors origin nextKey b.nextMarker edited r) rfl
    obtain ⟨ranges, markers, nextMarker, he, hm, hk⟩ := trackRanges_marked rest _
      (nextKey + 1) (edited || !(tracked linkMirrors origin nextKey b.nextMarker edited r).linked) _ hadd
    refine ⟨tracked linkMirrors origin nextKey b.nextMarker edited r :: ranges, markers, nextMarker, ?_, ?_, ?_⟩
    · have hlen : nextKey + (r :: rest).length = nextKey + 1 + rest.length := by
        rw [List.length_cons]; omega
      rw [hlen, trackRanges_cons]
      dsimp only
      rw [he]
      rfl
    · rwa [List.append_assoc, List.singleton_append] at hm
    · rw [List.map_cons, hk]
      rfl

variable (keyOf : Nat → Option Nat)

theorem trackGroups_cons (b : Buffer) (key nextKey : Nat) (g : TabstopGroup) (rest : List TabstopGroup) :
    trackGroups linkMirrors origin keyOf b key nextKey (g :: rest) =
      let first := trackRanges linkMirrors origin b nextKey false g.ranges
      let result := trackGroups linkMirrors origin keyOf first.2.1 (key + 1) first.2.2 rest
      ({ key, id := g.id, ranges := first.1, choices := g.choices, parents := g.parents.filterMap keyOf } ::
        result.1, result.2.1, result.2.2) := rfl

/-- The tabstops get keys from `key` on, and their ranges keys from `nextKey` on. -/
theorem trackGroups_marked : ∀ (groups : List TabstopGroup) (b : Buffer) (key nextKey : Nat)
    (old : List TrackedRange), Marked b old →
    ∃ tabstops markers nextMarker count, trackGroups linkMirrors origin keyOf b key nextKey groups =
        (tabstops, { b with markers, nextMarker }, nextKey + count) ∧
      Marked { b with markers, nextMarker } (old ++ tabstops.flatMap (·.ranges)) ∧
      tabstops.map (·.key) = List.range' key groups.length ∧
      (tabstops.flatMap (·.ranges)).map (·.key) = List.range' nextKey count ∧
      ((∀ g ∈ groups, g.ranges ≠ []) → ∀ t ∈ tabstops, t.ranges ≠ [])
  | [], b, key, nextKey, old, h =>
    ⟨[], b.markers, b.nextMarker, 0, rfl, by simpa using h, rfl, rfl, fun _ _ ht => by cases ht⟩
  | g :: rest, b, key, nextKey, old, h => by
    obtain ⟨ranges, markers, nextMarker, he, hm, hk⟩ :=
      trackRanges_marked linkMirrors origin g.ranges b nextKey false old h
    obtain ⟨tabstops, markers', nextMarker', count, he', hm', hk', hr', hne'⟩ :=
      trackGroups_marked rest _ (key + 1) (nextKey + g.ranges.length) _ hm
    let first : Tabstop :=
      { key, id := g.id, ranges, choices := g.choices, parents := g.parents.filterMap keyOf }
    refine ⟨first :: tabstops, markers', nextMarker', g.ranges.length + count, ?_, ?_, ?_, ?_, ?_⟩
    · rw [trackGroups_cons]
      dsimp only
      rw [he, ← Nat.add_assoc]
      dsimp only
      rw [he']
    · rw [List.flatMap_cons, ← List.append_assoc]
      exact hm'
    · rw [List.map_cons, hk']
      rfl
    · rw [List.flatMap_cons, List.map_append, hr', hk, List.range'_append_1]
    · intro hne t ht
      rcases List.mem_cons.mp ht with rfl | ht
      · intro hnil
        have hlen := congrArg List.length hk
        rw [List.length_map, show ranges = [] from hnil, List.length_nil, List.length_range'] at hlen
        exact hne g List.mem_cons_self (List.length_eq_zero_iff.mp hlen.symm)
      · exact hne' (fun g hg => hne g (List.mem_cons_of_mem _ hg)) t ht

end

/-! ## Adding tabstops -/

theorem lastFirst_perm {α : Type} (xs : List α) : (lastFirst xs).Perm xs := by
  unfold lastFirst
  cases h : xs.getLast? with
  | none => rw [List.getLast?_eq_none_iff.mp h]; exact .nil
  | some x =>
    obtain ⟨front, rfl⟩ := List.getLast?_eq_some_iff.mp h
    rw [List.dropLast_concat]
    exact List.perm_append_comm

theorem addTabstops_eq (h : Following s b) {groups : List TabstopGroup} (hne : ∀ g ∈ groups, g.ranges ≠ [])
    (origin : Position) : ∃ batch markers nextMarker nextKey,
    s.addTabstops b groups origin =
      ({ s with tabstops := s.tabstops.take (s.index + 1) ++ batch ++ s.tabstops.drop (s.index + 1), nextKey },
        { b with markers, nextMarker }) ∧
    batch.length = groups.length ∧
    Following { s with tabstops := s.tabstops.take (s.index + 1) ++ batch ++ s.tabstops.drop (s.index + 1), nextKey }
      { b with markers, nextMarker } := by
  obtain ⟨tabstops, markers, nextMarker, count, he, hm, hk, hr, hocc⟩ :=
    trackGroups_marked s.linkMirrors origin (fun id => (groups.findIdx? (·.id == id)).map (s.nextKey + ·)) groups
      b s.nextKey (s.nextKey + groups.length) s.ranges h.marked
  let batch := if s.tabstops.isEmpty then lastFirst tabstops else tabstops
  have hbatch : batch.Perm tabstops := by
    unfold batch
    split
    · exact lastFirst_perm tabstops
    · exact .refl _
  refine ⟨batch, markers, nextMarker, s.nextKey + groups.length + count, ?_, ?_, ?_⟩
  · unfold addTabstops
    dsimp only
    rw [he]
  · rw [hbatch.length_eq, ← List.length_map (f := (·.key)), hk, List.length_range']
  · -- In some order these are the old tabstops and the new ones.
    have hperm : (s.tabstops.take (s.index + 1) ++ batch ++ s.tabstops.drop (s.index + 1)).Perm
        (s.tabstops ++ tabstops) := by
      refine .trans ?_ (hbatch.append_left s.tabstops)
      conv => rhs; rw [← List.take_append_drop (s.index + 1) s.tabstops]
      rw [List.append_assoc, List.append_assoc]
      exact List.perm_append_comm.append_left _
    let new : Session :=
      { s with
        tabstops := s.tabstops.take (s.index + 1) ++ batch ++ s.tabstops.drop (s.index + 1)
        nextKey := s.nextKey + groups.length + count }
    have hranges : new.ranges.Perm (s.ranges ++ tabstops.flatMap (·.ranges)) :=
      (hperm.flatMap_right Tabstop.ranges).trans (.of_eq List.flatMap_append)
    have hkeys : new.keys.Perm (s.keys ++ List.range' s.nextKey (groups.length + count)) := by
      refine ((hperm.map (·.key)).append (hranges.map (·.key))).trans ?_
      rw [List.map_append, List.map_append, hk, hr, ← List.range'_append_1, keys]
      rw [List.append_assoc, List.append_assoc]
      refine List.Perm.append_left _ ?_
      rw [← List.append_assoc, ← List.append_assoc]
      exact List.perm_append_comm.append_right _
    exact {
      active := h.active
      bound := h.bound
      occupied := fun t ht => by
        rcases List.mem_append.mp (hperm.mem_iff.mp ht) with ht | ht
        · exact h.occupied t ht
        · exact hocc hne t ht
      nodup := by
        refine hkeys.nodup_iff.mpr (List.nodup_append.mpr ⟨h.nodup, List.nodup_range', fun k hk k' hk' he => ?_⟩)
        have hlt := h.lt k hk
        have hge := (List.mem_range'_1.mp hk').1
        omega
      lt := fun k hk => by
        show k < s.nextKey + groups.length + count
        rcases List.mem_append.mp (hkeys.mem_iff.mp hk) with hk | hk
        · have := h.lt k hk
          omega
        · have := (List.mem_range'_1.mp hk).2
          omega
      marked := hm.of_perm hranges.symm }

end Session

end Scribe
