import Scribe.Proofs.Session.Markers
import Mathlib.Data.List.Pairwise

/-!
# What a change does to a session

A change moves the ranges and drops those that it removes, and the tabstops that are left without a range.
The selected tabstop stays, so a running session runs on, unless the change empties the buffer.
-/

namespace Scribe

namespace Session

/-- The keys in use: those of the tabstops and those of the ranges. -/
def keys (s : Session) : List Nat := s.tabstops.map (·.key) ++ s.ranges.map (·.key)

/-- A session that runs, perhaps without a tabstop selected yet. -/
structure Following (s : Session) (b : Buffer) : Prop where
  active : s.isActive = true
  bound : b.commandsBound = true
  occupied : ∀ t ∈ s.tabstops, t.ranges ≠ []
  nodup : s.keys.Nodup
  lt : ∀ k ∈ s.keys, k < s.nextKey
  marked : Marked b s.ranges

/-- A session that runs, with the tabstop `t` selected. -/
structure Running (s : Session) (b : Buffer) (t : Tabstop) : Prop extends Following s b where
  getElem : s.tabstops[s.index]? = some t
  selectedKey : s.selectedKey = some t.key

/-- A session that does not run. -/
structure Idle (s : Session) (b : Buffer) : Prop where
  inactive : s.isActive = false
  tabstops : s.tabstops = []
  markers : b.markers.entries = []
  unbound : b.commandsBound = false

/-! ## Keys -/

section
variable {s : Session} {b : Buffer} {t : Tabstop}

theorem mem_ranges {r : TrackedRange} : r ∈ s.ranges ↔ ∃ t ∈ s.tabstops, r ∈ t.ranges := List.mem_flatMap

theorem mem_tabstops (h : Running s b t) : t ∈ s.tabstops := List.mem_of_getElem? h.getElem

theorem Running.range_mem (h : Running s b t) {r : TrackedRange} (hr : r ∈ t.ranges) : r ∈ s.ranges :=
  mem_ranges.mpr ⟨t, mem_tabstops h, hr⟩

theorem Running.unique (h : Running s b t) {b' : Buffer} {t' : Tabstop} (h' : Running s b' t') : t = t' :=
  Option.some.inj (h.getElem.symm.trans h'.getElem)

theorem Following.nodup_ranges (h : Following s b) : (s.ranges.map (·.key)).Nodup :=
  (List.nodup_append.mp h.nodup).2.1

theorem Following.range_eq (h : Following s b) {r r' : TrackedRange} (hr : r ∈ s.ranges) (hr' : r' ∈ s.ranges)
    (hk : r.key = r'.key) : r = r' :=
  List.inj_on_of_nodup_map h.nodup_ranges hr hr' hk

/-- The key of a range tells its tabstop. -/
theorem Following.tabstop_eq (h : Following s b) {u u' : Tabstop} (hu : u ∈ s.tabstops) (hu' : u' ∈ s.tabstops)
    {r r' : TrackedRange} (hr : r ∈ u.ranges) (hr' : r' ∈ u'.ranges) (hk : r'.key = r.key) : u' = u := by
  have hnodup := h.nodup_ranges
  rw [ranges, List.map_flatMap, List.nodup_flatMap] at hnodup
  have hsymm : Std.Symm (Function.onFun List.Disjoint fun t : Tabstop => t.ranges.map (·.key)) :=
    ⟨fun _ _ hd _ hx hy => hd hy hx⟩
  by_contra hne
  exact hnodup.2.forall hu' hu hne (List.mem_map_of_mem hr') (hk ▸ List.mem_map_of_mem hr)

theorem Following.tabstop_eq_of_key (h : Following s b) {u u' : Tabstop} (hu : u ∈ s.tabstops) (hu' : u' ∈ s.tabstops)
    (hk : u.key = u'.key) : u = u' :=
  List.inj_on_of_nodup_map (List.nodup_append.mp h.nodup).1 hu hu' hk

theorem eq_of_key (h : Following s b) {i j : Nat} {t t' : Tabstop} (hi : s.tabstops[i]? = some t)
    (hj : s.tabstops[j]? = some t') (hk : t.key = t'.key) : i = j := by
  have hn : (s.tabstops.map (·.key)).Nodup := (List.nodup_append.mp h.nodup).1
  obtain ⟨hi', rfl⟩ := List.getElem?_eq_some_iff.mp hi
  obtain ⟨hj', rfl⟩ := List.getElem?_eq_some_iff.mp hj
  have hlt : i < (s.tabstops.map (·.key)).length := by rwa [List.length_map]
  have hlt' : j < (s.tabstops.map (·.key)).length := by rwa [List.length_map]
  have hget : (s.tabstops.map (·.key))[i] = (s.tabstops.map (·.key))[j] := by simpa using hk
  exact (List.Nodup.getElem_inj_iff hn).mp hget

theorem selected?_eq (h : Running s b t) : s.selected? = some t := by
  unfold selected?
  rw [h.selectedKey, Option.bind_some]
  cases hf : s.tabstops.find? (·.key == t.key) with
  | none =>
    have := List.find?_eq_none.mp hf t (List.mem_of_getElem? h.getElem)
    simp at this
  | some t' =>
    have hk : t'.key = t.key := by simpa using List.find?_some hf
    rw [h.tabstop_eq_of_key (List.mem_of_find?_eq_some hf) (mem_tabstops h) hk]

end

/-! ## Keeping ranges -/

/-- The tabstops without the ranges of these keys, and without those that have no other range. -/
def keepRanges (gone : List Nat) (tabstops : List Tabstop) : List Tabstop :=
  (tabstops.map fun t => { t with ranges := t.ranges.filter fun r => decide (r.key ∉ gone) }).filter
    (!·.ranges.isEmpty)

theorem keepRanges_append (gone : List Nat) (ts ts' : List Tabstop) :
    keepRanges gone (ts ++ ts') = keepRanges gone ts ++ keepRanges gone ts' := by
  simp [keepRanges]

theorem keepRanges_eq_self {gone : List Nat} {ts : List Tabstop} (hne : ∀ t ∈ ts, t.ranges ≠ [])
    (h : ∀ t ∈ ts, ∀ r ∈ t.ranges, r.key ∉ gone) : keepRanges gone ts = ts := by
  have hmap : (ts.map fun t => { t with ranges := t.ranges.filter fun r => decide (r.key ∉ gone) }) = ts := by
    refine (List.map_congr_left fun t ht => ?_).trans (List.map_id ts)
    have : (t.ranges.filter fun r => decide (r.key ∉ gone)) = t.ranges :=
      List.filter_eq_self.mpr fun r hr => by simpa using h t ht r hr
    rw [this]
    rfl
  rw [keepRanges, hmap]
  refine List.filter_eq_self.mpr fun t ht => ?_
  simpa using hne t ht

/-- Only the tabstop in the middle loses ranges. -/
theorem keepRanges_around {gone : List Nat} {before after : List Tabstop} {u : Tabstop}
    (hne : ∀ t ∈ before ++ u :: after, t.ranges ≠ []) (hbefore : ∀ t ∈ before, ∀ r ∈ t.ranges, r.key ∉ gone)
    (hafter : ∀ t ∈ after, ∀ r ∈ t.ranges, r.key ∉ gone) :
    keepRanges gone (before ++ u :: after) = before ++ (keepRanges gone [u] ++ after) := by
  have hcons : u :: after = [u] ++ after := rfl
  rw [hcons, keepRanges_append, keepRanges_append,
    keepRanges_eq_self (fun t ht => hne t (List.mem_append_left _ ht)) hbefore,
    keepRanges_eq_self (fun t ht => hne t (List.mem_append_right _ (List.mem_cons_of_mem _ ht))) hafter]

theorem keepRanges_singleton (key : Nat) (u : Tabstop) : keepRanges [key] [u] =
    if (u.ranges.filter (·.key != key)).isEmpty then [] else [{ u with ranges := u.ranges.filter (·.key != key) }] := by
  have hfilter : (u.ranges.filter fun r => decide (r.key ∉ [key])) = u.ranges.filter (·.key != key) :=
    List.filter_congr fun r _ => by simp [bne, beq_eq_decide]
  rw [keepRanges, List.map_singleton, hfilter, List.filter_singleton]
  cases (u.ranges.filter (·.key != key)).isEmpty <;> rfl

/-- The place of an element once the one between `before` and `after` has been taken out. -/
theorem getElem?_taken {α : Type} {before after : List α} {u t : α} {i : Nat}
    (hget : (before ++ u :: after)[i]? = some t) (hne : i ≠ before.length) :
    (before ++ after)[if before.length < i then i - 1 else i]? = some t := by
  split
  · rw [List.getElem?_append_right (by omega)] at hget ⊢
    rw [← hget, List.getElem?_cons, if_neg (by omega)]
    congr 1
    omega
  · rwa [List.getElem?_append_left (by omega)] at hget ⊢

theorem ranges_keepRanges (gone : List Nat) : ∀ ts : List Tabstop,
    (keepRanges gone ts).flatMap (·.ranges) = (ts.flatMap (·.ranges)).filter fun r => decide (r.key ∉ gone)
  | [] => rfl
  | t :: ts => by
    have ih := ranges_keepRanges gone ts
    rw [← List.singleton_append, keepRanges_append, List.flatMap_append, List.flatMap_append, List.filter_append, ih]
    congr 1
    simp only [keepRanges, List.map_cons, List.map_nil, List.flatMap_cons, List.flatMap_nil, List.append_nil]
    cases hr : t.ranges.filter fun r => decide (r.key ∉ gone) with
    | nil => simp
    | cons r rest => simp

theorem keepRanges_keepRanges (gone gone' : List Nat) (ts : List Tabstop) :
    keepRanges gone' (keepRanges gone ts) = keepRanges (gone ++ gone') ts := by
  induction ts with
  | nil => rfl
  | cons t ts ih =>
    rw [← List.singleton_append, keepRanges_append, keepRanges_append, keepRanges_append, ih]
    congr 1
    simp only [keepRanges, List.map_cons, List.map_nil]
    have hsplit : (t.ranges.filter fun r => decide (r.key ∉ gone ++ gone')) =
        (t.ranges.filter fun r => decide (r.key ∉ gone)).filter fun r => decide (r.key ∉ gone') := by
      rw [List.filter_filter]
      refine List.filter_congr fun r _ => ?_
      simp [List.mem_append, not_or, Bool.and_comm]
    rw [hsplit]
    generalize (t.ranges.filter fun r => decide (r.key ∉ gone)) = ranges
    cases ranges <;> rfl

theorem keepRanges_nil {ts : List Tabstop} (hne : ∀ t ∈ ts, t.ranges ≠ []) : keepRanges [] ts = ts :=
  keepRanges_eq_self hne fun _ _ _ _ => List.not_mem_nil

theorem keys_keepRanges (gone : List Nat) (ts : List Tabstop) :
    ((keepRanges gone ts).map (·.key)).Sublist (ts.map (·.key)) := by
  have hkeys : (ts.map fun t => { t with ranges := t.ranges.filter fun r => decide (r.key ∉ gone) }).map (·.key) =
      ts.map (·.key) := by
    rw [List.map_map]
    rfl
  rw [← hkeys]
  exact List.filter_sublist.map _

/-! ## Removing ranges -/

section
variable {s : Session} {b : Buffer} {t : Tabstop}

theorem running_keepRanges (h : Running s b t) {gone : List Nat} {index : Nat} {markers : Dict Nat Range}
    (hget : (keepRanges gone s.tabstops)[index]? = some t)
    (hm : Marked { b with markers } (s.ranges.filter fun r => decide (r.key ∉ gone))) :
    Running { s with tabstops := keepRanges gone s.tabstops, index } { b with markers } t := by
  have hranges : ({ s with tabstops := keepRanges gone s.tabstops, index } : Session).ranges =
      s.ranges.filter fun r => decide (r.key ∉ gone) := ranges_keepRanges gone s.tabstops
  have hkeys : ({ s with tabstops := keepRanges gone s.tabstops, index } : Session).keys.Sublist s.keys := by
    unfold keys
    rw [hranges]
    exact (keys_keepRanges gone s.tabstops).append (List.filter_sublist.map _)
  exact {
    active := h.active
    bound := h.bound
    occupied := fun t ht => by simpa using (List.mem_filter.mp ht).2
    nodup := h.nodup.sublist hkeys
    lt := fun k hk => h.lt k (hkeys.subset hk)
    marked := hranges ▸ hm
    getElem := hget
    selectedKey := h.selectedKey }

/-- The tabstop that has a range of this key, and those before and after it, which have none. -/
theorem split_of_key (h : Following s b) {key place : Nat}
    (hplace : s.tabstops.findIdx? (fun t => t.ranges.any (·.key == key)) = some place) :
    ∃ before u after, s.tabstops = before ++ u :: after ∧ before.length = place ∧ (∃ r ∈ u.ranges, r.key = key) ∧
      (∀ t ∈ before, ∀ r ∈ t.ranges, r.key ∉ [key]) ∧ ∀ t ∈ after, ∀ r ∈ t.ranges, r.key ∉ [key] := by
  obtain ⟨hlt, hhas, -⟩ := List.findIdx?_eq_some_iff_getElem.mp hplace
  obtain ⟨before, u, after, hts, hlen, r, hr, hrk⟩ : ∃ before u after, s.tabstops = before ++ u :: after ∧
      before.length = place ∧ ∃ r ∈ u.ranges, r.key = key := by
    refine ⟨s.tabstops.take place, s.tabstops[place], s.tabstops.drop (place + 1), ?_, ?_, ?_⟩
    · rw [← List.drop_eq_getElem_cons hlt, List.take_append_drop]
    · rw [List.length_take]
      omega
    · simpa using hhas
  have hnodup := h.nodup_ranges
  rw [ranges, hts, List.flatMap_append, List.flatMap_cons, List.map_append, List.map_append] at hnodup
  have hmem : key ∈ u.ranges.map (·.key) := List.mem_map.mpr ⟨r, hr, hrk⟩
  refine ⟨before, u, after, hts, hlen, ⟨r, hr, hrk⟩, fun t ht r hr hk => ?_, fun t ht r hr hk => ?_⟩
  · exact List.disjoint_of_nodup_append hnodup
      (List.mem_map.mpr ⟨r, List.mem_flatMap.mpr ⟨t, ht, hr⟩, List.mem_singleton.mp hk⟩)
      (List.mem_append_left _ hmem)
  · exact List.disjoint_of_nodup_append (List.nodup_append.mp hnodup).2.1 hmem
      (List.mem_map.mpr ⟨r, List.mem_flatMap.mpr ⟨t, ht, hr⟩, List.mem_singleton.mp hk⟩)

/-- Without the markers of the ranges of this key, which are all in `u`. -/
theorem marked_without (h : Following s b) {key : Nat} {before after : List Tabstop} {u : Tabstop}
    (hts : s.tabstops = before ++ u :: after) (hbefore : ∀ t ∈ before, ∀ r ∈ t.ranges, r.key ∉ [key])
    (hafter : ∀ t ∈ after, ∀ r ∈ t.ranges, r.key ∉ [key]) :
    Marked (removeMarkers b (u.ranges.filter (·.key == key)))
      (s.ranges.filter fun r => decide (r.key ∉ [key])) := by
  have hnil : ∀ ts : List Tabstop, (∀ t ∈ ts, ∀ r ∈ t.ranges, r.key ∉ [key]) →
      (ts.flatMap (·.ranges)).filter (·.key == key) = [] := by
    intro ts hts
    refine List.filter_eq_nil_iff.mpr fun r hr => ?_
    obtain ⟨t, ht, hr⟩ := List.mem_flatMap.mp hr
    simpa using hts t ht r hr
  have hgone : s.ranges.filter (·.key == key) = u.ranges.filter (·.key == key) := by
    rw [ranges, hts, List.flatMap_append, List.flatMap_cons, List.filter_append, List.filter_append, hnil _ hbefore,
      hnil _ hafter, List.nil_append, List.append_nil]
  refine marked_removeMarkers (h.marked.of_perm ?_)
  rw [← hgone]
  refine (List.filter_append_perm (·.key == key) s.ranges).symm.trans (.of_eq ?_)
  congr 1
  exact List.filter_congr fun r _ => by simp [beq_eq_decide]

/-- Without a range of this key nothing is lost. -/
theorem running_of_missing (h : Running s b t) {key : Nat} (hnone : ∀ t ∈ s.tabstops, ∀ r ∈ t.ranges, r.key ∉ [key]) :
    Running { s with tabstops := keepRanges [key] s.tabstops } b t := by
  have hself := keepRanges_eq_self h.occupied hnone
  have hranges : (s.ranges.filter fun r => decide (r.key ∉ [key])) = s.ranges := by
    refine List.filter_eq_self.mpr fun r hr => ?_
    obtain ⟨t, ht, hr⟩ := mem_ranges.mp hr
    simpa using hnone t ht r hr
  exact running_keepRanges h (hself.symm ▸ h.getElem) (hranges.symm ▸ h.marked)

/-- The tabstop `u` has lost its last range, and goes. -/
theorem dropTabstop_eq (h : Running s b t) {before after : List Tabstop} {u : Tabstop}
    (hts : s.tabstops = before ++ u :: after) (hne : s.index ≠ before.length) :
    ∃ index, s.dropTabstop before.length u = { s with tabstops := before ++ after, index } ∧
      (before ++ after)[index]? = some t := by
  have hu : s.tabstops[before.length]? = some u := by rw [hts]; simp
  have hkey : s.selectedKey ≠ some u.key := by
    rw [h.selectedKey]
    exact fun he => hne (eq_of_key h.toFollowing h.getElem hu (Option.some.inj he))
  have herase : s.tabstops.eraseIdx before.length = before ++ after := by
    rw [hts, List.eraseIdx_append_of_length_le (Nat.le_refl _), Nat.sub_self]
    rfl
  refine ⟨_, ?_, getElem?_taken (hts ▸ h.getElem) hne⟩
  rw [dropTabstop, if_neg hkey, herase]

theorem removeRange_eq (h : Running s b t) {key : Nat} (hk : ∀ r ∈ t.ranges, r.key ≠ key) :
    ∃ index markers, s.removeRange b key =
        ({ s with tabstops := keepRanges [key] s.tabstops, index }, { b with markers }) ∧
      Running { s with tabstops := keepRanges [key] s.tabstops, index } { b with markers } t := by
  unfold removeRange
  cases hplace : s.tabstops.findIdx? fun t => t.ranges.any (·.key == key) with
  | none =>
    have hnone : ∀ t ∈ s.tabstops, ∀ r ∈ t.ranges, r.key ∉ [key] := by
      intro t ht r hr hm
      have := List.findIdx?_eq_none_iff.mp hplace t ht
      simp only [List.any_eq_false, beq_iff_eq] at this
      exact this r hr (List.mem_singleton.mp hm)
    refine ⟨s.index, b.markers, ?_, running_of_missing h hnone⟩
    rw [keepRanges_eq_self h.occupied hnone]
  | some place =>
    obtain ⟨before, u, after, hts, rfl, ⟨r, hr, hrk⟩, hbefore, hafter⟩ := split_of_key h.toFollowing hplace
    have hkeep : keepRanges [key] s.tabstops = before ++ (keepRanges [key] [u] ++ after) :=
      hts ▸ keepRanges_around (hts ▸ h.occupied) hbefore hafter
    have hmarked := marked_without h.toFollowing hts hbefore hafter
    have hu : s.tabstops[before.length]? = some u := by rw [hts]; simp
    have hne : s.index ≠ before.length := by
      intro he
      rw [← he, h.getElem] at hu
      exact hk r (Option.some.inj hu ▸ hr) hrk
    rw [removeMarkers_eq] at hmarked
    dsimp only
    rw [hu]
    dsimp only
    by_cases hempty : (u.ranges.filter (·.key != key)).isEmpty = true
    · obtain ⟨index, hdrop, hget⟩ := dropTabstop_eq h hts hne
      have hrest : keepRanges [key] s.tabstops = before ++ after := by
        rw [hkeep, keepRanges_singleton, if_pos hempty, List.nil_append]
      have hoccupied : (before ++ after).isEmpty = false := by
        cases hnil : before ++ after with
        | nil => rw [hnil] at hget; cases hget
        | cons => rfl
      refine ⟨index, _, ?_, running_keepRanges h (hrest ▸ hget) hmarked⟩
      rw [if_pos hempty, hdrop, hrest]
      simp only [hoccupied, Bool.false_eq_true, if_false, removeMarkers_eq]
    · have hset : s.tabstops.set before.length { u with ranges := u.ranges.filter (·.key != key) } =
          keepRanges [key] s.tabstops := by
        rw [hkeep, keepRanges_singleton, if_neg hempty, hts, List.set_append_right _ _ (Nat.le_refl _), Nat.sub_self]
        rfl
      have hget : (keepRanges [key] s.tabstops)[s.index]? = some t := by
        rw [← hset, List.getElem?_set_ne hne.symm]
        exact h.getElem
      refine ⟨_, _, ?_, running_keepRanges h hget hmarked⟩
      rw [if_neg hempty, hset, removeMarkers_eq]

theorem removeRanges_eq : ∀ (gone : List Nat) {s : Session} {b : Buffer}, Running s b t →
    (∀ r ∈ t.ranges, r.key ∉ gone) →
    ∃ index markers, s.removeRanges b gone =
        ({ s with tabstops := keepRanges gone s.tabstops, index }, { b with markers }) ∧
      Running { s with tabstops := keepRanges gone s.tabstops, index } { b with markers } t
  | [], s, b, h, _ => by
    refine ⟨s.index, b.markers, ?_, ?_⟩
    · rw [keepRanges_nil h.occupied]
      rfl
    · rw [keepRanges_nil h.occupied]
      exact h
  | key :: rest, s, b, h, hk => by
    have hkey : ∀ r ∈ t.ranges, r.key ≠ key := fun r hr hrk => hk r hr (List.mem_cons.mpr (.inl hrk))
    obtain ⟨index, markers, he, hr⟩ := removeRange_eq h hkey
    obtain ⟨index', markers', he', hr'⟩ := removeRanges_eq rest hr fun r hr hm =>
      hk r hr (List.mem_cons_of_mem _ hm)
    have hgone : keepRanges rest (keepRanges [key] s.tabstops) = keepRanges (key :: rest) s.tabstops :=
      keepRanges_keepRanges [key] rest s.tabstops
    dsimp only at he' hr'
    rw [hgone] at he' hr'
    refine ⟨index', markers', ?_, hr'⟩
    rw [removeRanges, he]
    exact he'

/-! ## Ending -/

theorem isActive_detach (s : Session) (b : Buffer) : (s.detach b).1.isActive = false := by
  unfold detach
  split
  · rename_i ha
    simpa using ha
  · rfl

theorem detach_eq (h : Following s b) : s.detach b =
    ({ s with tabstops := [], index := 0, selectedKey := none, isActive := false, inChange := false },
      { b with markers := ⟨[]⟩, commandsBound := false }) := by
  have hgone : (b.markers.entries.filter fun e => decide (e.1 ∉ s.ranges.filterMap (·.marker))) = [] := by
    refine List.filter_eq_nil_iff.mpr fun e he => ?_
    have hmem : some e.1 ∈ s.ranges.map (·.marker) :=
      h.marked.markers_perm.mem_iff.mpr (List.mem_map_of_mem (List.mem_map_of_mem he))
    obtain ⟨r, hr, hm⟩ := List.mem_map.mp hmem
    simpa using ⟨r, hr, hm⟩
  unfold detach
  rw [h.active, removeMarkers_eq, hgone]
  rfl

theorem idle_detach (h : Following s b) : Idle (s.detach b).1 (s.detach b).2 := by
  rw [detach_eq h]
  exact ⟨rfl, rfl, rfl, rfl⟩

/-! ## Changes -/

/-- The keys of the tabstops around the selected one. -/
def around (s : Session) : List Nat := (s.selected?.map (·.parents)).getD []

/-- The keys of the ranges that a change removes. -/
def dropped (s : Session) (d : Delta) : List Nat := s.tabstops.flatMap (s.swallowed s.around d)

/-- The tabstops after a change. -/
def changed (s : Session) (d : Delta) : List Tabstop :=
  keepRanges (s.dropped d) (s.tabstops.map (s.shiftTabstop s.around d))

theorem map_ranges_shiftTabstop {β : Type} (s : Session) (parents : List Nat) (d : Delta) (t : Tabstop)
    (f : TrackedRange → β) (hf : ∀ r absorbs, f (r.shift d absorbs) = f r) :
    (s.shiftTabstop parents d t).ranges.map f = t.ranges.map f := by
  simp only [shiftTabstop, List.map_map]
  exact List.map_congr_left fun r _ => hf r _

theorem map_ranges_shift {β : Type} (s : Session) (parents : List Nat) (d : Delta)
    (f : TrackedRange → β) (hf : ∀ r absorbs, f (r.shift d absorbs) = f r) (ts : List Tabstop) :
    ((ts.map (s.shiftTabstop parents d)).flatMap (·.ranges)).map f = (ts.flatMap (·.ranges)).map f := by
  rw [List.flatMap_map, List.map_flatMap, List.map_flatMap]
  congr 1
  funext t
  exact map_ranges_shiftTabstop s parents d t f hf

/-- Moving the ranges with their markers keeps the session running. -/
theorem running_shift (h : Running s b t) (d : Delta) (parents : List Nat) :
    Running { s with tabstops := s.tabstops.map (s.shiftTabstop parents d) }
      (moveMarkers b s.ranges ({ s with tabstops := s.tabstops.map (s.shiftTabstop parents d) } : Session).ranges)
      (s.shiftTabstop parents d t) := by
  have hkeys : ({ s with tabstops := s.tabstops.map (s.shiftTabstop parents d) } : Session).keys = s.keys := by
    unfold keys ranges
    rw [map_ranges_shift s parents d (·.key) (fun _ _ => rfl), List.map_map]
    rfl
  have hmarks := map_ranges_shift s parents d (·.marker) (fun _ _ => rfl) s.tabstops
  have hmarked := marked_moveMarkers s.ranges
    ({ s with tabstops := s.tabstops.map (s.shiftTabstop parents d) } : Session).ranges [] h.marked hmarks.symm
  obtain ⟨markers, he⟩ := moveMarkers_eq s.ranges
    ({ s with tabstops := s.tabstops.map (s.shiftTabstop parents d) } : Session).ranges b
  exact {
    active := h.active
    bound := by rw [he]; exact h.bound
    occupied := fun t' ht' => by
      obtain ⟨t, ht, rfl⟩ := List.mem_map.mp ht'
      have := h.occupied t ht
      simpa [shiftTabstop] using this
    nodup := hkeys ▸ h.nodup
    lt := hkeys ▸ h.lt
    marked := hmarked
    getElem := by
      rw [List.getElem?_map, h.getElem]
      rfl
    selectedKey := h.selectedKey }

theorem not_mem_dropped (h : Running s b t) (d : Delta) : ∀ r ∈ t.ranges, r.key ∉ s.dropped d := by
  intro r hr hm
  obtain ⟨u, hu, hm⟩ := List.mem_flatMap.mp hm
  unfold swallowed at hm
  split at hm
  · rename_i hcond
    obtain ⟨r', hr', hk⟩ := List.mem_map.mp hm
    obtain rfl := h.tabstop_eq (mem_tabstops h) hu hr (List.mem_filter.mp hr').1 hk
    exact hcond.2 h.selectedKey
  · cases hm

theorem onChange_def (s : Session) (b : Buffer) (d : Delta) : s.onChange b d =
    let moved : Session := { s with tabstops := s.tabstops.map (s.shiftTabstop s.around d) }
    let result := moved.removeRanges (moveMarkers b s.ranges moved.ranges) (s.dropped d)
    if !result.1.inChange && d.action = .remove && result.2.isEmpty then result.1.detach result.2
    else result := rfl

/-- A change moves the ranges and drops some; if it empties the buffer the session ends. -/
theorem onChange_eq (h : Running s b t) (d : Delta) : ∃ index markers,
    Running { s with tabstops := s.changed d, index } { b with markers } (s.shiftTabstop s.around d t) ∧
      s.onChange b d =
        if !s.inChange && d.action = .remove && b.isEmpty then
          ({ s with tabstops := s.changed d, index } : Session).detach { b with markers }
        else ({ s with tabstops := s.changed d, index }, { b with markers }) := by
  have hshift := running_shift h d s.around
  obtain ⟨markers, he⟩ := moveMarkers_eq s.ranges
    ({ s with tabstops := s.tabstops.map (s.shiftTabstop s.around d) } : Session).ranges b
  have hkeep : ∀ r ∈ (s.shiftTabstop s.around d t).ranges, r.key ∉ s.dropped d := by
    intro r hr
    have hk := List.mem_map_of_mem (f := (·.key)) hr
    rw [map_ranges_shiftTabstop s s.around d t (·.key) fun _ _ => rfl] at hk
    obtain ⟨r', hr', hk⟩ := List.mem_map.mp hk
    rw [← hk]
    exact not_mem_dropped h d r' hr'
  obtain ⟨index, markers', hremove, hrun⟩ := removeRanges_eq (s.dropped d) hshift hkeep
  rw [he] at hremove hrun
  refine ⟨index, markers', hrun, ?_⟩
  rw [onChange_def]
  dsimp only
  rw [he, hremove]
  rfl

end

end Session

end Scribe
