import Scribe.Proofs.Session.Begun
import Scribe.Proofs.Session.Told

/-!
# Snippets inside of a range

A snippet is nested in the range that gets its text. No tabstop around it is among the parents of its tabstops, so that
range leaves what is inserted at its ends, and a nested range that takes it gets out.
-/

namespace Scribe

open Position (place)

theorem Buffer.chars_of_isEmpty {b : Buffer} (h : b.isEmpty = true) : b.chars = [] := by
  unfold isEmpty line at h
  rw [Bool.and_eq_true, beq_iff_eq] at h
  obtain ⟨hsize, hline⟩ := h
  obtain ⟨row, hrow⟩ := List.length_eq_one_iff.mp (Array.length_toList.trans hsize)
  have hget : b.lines[0]? = some row := by
    rw [← Array.getElem?_toList, hrow]
    rfl
  rw [hget, Option.getD_some, List.isEmpty_iff] at hline
  rw [chars, text, hrow]
  simpa [Text.joinLines, Text.joinWith] using hline

namespace Session

variable {s : Session} {b : Buffer} {t : Tabstop} {d : Delta} {text text' : List Char} {first k : Nat}

/-- The range of this key is still followed, and those of all tabstops with keys from `first` on are inside of it. -/
def Nests (s : Session) (first k : Nat) : Prop :=
  ∃ x ∈ s.ranges, x.key = k ∧ ∀ t ∈ s.tabstops, first ≤ t.key → ∀ r ∈ t.ranges, r.range.Within x.range

instance (s : Session) (first k : Nat) : Decidable (s.Nests first k) :=
  inferInstanceAs (Decidable (∃ x ∈ s.ranges, _))

/-- A text is inserted where the range of this key begins or ends. -/
def InsertsAtEnd (s : Session) (d : Delta) (k : Nat) : Prop :=
  d.action = .insert ∧ d.text ≠ "" ∧ ∃ x ∈ s.ranges, x.key = k ∧ (x.range.start = d.start ∨ x.range.stop = d.start)

instance (s : Session) (d : Delta) (k : Nat) : Decidable (s.InsertsAtEnd d k) :=
  inferInstanceAs (Decidable (_ ∧ _))

/-- The range of this key is that of an older tabstop, which is no parent of those with keys from `first` on. -/
structure Older (s : Session) (first k : Nat) : Prop where
  followed : ∃ u ∈ s.tabstops, u.key < first ∧ ∃ x ∈ u.ranges, x.key = k
  parents : ∀ t ∈ s.tabstops, first ≤ t.key → ∀ q ∈ t.parents, first ≤ q

theorem Nests.congr {s' : Session} (h : s.Nests first k) (he : s'.tabstops = s.tabstops) : s'.Nests first k := by
  unfold Nests ranges at h ⊢
  rwa [he]

theorem Older.congr {s' : Session} (h : s.Older first k) (he : s'.tabstops = s.tabstops) : s'.Older first k := by
  refine ⟨?_, ?_⟩ <;> rw [he]
  · exact h.followed
  · exact h.parents

theorem primary?_shiftTabstop {p : TrackedRange} (hp : t.primary? = some p) (d : Delta) :
    (s.shiftTabstop s.around d t).primary? = some (p.shift d (s.takes d t p)) := by
  rw [shiftTabstop_eq]
  unfold Tabstop.primary? at hp ⊢
  rw [List.find?_map]
  show (t.ranges.find? (!·.linked)).map _ = _
  rw [hp]
  rfl

/-! ## Changes in a nested tabstop -/

section
variable (h : Running s b t) (hfirst : first ≤ t.key)
include h hfirst

/-- An older tabstop is neither the selected one nor around it. -/
theorem not_mem_around_older (hparents : ∀ q ∈ t.parents, first ≤ q) {u : Tabstop} (hu : u.key < first) :
    s.selectedKey ≠ some u.key ∧ u.key ∉ s.around := by
  rw [h.selectedKey, around, selected?_eq h]
  refine ⟨fun he => ?_, fun hmem => ?_⟩
  · have := Option.some.inj he
    omega
  · have := hparents _ hmem
    omega

theorem takes_older (hparents : ∀ q ∈ t.parents, first ≤ q) {u : Tabstop} (hu : u.key < first) (d : Delta)
    (x : TrackedRange) : s.takes d u x = false := by
  obtain ⟨hne, hout⟩ := not_mem_around_older h hfirst hparents hu
  unfold takes owns
  simp [hne, hout]

/-- No change in a nested tabstop removes the range around it. -/
theorem not_mem_dropped_older (happ : Delta.Applies text d text') {r : TrackedRange} (hstart : r.range.start ≤ d.start)
    (hparents : ∀ q ∈ t.parents, first ≤ q) {u : Tabstop} (hmem : u ∈ s.tabstops) (hu : u.key < first)
    {x : TrackedRange} (hx : x ∈ u.ranges) (hin : r.range.Within x.range) : x.key ∉ s.dropped d := by
  obtain ⟨hne, hout⟩ := not_mem_around_older h hfirst hparents hu
  rw [mem_dropped_iff h.toFollowing hmem hne hx]
  rintro ⟨hd, hswallowed⟩
  have hrange : d.range.start = d.start := by
    cases happ with
    | insertion => cases hd
    | removal hij hj =>
      have hle := (Position.place_le_iff (Nat.le_trans hij hj) hj).mpr hij
      exact congrArg Range.start (if_neg (Position.not_lt.mpr hle))
  simp only [isSwallowed, List.contains_eq_mem, hout, decide_false, Bool.false_eq_true, if_false,
    Range.isStrictlyInside, Bool.and_eq_true, decide_eq_true_eq, hrange] at hswallowed
  exact Position.not_lt.mpr (Position.le_trans hin.1 hstart) hswallowed.1

omit hfirst in
/-- A text inserted at an end of a range around a nested one is taken by a range of the nested tabstop. -/
theorem exists_taker (hd : d.action = .insert) {r : TrackedRange} (hr : r ∈ t.ranges)
    (htouch : r.range.start = d.start ∨ r.range.stop = d.start) :
    ∃ o ∈ t.ranges, s.takes d t o = true ∧ (o.range.start = d.start ∨ o.range.stop = d.start) := by
  have hown := owns_selected h
  by_cases hmeet : Tabstop.meetAt (Tabstop.touching t.ranges d.start) d.start = true
  · obtain ⟨o, hot, ho, -⟩ := Tabstop.edgeOwner?_of_meetAt s.writing hmeet
    obtain ⟨hmem, hat⟩ := Tabstop.mem_touching.mp hot
    refine ⟨o, hmem, ?_, hat⟩
    rw [takes_of_owner hd ho, hown, Bool.true_and, beq_self_eq_true]
  · refine ⟨r, hr, ?_, htouch⟩
    rw [takes_insert hd, Tabstop.edgeOwner?_of_not_meetAt hmeet, hown]
    rfl

omit hfirst in
/-- A text inserted at an end of a range around a nested one, which leaves it outside, gets a nested range out of it. -/
theorem exists_out (hon : ∀ r ∈ s.ranges, r.range.On text) (happ : Delta.Applies text d text') (hd : d.action = .insert)
    (htext : d.text ≠ "") {r x : TrackedRange} (hr : r ∈ t.ranges) (hstart : r.range.start ≤ d.start)
    (hstop : d.start ≤ r.range.stop) (hx : x ∈ s.ranges) (hin : ∀ o ∈ t.ranges, o.range.Within x.range)
    (hat : x.range.start = d.start ∨ x.range.stop = d.start) :
    ∃ o ∈ t.ranges, ¬ (o.range.shift d (s.takes d t o)).Within (x.range.shift d false) := by
  have htouch : r.range.start = d.start ∨ r.range.stop = d.start := by
    obtain ⟨hleft, hright⟩ := hin r hr
    rcases hat with he | he
    · rw [he] at hleft
      exact .inl (Position.le_antisymm hstart hleft)
    · rw [he] at hright
      exact .inr (Position.le_antisymm hright hstop)
  obtain ⟨o, ho, htaken, hato⟩ := exists_taker h hd hr htouch
  have hono := hon o (h.range_mem ho)
  have hbounds : o.range.start ≤ d.start ∧ d.start ≤ o.range.stop := by
    have hle := hono.start_le_stop
    rcases hato with he | he
    · rw [he] at hle ⊢
      exact ⟨Position.le_refl _, hle⟩
    · rw [he] at hle ⊢
      exact ⟨hle, Position.le_refl _⟩
  refine ⟨o, ho, ?_⟩
  rw [htaken]
  exact Range.not_within_shift (hin o ho) happ hono (hon x hx) hd htext hbounds.1 hbounds.2 hat

/-- What is followed under the key of an older range after a change is this range, moved without the text. -/
theorem eq_shift_older (hparents : ∀ q ∈ t.parents, first ≤ q) {u : Tabstop} (hu : u ∈ s.tabstops) (hlt : u.key < first)
    {x : TrackedRange} (hx : x ∈ u.ranges) {v' : Tabstop} (hv' : v' ∈ s.changed d) {y' : TrackedRange}
    (hy' : y' ∈ v'.ranges) (hk : y'.key = x.key) : v'.key = u.key ∧ y' = x.shift d false := by
  obtain ⟨v, hv, hkv, -, hsub⟩ := mem_changed hv'
  obtain ⟨y, hy, rfl⟩ := List.mem_map.mp (hsub.subset hy')
  obtain rfl := h.tabstop_eq hu hv hx hy hk
  obtain rfl := h.range_eq (mem_ranges.mpr ⟨v, hv, hy⟩) (mem_ranges.mpr ⟨v, hv, hx⟩) hk
  rw [takes_older h hfirst hparents hlt]
  exact ⟨hkv, rfl⟩

/-- A change in a nested tabstop leaves the nested ranges inside, unless it inserts a text at an end of the range around
them. -/
theorem nests_changed_iff (hon : ∀ r ∈ s.ranges, r.range.On text) (happ : Delta.Applies text d text')
    {r : TrackedRange} (hr : r ∈ t.ranges) (hstart : r.range.start ≤ d.start) (hstop : d.start ≤ r.range.stop)
    (ho : s.Older first k) (hn : s.Nests first k) (index : Nat) :
    let s' : Session := { s with tabstops := s.changed d, index }
    s'.Older first k ∧ (s'.Nests first k ↔ ¬ s.InsertsAtEnd d k) := by
  intro s'
  obtain ⟨u, hu, hlt, x, hx, rfl⟩ := ho.followed
  obtain ⟨x', hx', hk, hin⟩ := hn
  have hxs : x ∈ s.ranges := mem_ranges.mpr ⟨u, hu, hx⟩
  obtain rfl := h.range_eq hxs hx' hk.symm
  have hts := mem_tabstops h
  have hparents := ho.parents t hts hfirst
  have hmoved : x.shift d false ∈ s'.ranges := by
    rw [← takes_older h hfirst hparents hlt d x]
    exact mem_changed_of_not_dropped hu hx
      (not_mem_dropped_older h hfirst happ hstart hparents hu hlt hx (hin t hts hfirst r hr)) index
  refine ⟨⟨?_, fun v' hv' hle => ?_⟩, fun hnests hend => ?_, fun hend => ?_⟩
  · obtain ⟨u', hu', hxu⟩ := mem_ranges.mp hmoved
    have hku := (eq_shift_older h hfirst hparents hu hlt hx hu' hxu rfl).1
    exact ⟨u', hu', hku ▸ hlt, _, hxu, rfl⟩
  · obtain ⟨v, hv, hkv, hpv, -⟩ := mem_changed hv'
    rw [hpv]
    exact ho.parents v hv (hkv ▸ hle)
  · -- The range that takes the text gets out.
    obtain ⟨hd, htext, z, hz, hkz, hat⟩ := hend
    obtain rfl := h.range_eq hz hxs hkz
    obtain ⟨x', hx', hk', hin'⟩ := hnests
    obtain ⟨v', hv', hxv⟩ := mem_ranges.mp hx'
    obtain ⟨-, rfl⟩ := eq_shift_older h hfirst hparents hu hlt hx hv' hxv hk'
    obtain ⟨o, ho, hout⟩ := exists_out h hon happ hd htext hr hstart hstop hz (hin t hts hfirst) hat
    obtain ⟨_, _, hrun', -⟩ := onChange_eq h d
    have hts' : s.shiftTabstop s.around d t ∈ s.changed d := mem_tabstops hrun'
    exact hout (hin' _ hts' hfirst _ (List.mem_map_of_mem ho))
  · refine ⟨_, hmoved, rfl, fun v' hv' hle r' hr' => ?_⟩
    obtain ⟨v, hv, hkv, -, hsub⟩ := mem_changed hv'
    obtain ⟨r, hr, rfl⟩ := List.mem_map.mp (hsub.subset hr')
    refine (hin v hv (hkv ▸ hle) r hr).shift happ (hon r (mem_ranges.mpr ⟨v, hv, hr⟩)) (hon x hxs) (fun hd htext => ?_) _ _
    exact not_or.mp fun hat => hend ⟨hd, htext, x, hxs, rfl, hat⟩

end

/-- Changes of a text, each of which is in a range of the tabstop that is selected when the session hears of it. -/
inductive EditsSelected : Session → Buffer → List Char → List Delta → List Char → Prop
  | nil {s : Session} {b : Buffer} {text : List Char} : EditsSelected s b text [] text
  | cons {s : Session} {b : Buffer} {text text' text'' : List Char} {d : Delta} {ds : List Delta} :
    Delta.Applies text d text' →
    (∀ t ∈ s.selected?, ∃ r ∈ t.ranges, r.range.start ≤ d.start ∧ d.start ≤ r.range.stop ∧
      (d.action = .remove → d.stop ≤ r.range.stop)) →
    EditsSelected (s.handle b (.change d)).1 (s.handle b (.change d)).2 text' ds text'' →
    EditsSelected s b text (d :: ds) text''

theorem EditsSelected.chain {ds : List Delta} (h : EditsSelected s b text ds text') : Delta.Chain text ds text' := by
  induction h with
  | nil => exact .nil
  | cons happ _ _ ih => exact .cons happ ih

/-- A session that does not run has no selected tabstop. -/
theorem EditsSelected.of_idle {text text' : List Char} {ds : List Delta} (h : Delta.Chain text ds text')
    (hs : Idle s b) : EditsSelected s b text ds text' := by
  induction h with
  | nil => exact .nil
  | @cons text text' text'' d ds happ _ ih =>
    refine .cons happ (fun t ht => ?_) ?_
    · have hrun := running_of_selected? (.idle hs) ht
      cases hs.inactive.symm.trans hrun.active
    · rw [handle_of_inactive hs.inactive]
      exact ih

/-- What a user does in the primary range of the selected tabstop. -/
theorem EditsSelected.of_inside : ∀ {ds : List Delta} {r : Range} {text text' : List Char} {s : Session} {b : Buffer}
    {t : Tabstop} {p : TrackedRange}, Delta.Inside r text ds text' → Running s b t → s.writing = none →
    t.primary? = some p → p.range = r → EditsSelected s b text ds text'
  | [], _, _, _, _, _, _, _, .nil, _, _, _, _ => .nil
  | d :: ds, _, _, _, s, b, t, p, .cons happ hstart hstop hend hds, h, hw, hp, rfl => by
    obtain ⟨index, markers, hrun, he⟩ := onChange_eq h d
    have hhandle : s.handle b (.change d) = s.onChange b d := handle_of_active h.active _
    refine .cons happ (fun u hu => ?_) ?_
    · obtain rfl := Option.some.inj ((selected?_eq h).symm.trans hu)
      exact ⟨p, (Tabstop.mem_of_primary? hp).1, hstart, hstop, hend⟩
    · rw [hhandle, he]
      split
      · exact .of_idle hds.chain (idle_detach hrun.toFollowing)
      · exact .of_inside hds hrun hw (primary?_shiftTabstop hp d) (shift_primary h hw hp d)

/-- As long as no earlier one has inserted a text at an end of the range around the nested ones, the last change in a
nested tabstop tells whether they are inside of it. -/
theorem nests_changes_iff : ∀ {ds : List Delta} {text text' : List Char} {s : Session} {b : Buffer} {t : Tabstop},
    EditsSelected s b text ds text' → Running s b t → first ≤ t.key → (∀ r ∈ s.ranges, r.range.On text) →
    s.Older first k → s.Nests first k → (s.handleAll b (ds.map .change)).1.isActive = true →
    (∀ e ∈ (s.told b ds).dropLast, ¬ e.1.InsertsAtEnd e.2 k) →
    (s.handleAll b (ds.map .change)).1.Older first k ∧
      ((s.handleAll b (ds.map .change)).1.Nests first k ↔ ∀ e ∈ (s.told b ds).getLast?, ¬ e.1.InsertsAtEnd e.2 k)
  | [], _, _, _, _, _, _, _, _, _, ho, hn, _, _ => ⟨ho, fun _ _ h => (by cases h), fun _ => hn⟩
  | d :: ds, _, _, s, b, t, .cons happ hin hds, h, hfirst, hon, ho, hn, hactive, htold => by
    obtain ⟨index, markers, hrun, he⟩ := handle_change_of_active h (isActive_handle hactive)
    obtain ⟨r, hr, hstart, hstop, -⟩ := hin t (selected?_eq h)
    rw [told] at htold
    rw [List.map_cons, handleAll_cons] at hactive
    rw [told, List.map_cons, handleAll_cons]
    rw [he] at hds hactive htold ⊢
    obtain ⟨ho', hn'⟩ := nests_changed_iff h hfirst hon happ hr hstart hstop ho hn index
    cases ds with
    | nil => exact ⟨ho', by simpa [told, handleAll] using hn'⟩
    | cons d' ds =>
      rw [told, List.dropLast_cons_of_ne_nil (List.cons_ne_nil _ _), ← told] at htold
      obtain ⟨hlast, hnests⟩ := nests_changes_iff hds hrun hfirst (on_changed hon happ index) ho'
        (hn'.mpr (htold _ List.mem_cons_self)) hactive fun e he => htold e (List.mem_cons_of_mem _ he)
      refine ⟨hlast, hnests.trans ?_⟩
      rw [told, List.getLast?_cons_cons]

/-! ## The range that gets a snippet -/

/-- The primary range of the selected tabstop takes what is inserted at its ends, as long as the session runs. -/
theorem primary_changes : ∀ {ds : List Delta} {s : Session} {b : Buffer} {t : Tabstop} {p : TrackedRange},
    Running s b t → s.writing = none → t.primary? = some p → (s.handleAll b (ds.map .change)).1.isActive = true →
    ∃ r ∈ (s.handleAll b (ds.map .change)).1.ranges, r.key = p.key ∧ r.range = Delta.follow p.range ds
  | [], _, _, _, p, h, _, hp, _ => ⟨p, h.range_mem (Tabstop.mem_of_primary? hp).1, rfl, rfl⟩
  | d :: ds, s, b, t, p, h, hw, hp, hactive => by
    obtain ⟨index, markers, hrun, he⟩ := handle_change_of_active h (isActive_handle hactive)
    rw [List.map_cons, handleAll_cons, he] at hactive ⊢
    obtain ⟨r, hr, hk, hrange⟩ := primary_changes hrun hw (primary?_shiftTabstop hp d) hactive
    refine ⟨r, hr, hk, hrange.trans ?_⟩
    show Delta.follow (p.range.shift d (s.takes d t p)) ds = _
    rw [shift_primary h hw hp]
    rfl

/-- A session that hears of changes ends only if they leave the buffer empty. -/
theorem isEmpty_of_ended : ∀ {ds : List Delta} {s : Session} {b : Buffer} {t : Tabstop}, Running s b t →
    (s.handleAll b (ds.map .change)).1.isActive = false → b.isEmpty = true
  | [], _, _, _, h, hended => by cases h.active.symm.trans hended
  | d :: ds, s, b, t, h, hended => by
    obtain ⟨index, markers, hrun, he⟩ := onChange_eq h d
    have hhandle : s.handle b (.change d) = s.onChange b d := handle_of_active h.active _
    rw [List.map_cons, handleAll_cons] at hended
    rw [hhandle, he] at hended
    by_cases hempty : (!s.inChange && d.action = .remove && b.isEmpty) = true
    · simp only [Bool.and_eq_true] at hempty
      exact hempty.2
    · rw [if_neg hempty] at hended
      exact isEmpty_of_ended (b := { b with markers }) hrun hended

end Session

namespace Scene

open Session (Running Nests Older InsertsAtEnd)

variable {x y : Scene} {source : String} {options : InsertOptions} {k : Nat}

/-- Once the text of a snippet is in the buffer the range of this key holds it. -/
def Receives (x : Scene) (source : String) (options : InsertOptions) (k : Nat) : Prop :=
  let origin := x.2.selection.toRange.start
  let value := (expandSnippet x.1.vars x.2.context options source).text.toList
  ∃ r ∈ (x.heard source options).1.session.ranges, r.key = k ∧ Range.Within ⟨origin, origin.advance value⟩ r.range

/-- The primary range of the selected tabstop gets what is put in it. -/
theorem receives_primary (h : AtRest x) {t : Tabstop} {p : TrackedRange} (ht : x.1.session.selected? = some t)
    (hp : t.primary? = some p) (hsel : x.2.selection.toRange.Within p.range)
    (hactive : (x.heard source options).1.session.isActive = true) : x.Receives source options p.key := by
  obtain ⟨m, n, hmn, hn, hrange, hds, hkeeps, -, -, hchars⟩ := exists_heard h source options
  have hrun := Session.running_of_selected? h.steady.valid ht
  obtain ⟨a, z, haz, hz, hprange⟩ := h.steady.placed.on p (hrun.range_mem (Tabstop.mem_of_primary? hp).1)
  rw [hrange, hprange, Range.within_place_iff hmn hn haz hz] at hsel
  have hhost := hrun.host ⟨hkeeps.markers, hkeeps.nextMarker⟩ hkeeps.commandsBound
  have hheard : (x.heard source options).1.session = (x.1.session.handleAll _ _).1 := rfl
  rw [hheard, hds] at hactive
  obtain ⟨r, hr, hk, hfollow⟩ := Session.primary_changes hhost h.steady.writing hp hactive
  obtain ⟨-, hspliced⟩ := Buffer.inside_spliceDeltas hsel.1 hmn hsel.2 hz
    (expandSnippet x.1.vars x.2.context options source).text
  have hm := Nat.le_trans hmn hn
  have hlen := congrArg List.length hchars
  simp only [List.length_append, List.length_take, List.length_drop] at hlen
  have hsame : place x.2.chars m = place (x.heard source options).2.chars m := by
    rw [hchars, List.append_assoc, Position.place_take_append hm (Nat.le_refl m)]
  refine ⟨r, by rw [hheard, hds]; exact hr, hk, ?_⟩
  rw [hfollow, hprange, hspliced, ← hchars, hrange]
  dsimp only
  rw [Buffer.advance_place_splice hm hchars, hsame, Range.within_place_iff (by omega) (by omega) (by omega) (by omega)]
  omega

/-- The session of the selected tabstop ends only if nothing is left in the buffer. -/
theorem chars_of_ended (h : AtRest x) {t : Tabstop} (ht : x.1.session.selected? = some t)
    (hended : (x.heard source options).1.session.isActive = false) : (x.heard source options).2.chars = [] := by
  obtain ⟨m, n, -, -, -, hds, hkeeps, -, hsame, -⟩ := exists_heard h source options
  have hrun := (Session.running_of_selected? h.steady.valid ht).host ⟨hkeeps.markers, hkeeps.nextMarker⟩
    hkeeps.commandsBound
  rw [hsame]
  exact Buffer.chars_of_isEmpty (Session.isEmpty_of_ended hrun hended)

/-- Right after a snippet has been put into a range its own ranges are inside of it. -/
theorem nests_insert (h : AtRest x) (hd : options.dryRun = false) (hr : x.Receives source options k) :
    (x.insert source options).1.session.isActive = true ∧
      (x.insert source options).1.session.Older (x.firstKey source options) k ∧
      (x.insert source options).1.session.Nests (x.firstKey source options) k := by
  obtain ⟨r, hr, rfl, hin⟩ := hr
  obtain ⟨m, n, hmn, hn, hrange, -, -, hrest, -, -⟩ := exists_heard h source options
  have hm := Nat.le_trans hmn hn
  obtain ⟨u, hu, hru⟩ := Session.mem_ranges.mp hr
  obtain ⟨t, hrun⟩ : ∃ t, Running (x.heard source options).1.session (x.heard source options).2 t := by
    cases hrest.steady.valid with
    | idle hidle =>
      rw [hidle.tabstops] at hu
      cases hu
    | running t hrun => exact ⟨t, hrun⟩
  have he : (expandSnippet x.1.vars x.2.context options source).IsExpansion := ⟨_, _, _, _, rfl⟩
  obtain ⟨⟨t', hrun'⟩, hkept⟩ :=
    SnippetInserter.running_beginSession_of_running hrun he x.2.selection.toRange.start
  have hlt : u.key < x.firstKey source options := by
    unfold firstKey
    rw [SnippetInserter.started_of_active hrun.active]
    exact hrun.lt _ (List.mem_append_left _ (List.mem_map_of_mem hu))
  have hnew := @tracking_insert x h source options hd
  have hgroups := fun g => group_expandSnippet x.1.vars x.2.context options source (g := g)
  rw [insert_eq_begin x source hd] at hnew ⊢
  have hu' := hkept u hu
  refine ⟨hrun'.active, ⟨⟨u, hu', hlt, r, hru, rfl⟩, fun v hv hle q hq => ?_⟩, r, Session.mem_ranges.mpr ⟨u, hu', hru⟩,
    rfl, fun v hv hle y hy => ?_⟩
  · rcases hnew hrun'.active hv with ⟨-, hold⟩ | ⟨g, -, htracking⟩
    · omega
    · exact htracking.le_of_mem_parents hq
  · rcases hnew hrun'.active hv with ⟨-, hold⟩ | ⟨g, hg, htracking⟩
    · omega
    · rw [hrange] at htracking hin
      obtain ⟨r', -, hon, hy, -⟩ := htracking.exists_range hm (hgroups g hg).on hy
      rw [hy]
      have hwithin := TabstopRange.within_offsetBy hm hon
      exact ⟨Position.le_trans hin.1 hwithin.1, Position.le_trans hwithin.2 hin.2⟩

/-! ## Edits in nested tabstops -/

/-- What a user does in the ranges of the selected tabstop. -/
structure EditsSelected (x : Scene) (ds : List Delta) (b : Buffer) : Prop extends KeepsMarkers x.2 ds b where
  sound : b.Sound
  selected : x.1.session.EditsSelected b x.2.chars ds b.chars

theorem EditsSelected.of_editsIn (h : AtRest x) {t : Tabstop} {p : TrackedRange} (ht : x.1.session.selected? = some t)
    (hp : t.primary? = some p) {ds : List Delta} {b : Buffer} (he : x.2.EditsIn p.range ds b) :
    x.EditsSelected ds b where
  toKeepsMarkers := he.toKeepsMarkers
  sound := he.sound
  selected := by
    have hrun := (Session.running_of_selected? h.steady.valid ht).host ⟨he.markers, he.nextMarker⟩ he.commandsBound
    exact .of_inside he.inside hrun h.steady.writing hp rfl

/-- What is told of edits in selected tabstops with keys from `first` on, with moves between them. -/
inductive NestedEdits (first : Nat) (x : Scene) : List (Session × Delta) → Scene → Prop
  | refl : NestedEdits first x [] x
  | move {y : Scene} {told : List (Session × Delta)} (step : Int) :
    NestedEdits first x told y → NestedEdits first x told (y.move step)
  | edit {y : Scene} {told : List (Session × Delta)} {b : Buffer} {ds : List Delta} {t : Tabstop} :
    NestedEdits first x told y → y.1.session.selected? = some t → first ≤ t.key → y.EditsSelected ds b →
    NestedEdits first x (told ++ y.1.session.told b ds) (y.1.handleChanges b ds)

theorem atRest_of_nestedEdits {first : Nat} {told : List (Session × Delta)} (h : NestedEdits first x told y)
    (hx : AtRest x) : AtRest y := by
  induction h with
  | refl => exact hx
  | move step _ ih => exact SnippetInserter.atRest_move ih step
  | edit _ _ _ he ih =>
    exact SnippetInserter.atRest_edit ih
      { toKeepsMarkers := he.toKeepsMarkers, sound := he.sound, chain := he.selected.chain }

theorem nests_of_nestedEdits_iff {first : Nat} {told : List (Session × Delta)} (h : NestedEdits first x told y)
    (hx : AtRest x) (ho : x.1.session.Older first k) (hn : x.1.session.Nests first k)
    (hactive : y.1.session.isActive = true) (htold : ∀ e ∈ told.dropLast, ¬ e.1.InsertsAtEnd e.2 k) :
    y.1.session.Older first k ∧ (y.1.session.Nests first k ↔ ∀ e ∈ told.getLast?, ¬ e.1.InsertsAtEnd e.2 k) := by
  induction h with
  | refl => exact ⟨ho, fun _ _ h => (by cases h), fun _ => hn⟩
  | @move y told step _ ih =>
    obtain ⟨hrunning, hsame⟩ := tabstops_move hactive
    obtain ⟨hyo, hyn⟩ := ih hrunning htold
    exact ⟨hyo.congr hsame, .trans ⟨fun h => h.congr hsame.symm, fun h => h.congr hsame⟩ hyn⟩
  | @edit y told b ds t hy ht hfirst he ih =>
    have hrest := atRest_of_nestedEdits hy hx
    have hrun := Session.running_of_selected? hrest.steady.valid ht
    cases ds with
    | nil =>
      rw [Session.told, List.append_nil] at htold ⊢
      exact ih hrun.active htold
    | cons d ds =>
      rw [Session.told] at htold ⊢
      rw [List.dropLast_append_of_ne_nil (List.cons_ne_nil _ _), ← Session.told] at htold
      have hbefore : ∀ e ∈ told, ¬ e.1.InsertsAtEnd e.2 k := fun e he => htold e (List.mem_append_left _ he)
      obtain ⟨hyo, hyn⟩ := ih hrun.active fun e he => hbefore e (List.dropLast_subset _ he)
      rw [List.getLast?_append_of_ne_nil _ (List.cons_ne_nil _ _), ← Session.told]
      exact Session.nests_changes_iff he.selected (hrun.host ⟨he.markers, he.nextMarker⟩ he.commandsBound) hfirst
        hrest.steady.placed.on hyo (hyn.mpr fun e he => hbefore e (List.mem_of_getLast? he)) hactive
        fun e he => htold e (List.mem_append_right _ he)

/-- A snippet is put in the primary range of the selected tabstop, or in another range that gets its text, and filled in
by edits in its tabstops. Its ranges are inside of that range until a text is inserted at an end of it, and no longer. -/
theorem nests_iff_of_nestedEdits {x₀ x : Scene} (hx : Initial x₀) (hb : x₀.2.Sound) (hruns : Runs Buffer.Edits x₀ x)
    (source : String) (options : InsertOptions) (hd : options.dryRun = false) :
    (∀ t p, x.1.session.selected? = some t → t.primary? = some p → x.2.selection.toRange.Within p.range →
      x.Receives source options p.key ∨
        (x.heard source options).1.session.isActive = false ∧ (x.heard source options).2.chars = []) ∧
    ∀ k, x.Receives source options k → (x.insert source options).1.session.isActive = true ∧
      ∀ told y, NestedEdits (x.firstKey source options) (x.insert source options) told y →
        y.1.session.isActive = true → (∀ e ∈ told.dropLast, ¬ e.1.InsertsAtEnd e.2 k) →
        (y.1.session.Nests (x.firstKey source options) k ↔ ∀ e ∈ told.getLast?, ¬ e.1.InsertsAtEnd e.2 k) := by
  have hrest := atRest_of_runs hx hb hruns
  refine ⟨fun t p ht hp hsel => ?_, fun k hk => ?_⟩
  · cases hactive : (x.heard source options).1.session.isActive with
    | true => exact .inl (receives_primary hrest ht hp hsel hactive)
    | false => exact .inr ⟨rfl, chars_of_ended hrest ht hactive⟩
  · obtain ⟨hactive, ho, hn⟩ := nests_insert hrest hd hk
    have hstart := hrest.insert source options
    exact ⟨hactive, fun told y hy hyactive htold => (nests_of_nestedEdits_iff hy hstart ho hn hyactive htold).2⟩

/-- A text is typed between two characters of a nested snippet. -/
theorem nests_iff_of_nestedEdits_typed :
    let x₀ : Scene := (SnippetInserter.create { clock := ⟨2024, 3, 5, 7, 8, 9⟩ }, .ofText "")
    let x := x₀.insert "$1" {}
    let y := (x.insert "<$1>" {}).typed "z"
    x.Receives "<$1>" {} 2 ∧ ∃ told, NestedEdits (x.firstKey "<$1>" {}) (x.insert "<$1>" {}) told y ∧
      y.2.text = "<z>" ∧ y.1.session.Nests (x.firstKey "<$1>" {}) 2 := by
  intro x₀ x y
  have hx : Initial x₀ := ⟨⟨_, _, rfl⟩, rfl, rfl⟩
  have hb : x₀.2.Sound := Buffer.sound_ofText ""
  have hruns : Runs Buffer.Edits x₀ x := .single (.insert "$1" {})
  have hrest := atRest_of_runs hx hb hruns
  have houter : ∃ t ∈ x.1.session.selected?, ∃ p ∈ t.primary?, p.key = 2 ∧
      x.2.selection.toRange.Within p.range := by decide +kernel
  obtain ⟨t, ht, p, hp, hk, hsel⟩ := houter
  obtain ⟨hprimary, hnests⟩ := nests_iff_of_nestedEdits hx hb hruns "<$1>" {} rfl
  have hreceives : x.Receives "<$1>" {} 2 := by
    rcases hprimary t p ht hp hsel with h | ⟨hended, -⟩
    · rwa [hk] at h
    · exact absurd hended (by decide +kernel)
  have hinner : ∃ t ∈ (x.insert "<$1>" {}).1.session.selected?, ∃ p ∈ t.primary?, x.firstKey "<$1>" {} ≤ t.key ∧
      (x.insert "<$1>" {}).2.selections = [.ofRange p.range] ∧ p.range = ⟨⟨0, 1⟩, ⟨0, 1⟩⟩ := by decide +kernel
  obtain ⟨u, hu, q, hq, hfirst, hs, hrange⟩ := hinner
  have hstart : AtRest (x.insert "<$1>" {}) := hrest.insert _ _
  have htyped := NestedEdits.refl.edit hu hfirst (.of_editsIn hstart hu hq
    (editsIn_typed hstart hu hq hs (by rw [hrange]; decide) (by rw [hrange]; decide) "z"))
  refine ⟨hreceives, _, htyped, by decide +kernel, ?_⟩
  exact ((hnests 2 hreceives).2 _ _ htyped (by decide +kernel) (by decide +kernel)).mpr (by decide +kernel)

/-- A text is typed at the tabstop of a nested snippet, which is all that there is in the range around it. -/
theorem nested_range_gets_out :
    let x₀ : Scene := (SnippetInserter.create { clock := ⟨2024, 3, 5, 7, 8, 9⟩ }, .ofText "")
    let x := x₀.insert "$1" {}
    let y := (x.insert "$1" {}).typed "z"
    Initial x₀ ∧ x₀.2.Sound ∧ x.Receives "$1" {} 2 ∧ (x.insert "$1" {}).1.session.Nests (x.firstKey "$1" {}) 2 ∧
      (∃ told, NestedEdits (x.firstKey "$1" {}) (x.insert "$1" {}) told y) ∧
      2 ∈ y.1.session.ranges.map (·.key) ∧ ¬ y.1.session.Nests (x.firstKey "$1" {}) 2 := by
  intro x₀ x y
  have hx : Initial x₀ := ⟨⟨_, _, rfl⟩, rfl, rfl⟩
  have hb : x₀.2.Sound := Buffer.sound_ofText ""
  have hrest : AtRest x := (atRest_of_initial hx hb).insert _ _
  have hreceives : x.Receives "$1" {} 2 := by
    unfold Receives
    decide +kernel
  have hinner : ∃ t ∈ (x.insert "$1" {}).1.session.selected?, ∃ p ∈ t.primary?, x.firstKey "$1" {} ≤ t.key ∧
      (x.insert "$1" {}).2.selections = [.ofRange p.range] ∧ p.range = ⟨⟨0, 0⟩, ⟨0, 0⟩⟩ := by decide +kernel
  obtain ⟨u, hu, q, hq, hfirst, hs, hrange⟩ := hinner
  have hstart : AtRest (x.insert "$1" {}) := hrest.insert _ _
  have htyped := NestedEdits.refl.edit hu hfirst (.of_editsIn hstart hu hq
    (editsIn_typed hstart hu hq hs (by rw [hrange]; decide) (by rw [hrange]; decide) "z"))
  exact ⟨hx, hb, hreceives, by decide +kernel, ⟨_, htyped⟩, by decide +kernel, by decide +kernel⟩

end Scene

end Scribe
