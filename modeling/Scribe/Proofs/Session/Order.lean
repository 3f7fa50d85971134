import Scribe.Proofs.Session.Begun
import Scribe.Proofs.Session.Told
import Scribe.Proofs.Snippet.Occurrences

/-!
# The order of ranges

A range that ends before another one begins stays before it, unless a text is inserted where they meet that belongs
to the second one, while the first one is empty there or takes the text too.
-/

namespace Scribe

open Position (place)

namespace Session

/-- The range of the one key ends before that of the other one begins. -/
def Ordered (s : Session) (k k' : Nat) : Prop :=
  ∀ x ∈ s.ranges, ∀ y ∈ s.ranges, x.key = k → y.key = k' → x.range.stop ≤ y.range.start

/-- A text is inserted where the range of the one key ends and that of the other one begins. The second one takes it,
and the first one takes it too or is empty. -/
def Overruns (s : Session) (d : Delta) (k k' : Nat) : Prop :=
  d.action = .insert ∧ ∃ t ∈ s.tabstops, ∃ x ∈ t.ranges, ∃ u ∈ s.tabstops, ∃ y ∈ u.ranges,
    x.key = k ∧ y.key = k' ∧ x.range.stop = d.start ∧ y.range.start = d.start ∧ s.takes d u y = true ∧
      (s.takes d t x = true ∨ x.range.start = d.start)

instance (s : Session) (d : Delta) (k k' : Nat) : Decidable (s.Overruns d k k') :=
  inferInstanceAs (Decidable (_ ∧ _))

theorem preserves_ordered (k k' : Nat) : Preserves (Ordered · k k') (Overruns · · k k') where
  change {s b t text text' d} index hrun hon happ hd hp := by
    intro x' hx' y' hy' hk hk'
    obtain ⟨u, hu, x, hx, rfl⟩ := mem_ranges_changed hx'
    obtain ⟨v, hv, y, hy, rfl⟩ := mem_ranges_changed hy'
    have hxs := mem_ranges.mpr ⟨u, hu, hx⟩
    have hys := mem_ranges.mpr ⟨v, hv, hy⟩
    refine Range.stop_le_start_shift happ (hon x hxs) (hon y hys) (hp x hxs y hys hk hk') _ _
      fun hinsert htakes hstop hstart => ?_
    by_contra hor
    rw [Decidable.not_and_iff_or_not, Bool.not_eq_false, not_not] at hor
    exact hd ⟨hinsert, u, hu, x, hx, v, hv, y, hy, hk, hk', hstop, hstart, htakes, hor⟩
  congr {s s'} he hp := by
    unfold Ordered ranges at hp ⊢
    rwa [he]
  nil {s} he x hx := by
    rw [ranges, he] at hx
    cases hx

/-- A range that is overrun by a text does not end before the other one begins. -/
theorem not_ordered_changed {s : Session} {text text' : List Char} {d : Delta} {k k' : Nat}
    (hon : ∀ r ∈ s.ranges, r.range.On text) (happ : Delta.Applies text d text') (htext : d.text ≠ "")
    (h : s.Overruns d k k') (index : Nat) : ¬ Ordered { s with tabstops := s.changed d, index } k k' := by
  obtain ⟨hd, t, ht, x, hx, u, hu, y, hy, rfl, rfl, hstop, hstart, htakes, hmeet⟩ := h
  have hkept : ∀ key, key ∉ s.dropped d := by
    intro key hk
    obtain ⟨v, -, hv⟩ := List.mem_flatMap.mp hk
    unfold swallowed at hv
    rw [if_neg (by simp [hd])] at hv
    cases hv
  intro hordered
  have hle := hordered _ (mem_changed_of_not_dropped ht hx (hkept _) index) _
    (mem_changed_of_not_dropped hu hy (hkept _) index) rfl rfl
  rw [htakes] at hle
  exact Range.not_stop_le_start_shift happ (hon x (mem_ranges.mpr ⟨t, ht, hx⟩)) (hon y (mem_ranges.mpr ⟨u, hu, hy⟩)) hd
    htext hstop hstart hmeet hle

/-! ## Occurrences that are followed -/

/-- The range of this key is the one with which the session follows the occurrence of a marker, in a snippet whose
tabstops have the keys from `first` on. -/
def Tracks (s : Session) (filled : Expansion.Filled) (first m k : Nat) : Prop :=
  ∃ t ∈ s.tabstops, first ≤ t.key ∧
    (m, k) ∈ ((filled.occurrences.filter (·.id == t.id)).map (·.marker)).zip (t.ranges.map (·.key))

instance (s : Session) (filled : Expansion.Filled) (first m k : Nat) : Decidable (s.Tracks filled first m k) :=
  inferInstanceAs (Decidable (∃ t ∈ s.tabstops, _))

/-- A tabstop that follows a group of a filled snippet follows its fields. -/
theorem Tracking.exists_field {linkMirrors : Bool} {text value : List Char} {n first : Nat} (hn : n ≤ text.length)
    {filled : Expansion.Filled} {fields : List Expansion.Field} (hocc : fields.map (·.occurrence) = filled.occurrences)
    {g : TabstopGroup} {t : Tabstop} (h : Tracking linkMirrors (place text n) first g t)
    (hdraws : Expansion.Laid.Draws value fields g) (hon : ∀ r ∈ g.ranges, r.range.On value) {m k : Nat}
    (hzip : (m, k) ∈ ((filled.occurrences.filter (·.id == t.id)).map (·.marker)).zip (t.ranges.map (·.key))) :
    ∃ f ∈ fields, f.marker = m ∧ f.range.range.On value ∧
      ∃ x ∈ t.ranges, x.key = k ∧ x.range = (f.range.offsetBy (place text n)).range := by
  have hall := h.forall₂_range hn hon
  rw [← hocc, List.filter_map, List.map_map, h.id] at hzip
  cases hdraws with
  | final hne =>
    -- No occurrence has the number of this one.
    have hnil : fields.filter ((fun o : Expansion.Occurrence => o.id == 0) ∘ (·.occurrence)) = [] :=
      List.filter_eq_nil_iff.mpr fun f hf => by simpa using hne f hf
    rw [hnil] at hzip
    cases hzip
  | fields _ hfields _ =>
    rw [hfields] at hall
    obtain ⟨j, hj, he⟩ := List.getElem_of_mem hzip
    rw [List.getElem_zip, Prod.mk.injEq, List.getElem_map, List.getElem_map] at he
    rw [List.length_zip, List.length_map, List.length_map] at hj
    have hjf : j < (fields.filter (·.occurrence.id == g.id)).length := Nat.lt_of_lt_of_le hj (Nat.min_le_left _ _)
    have hjx : j < t.ranges.length := Nat.lt_of_lt_of_le hj (Nat.min_le_right _ _)
    obtain ⟨honf, hx⟩ := (List.forall₂_iff_get.mp hall).2 j (by simpa using hjf) hjx
    simp only [List.get_eq_getElem, List.getElem_map] at honf hx
    exact ⟨_, (List.mem_filter.mp (List.getElem_mem hjf)).1, he.1, honf, t.ranges[j], List.getElem_mem hjx, he.2, hx⟩

end Session

namespace Scene

open Session (Ordered Tracks)

/-- The occurrence is followed where it stands in the text of the snippet. -/
theorem field_of_tracks {x : Scene} (h : AtRest x) {source : String} {options : InsertOptions}
    (hd : options.dryRun = false) (hactive : (x.insert source options).1.session.isActive = true)
    {fields : List Expansion.Field} {text : List Char} {n : Nat} (hn : n ≤ text.length)
    (hstart : x.2.selection.toRange.start = place text n)
    (hocc : fields.map (·.occurrence) =
      (Expansion.filledSnippet x.1.vars x.2.context options source).occurrences)
    (hdraws : ∀ g ∈ (expandSnippet x.1.vars x.2.context options source).tabstops,
      Expansion.Laid.Draws (expandSnippet x.1.vars x.2.context options source).text.toList fields g) {m k : Nat}
    (ht : (x.insert source options).1.session.Tracks (Expansion.filledSnippet x.1.vars x.2.context options source)
      (x.firstKey source options) m k) :
    ∃ f ∈ fields, f.marker = m ∧
      f.range.range.On (expandSnippet x.1.vars x.2.context options source).text.toList ∧
      ∃ r ∈ (x.insert source options).1.session.ranges, r.key = k ∧
        r.range = (f.range.offsetBy (place text n)).range := by
  obtain ⟨t, ht, hkey, hzip⟩ := ht
  rcases tracking_insert h hd hactive ht with ⟨-, hlt⟩ | ⟨g, hg, htracking⟩
  · omega
  · rw [hstart] at htracking
    obtain ⟨f, hf, hm, hon, r, hr, hk, hrange⟩ := htracking.exists_field hn hocc (hdraws g hg)
      (group_expandSnippet x.1.vars x.2.context options source hg).on hzip
    exact ⟨f, hf, hm, hon, r, Session.mem_ranges.mpr ⟨t, ht, hr⟩, hk, hrange⟩

/-- Right after a snippet has been put into a buffer its ranges are in the order of the occurrences. -/
theorem ordered_insert {x : Scene} (h : AtRest x) (source : String) {options : InsertOptions}
    (hd : options.dryRun = false) {m m' k k' : Nat}
    (hm : Expansion.Precedes (Expansion.filledSnippet x.1.vars x.2.context options source).tokens m m')
    (hk : (x.insert source options).1.session.Tracks (Expansion.filledSnippet x.1.vars x.2.context options source)
      (x.firstKey source options) m k)
    (hk' : (x.insert source options).1.session.Tracks (Expansion.filledSnippet x.1.vars x.2.context options source)
      (x.firstKey source options) m' k') : Ordered (x.insert source options).1.session k k' := by
  obtain ⟨fields, hlaid, -, hocc, hdraws⟩ := Expansion.laid_filledSnippet x.1.vars x.2.context options source
  obtain ⟨n, n', hnn, hn', hrange, -⟩ := exists_heard h source options
  have hstart := congrArg Range.start hrange
  have hn := Nat.le_trans hnn hn'
  cases (h.insert source options).steady.valid with
  | idle hidle =>
    intro x hx
    rw [Session.ranges, show (Scene.insert _ _ _).1.session.tabstops = [] from hidle.tabstops] at hx
    cases hx
  | running t hrun =>
    obtain ⟨f, hf, rfl, honf, r₀, hr₀, rfl, hr⟩ := field_of_tracks h hd hrun.active hn hstart hocc hdraws hk
    obtain ⟨g, hg, rfl, hong, y₀, hy₀, rfl, hy⟩ := field_of_tracks h hd hrun.active hn hstart hocc hdraws hk'
    intro x hx y hy' hkx hky
    rw [hrun.range_eq hx hr₀ hkx, hrun.range_eq hy' hy₀ hky, hr, hy]
    exact TabstopRange.stop_le_start_offsetBy hn honf hong (Position.after_le_after (hlaid.upto_prefix hf hg hm))

/-- While a snippet is filled in, its ranges stay in the order of the occurrences as long as none is overrun. -/
theorem ordered_of_tellsAll {x₀ x y : Scene} (hx : Initial x₀) (hb : x₀.2.Sound) (hruns : Runs Buffer.Edits x₀ x)
    {source : String} {options : InsertOptions} (hd : options.dryRun = false) {told : List (Session × Delta)}
    (hfill : TellsAll (x.insert source options) told y) {m m' k k' : Nat}
    (hm : Expansion.Precedes (Expansion.filledSnippet x.1.vars x.2.context options source).tokens m m')
    (hk : (x.insert source options).1.session.Tracks (Expansion.filledSnippet x.1.vars x.2.context options source)
      (x.firstKey source options) m k)
    (hk' : (x.insert source options).1.session.Tracks (Expansion.filledSnippet x.1.vars x.2.context options source)
      (x.firstKey source options) m' k')
    (htold : ∀ e ∈ told, ¬ e.1.Overruns e.2 k k') : Ordered y.1.session k k' := by
  have hrest := atRest_of_runs hx hb hruns
  exact preserved_of_tellsAll (Session.preserves_ordered k k') (hrest.insert source options) hfill
    htold (ordered_insert hrest source hd hm hk hk')

/-- Both tabstops are typed at where they meet, the first one first. -/
theorem ordered_of_tellsAll_typed :
    let x : Scene := (SnippetInserter.create { clock := ⟨2024, 3, 5, 7, 8, 9⟩ }, .ofText "")
    let start := x.insert "$1$2" {}
    let y := ((start.typed "a").move 1).typed "b"
    ∃ told, TellsAll start told y ∧ y.2.text = "ab" ∧ y.1.session.selectedKey = some 1 ∧
      y.1.session.ranges.map (·.key) = [5, 3, 4] ∧ Ordered y.1.session 3 4 := by
  intro x start y
  have hx : Initial x := ⟨⟨_, _, rfl⟩, rfl, rfl⟩
  have hb : x.2.Sound := Buffer.sound_ofText ""
  have hstart : AtRest start := (atRest_of_initial hx hb).insert _ _
  have hfirst : ∃ t ∈ start.1.session.selected?, ∃ p ∈ t.primary?,
      start.2.selections = [.ofRange p.range] ∧ p.range = ⟨⟨0, 0⟩, ⟨0, 0⟩⟩ := by decide +kernel
  obtain ⟨t, ht, p, hp, hs, hrange⟩ := hfirst
  have htyped := tells_typed hstart ht hp hs (by rw [hrange]; decide) (by rw [hrange]; decide) "a"
  have hmoved : Tells (start.typed "a") [] ((start.typed "a").move 1) := .move 1
  have hnext := atRest_of_tells hmoved (atRest_of_tells htyped hstart)
  have hsecond : ∃ t ∈ ((start.typed "a").move 1).1.session.selected?, ∃ p ∈ t.primary?,
      ((start.typed "a").move 1).2.selections = [.ofRange p.range] ∧ p.range = ⟨⟨0, 1⟩, ⟨0, 1⟩⟩ := by decide +kernel
  obtain ⟨u, hu, q, hq, hs', hrange'⟩ := hsecond
  have htyped' := tells_typed hnext hu hq hs' (by rw [hrange']; decide) (by rw [hrange']; decide) "b"
  have hfill := ((TellsAll.refl.tail htyped).tail hmoved).tail htyped'
  refine ⟨_, hfill, by decide +kernel, by decide +kernel, by decide +kernel, ?_⟩
  let tokens := (Expansion.filledSnippet x.1.vars x.2.context {} "$1$2").tokens
  have hm : Expansion.Precedes tokens 0 1 :=
    ⟨tokens.take 2, tokens.drop 2, (List.take_append_drop 2 tokens).symm, by decide +kernel, by decide +kernel⟩
  exact ordered_of_tellsAll hx hb .refl rfl hfill hm (by decide +kernel) (by decide +kernel) (by decide +kernel)

/-- A tabstop that stands before the one that is typed at is empty, and goes behind what is typed. -/
theorem empty_tabstop_overrun :
    let x : Scene := (SnippetInserter.create { clock := ⟨2024, 3, 5, 7, 8, 9⟩ }, .ofText "")
    let start := x.insert "$2$1" {}
    let filled := Expansion.filledSnippet x.1.vars x.2.context {} "$2$1"
    Initial x ∧ x.2.Sound ∧ Expansion.Precedes filled.tokens 0 1 ∧
      start.1.session.Tracks filled (x.firstKey "$2$1" {}) 0 4 ∧
      start.1.session.Tracks filled (x.firstKey "$2$1" {}) 1 3 ∧
      ∃ told, TellsAll start told (start.typed "x") ∧
        (start.typed "x").1.session.ranges.map (·.key) = [5, 3, 4] ∧ ¬ Ordered (start.typed "x").1.session 4 3 := by
  intro x start filled
  have hx : Initial x := ⟨⟨_, _, rfl⟩, rfl, rfl⟩
  have hb : x.2.Sound := Buffer.sound_ofText ""
  have hstart : AtRest start := (atRest_of_initial hx hb).insert _ _
  have hselected : ∃ t ∈ start.1.session.selected?, ∃ p ∈ t.primary?,
      start.2.selections = [.ofRange p.range] ∧ p.range = ⟨⟨0, 0⟩, ⟨0, 0⟩⟩ := by decide +kernel
  obtain ⟨t, ht, p, hp, hs, hrange⟩ := hselected
  have htyped := tells_typed hstart ht hp hs (by rw [hrange]; decide) (by rw [hrange]; decide) "x"
  have hm : Expansion.Precedes filled.tokens 0 1 := ⟨filled.tokens.take 2, filled.tokens.drop 2,
    (List.take_append_drop 2 filled.tokens).symm, by decide +kernel, by decide +kernel⟩
  refine ⟨hx, hb, hm, by decide +kernel, by decide +kernel, _, TellsAll.refl.tail htyped, by decide +kernel, ?_⟩
  unfold Ordered
  decide +kernel

end Scene

end Scribe
