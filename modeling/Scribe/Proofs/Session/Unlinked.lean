import Scribe.Proofs.Session.Arrival
import Scribe.Proofs.Session.Settled
import Scribe.Proofs.Session.Together
import Scribe.Proofs.Session.Within

/-!
# Occurrences that are not linked

If the occurrences of a tabstop are not linked all of them that have no transform are edited, and selected with the
tabstop. Each of them reads what is typed then, unless one of them begins where another one ends.
-/

namespace Scribe

theorem Selection.toRange_ofRange {r : Range} (h : r.start ≤ r.stop) : (Selection.ofRange r).toRange = r := by
  simp [toRange, ofRange, Range.between, Position.not_lt.mpr h]

namespace Buffer

variable {b : Buffer} {text : String}

theorem typeAt_ne_nil (ht : text ≠ "") : ∀ {sels : List (Nat × Selection)} {b : Buffer} (done : List (Nat × Position)),
    b.WellFormed → b.Queued sels → sels ≠ [] ∨ b.chars ≠ [] → (typeAt text b done sels).1.chars ≠ []
  | [], _, _, _, _, hne => hne.resolve_left fun hnil => hnil rfl
  | e :: sels, b, done, hb, hsels, _ => by
    obtain ⟨front, selected, back, b', ds, htyped, hsels'⟩ := hsels.exists_typed hb text
    rw [typeAt_cons, htyped.splice]
    refine typeAt_ne_nil ht _ htyped.wellFormed hsels' (.inr ?_)
    rw [htyped.new]
    simp [ht]

/-- A text that is typed is in the buffer then. -/
theorem typeText_ne_nil (hb : b.Sound) (hsels : b.selections ≠ []) (ht : text ≠ "") :
    (b.typeText text).1.chars ≠ [] := by
  refine typeAt_ne_nil ht [] hb.wellFormed (queued_typingOrder hb) (.inl fun hnil => hsels ?_)
  have hlen := congrArg List.length hnil
  rw [typingOrder, List.length_mergeSort, List.length_map, List.length_zipIdx] at hlen
  exact List.length_eq_zero_iff.mp hlen

end Buffer

namespace Tabstop

variable {t : Tabstop} {f : TrackedRange}

/-- The range that is selected first is the first one that is edited. -/
theorem edited_eq_cons (hf : t.target? = some f) (hnodup : (t.ranges.map (·.key)).Nodup) (hne : t.edited ≠ []) :
    t.edited = f :: t.ranges.filter fun r => !r.linked && r.key != f.key := by
  obtain ⟨p, rest, he⟩ := List.exists_cons_of_ne_nil hne
  have hprimary : t.primary? = some p := by
    rw [primary?, ← List.head?_filter]
    exact congrArg List.head? he
  obtain rfl : p = f := by simpa [target?, hprimary] using hf
  have hkeys : ((p :: rest).map (·.key)).Nodup := he ▸ hnodup.sublist (List.filter_sublist.map _)
  have hothers : (t.ranges.filter fun r => !r.linked && r.key != p.key) = t.edited.filter (·.key != p.key) := by
    rw [edited, List.filter_filter]
    exact List.filter_congr fun r _ => Bool.and_comm _ _
  rw [hothers, he, List.filter_cons_of_neg (by simp), List.filter_eq_self.mpr fun r hr => ?_]
  have hnot := (List.nodup_cons.mp hkeys).1
  exact bne_iff_ne.mpr fun hk => hnot (List.mem_map.mpr ⟨r, hr, hk⟩)

end Tabstop

namespace Session

variable {s : Session} {b : Buffer} {t : Tabstop} {f : TrackedRange → Range}

theorem toRange_selectionsOf {p : TrackedRange} (hp : t.target? = some p) (hnodup : (t.ranges.map (·.key)).Nodup)
    (hne : t.edited ≠ []) (hle : ∀ r ∈ t.edited, r.range.start ≤ r.range.stop) {first : Selection}
    (hfirst : (selectionsOf t p).head? = some first) (hrange : first.toRange = p.range) :
    (selectionsOf t p).map Selection.toRange = t.edited.map (·.range) := by
  have hedited := Tabstop.edited_eq_cons hp hnodup hne
  rw [hedited] at hle ⊢
  obtain ⟨-, hothers⟩ := List.forall_mem_cons.mp hle
  obtain rfl := Option.some.inj hfirst
  rw [List.map_cons, ← hrange, selectionsOf, List.map_cons, List.map_map]
  congr 1
  exact List.map_congr_left fun r hr => Selection.toRange_ofRange (hothers r hr)

/-! ## The selected tabstop -/

theorem shiftTabstop_shifted (h : Running s b (t.place f)) (hw : s.writing = none) (d : Delta) :
    s.shiftTabstop s.around d (t.place f) = t.place (t.shifted f d) := by
  rw [shiftTabstop_place]
  congr 1
  funext r
  cases hd : d.action with
  | insert =>
    rw [takes_insert hd, owns_selected h, hw, Bool.true_and]
    rfl
  | remove => exact Range.shift_eq_of_not_touching (fun hi => by cases hd.symm.trans hi) _ _

theorem selected_changes : ∀ {ds : List Delta} {s : Session} {b : Buffer} {f : TrackedRange → Range},
    Running s b (t.place f) → s.writing = none → (s.handleAll b (ds.map .change)).1.isActive = true →
    (s.handleAll b (ds.map .change)).1.selected? = some (t.place (ds.foldl t.shifted f))
  | [], _, _, _, h, _, _ => selected?_eq h
  | d :: ds, s, b, f, h, hw, hactive => by
    obtain ⟨index, markers, hrun, he⟩ := handle_change_of_active h (isActive_handle hactive)
    rw [shiftTabstop_shifted h hw] at hrun
    rw [List.map_cons, handleAll_cons, he] at hactive ⊢
    exact selected_changes hrun hw hactive

/-! ## Without links -/

theorem linkMirrors_handleAll : ∀ {ds : List Delta} {s : Session} {b : Buffer}, Valid s b →
    (s.handleAll b (ds.map .change)).1.linkMirrors = s.linkMirrors
  | [], _, _, _ => rfl
  | d :: ds, s, b, h => by
    rw [List.map_cons, handleAll_cons]
    refine (linkMirrors_handleAll (valid_handle h (.change d))).trans ?_
    cases h with
    | idle hidle => rw [handle_of_inactive hidle.inactive]
    | running t hrun =>
      obtain ⟨index, markers, hrun', he⟩ := onChange_eq hrun d
      rw [handle_of_active hrun.active]
      dsimp only
      rw [he]
      split
      · rw [detach_eq hrun'.toFollowing]
      · rfl

theorem linked_of_unlinked {origin : Position} : ∀ {rs : List TabstopRange} {b : Buffer} {nextKey : Nat} {edited : Bool}
    {x : TrackedRange}, x ∈ (trackRanges false origin b nextKey edited rs).1 → x.linked = x.transform.isSome
  | [], _, _, _, _, hx => by cases hx
  | r :: rest, b, nextKey, edited, x, hx => by
    rw [trackRanges_cons] at hx
    rcases List.mem_cons.mp hx with rfl | hx
    · exact Bool.or_false _
    · exact linked_of_unlinked hx

theorem reads_edited_iff (hb : b.Sound) (hlinked : ∀ r ∈ t.ranges, r.linked = r.transform.isSome)
    (hon : ∀ r ∈ (t.place f).ranges, r.range.On b.chars) {text : String} :
    (∀ r ∈ t.edited, (f r).Reads b.chars text.toList) ↔
      ∀ r ∈ (t.place f).ranges, r.transform = none → b.textRange r.range = text := by
  have hedited : ∀ r ∈ t.ranges, r ∈ t.edited ↔ r.transform = none := fun r hr => by
    rw [Tabstop.mem_edited, hlinked r hr, Option.isSome_eq_false_iff, Option.isNone_iff_eq_none]
    exact and_iff_right hr
  constructor
  · intro hreads r' hr' hnone
    obtain ⟨r, hr, rfl⟩ := Tabstop.mem_place.mp hr'
    exact (textRange_eq hb (hreads r ((hedited r hr).mpr hnone))).trans String.ofList_toList
  · intro htext r hr
    have hmem := (Tabstop.mem_edited.mp hr).1
    have hread := htext _ (Tabstop.mem_place_of_mem hmem) ((hedited r hmem).mp hr)
    rw [← hread]
    exact reads_textRange hb (hon _ (Tabstop.mem_place_of_mem hmem))

end Session

namespace Scene

open Session (Running Valid Together)

variable {x y z : Scene} {source : String} {options : InsertOptions} {t : Tabstop}

theorem selections_of_moves (h : AtRest x) (hd : options.dryRun = false)
    (hz : Relation.ReflTransGen Moves (x.insert source options) z) (ht : z.1.session.selected? = some t) :
    ∃ f, At z t f ∧ z.2.selections = Session.selectionsOf t f := by
  have hinsert : AtRest (x.insert source options) := h.insert source options
  obtain ⟨y, hy, hyz⟩ : ∃ y, AtRest y ∧ Selects y z := by
    rcases Relation.ReflTransGen.cases_tail hz with rfl | ⟨y, hy, step, rfl⟩
    · exact ⟨x, h, .insert source hd⟩
    · exact ⟨y, (moved hinsert hy).1, .move step⟩
  have hactive := (Session.running_of_selected? (atRest_of_selects hy hyz).steady.valid ht).active
  obtain ⟨t', f, hat, hselections⟩ := selections_of_selects hy hyz hactive
  obtain rfl := Option.some.inj (ht.symm.trans hat.selected)
  exact ⟨f, hat, hselections⟩

theorem linkMirrors_heard (h : AtRest x) (source : String) (options : InsertOptions) :
    (x.heard source options).1.session.linkMirrors = x.1.session.linkMirrors := by
  obtain ⟨m, n, -, -, -, -, hkeeps, -⟩ := exists_heard h source options
  have hvalid := h.steady.valid.host ⟨hkeeps.markers, hkeeps.nextMarker⟩ hkeeps.commandsBound
  unfold heard SnippetInserter.handleChanges
  dsimp only
  exact Session.linkMirrors_handleAll hvalid

/-- The tabstop is one of a snippet that was inserted without links, and its ranges that are edited are selected. -/
theorem together_of_moves (h : AtRest x) (hlink : x.1.session.linkMirrors = false) (hd : options.dryRun = false)
    (hac : Expansion.Acyclic (x.template source options))
    (hz : Relation.ReflTransGen Moves (x.insert source options) z) (ht : z.1.session.selected? = some t)
    (hkey : x.firstKey source options ≤ t.key) :
    (∀ r ∈ t.ranges, r.linked = r.transform.isSome) ∧
      (t.edited ≠ [] → ∃ spelled : String, Together t z.2 spelled.toList) := by
  obtain ⟨hrest, hlines, htabstops⟩ := moved (h.insert source options) hz
  have hrun := Session.running_of_selected? hrest.steady.valid ht
  obtain ⟨hactive, hsame⟩ := htabstops hrun.active
  have hmem : t ∈ (x.insert source options).1.session.tabstops := hsame ▸ Session.mem_tabstops hrun
  obtain ⟨⟨g, htracking⟩, hordered, spelled, hshown⟩ := shown_insert h hd hac hactive hmem hkey
  obtain ⟨b, nextKey, hranges⟩ := htracking.ranges
  rw [linkMirrors_heard h, hlink] at hranges
  refine ⟨fun r hr => Session.linked_of_unlinked (hranges ▸ hr), fun hne => ⟨spelled, ?_⟩⟩
  obtain ⟨f, hat, hselections⟩ := selections_of_moves h hd hz ht
  have hon : ∀ r ∈ t.ranges, r.range.On z.2.chars := fun r hr => hrest.steady.placed.on r (hrun.range_mem hr)
  have hnodup : (t.ranges.map (·.key)).Nodup :=
    List.pairwise_map.mpr (Session.pairwise_range_keys hrun.toFollowing (Session.mem_tabstops hrun))
  refine ⟨hon, hnodup, hordered.sublist List.filter_sublist, fun r hr => ?_, ?_⟩
  · obtain ⟨hr, hl⟩ := Tabstop.mem_edited.mp hr
    obtain ⟨hreads, -, hnone⟩ := hshown r hr
    rw [hnone hl, Expansion.Default.shown_none] at hreads
    rwa [Buffer.chars_congr hlines]
  · rw [hselections]
    refine Session.toRange_selectionsOf hat.target hnodup hne
      (fun r hr => (hon r (Tabstop.mem_edited.mp hr).1).start_le_stop) rfl ?_
    have hsel := hat.toRange_selection
    rw [hat.selection] at hsel
    exact hsel

/-- After a text has been typed the tabstop is still selected, unless the session has ended. -/
theorem selected_typed (h : AtRest z) (ht : z.1.session.selected? = some t) (text : String) :
    AtRest (z.typed text) ∧ (z.typed text).2.chars = (z.2.typeText text).1.chars ∧
    ((z.typed text).1.session.isActive = false → (z.2.typeText text).1.chars = []) ∧
    ((z.typed text).1.session.isActive = true →
      (z.typed text).1.session.selected? = some (t.place ((z.2.typeText text).2.foldl t.shifted (·.range)))) := by
  obtain ⟨i, b⟩ := z
  have hedits : b.Edits (b.typeText text).2 (b.typeText text).1 := Buffer.edits_typeText h.sound text
  have hrun := Session.running_of_selected? h.steady.valid ht
  have hrun' : Running i.session (b.typeText text).1 t :=
    hrun.host ⟨hedits.markers, hedits.nextMarker⟩ hedits.commandsBound
  obtain ⟨hrest, hsame⟩ := SnippetInserter.atRest_handleChanges
    (SnippetInserter.steady_host h hedits.toKeepsMarkers) hedits.sound hedits.chain
  refine ⟨hrest, hsame.chars, fun hended => ?_, fun hactive => ?_⟩
  · exact Buffer.chars_of_isEmpty (Session.isEmpty_of_ended hrun' hended)
  · rw [← Tabstop.place_self t] at hrun'
    exact Session.selected_changes hrun' h.steady.writing hactive

/-- A snippet without a tabstop that holds itself is inserted while occurrences are not linked, and moves select one of
its tabstops. When a text is typed there the session goes on, unless there is no text and nothing is left in the buffer. The
occurrences without a transform all read the text then if and only if it is empty, or none of them begins where another
one ends. -/
theorem reads_typed_iff {x₀ : Scene} (hx : Initial x₀) (hb : x₀.2.Sound) (hruns : Runs Buffer.Edits x₀ x)
    (hlink : x.1.session.linkMirrors = false) (hd : options.dryRun = false)
    (hac : Expansion.Acyclic (x.template source options))
    (hz : Relation.ReflTransGen Moves (x.insert source options) z) (ht : z.1.session.selected? = some t)
    (hkey : x.firstKey source options ≤ t.key) (text : String) :
    let y := z.typed text
    (y.1.session.isActive = false → text = "" ∧ y.2.chars = []) ∧
    (y.1.session.isActive = true → ∃ t', y.1.session.selected? = some t' ∧ t'.key = t.key ∧
      t'.ranges.map (fun r => (r.key, r.transform)) = t.ranges.map (fun r => (r.key, r.transform)) ∧
      ((∀ r ∈ t'.ranges, r.transform = none → y.2.textRange r.range = text) ↔
        text = "" ∨ (t.ranges.filter (·.transform.isNone)).Pairwise fun r r' => r.range.stop ≠ r'.range.start)) := by
  intro y
  have h := atRest_of_runs hx hb hruns
  have hrest := (moved (h.insert source options) hz).1
  obtain ⟨hlinked, htogether⟩ := together_of_moves h hlink hd hac hz ht hkey
  obtain ⟨f, -, hselections⟩ := selections_of_moves h hd hz ht
  obtain ⟨hrest', hchars, hended, hselected⟩ := selected_typed hrest ht text
  have hedited : t.ranges.filter (·.transform.isNone) = t.edited :=
    List.filter_congr fun r hr => by rw [hlinked r hr, ← Option.not_isSome]
  refine ⟨fun hidle => ?_, fun hactive => ⟨_, hselected hactive, rfl, ?_, ?_⟩⟩
  · have hnil := hended hidle
    refine ⟨?_, hchars.trans hnil⟩
    by_contra hne
    exact Buffer.typeText_ne_nil hrest.sound (by rw [hselections]; nofun) hne hnil
  · rw [Tabstop.place, List.map_map]
    rfl
  · have hrun := Session.running_of_selected? hrest'.steady.valid (hselected hactive)
    rw [hedited, ← Session.reads_edited_iff hrest'.sound hlinked fun r hr => hrest'.steady.placed.on r (hrun.range_mem hr)]
    rw [hchars]
    by_cases hne : t.edited = []
    · simp [hne]
    · obtain ⟨spelled, htogether⟩ := htogether hne
      exact htogether.reads_iff hrest.sound text

/-- The second tabstop has two occurrences with a space between them, and a transformed one that touches the second. -/
theorem reads_typed_iff_spaced :
    let x : Scene := (SnippetInserter.create { clock := ⟨2024, 3, 5, 7, 8, 9⟩ } false, .ofText "")
    let source := "$1 $\x7b2:x\x7d $2$\x7b2/x/y/\x7d"
    let z := (x.insert source {}).move 1
    let y := z.typed "ab"
    Initial x ∧ x.2.Sound ∧ x.1.session.linkMirrors = false ∧ Relation.ReflTransGen Moves (x.insert source {}) z ∧
      y.2.text = " ab aby" ∧ ∃ t ∈ y.1.session.selected?, t.ranges.length = 3 ∧
        ∀ r ∈ t.ranges, r.transform = none → y.2.textRange r.range = "ab" := by
  intro x source z y
  have hx : Initial x := ⟨⟨_, _, rfl⟩, rfl, rfl⟩
  have hb : x.2.Sound := Buffer.sound_ofText ""
  have hlink : x.1.session.linkMirrors = false := rfl
  have hd : ({} : InsertOptions).dryRun = false := rfl
  have hac : Expansion.Acyclic (x.template source {}) := Expansion.acyclic_of_lt (by decide +kernel)
  have hz : Relation.ReflTransGen Moves (x.insert source {}) z := .single ⟨1, rfl⟩
  have hselected : ∃ t ∈ z.1.session.selected?, x.firstKey source {} ≤ t.key ∧ t.ranges.length = 3 ∧
      (t.ranges.filter (·.transform.isNone)).Pairwise fun r r' => r.range.stop ≠ r'.range.start := by decide +kernel
  obtain ⟨t, ht, hkey, hlen, hapart⟩ := hselected
  obtain ⟨hended, hreads⟩ := reads_typed_iff hx hb .refl hlink hd hac hz ht hkey "ab"
  have hactive : y.1.session.isActive = true := by
    by_contra hidle
    exact absurd (hended (Bool.eq_false_iff.mpr hidle)).1 (by decide)
  obtain ⟨t', ht', -, hkept, hiff⟩ := hreads hactive
  have hlen' : t'.ranges.length = t.ranges.length := by simpa using congrArg List.length hkept
  refine ⟨hx, hb, hlink, hz, ?_, t', ht', hlen'.trans hlen, hiff.mpr (.inr hapart)⟩
  change (z.typed "ab").2.text = " ab aby"
  unfold typed Buffer.typeText
  rw [Buffer.typingOrder_of_ascending (by decide +kernel)]
  decide +kernel

/-- The second occurrence begins where the first one ends, and is left empty. -/
theorem touching_occurrence_empty :
    let x : Scene := (SnippetInserter.create { clock := ⟨2024, 3, 5, 7, 8, 9⟩ } false, .ofText "")
    let z := x.insert "$\x7b1:x\x7d$1" {}
    let y := z.typed "ab"
    Initial x ∧ x.2.Sound ∧ x.1.session.linkMirrors = false ∧
      Expansion.nestings (x.template "$\x7b1:x\x7d$1" {}) = [] ∧
      (∃ t ∈ z.1.session.selected?, t.id = 1 ∧ t.ranges.map (·.transform.isNone) = [true, true]) ∧
      ¬ (∀ t ∈ y.1.session.selected?, ∀ r ∈ t.ranges, r.transform.isNone = true → y.2.textRange r.range = "ab") ∧
      y.2.text = "abab" ∧
      ∃ t ∈ y.1.session.selected?, t.ranges.map (fun r => y.2.textRange r.range) = ["abab", ""] := by
  intro x z y
  have hx : Initial x := ⟨⟨_, _, rfl⟩, rfl, rfl⟩
  refine ⟨hx, Buffer.sound_ofText "", rfl, ?_, ?_, ?_⟩
  · decide +kernel
  · decide +kernel
  · change ¬ (∀ t ∈ (z.typed "ab").1.session.selected?, ∀ r ∈ t.ranges, r.transform.isNone = true →
        (z.typed "ab").2.textRange r.range = "ab") ∧ (z.typed "ab").2.text = "abab" ∧
      ∃ t ∈ (z.typed "ab").1.session.selected?, t.ranges.map (fun r => (z.typed "ab").2.textRange r.range) = ["abab", ""]
    unfold typed Buffer.typeText
    rw [Buffer.typingOrder_of_ascending (by decide +kernel)]
    decide +kernel

end Scene

end Scribe
