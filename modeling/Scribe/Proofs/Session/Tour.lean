import Scribe.Proofs.Session.Final
import Scribe.Proofs.Snippet.WellFormed

/-!
# Tours

A tour leads through the tabstops of a session. A snippet nested at a tabstop is a detour, which begins right after it
and ends before the tour goes on.
-/

namespace Scribe

mutual

/-- The tabstops of a snippet, by their keys and their numbers, each with the snippets nested at it. -/
inductive Tour where
  | done
  | stop (key id : Nat) (detours : Detours) (rest : Tour)

/-- The snippets nested at a tabstop, the last one first. -/
inductive Detours where
  | none
  | snippet (tour : Tour) (earlier : Detours)

end

mutual

/-- All tabstops, depth first. -/
def Tour.walk : Tour → List (Nat × Nat)
  | .done => []
  | .stop key id detours rest => (key, id) :: (detours.walk ++ rest.walk)

def Detours.walk : Detours → List (Nat × Nat)
  | .none => []
  | .snippet tour earlier => tour.walk ++ earlier.walk

end

/-- The numbers of the snippet's own tabstops. -/
def Tour.ids : Tour → List Nat
  | .done => []
  | .stop _ id _ rest => id :: rest.ids

mutual

/-- The numbers of each snippet that is nested somewhere. -/
def Tour.nested : Tour → List (List Nat)
  | .done => []
  | .stop _ _ detours rest => detours.nested ++ rest.nested

def Detours.nested : Detours → List (List Nat)
  | .none => []
  | .snippet tour earlier => tour.ids :: (tour.nested ++ earlier.nested)

end

/-- A snippet without nested ones. -/
def Tour.of : List (Nat × Nat) → Tour
  | [] => .done
  | (key, id) :: rest => .stop key id .none (of rest)

mutual

/-- A snippet is nested at the tabstop of this key. -/
def Tour.nest (tour : Tour) (key : Nat) (new : Tour) : Tour :=
  match tour with
  | .done => .done
  | .stop k id detours rest =>
    let detours := detours.nest key new
    .stop k id (if k = key then .snippet new detours else detours) (rest.nest key new)

def Detours.nest (detours : Detours) (key : Nat) (new : Tour) : Detours :=
  match detours with
  | .none => .none
  | .snippet tour earlier => .snippet (tour.nest key new) (earlier.nest key new)

end

namespace Tour

theorem walk_of : ∀ names : List (Nat × Nat), (of names).walk = names
  | [] => rfl
  | (key, id) :: rest => by rw [of, walk, Detours.walk, walk_of rest]; rfl

theorem ids_of : ∀ names : List (Nat × Nat), (of names).ids = names.map (·.2)
  | [] => rfl
  | (key, id) :: rest => by rw [of, ids, ids_of rest]; rfl

theorem nested_of : ∀ names : List (Nat × Nat), (of names).nested = []
  | [] => rfl
  | (key, id) :: rest => by rw [of, nested, Detours.nested, nested_of rest]; rfl

theorem ids_nest (key : Nat) (new : Tour) : ∀ tour : Tour, (tour.nest key new).ids = tour.ids
  | .done => rfl
  | .stop _ _ _ rest => by rw [nest, ids, ids, ids_nest key new rest]

end Tour

/-- New names right after those of this key. -/
def insertAfter (key : Nat) (new names : List (Nat × Nat)) : List (Nat × Nat) :=
  names.flatMap fun n => if n.1 = key then n :: new else [n]

section
variable (key : Nat) (new : Tour)

mutual

theorem Tour.walk_nest : ∀ tour : Tour, (tour.nest key new).walk = insertAfter key new.walk tour.walk
  | .done => rfl
  | .stop k id detours rest => by
    have hdetours := Detours.walk_nest detours
    have hrest := Tour.walk_nest rest
    simp only [insertAfter] at hdetours hrest ⊢
    by_cases hk : k = key <;> simp [Tour.nest, Tour.walk, Detours.walk, hk, hdetours, hrest]

theorem Detours.walk_nest : ∀ detours : Detours, (detours.nest key new).walk = insertAfter key new.walk detours.walk
  | .none => rfl
  | .snippet tour earlier => by
    have htour := Tour.walk_nest tour
    have hearlier := Detours.walk_nest earlier
    simp only [insertAfter] at htour hearlier ⊢
    simp [Detours.nest, Detours.walk, htour, hearlier]

end

mutual

/-- Where a snippet is nested there is no other new one. -/
theorem Tour.of_mem_nested {ids : List Nat} : ∀ {tour : Tour}, ids ∈ (tour.nest key new).nested →
    ids = new.ids ∨ ids ∈ new.nested ∨ ids ∈ tour.nested
  | .done, h => .inr (.inr h)
  | .stop k id detours rest, h => by
    rw [Tour.nest, Tour.nested, List.mem_append] at h
    rw [Tour.nested, List.mem_append]
    have hrest : ids ∈ (rest.nest key new).nested → _ := Tour.of_mem_nested
    have hdetours : ids ∈ (detours.nest key new).nested → _ := Detours.of_mem_nested
    split at h
    · simp only [Detours.nested, List.mem_cons, List.mem_append] at h
      tauto
    · tauto

theorem Detours.of_mem_nested {ids : List Nat} : ∀ {detours : Detours}, ids ∈ (detours.nest key new).nested →
    ids = new.ids ∨ ids ∈ new.nested ∨ ids ∈ detours.nested
  | .none, h => .inr (.inr h)
  | .snippet tour earlier, h => by
    rw [Detours.nest, Detours.nested, Tour.ids_nest] at h
    rw [Detours.nested]
    have htour : ids ∈ (tour.nest key new).nested → _ := Tour.of_mem_nested
    have hearlier : ids ∈ (earlier.nest key new).nested → _ := Detours.of_mem_nested
    simp only [List.mem_cons, List.mem_append] at h ⊢
    tauto

end

end

theorem insertAfter_eq_splice {key id place : Nat} {new names : List (Nat × Nat)} (hn : (names.map (·.1)).Nodup)
    (h : names[place]? = some (key, id)) :
    insertAfter key new names = names.take (place + 1) ++ new ++ names.drop (place + 1) := by
  have hstay : ∀ ns : List (Nat × Nat), key ∉ ns.map (·.1) →
      (ns.flatMap fun n => if n.1 = key then n :: new else [n]) = ns := fun ns hns => by
    have hne : ∀ n ∈ ns, (if n.1 = key then n :: new else [n]) = [n] := fun n hmem =>
      if_neg fun he : n.1 = key => hns (he ▸ List.mem_map_of_mem hmem)
    rw [List.flatMap_congr hne]
    simp
  obtain ⟨hlt, hget⟩ := List.getElem?_eq_some_iff.mp h
  have hsplit : names = names.take place ++ (key, id) :: names.drop (place + 1) := by
    rw [← hget, ← List.drop_eq_getElem_cons hlt, List.take_append_drop]
  have htake : names.take (place + 1) = names.take place ++ [(key, id)] := by
    rw [List.take_add_one, h]
    rfl
  rw [hsplit, List.map_append, List.map_cons] at hn
  have hfront := List.disjoint_of_nodup_append hn
  have hback := (List.nodup_cons.mp (List.nodup_append.mp hn).2.1).1
  rw [htake, insertAfter]
  conv => lhs; rw [hsplit]
  rw [List.flatMap_append, List.flatMap_cons, hstay _ fun hk => hfront hk List.mem_cons_self, hstay _ hback]
  simp

namespace Session

variable {s : Session} {b : Buffer} {t : Tabstop}

/-! ## Losing nothing -/

theorem keys_onChange (h : Running s b t) (d : Delta) {r : TrackedRange} (hr : r ∈ (s.onChange b d).1.ranges) :
    r.key ∈ s.ranges.map (·.key) := by
  obtain ⟨index, markers, hrun, he⟩ := onChange_eq h d
  rw [he] at hr
  split at hr
  · rw [detach_eq hrun.toFollowing] at hr
    cases hr
  · have hranges : r ∈ (s.changed d).flatMap (·.ranges) := hr
    rw [changed, ranges_keepRanges] at hranges
    have hkey := List.mem_map_of_mem (f := (·.key)) (List.mem_of_mem_filter hranges)
    rwa [map_ranges_shift s s.around d (·.key) fun _ _ => rfl] at hkey

/-- A change after which every range is still followed loses no tabstop. -/
theorem names_onChange (h : Running s b t) (d : Delta)
    (hkeep : ∀ r ∈ s.ranges, r.key ∈ (s.onChange b d).1.ranges.map (·.key)) :
    (s.onChange b d).1.isActive = true ∧ (s.onChange b d).1.names = s.names := by
  obtain ⟨index, markers, hrun, he⟩ := onChange_eq h d
  rw [he] at hkeep ⊢
  split at hkeep
  · obtain ⟨r, hr⟩ := List.exists_mem_of_ne_nil _ (h.occupied t (mem_tabstops h))
    have := hkeep r (h.range_mem hr)
    rw [detach_eq hrun.toFollowing] at this
    cases this
  · rw [if_neg ‹_›]
    refine ⟨hrun.active, ?_⟩
    have hnone : ∀ u ∈ s.tabstops.map (s.shiftTabstop s.around d), ∀ r ∈ u.ranges, r.key ∉ s.dropped d := by
      intro u hu r hr
      have hkey : r.key ∈ ((s.tabstops.map (s.shiftTabstop s.around d)).flatMap (·.ranges)).map (·.key) :=
        List.mem_map_of_mem (List.mem_flatMap.mpr ⟨u, hu, hr⟩)
      rw [map_ranges_shift s s.around d (·.key) fun _ _ => rfl] at hkey
      obtain ⟨r', hr', hkey⟩ := List.mem_map.mp hkey
      obtain ⟨r'', hr'', hkey'⟩ := List.mem_map.mp (hkeep r' hr')
      have hranges : r'' ∈ (s.changed d).flatMap (·.ranges) := hr''
      rw [changed, ranges_keepRanges] at hranges
      rw [← hkey, ← hkey']
      simpa using (List.mem_filter.mp hranges).2
    have hoccupied : ∀ u ∈ s.tabstops.map (s.shiftTabstop s.around d), u.ranges ≠ [] := by
      intro u hu
      obtain ⟨v, hv, rfl⟩ := List.mem_map.mp hu
      simpa [shiftTabstop] using h.occupied v hv
    simp only [names, changed, keepRanges_eq_self hoccupied hnone, List.map_map]
    rfl

theorem keys_handleAll : ∀ (ds : List Delta) {s : Session} {b : Buffer}, Valid s b →
    ∀ r ∈ (s.handleAll b (ds.map .change)).1.ranges, r.key ∈ s.ranges.map (·.key)
  | [], s, b, _, r, hr => List.mem_map_of_mem hr
  | d :: ds, s, b, h, r, hr => by
    rw [List.map_cons, handleAll_cons] at hr
    have hkey := keys_handleAll ds (valid_handle h (.change d)) r hr
    cases h with
    | idle h => rwa [handle_of_inactive h.inactive] at hkey
    | running t h =>
      rw [handle_of_active h.active] at hkey
      obtain ⟨r', hr', he⟩ := List.mem_map.mp hkey
      exact he ▸ keys_onChange h d hr'

theorem names_handleAll : ∀ (ds : List Delta) {s : Session} {b : Buffer} {t : Tabstop}, Running s b t →
    (∀ r ∈ s.ranges, r.key ∈ (s.handleAll b (ds.map .change)).1.ranges.map (·.key)) →
    (s.handleAll b (ds.map .change)).1.isActive = true ∧ (s.handleAll b (ds.map .change)).1.names = s.names ∧
      Thinned s (s.handleAll b (ds.map .change)).1
  | [], s, _, _, h, _ => ⟨h.active, rfl, .refl s⟩
  | d :: ds, s, b, t, h, hkeep => by
    rw [List.map_cons, handleAll_cons] at hkeep ⊢
    have hhandle : s.handle b (.change d) = s.onChange b d := handle_of_active h.active _
    rw [hhandle] at hkeep ⊢
    have hvalid := valid_onChange h d
    have hfirst : ∀ r ∈ s.ranges, r.key ∈ (s.onChange b d).1.ranges.map (·.key) := fun r hr => by
      obtain ⟨r', hr', he⟩ := List.mem_map.mp (hkeep r hr)
      exact he ▸ keys_handleAll ds hvalid r' hr'
    obtain ⟨hactive, hnames⟩ := names_onChange h d hfirst
    obtain ⟨u, hrun⟩ := hvalid.exists_running hactive
    obtain ⟨hactive', hnames', hthin⟩ := names_handleAll ds hrun fun r hr => by
      obtain ⟨r', hr', he⟩ := List.mem_map.mp (keys_onChange h d hr)
      exact he ▸ hkeep r' hr'
    exact ⟨hactive', hnames'.trans hnames, (thinned_onChange h d hactive).trans hthin⟩

/-! ## Selecting -/

theorem getElem?_names (h : Running s b t) : s.names[s.index]? = some (t.key, t.id) := by
  rw [names, List.getElem?_map, h.getElem]
  rfl

theorem index_eq_of_names {s' : Session} {b' : Buffer} {t' : Tabstop} (h : Running s b t) (h' : Running s' b' t')
    (hn : s'.names = s.names) (hk : s'.selectedKey = s.selectedKey) : s'.index = s.index := by
  have hkey : t'.key = t.key := by
    have := hk
    rw [h.selectedKey, h'.selectedKey] at this
    exact Option.some.inj this
  have hget : (s.names.map (·.1))[s'.index]? = (s.names.map (·.1))[s.index]? := by
    rw [List.getElem?_map, List.getElem?_map, getElem?_names h, ← hn, getElem?_names h']
    exact congrArg some hkey
  have hlt : s'.index < (s.names.map (·.1)).length := by
    have := (List.getElem?_eq_some_iff.mp (getElem?_names h')).1
    rwa [hn, ← List.length_map (f := (·.1))] at this
  exact (List.getElem?_inj hlt (nodup_names h.toFollowing)).mp hget

/-- Moving on to a place selects what is there. -/
theorem running_tabNext (h : Following s b) (hne : s.tabstops ≠ []) (step : Int) (hp : s.placeAfter step ≠ 0) :
    ∃ u, Running (s.tabNext b step).1 (s.tabNext b step).2 u ∧ (s.tabNext b step).1.index = s.placeAfter step ∧
      (s.tabNext b step).1.tabstops = s.tabstops ∧ (s.tabNext b step).1.nextKey = s.nextKey := by
  obtain ⟨u, selections, completions, -, hrun, he⟩ := tabNext_eq h hne step
  rw [he, if_neg hp]
  exact ⟨u, hrun, rfl, rfl, rfl⟩

end Session

namespace SnippetInserter

open Session (Valid Running)

/-- A session that begins or goes on with a snippet selects what comes next. -/
theorem running_beginSession {i : SnippetInserter} {b : Buffer} (hv : Valid i.session b) {expanded : ExpandedSnippet}
    (he : expanded.IsExpansion) {origin : Position} {names : List (Nat × Nat)}
    (hnames : ((i.started b).1.addTabstops (i.started b).2 expanded.tabstops origin).1.names = names)
    (hlt : (i.started b).1.index + 1 < names.length) :
    ∃ u, Running (i.beginSession b expanded origin).1.session (i.beginSession b expanded origin).2 u ∧
      (i.beginSession b expanded origin).1.session.index = (i.started b).1.index + 1 ∧
      (i.beginSession b expanded origin).1.session.names = names := by
  obtain ⟨hadded, hsome⟩ := following_addTabstops hv he origin
  have hindex : ((i.started b).1.addTabstops (i.started b).2 expanded.tabstops origin).1.index =
    (i.started b).1.index := rfl
  rw [beginSession_started]
  generalize (i.started b).1.addTabstops (i.started b).2 expanded.tabstops origin = added at *
  have hlen : added.1.tabstops.length = names.length := by rw [← hnames, Session.names, List.length_map]
  have hplace : added.1.placeAfter 1 = (i.started b).1.index + 1 :=
    added.1.placeAfter_eq (by omega) (by rw [hindex]; rfl) (by omega) (by omega)
  obtain ⟨u, hrun, hat, hts, -⟩ := Session.running_tabNext hadded hsome 1 (by omega)
  refine ⟨u, hrun, hat.trans hplace, ?_⟩
  rw [← hnames]
  exact congrArg (List.map fun t => (t.key, t.id)) hts

theorem started_handleChanges {i : SnippetInserter} {b : Buffer} {t : Tabstop} (h : Running i.session b t)
    {ds : List Delta} (hkeep : ∀ r ∈ i.session.ranges, r.key ∈ (i.handleChanges b ds).1.session.ranges.map (·.key)) :
    Valid (i.handleChanges b ds).1.session (i.handleChanges b ds).2 ∧
      let start := ((i.handleChanges b ds).1.started (i.handleChanges b ds).2).1
      start.index = i.session.index ∧ start.nextKey = i.session.nextKey ∧ start.names = i.session.names ∧
        start.tabstops.isEmpty = false := by
  obtain ⟨hactive, hnames, hthin⟩ := Session.names_handleAll ds h hkeep
  have hvalid := valid_handleChanges (.running t h) ds
  obtain ⟨u, hrun⟩ := hvalid.exists_running hactive
  have hindex := Session.index_eq_of_names h hrun hnames hthin.selectedKey
  refine ⟨hvalid, ?_⟩
  rw [started_of_active hactive]
  refine ⟨hindex, hthin.nextKey, hnames, ?_⟩
  simpa using List.ne_nil_of_mem (Session.mem_tabstops hrun)

end SnippetInserter

namespace Scene

open Session (Valid Running Following)

/-- A snippet is put in place of the selection. -/
def insert (x : Scene) (source : String) (options : InsertOptions) : Scene := (x.1.insert x.2 source options).2

def move (x : Scene) (step : Int) : Scene := x.1.move x.2 step

/-- The session has heard that the text of a snippet is in the buffer, and does not follow its tabstops yet. -/
def heard (x : Scene) (source : String) (options : InsertOptions) : Scene :=
  let replaced := x.2.replace x.2.selection.toRange (expandSnippet x.1.vars x.2.context options source).text
  x.1.handleChanges replaced.1 replaced.2

/-- All ranges are still followed once the text of a snippet is in the buffer. -/
def KeepsRanges (x : Scene) (source : String) (options : InsertOptions) : Prop :=
  ∀ r ∈ x.1.session.ranges, r.key ∈ (x.heard source options).1.session.ranges.map (·.key)

/-- The names of the tabstops of a snippet, with keys from `key` on. -/
def snippetNames (x : Scene) (key : Nat) (source : String) (options : InsertOptions) : List (Nat × Nat) :=
  let ids := (expandSnippet x.1.vars x.2.context options source).order
  (List.range' key ids.length).zip ids

/-- The name of the tabstop that is selected. -/
def selectedName (x : Scene) : List (Nat × Nat) := (x.1.session.selected?.map fun t => (t.key, t.id)).toList

/-- In a scene where no session runs a snippet is inserted. Others are nested at tabstops that are selected, and moves
lead from one tabstop to another. `seen` are the tabstops in the order in which they have been selected. -/
inductive Touring (allowed : Int → Prop) (x : Scene) : Nat → Tour → List (Nat × Nat) → Scene → Prop
  | begins {source : String} {options : InsertOptions} {names : List (Nat × Nat)} {final : Nat} :
    options.dryRun = false → x.snippetNames 0 source options = names ++ [(final, 0)] → names ≠ [] →
    Touring allowed x final (.of names) (x.insert source options).selectedName (x.insert source options)
  | nests {final : Nat} {tour : Tour} {seen : List (Nat × Nat)} {y : Scene} {t : Tabstop} {source : String}
    {options : InsertOptions} :
    Touring allowed x final tour seen y → options.dryRun = false → y.1.session.selected? = some t →
    y.KeepsRanges source options →
    Touring allowed x final (tour.nest t.key (.of (y.snippetNames y.1.session.nextKey source options)))
      (seen ++ (y.insert source options).selectedName) (y.insert source options)
  | moves {final : Nat} {tour : Tour} {seen : List (Nat × Nat)} {y : Scene} (step : Int) :
    Touring allowed x final tour seen y → allowed step → (y.move step).1.session.isActive = true →
    Touring allowed x final tour (seen ++ (y.move step).selectedName) (y.move step)

theorem insert_eq_begin (x : Scene) (source : String) {options : InsertOptions} (hd : options.dryRun = false) :
    x.insert source options = (x.heard source options).1.beginSession (x.heard source options).2
      (expandSnippet x.1.vars x.2.context options source) x.2.selection.toRange.start := by
  unfold insert heard
  rw [SnippetInserter.insert_eq]
  simp only [hd, Bool.false_eq_true, if_false]

theorem snippetNames_eq (x : Scene) {s : Session} {key : Nat} (hs : s.nextKey = key) (source : String)
    (options : InsertOptions) : x.snippetNames key source options =
      s.newNames (expandSnippet x.1.vars x.2.context options source).tabstops := by
  unfold snippetNames Session.newNames ExpandedSnippet.order
  simp only [hs, List.length_map]

theorem map_snippetNames (x : Scene) (key : Nat) (source : String) (options : InsertOptions) :
    (x.snippetNames key source options).map (·.2) = (expandSnippet x.1.vars x.2.context options source).order :=
  List.map_snd_zip (by simp)

theorem selectedName_eq {x : Scene} {t : Tabstop} (h : Running x.1.session x.2 t) :
    x.selectedName = x.1.session.names[x.1.session.index]?.toList := by
  unfold selectedName
  rw [Session.getElem?_names h, Session.selected?_eq h]
  rfl

/-- In ascending order, and then 0. -/
def FinalLast (ids : List Nat) : Prop := ∃ front, ids = front ++ [0] ∧ front.Pairwise (· < ·) ∧ 0 ∉ front

theorem finalLast_order (vars : Variables) (ctx : EditContext) (options : InsertOptions) (source : String) :
    FinalLast (expandSnippet vars ctx options source).order := by
  rw [Expansion.expandSnippet_eq_layout]
  exact Expansion.order_layout (Expansion.pairwise_keys_collect .nil) _

/-- The session runs and its tabstops are those of the tour. -/
structure OnTour (final : Nat) (tour : Tour) (y : Scene) : Prop where
  running : ∃ t, Running y.1.session y.2 t
  one_le : 1 ≤ y.1.session.index
  names : y.1.session.names = (final, 0) :: tour.walk
  order : FinalLast (tour.ids ++ [0])
  nested : ∀ ids ∈ tour.nested, FinalLast ids

/-! ## The first snippet -/

/-- A session that begins gets the final tabstop first. -/
theorem names_first {x : Scene} (hv : Valid x.1.session x.2) (hi : x.1.session.isActive = false) {source : String}
    {options : InsertOptions} {names : List (Nat × Nat)} {final : Nat}
    (hnames : x.snippetNames 0 source options = names ++ [(final, 0)]) :
    let start := (x.heard source options).1.started (x.heard source options).2
    Valid (x.heard source options).1.session (x.heard source options).2 ∧ start.1.index = 0 ∧
      (start.1.addTabstops start.2 (expandSnippet x.1.vars x.2.context options source).tabstops
        x.2.selection.toRange.start).1.names = (final, 0) :: names := by
  have hidle : (x.heard source options).1.session.isActive = false := by
    unfold heard
    rw [SnippetInserter.handleChanges_of_inactive hi]
    exact hi
  have hstarted := SnippetInserter.started_of_inactive hidle (x.heard source options).2
  have hkey : ((x.heard source options).1.started (x.heard source options).2).1.nextKey = 0 := by rw [hstarted]
  refine ⟨SnippetInserter.valid_handleChanges (SnippetInserter.valid_replace hv _ _) _, ?_, ?_⟩
  · rw [hstarted]
  · rw [Session.names_addTabstops, ← x.snippetNames_eq hkey, hnames, hstarted]
    simp [Session.names, Session.lastFirst]

theorem onTour_begins {x : Scene} (hv : Valid x.1.session x.2) (hi : x.1.session.isActive = false) {source : String}
    {options : InsertOptions} (hd : options.dryRun = false) {names : List (Nat × Nat)} {final : Nat}
    (hnames : x.snippetNames 0 source options = names ++ [(final, 0)]) (hne : names ≠ []) :
    OnTour final (.of names) (x.insert source options) ∧ (x.insert source options).1.session.index = 1 := by
  have horder := finalLast_order x.1.vars x.2.context options source
  rw [← x.map_snippetNames 0, hnames, List.map_append] at horder
  obtain ⟨hvalid, hindex, hadded⟩ := names_first hv hi hnames
  obtain ⟨u, hrun, hat, hbegun⟩ := SnippetInserter.running_beginSession hvalid ⟨_, _, _, _, rfl⟩ hadded (by
    rw [hindex, List.length_cons]
    exact Nat.succ_lt_succ (List.length_pos_iff.mpr hne))
  rw [hindex] at hat
  rw [insert_eq_begin x source hd]
  refine ⟨⟨⟨u, hrun⟩, by omega, ?_, ?_, ?_⟩, hat⟩
  · rw [hbegun, Tour.walk_of]
  · rwa [Tour.ids_of]
  · rw [Tour.nested_of]
    exact fun _ h => absurd h List.not_mem_nil

/-! ## Nested snippets -/

/-- A session that has lost no range goes on as it is with the next snippet. -/
theorem started_of_kept {y : Scene} {t : Tabstop} (h : Running y.1.session y.2 t) {source : String}
    {options : InsertOptions} (hkeep : y.KeepsRanges source options) :
    Valid (y.heard source options).1.session (y.heard source options).2 ∧
      let start := ((y.heard source options).1.started (y.heard source options).2).1
      start.index = y.1.session.index ∧ start.nextKey = y.1.session.nextKey ∧ start.names = y.1.session.names ∧
        start.tabstops.isEmpty = false := by
  obtain ⟨lines, selections, hreplace⟩ := Session.replace_eq y.2 y.2.selection.toRange
    (expandSnippet y.1.vars y.2.context options source).text
  unfold KeepsRanges heard at hkeep
  unfold heard
  dsimp only at hkeep ⊢
  generalize y.2.replace y.2.selection.toRange _ = replaced at hreplace hkeep ⊢
  have hhost : Running y.1.session replaced.1 t := by
    rw [hreplace]
    exact h.host ⟨rfl, rfl⟩ rfl
  exact SnippetInserter.started_handleChanges hhost hkeep

theorem onTour_nests {final : Nat} {tour : Tour} {y : Scene} (h : OnTour final tour y) {source : String}
    {options : InsertOptions} (hd : options.dryRun = false) {t : Tabstop} (ht : y.1.session.selected? = some t)
    (hkeep : y.KeepsRanges source options) :
    OnTour final (tour.nest t.key (.of (y.snippetNames y.1.session.nextKey source options)))
      (y.insert source options) ∧
    (y.insert source options).1.session.index = y.1.session.index + 1 ∧
    (y.insert source options).1.session.names.take (y.1.session.index + 1) =
      y.1.session.names.take (y.1.session.index + 1) := by
  obtain ⟨t', hrun⟩ := h.running
  obtain rfl : t' = t := Option.some.inj ((Session.selected?_eq hrun).symm.trans ht)
  obtain ⟨hvalid, hat, hkey, hold, hsome⟩ := started_of_kept hrun hkeep
  have hone := h.one_le
  have horder := finalLast_order y.1.vars y.2.context options source
  rw [← y.map_snippetNames y.1.session.nextKey] at horder
  -- Its tabstops come right after the one selected.
  have hadded := ((y.heard source options).1.started (y.heard source options).2).1.names_addTabstops
    ((y.heard source options).1.started (y.heard source options).2).2
    (expandSnippet y.1.vars y.2.context options source).tabstops y.2.selection.toRange.start
  rw [← y.snippetNames_eq hkey, hold, hsome, hat, if_neg Bool.false_ne_true] at hadded
  have hget := Session.getElem?_names hrun
  have hnodup := Session.nodup_names hrun.toFollowing
  have hlt := (List.getElem?_eq_some_iff.mp hget).1
  generalize y.snippetNames y.1.session.nextKey source options = new at horder hadded ⊢
  have hpos : 0 < new.length := by
    obtain ⟨front, hfront, -⟩ := horder
    have := congrArg List.length hfront
    rw [List.length_map, List.length_append, List.length_singleton] at this
    omega
  obtain ⟨u, hrun', hat', hnames⟩ := SnippetInserter.running_beginSession hvalid ⟨_, _, _, _, rfl⟩ hadded (by
    rw [hat, List.length_append, List.length_append, List.length_take]
    omega)
  rw [insert_eq_begin y source hd]
  rw [hat] at hat'
  refine ⟨⟨⟨u, hrun'⟩, by omega, ?_, ?_, fun ids hids => ?_⟩, hat', ?_⟩
  · rw [hnames, ← insertAfter_eq_splice hnodup hget, Tour.walk_nest, Tour.walk_of, h.names]
    have hfinal : final ≠ t'.key := by
      rw [h.names, show y.1.session.index = y.1.session.index - 1 + 1 by omega, List.getElem?_cons_succ] at hget
      rw [h.names] at hnodup
      have hmem := List.mem_map_of_mem (f := (·.1)) (List.mem_of_getElem? hget)
      exact fun he => (List.nodup_cons.mp hnodup).1 (he ▸ hmem)
    simp [insertAfter, hfinal]
  · rw [Tour.ids_nest]
    exact h.order
  · rcases Tour.of_mem_nested _ _ hids with rfl | hids | hids
    · rwa [Tour.ids_of]
    · rw [Tour.nested_of] at hids
      cases hids
    · exact h.nested ids hids
  · rw [hnames, List.append_assoc, List.take_append_of_le_length (by rw [List.length_take]; omega), List.take_take,
      Nat.min_self]

/-! ## Moves -/

/-- Where steps lead from a place among `count` tabstops: never below 1, and nowhere once they lead past the last
one. -/
def placeAfterAll (count : Nat) : Nat → List Int → Option Nat
  | place, [] => some place
  | place, step :: rest =>
    let next := (max (place + step) 1).toNat
    if next < count then placeAfterAll count next rest else none

/-- Only the final tabstop is selected before a session is over. -/
def EndsAt (final : Nat) (s : Session) (b : Buffer) (z : Scene) : Prop :=
  let chosen := s.selectTabstop b 0
  chosen.1.selectedKey = some final ∧ (z.1.session, z.2) = chosen.1.detach chosen.2

theorem placeAfter_eq_max {s : Session} {step : Int} (hs : step ≠ 0) :
    s.placeAfter step =
      if (max (s.index + step) 1).toNat < s.tabstops.length then (max (s.index + step) 1).toNat else 0 := by
  unfold Session.placeAfter
  dsimp only
  rw [if_neg hs, show (max ((s.index : Int) + step) 1).toNat = max (s.index + step).toNat 1 by omega]
  split <;> split <;> omega

theorem endsAt_of_place {s : Session} {b : Buffer} {final : Nat} {names : List (Nat × Nat)} (hf : Following s b)
    (hn : s.names = (final, 0) :: names) {step : Int} (hp : s.placeAfter step = 0) (i : SnippetInserter) :
    EndsAt final s b ({ i with session := (s.tabNext b step).1 }, (s.tabNext b step).2) := by
  have hget := congrArg (·[0]?) hn
  simp only [Session.names, List.getElem?_map, List.getElem?_cons_zero] at hget
  obtain ⟨first, hfirst, hname⟩ := Option.map_eq_some_iff.mp hget
  have hne : s.tabstops ≠ [] := List.ne_nil_of_mem (List.mem_of_getElem? hfirst)
  obtain ⟨selections, completions, hselect⟩ :=
    Session.selectTabstop_eq (b := b) hfirst (hf.occupied _ (List.mem_of_getElem? hfirst))
  refine ⟨?_, ?_⟩
  · rw [hselect]
    exact congrArg some (congrArg Prod.fst hname)
  · rw [Session.tabNext_of_active hf.active hne, hp, if_pos rfl]

theorem onTour_move {final : Nat} {tour : Tour} {y : Scene} (h : OnTour final tour y) {step : Int} (hs : step ≠ 0)
    (hp : (max (y.1.session.index + step) 1).toNat < y.1.session.tabstops.length) :
    OnTour final tour (y.move step) ∧ (y.move step).1.session.tabstops = y.1.session.tabstops ∧
      (y.move step).1.session.index = (max (y.1.session.index + step) 1).toNat := by
  obtain ⟨t, hrun⟩ := h.running
  have hplace := placeAfter_eq_max (s := y.1.session) hs
  rw [if_pos hp] at hplace
  have hne : y.1.session.tabstops ≠ [] := List.ne_nil_of_mem (Session.mem_tabstops hrun)
  obtain ⟨u, hrun', hat, hts, -⟩ := Session.running_tabNext hrun.toFollowing hne step (by omega)
  have hmove : y.move step = ({ y.1 with session := (y.1.session.tabNext y.2 step).1 }, (y.1.session.tabNext y.2 step).2) :=
    rfl
  rw [hmove]
  refine ⟨⟨⟨u, hrun'⟩, ?_, ?_, h.order, h.nested⟩, hts, hat.trans hplace⟩
  · show 1 ≤ (y.1.session.tabNext y.2 step).1.index
    omega
  · have hnames : (y.1.session.tabNext y.2 step).1.names = y.1.session.names := by simp only [Session.names, hts]
    exact hnames.trans h.names

theorem endsAt_move {final : Nat} {tour : Tour} {y : Scene} (h : OnTour final tour y) {step : Int} (hs : step ≠ 0)
    (hp : ¬ (max (y.1.session.index + step) 1).toNat < y.1.session.tabstops.length) :
    EndsAt final y.1.session y.2 (y.move step) := by
  obtain ⟨t, hrun⟩ := h.running
  exact endsAt_of_place hrun.toFollowing h.names (by rw [placeAfter_eq_max hs, if_neg hp]) y.1

theorem EndsAt.inactive {final : Nat} {s : Session} {b : Buffer} {z : Scene} (h : EndsAt final s b z) :
    z.1.session.isActive = false := by
  have hend := congrArg (·.1.isActive) h.2
  exact hend.trans (Session.isActive_detach _ _)

theorem move_of_inactive {y : Scene} (h : y.1.session.isActive = false) (step : Int) : y.move step = y :=
  SnippetInserter.move_of_inactive h step

/-- Steps lead to the place that is counted, and the session ends once there is none. -/
theorem onTour_steps {final : Nat} {tour : Tour} : ∀ {steps : List Int} {y : Scene}, (∀ step ∈ steps, step ≠ 0) →
    OnTour final tour y →
    (∀ place, placeAfterAll y.1.session.tabstops.length y.1.session.index steps = some place →
      OnTour final tour (steps.foldl move y) ∧ (steps.foldl move y).1.session.tabstops = y.1.session.tabstops ∧
        (steps.foldl move y).1.session.index = place) ∧
    (placeAfterAll y.1.session.tabstops.length y.1.session.index steps = none →
      (steps.foldl move y).1.session.isActive = false)
  | [], y, _, h => ⟨fun place hp => ⟨h, rfl, Option.some.inj hp⟩, fun hp => by cases hp⟩
  | step :: rest, y, hs, h => by
    have hstep := hs step List.mem_cons_self
    rw [placeAfterAll, List.foldl_cons]
    by_cases hp : (max (y.1.session.index + step) 1).toNat < y.1.session.tabstops.length
    · obtain ⟨hmoved, hts, hat⟩ := onTour_move h hstep hp
      have ih := onTour_steps (fun s hmem => hs s (List.mem_cons_of_mem _ hmem)) hmoved
      rw [hts, hat] at ih
      rwa [if_pos hp]
    · have hended := (endsAt_move h hstep hp).inactive
      have hstay : ∀ rest : List Int, rest.foldl move (y.move step) = y.move step := fun rest => by
        induction rest with
        | nil => rfl
        | cons s rest ih => rw [List.foldl_cons, move_of_inactive hended, ih]
      rw [if_neg hp, hstay]
      exact ⟨fun place hp => (by cases hp), fun _ => hended⟩

/-! ## Tours -/

theorem Touring.onTour {allowed : Int → Prop} {x y : Scene} {final : Nat} {tour : Tour} {seen : List (Nat × Nat)}
    (hv : Valid x.1.session x.2) (hi : x.1.session.isActive = false) (hallowed : ∀ step, allowed step → step ≠ 0)
    (h : Touring allowed x final tour seen y) : OnTour final tour y := by
  induction h with
  | begins hd hnames hne => exact (onTour_begins hv hi hd hnames hne).1
  | nests _ hd ht hkeep ih => exact (onTour_nests ih hd ht hkeep).1
  | @moves final tour seen y step _ hstep hactive ih =>
    by_cases hp : (max (y.1.session.index + step) 1).toNat < y.1.session.tabstops.length
    · exact (onTour_move ih (hallowed _ hstep) hp).1
    · rw [(endsAt_move ih (hallowed _ hstep) hp).inactive] at hactive
      cases hactive

theorem OnTour.selectedName {final : Nat} {tour : Tour} {y : Scene} (h : OnTour final tour y) {place : Nat}
    (hp : y.1.session.index = place + 1) : y.selectedName = tour.walk[place]?.toList := by
  obtain ⟨t, hrun⟩ := h.running
  rw [selectedName_eq hrun, h.names, hp, List.getElem?_cons_succ]

/-- Where all moves lead to the next tabstop, those seen so far are those before. -/
theorem Touring.seen_eq_take {x y : Scene} {final : Nat} {tour : Tour} {seen : List (Nat × Nat)}
    (hv : Valid x.1.session x.2) (hi : x.1.session.isActive = false) (h : Touring (· = 1) x final tour seen y) :
    seen = tour.walk.take y.1.session.index := by
  have hne : ∀ step : Int, step = 1 → step ≠ 0 := by omega
  induction h with
  | begins hd hnames hne =>
    obtain ⟨hon, hat⟩ := onTour_begins hv hi hd hnames hne
    rw [hon.selectedName hat, hat, List.take_add_one, List.take_zero, List.nil_append]
  | @nests final tour seen y t source options hy hd ht hkeep ih =>
    obtain ⟨hon, hat, htake⟩ := onTour_nests (hy.onTour hv hi hne) hd ht hkeep
    rw [hon.names, (hy.onTour hv hi hne).names, List.take_succ_cons, List.take_succ_cons] at htake
    rw [hon.selectedName hat, hat, List.take_add_one, (List.cons_inj_right _).mp htake, ih]
  | @moves final tour seen y step hy hstep hactive ih =>
    have hon := hy.onTour hv hi hne
    by_cases hp : (max (y.1.session.index + step) 1).toNat < y.1.session.tabstops.length
    · obtain ⟨hmoved, -, hat⟩ := onTour_move hon (hne _ hstep) hp
      have hnext : (max (y.1.session.index + step) 1).toNat = y.1.session.index + 1 := by
        have := hon.one_le
        omega
      rw [hnext] at hat
      rw [hmoved.selectedName hat, hat, List.take_add_one, ih]
    · rw [(endsAt_move hon (hne _ hstep) hp).inactive] at hactive
      cases hactive

/-- The first snippet, when it has no other tabstop than the final one. -/
theorem endsAt_insert {x : Scene} (hv : Valid x.1.session x.2) (hi : x.1.session.isActive = false) {source : String}
    {options : InsertOptions} (hd : options.dryRun = false) {final : Nat}
    (hnames : x.snippetNames 0 source options = [(final, 0)]) :
    ∃ s b, s.names = [(final, 0)] ∧ EndsAt final s b (x.insert source options) := by
  rw [← List.nil_append [(final, 0)]] at hnames
  obtain ⟨hvalid, hindex, hadded⟩ := names_first hv hi hnames
  have hexpanded : (expandSnippet x.1.vars x.2.context options source).IsExpansion := ⟨_, _, _, _, rfl⟩
  rw [insert_eq_begin x source hd]
  generalize x.heard source options = w, expandSnippet x.1.vars x.2.context options source = expanded,
    x.2.selection.toRange.start = origin at *
  have hfollow := (SnippetInserter.following_addTabstops hvalid hexpanded origin).1
  have hat : ((w.1.started w.2).1.addTabstops (w.1.started w.2).2 expanded.tabstops origin).1.index = 0 := hindex
  rw [SnippetInserter.beginSession_started]
  generalize (w.1.started w.2).1.addTabstops (w.1.started w.2).2 expanded.tabstops origin = added at *
  have hlen : added.1.tabstops.length = 1 := by
    have := congrArg List.length hadded
    rwa [Session.names, List.length_map] at this
  have hplace : added.1.placeAfter 1 = 0 := by
    rw [placeAfter_eq_max (by omega), hat, hlen]
    rfl
  exact ⟨added.1, added.2, hadded, endsAt_of_place hfollow hadded hplace _⟩

/-- From wherever a session begins it leads through the tabstops depth first, and ends at the final one of the first
snippet. -/
theorem tours_depth_first {x₀ x : Scene} (hx : Initial x₀) (h : Runs KeepsMarkers x₀ x)
    (hi : x.1.session.isActive = false) :
    (∀ (source : String) (options : InsertOptions), options.dryRun = false →
      ∃ names final, x.snippetNames 0 source options = names ++ [(final, 0)] ∧
        (names = [] → ∃ s b, s.names = [(final, 0)] ∧ EndsAt final s b (x.insert source options))) ∧
    (∀ final tour seen y, Touring (· ≠ 0) x final tour seen y →
      y.1.session.isActive = true ∧ y.1.session.names = (final, 0) :: tour.walk ∧
      (y.1.session.names.map (·.1)).Nodup ∧ FinalLast (tour.ids ++ [0]) ∧ (∀ ids ∈ tour.nested, FinalLast ids) ∧
      (∀ steps : List Int, (∀ step ∈ steps, step ≠ 0) →
        let reached := placeAfterAll y.1.session.tabstops.length y.1.session.index steps
        let z := steps.foldl move y
        (z.1.session.isActive = true ↔ reached.isSome) ∧ ∀ place ∈ reached,
          z.1.session.tabstops = y.1.session.tabstops ∧ z.1.session.index = place ∧
          z.1.session.selected? = y.1.session.tabstops[place]?) ∧
      ∀ step ≠ 0, (y.move step).1.session.isActive = false → EndsAt final y.1.session y.2 (y.move step)) ∧
    ∀ final tour seen y, Touring (· = 1) x final tour seen y →
      (((final, 0) :: tour.walk).map (·.1)).Nodup ∧ seen = tour.walk.take y.1.session.index ∧
      ((y.move 1).1.session.isActive = false → seen = tour.walk ∧ EndsAt final y.1.session y.2 (y.move 1)) := by
  have hv : Valid x.1.session x.2 :=
    h.invariant (P := fun x => Valid x.1.session x.2) (fun hs hv => valid_of_step id hs hv) (valid_of_initial hx)
  refine ⟨fun source options hd => ?_, fun final tour seen y hy => ?_, fun final tour seen y hy => ?_⟩
  · obtain ⟨front, hfront, -⟩ := finalLast_order x.1.vars x.2.context options source
    rw [← x.map_snippetNames 0] at hfront
    obtain ⟨names, last, hnames, -, hlast⟩ := List.map_eq_append_iff.mp hfront
    obtain ⟨⟨final, id⟩, rfl, hid⟩ := List.map_eq_singleton_iff.mp hlast
    obtain rfl : id = 0 := hid
    refine ⟨names, final, hnames, ?_⟩
    rintro rfl
    exact endsAt_insert hv hi hd hnames
  · have hon := hy.onTour hv hi fun _ => id
    obtain ⟨t, hrun⟩ := hon.running
    refine ⟨hrun.active, hon.names, Session.nodup_names hrun.toFollowing, hon.order, hon.nested, fun steps hs => ?_,
      fun step hs hended => ?_⟩
    · obtain ⟨hreached, hover⟩ := onTour_steps hs hon
      cases hplace : placeAfterAll y.1.session.tabstops.length y.1.session.index steps with
      | none =>
        simp [hover hplace]
      | some place =>
        obtain ⟨hmoved, hts, hat⟩ := hreached place hplace
        obtain ⟨u, hrun'⟩ := hmoved.running
        refine ⟨by simp [hrun'.active], ?_⟩
        intro place' hp
        obtain rfl := Option.some.inj hp
        refine ⟨hts, hat, ?_⟩
        rw [Session.selected?_eq hrun', ← hrun'.getElem, hts, hat]
    · by_cases hp : (max (y.1.session.index + step) 1).toNat < y.1.session.tabstops.length
      · obtain ⟨u, hrun'⟩ := (onTour_move hon hs hp).1.running
        rw [hrun'.active] at hended
        cases hended
      · exact endsAt_move hon hs hp
  · have hon := hy.onTour hv hi (by omega)
    have hseen := hy.seen_eq_take hv hi
    obtain ⟨t, hrun⟩ := hon.running
    have hnodup := Session.nodup_names hrun.toFollowing
    rw [hon.names] at hnodup
    refine ⟨hnodup, hseen, fun hended => ?_⟩
    by_cases hp : (max (y.1.session.index + (1 : Int)) 1).toNat < y.1.session.tabstops.length
    · obtain ⟨u, hrun'⟩ := (onTour_move hon (by omega) hp).1.running
      rw [hrun'.active] at hended
      cases hended
    · have hlen : y.1.session.tabstops.length = tour.walk.length + 1 := by
        have := congrArg List.length hon.names
        rwa [Session.names, List.length_map, List.length_cons] at this
      refine ⟨?_, endsAt_move hon (by omega) hp⟩
      rw [hseen, List.take_of_length_le (by omega)]

/-- A snippet is nested at the first of two tabstops. -/
theorem tours_depth_first_nested :
    let start : Scene := (SnippetInserter.create { clock := ⟨2024, 3, 5, 7, 8, 9⟩ }, .ofText "")
    ∃ (final : Nat) (tour : Tour) (seen : List (Nat × Nat)) (y : Scene), Initial start ∧
      start.1.session.isActive = false ∧ Touring (· = 1) start final tour seen y ∧ tour.ids = [1, 2] ∧
      tour.nested = [[1, 0]] ∧ seen = tour.walk ∧ seen.map (·.2) = [1, 1, 0, 2] ∧
      EndsAt final y.1.session y.2 (y.move 1) := by
  intro start
  have hstart : Initial start := ⟨⟨_, _, rfl⟩, rfl, rfl⟩
  have hidle : start.1.session.isActive = false := rfl
  have hfirst : Touring (· = 1) start 2 (.of [(0, 1), (1, 2)]) _ (start.insert "$1-$2" {}) :=
    .begins rfl (by decide +kernel) (by decide)
  have hselected : ∃ t, (start.insert "$1-$2" {}).1.session.selected? = some t ∧ t.key = 0 := by decide +kernel
  obtain ⟨t, ht, hkey⟩ := hselected
  have hkeep : (start.insert "$1-$2" {}).KeepsRanges "($1)" {} := by
    unfold KeepsRanges
    decide +kernel
  have hnested := hfirst.nests rfl ht hkeep
  have hmoved := (hnested.moves 1 rfl (by decide +kernel)).moves 1 rfl (by decide +kernel)
  obtain ⟨-, -, hlast⟩ := (tours_depth_first hstart .refl hidle).2.2 _ _ _ _ hmoved
  obtain ⟨hseen, hends⟩ := hlast (by decide +kernel)
  refine ⟨2, _, _, _, hstart, hidle, hmoved, ?_, ?_, hseen, ?_, hends⟩
  · rw [hkey]
    decide +kernel
  · rw [hkey]
    decide +kernel
  · decide +kernel

end Scene

end Scribe
