import Scribe.Proofs.Session.Act
import Scribe.Proofs.Session.Thinned

/-!
# The final tabstop

A session begins with the final tabstop of its first snippet in the first place. Nothing comes before it, so it
stays there until it is lost.
-/

namespace Scribe

namespace Expansion

theorem getLast?_layout (found : Dict Nat Placeholder) (filled : Filled) :
    ((layout found filled).tabstops.map (·.id)).getLast? = some 0 := by
  unfold layout
  dsimp only
  generalize found.entries.filter _ = occurring
  split
  · simp
  · rename_i zero hne
    generalize hz : List.filter (fun g : TabstopGroup => g.id == 0) _ = zero at hne ⊢
    have hall : ∀ g ∈ zero, g.id = 0 := fun g hg => by
      rw [← hz] at hg
      simpa using (List.mem_filter.mp hg).2
    obtain ⟨front, last, rfl⟩ := List.eq_nil_or_concat zero |>.resolve_left hne
    simp [hall last]

end Expansion

theorem ExpandedSnippet.IsExpansion.getLast? {expanded : ExpandedSnippet} (h : expanded.IsExpansion) :
    (expanded.tabstops.map (·.id)).getLast? = some 0 := by
  obtain ⟨vars, ctx, options, source, rfl⟩ := h
  unfold expandSnippet
  exact Expansion.getLast?_layout _ _

namespace Session

/-- The tabstop of this key has the number 0 and is the first one, as long as there is one. -/
structure EndsOn (key : Nat) (s : Session) : Prop where
  first : ∀ id, (key, id) ∈ s.names → ∃ rest, s.names = (key, 0) :: rest
  unselected : s.selectedKey ≠ some key
  lt : key < s.nextKey

variable {s s' s'' : Session} {b : Buffer} {t : Tabstop} {key : Nat}

theorem EndsOn.thin (h : EndsOn key s) (hs : Thinned s s') (hn : (s.names.map (·.1)).Nodup) : EndsOn key s' where
  first id hid := by
    obtain ⟨rest, hrest⟩ := h.first id (hs.names.subset hid)
    have hsub := hs.names
    rw [hrest] at hsub hn
    rcases List.sublist_cons_iff.mp hsub with hsub | ⟨rest', he, -⟩
    · -- The first one has gone, and no other one has its key.
      have hkey : key ∈ rest.map (·.1) := List.mem_map_of_mem (f := (·.1)) (hsub.subset hid)
      exact absurd hkey (List.nodup_cons.mp hn).1
    · exact ⟨rest', he⟩
  unselected := hs.selectedKey ▸ h.unselected
  lt := hs.nextKey ▸ h.lt

/-! ## Moving -/

theorem EndsOn.eq_first (h : EndsOn key s) (hf : Following s b) (ht : t ∈ s.tabstops) (hk : t.key = key) :
    t.id = 0 ∧ s.tabstops[0]? = some t := by
  have hmem : (key, t.id) ∈ s.names := List.mem_map.mpr ⟨t, ht, by rw [hk]⟩
  obtain ⟨rest, hrest⟩ := h.first t.id hmem
  have hget : s.names[0]? = some (key, 0) := by rw [hrest]; rfl
  rw [names, List.getElem?_map] at hget
  obtain ⟨u, hu, he⟩ := Option.map_eq_some_iff.mp hget
  obtain ⟨j, hj⟩ := List.getElem?_of_mem ht
  have hij := eq_of_key hf hu hj ((congrArg Prod.fst he).trans hk.symm)
  subst hij
  obtain rfl : u = t := Option.some.inj (hu.symm.trans hj)
  exact ⟨congrArg Prod.snd he, hu⟩

theorem EndsOn.move (h : EndsOn key s) (hf : Following s b) (hne : s.tabstops ≠ []) (step : Int)
    (ha : (s.tabNext b step).1.isActive = true) : EndsOn key (s.tabNext b step).1 := by
  obtain ⟨t, selections, completions, ht, -, he⟩ := tabNext_eq hf hne step
  rw [he] at ha ⊢
  split at ha
  · rw [isActive_detach] at ha
    cases ha
  · rename_i hplace
    rw [if_neg hplace]
    refine ⟨h.first, fun hk => hplace ?_, h.lt⟩
    have hfirst := (h.eq_first hf (List.mem_of_getElem? ht) (Option.some.inj hk)).2
    exact eq_of_key hf ht hfirst rfl

/-! ## Beginning -/

theorem names_trackGroups (linkMirrors : Bool) (origin : Position) (keyOf : Nat → Option Nat) :
    ∀ (groups : List TabstopGroup) (b : Buffer) (key nextKey : Nat),
      (trackGroups linkMirrors origin keyOf b key nextKey groups).1.map (fun t => (t.key, t.id)) =
        (List.range' key groups.length).zip (groups.map (·.id))
  | [], _, _, _ => rfl
  | g :: rest, b, key, nextKey => by
    rw [trackGroups_cons, List.map_cons, names_trackGroups linkMirrors origin keyOf rest]
    rfl

theorem map_lastFirst {α β : Type} (f : α → β) (xs : List α) : (lastFirst xs).map f = lastFirst (xs.map f) := by
  unfold lastFirst
  rw [List.map_append, List.map_dropLast, List.getLast?_map]
  cases xs.getLast? <;> rfl

/-- The names of a snippet's tabstops. -/
def newNames (s : Session) (groups : List TabstopGroup) : List (Nat × Nat) :=
  (List.range' s.nextKey groups.length).zip (groups.map (·.id))

theorem names_addTabstops (s : Session) (b : Buffer) (groups : List TabstopGroup) (origin : Position) :
    (s.addTabstops b groups origin).1.names = s.names.take (s.index + 1) ++
      (if s.tabstops.isEmpty then lastFirst (s.newNames groups) else s.newNames groups) ++
      s.names.drop (s.index + 1) := by
  have hnew := names_trackGroups s.linkMirrors origin
    (fun id => (groups.findIdx? (·.id == id)).map (s.nextKey + ·)) groups b s.nextKey (s.nextKey + groups.length)
  unfold addTabstops names newNames
  dsimp only
  rw [← hnew, ← map_lastFirst, List.map_append, List.map_append, List.map_take, List.map_drop]
  split <;> rfl

theorem lt_of_mem_newNames {groups : List TabstopGroup} {id : Nat} (h : (key, id) ∈ s.newNames groups) :
    s.nextKey ≤ key :=
  (List.mem_range'_1.mp (List.of_mem_zip h).1).1

theorem le_nextKey_addTabstops (h : Marked b s.ranges) (groups : List TabstopGroup) (origin : Position) :
    s.nextKey + groups.length ≤ (s.addTabstops b groups origin).1.nextKey := by
  obtain ⟨tabstops, markers, nextMarker, count, he, -⟩ :=
    trackGroups_marked s.linkMirrors origin (fun id => (groups.findIdx? (·.id == id)).map (s.nextKey + ·)) groups
      b s.nextKey (s.nextKey + groups.length) s.ranges h
  unfold addTabstops
  dsimp only
  rw [he]
  exact Nat.le_add_right _ _

theorem EndsOn.add (h : EndsOn key s) (hf : Following s b) (hne : s.tabstops ≠ []) (groups : List TabstopGroup)
    (origin : Position) : EndsOn key (s.addTabstops b groups origin).1 := by
  have hnames := s.names_addTabstops b groups origin
  have hempty : s.tabstops.isEmpty = false := by simpa using hne
  rw [hempty, if_neg Bool.false_ne_true] at hnames
  refine ⟨fun id hid => ?_, ?_, ?_⟩
  · rw [hnames, List.mem_append, List.mem_append] at hid
    have hold : (key, id) ∈ s.names := by
      rcases hid with (hid | hid) | hid
      · exact List.mem_of_mem_take hid
      · have := lt_of_mem_newNames hid
        have := h.lt
        omega
      · exact List.mem_of_mem_drop hid
    obtain ⟨rest, hrest⟩ := h.first id hold
    rw [hnames, hrest]
    exact ⟨_, rfl⟩
  · exact h.unselected
  · have := le_nextKey_addTabstops hf.marked groups origin
    have := h.lt
    omega

/-- A session that has no tabstops yet gets the final one first. -/
theorem endsOn_addTabstops (hnil : s.tabstops = []) (hk : s.selectedKey = none) (hm : Marked b s.ranges)
    {groups : List TabstopGroup} (hg : (groups.map (·.id)).getLast? = some 0) (origin : Position) :
    ∃ key rest, (s.addTabstops b groups origin).1.names = (key, 0) :: rest ∧
      EndsOn key (s.addTabstops b groups origin).1 := by
  obtain ⟨front, hfront⟩ := List.getLast?_eq_some_iff.mp hg
  have hlen : groups.length = front.length + 1 := by
    have := congrArg List.length hfront
    simpa using this
  have hnames := s.names_addTabstops b groups origin
  have hnew : s.newNames groups = (List.range' s.nextKey front.length).zip front ++ [(s.nextKey + front.length, 0)] := by
    rw [newNames, hfront, hlen, List.range'_1_concat, List.zip_append (by simp)]
    rfl
  have hfirst : (s.addTabstops b groups origin).1.names =
      (s.nextKey + front.length, 0) :: (List.range' s.nextKey front.length).zip front := by
    rw [hnames, hnew]
    simp [names, hnil, lastFirst]
  have hlt := le_nextKey_addTabstops hm groups origin
  refine ⟨_, _, hfirst, fun id _ => ⟨_, hfirst⟩, ?_, by omega⟩
  show s.selectedKey ≠ _
  simp [hk]

theorem names_tabNext (hf : Following s b) (hne : s.tabstops ≠ []) (step : Int)
    (ha : (s.tabNext b step).1.isActive = true) : (s.tabNext b step).1.names = s.names := by
  obtain ⟨t, selections, completions, -, -, he⟩ := tabNext_eq hf hne step
  rw [he] at ha ⊢
  split at ha
  · rw [isActive_detach] at ha
    cases ha
  · rw [if_neg ‹_›]
    rfl

end Session

namespace SnippetInserter

open Session (Valid Following Running EndsOn)

variable {i : SnippetInserter} {b : Buffer} {expanded : ExpandedSnippet} {key : Nat}

theorem following_addTabstops (h : Valid i.session b) (he : expanded.IsExpansion) (origin : Position) :
    let added := (i.started b).1.addTabstops (i.started b).2 expanded.tabstops origin
    Following added.1 added.2 ∧ added.1.tabstops ≠ [] := by
  obtain ⟨batch, markers, nextMarker, nextKey, hadd, hlen, hadded⟩ :=
    Session.addTabstops_eq (following_started h) he.ranges_ne_nil origin
  dsimp only
  rw [hadd]
  refine ⟨hadded, fun hnil => ?_⟩
  simp only [List.append_eq_nil_iff] at hnil
  rw [hnil.1.2] at hlen
  exact he.ne_nil (List.length_eq_zero_iff.mp hlen.symm)

/-- A snippet that is put into a running session leaves the final tabstop first. -/
theorem endsOn_beginSession (h : Valid i.session b) (hi : i.session.isActive = true) (hk : EndsOn key i.session)
    (he : expanded.IsExpansion) (origin : Position)
    (ha : (i.beginSession b expanded origin).1.session.isActive = true) :
    EndsOn key (i.beginSession b expanded origin).1.session := by
  obtain ⟨t, hrun⟩ := h.exists_running hi
  obtain ⟨hadded, hne⟩ := following_addTabstops h he origin
  rw [beginSession_started] at ha ⊢
  refine EndsOn.move ?_ hadded hne 1 ha
  have hstart := following_started h
  rw [started_of_active hi] at hstart ⊢
  have hends : EndsOn key { i.session with vars := i.vars } := ⟨hk.first, hk.unselected, hk.lt⟩
  have hsome : i.session.tabstops ≠ [] := List.ne_nil_of_mem (Session.mem_tabstops hrun)
  exact hends.add hstart hsome expanded.tabstops origin

/-- A snippet with which a session begins has its final tabstop first. -/
theorem begins_beginSession (h : Valid i.session b) (hi : i.session.isActive = false) (he : expanded.IsExpansion)
    (origin : Position) (ha : (i.beginSession b expanded origin).1.session.isActive = true) :
    ∃ first, (i.beginSession b expanded origin).1.session.tabstops[0]? = some first ∧ first.id = 0 ∧
      EndsOn first.key (i.beginSession b expanded origin).1.session := by
  obtain ⟨hadded, hne⟩ := following_addTabstops h he origin
  have hstarted := started_of_inactive hi b
  obtain ⟨key, rest, hnames, hends⟩ :=
    Session.endsOn_addTabstops (by rw [hstarted]) (by rw [hstarted]) (following_started h).marked he.getLast? origin
  rw [beginSession_started] at ha ⊢
  have hmoved := Session.names_tabNext hadded hne 1 ha
  have hget := congrArg (·[0]?) (hmoved.trans hnames)
  simp only [Session.names, List.getElem?_map, List.getElem?_cons_zero] at hget
  obtain ⟨first, hfirst, hname⟩ := Option.map_eq_some_iff.mp hget
  obtain ⟨rfl, hid⟩ := Prod.mk.inj hname
  exact ⟨first, hfirst, hid, hends.move hadded hne 1 ha⟩

end SnippetInserter

namespace Session

variable {s : Session} {b : Buffer} {t : Tabstop} {key : Nat}

/-! ## Going back and forth -/

theorem placeAfter_of_neg (s : Session) {step : Int} (h : step < 0) (hi : 1 ≤ s.index)
    (hlt : s.index < s.tabstops.length) : s.placeAfter step ≠ 0 := by
  unfold placeAfter
  dsimp only
  rw [if_neg (by omega)]
  have hle : (s.index + step).toNat ≤ s.index := by omega
  split <;> omega

/-- The place of a step that stays among the tabstops. -/
theorem placeAfter_eq (s : Session) {step : Int} (h : step ≠ 0) {place : Nat} (hp : (s.index : Int) + step = place)
    (hone : 1 ≤ place) (hlt : place < s.tabstops.length) : s.placeAfter step = place := by
  unfold placeAfter
  dsimp only
  rw [if_neg h, hp]
  simp only [Int.toNat_natCast]
  rw [if_neg (by omega)]
  omega

theorem index_pos (h : EndsOn key s) (hrun : Running s b t) {u : Tabstop} (hu : u ∈ s.tabstops)
    (hk : u.key = key) : 1 ≤ s.index := by
  obtain ⟨-, hfirst⟩ := h.eq_first hrun.toFollowing hu hk
  by_contra hzero
  have hz : s.index = 0 := by omega
  have hget := hrun.getElem
  rw [hz, hfirst] at hget
  obtain rfl := Option.some.inj hget
  exact h.unselected (hk ▸ hrun.selectedKey)

theorem tabNext_of_active (ha : s.isActive = true) (hne : s.tabstops ≠ []) (step : Int) :
    s.tabNext b step =
      if s.placeAfter step = 0 then
        (s.selectTabstop b (s.placeAfter step)).1.detach (s.selectTabstop b (s.placeAfter step)).2
      else s.selectTabstop b (s.placeAfter step) := by
  have hgo : (!s.isActive || s.tabstops.isEmpty) = false := by
    rw [ha]
    simpa using hne
  unfold tabNext
  rw [hgo]
  rfl

theorem tabNext_of_place_ne (h : Following s b) (hne : s.tabstops ≠ []) {step : Int} (hp : s.placeAfter step ≠ 0) :
    (s.tabNext b step).1.isActive = true := by
  obtain ⟨t, selections, completions, -, hrun, he⟩ := tabNext_eq h hne step
  rw [he, if_neg hp]
  exact hrun.active

/-- A move that ends the session selects the final tabstop. -/
theorem EndsOn.tabNext_ends (h : EndsOn key s) (hrun : Running s b t) {u : Tabstop} (hu : u ∈ s.tabstops)
    (hk : u.key = key) {step : Int} (he : (s.tabNext b step).1.isActive = false) :
    (s.selectTabstop b 0).1.selectedKey = some key ∧
      s.tabNext b step = (s.selectTabstop b 0).1.detach (s.selectTabstop b 0).2 := by
  have hne : s.tabstops ≠ [] := List.ne_nil_of_mem hu
  have hplace : s.placeAfter step = 0 := by
    by_contra hp
    rw [tabNext_of_place_ne hrun.toFollowing hne hp] at he
    cases he
  obtain ⟨-, hfirst⟩ := h.eq_first hrun.toFollowing hu hk
  obtain ⟨selections, completions, hselect⟩ := selectTabstop_eq (b := b) hfirst (hrun.occupied u hu)
  refine ⟨by rw [hselect, ← hk], ?_⟩
  rw [tabNext_of_active hrun.active hne, hplace, if_pos rfl]

end Session

namespace Scene

open Session (Valid Running EndsOn)

/-- The same move several times. -/
def moves (step : Int) : Nat → Scene → Scene
  | 0, x => x
  | n + 1, x => moves step n (x.1.move x.2 step)

theorem running_move {x : Scene} {t : Tabstop} (h : Running x.1.session x.2 t) {step : Int} (hstep : step ≠ 0)
    {place : Nat} (hp : (x.1.session.index : Int) + step = place) (hone : 1 ≤ place)
    (hlt : place < x.1.session.tabstops.length) :
    ∃ u, Running (x.1.move x.2 step).1.session (x.1.move x.2 step).2 u ∧
      (x.1.move x.2 step).1.session.tabstops = x.1.session.tabstops ∧ (x.1.move x.2 step).1.session.index = place := by
  obtain ⟨u, selections, completions, -, hrun, he⟩ :=
    Session.tabNext_eq h.toFollowing (List.ne_nil_of_mem (Session.mem_tabstops h)) step
  rw [x.1.session.placeAfter_eq hstep hp hone hlt] at hrun he
  rw [if_neg (by omega)] at he
  have hmove : x.1.move x.2 step =
      ({ x.1 with session := (x.1.session.tabNext x.2 step).1 }, (x.1.session.tabNext x.2 step).2) := rfl
  rw [hmove, he]
  exact ⟨u, hrun, rfl, rfl⟩

/-- One step at a time all places but the first one are reached from each other. -/
theorem running_moves {step : Int} (hstep : step = 1 ∨ step = -1) : ∀ (n : Nat) {x : Scene} {t : Tabstop} {place : Nat},
    Running x.1.session x.2 t → (x.1.session.index : Int) + n * step = place → 1 ≤ x.1.session.index →
    1 ≤ place → place < x.1.session.tabstops.length →
    ∃ u, Running (moves step n x).1.session (moves step n x).2 u ∧
      (moves step n x).1.session.tabstops = x.1.session.tabstops ∧ (moves step n x).1.session.index = place
  | 0, x, t, place, h, hp, _, _, _ => ⟨t, h, rfl, show x.1.session.index = place by omega⟩
  | n + 1, x, t, place, h, hp, hi, hone, hlt => by
    have hindex := (List.getElem?_eq_some_iff.mp h.getElem).1
    obtain ⟨next, hnext, hone', hlt'⟩ : ∃ next : Nat, (x.1.session.index : Int) + step = next ∧ 1 ≤ next ∧
        next < x.1.session.tabstops.length := by
      rcases hstep with rfl | rfl
      · exact ⟨x.1.session.index + 1, by omega, by omega, by omega⟩
      · exact ⟨x.1.session.index - 1, by omega, by omega, by omega⟩
    obtain ⟨u, hrun, hts, hidx⟩ := running_move h (by omega) hnext hone' hlt'
    have hrest : ((x.1.move x.2 step).1.session.index : Int) + n * step = place := by
      rw [hidx, ← hnext, ← hp, Int.natCast_succ, Int.add_mul, Int.one_mul]
      omega
    obtain ⟨v, hrun', hts', hidx'⟩ := running_moves hstep n hrun hrest (by omega) hone (by rw [hts]; exact hlt)
    exact ⟨v, hrun', hts'.trans hts, hidx'⟩

/-- The session of a scene that is reached from `x` began with the final tabstop `first`, and has run since. -/
inductive Since (x : Scene) (first : Tabstop) : Scene → Prop
  | begins {i : SnippetInserter} {b : Buffer} {expanded : ExpandedSnippet} {origin : Position} :
    Acts x (i, b) → i.session.isActive = false → expanded.IsExpansion →
    (i.beginSession b expanded origin).1.session.isActive = true →
    (i.beginSession b expanded origin).1.session.tabstops[0]? = some first →
    Since x first (i.beginSession b expanded origin)
  | goesOn {y z : Scene} : Since x first y → Act y z → z.1.session.isActive = true → Since x first z

theorem endsOn_of_act {key : Nat} {y z : Scene} (hv : Valid y.1.session y.2) (hy : y.1.session.isActive = true)
    (hk : EndsOn key y.1.session) (h : Act y z) (hz : z.1.session.isActive = true) : EndsOn key z.1.session := by
  obtain ⟨t, hrun⟩ := hv.exists_running hy
  cases h with
  | host ds hs _ =>
    dsimp only at hk ⊢
    rwa [hs]
  | hear event => exact hk.thin (Session.thinned_handle hrun event hz) (Session.nodup_names hrun.toFollowing)
  | begin origin he => exact SnippetInserter.endsOn_beginSession hv hy hk he origin hz
  | move step => exact hk.move hrun.toFollowing (List.ne_nil_of_mem (Session.mem_tabstops hrun)) step hz
  | cancel =>
    dsimp only at hz
    rw [Session.isActive_detach] at hz
    cases hz

theorem Since.endsOn {x y : Scene} {first : Tabstop} (hx : Valid x.1.session x.2) (h : Since x first y) :
    Valid y.1.session y.2 ∧ y.1.session.isActive = true ∧ first.id = 0 ∧ EndsOn first.key y.1.session := by
  induction h with
  | begins hs hi he ha hfirst =>
    have hv := valid_of_acts hx hs
    obtain ⟨first', hfirst', hid, hk⟩ := SnippetInserter.begins_beginSession hv hi he _ ha
    obtain rfl := Option.some.inj (hfirst.symm.trans hfirst')
    exact ⟨valid_of_act (.begin _ he) hv, ha, hid, hk⟩
  | goesOn _ hact ha ih =>
    obtain ⟨hv, hy, hid, hk⟩ := ih
    exact ⟨valid_of_act hact hv, ha, hid, endsOn_of_act hv hy hk hact ha⟩

/-- No act but the beginning makes a session run. -/
theorem begins_of_act {y z : Scene} (h : Act y z) (hy : y.1.session.isActive = false)
    (hz : z.1.session.isActive = true) : ∃ expanded : ExpandedSnippet, ∃ origin : Position,
      expanded.IsExpansion ∧ z = y.1.beginSession y.2 expanded origin := by
  cases h with
  | host ds hs _ =>
    dsimp only at hy hz
    rw [hs, hy] at hz
    cases hz
  | @hear i b event =>
    rw [SnippetInserter.handle_of_inactive hy] at hz
    cases hy.symm.trans hz
  | begin origin he => exact ⟨_, origin, he, rfl⟩
  | @move i b step =>
    rw [SnippetInserter.move_of_inactive hy] at hz
    cases hy.symm.trans hz
  | cancel =>
    dsimp only at hz
    rw [Session.isActive_detach] at hz
    cases hz

/-- Every session that runs has begun. -/
theorem since_of_acts {x y : Scene} (hx : Valid x.1.session x.2) (hi : x.1.session.isActive = false) (h : Acts x y)
    (ha : y.1.session.isActive = true) : ∃ first, Since x first y := by
  induction h with
  | refl => cases hi.symm.trans ha
  | @tail y z hs hact ih =>
    by_cases hy : y.1.session.isActive = true
    · obtain ⟨first, hfirst⟩ := ih hy
      exact ⟨first, .goesOn hfirst hact ha⟩
    · have hy' : y.1.session.isActive = false := by simpa using hy
      obtain ⟨expanded, origin, he, rfl⟩ := begins_of_act hact hy' ha
      obtain ⟨first, hfirst, -⟩ := SnippetInserter.begins_beginSession (valid_of_acts hx hs) hy' he origin ha
      exact ⟨first, .begins hs hy' he ha hfirst⟩

/-- A place other than the first one is reached by going back or on. -/
theorem reached {y : Scene} {t : Tabstop} (h : Running y.1.session y.2 t) (hi : 1 ≤ y.1.session.index) {place : Nat}
    {u : Tabstop} (hu : y.1.session.tabstops[place]? = some u) (hone : 1 ≤ place) :
    ∃ step n, (step = 1 ∨ step = -1) ∧ (moves step n y).1.session.isActive = true ∧
      (moves step n y).1.session.tabstops = y.1.session.tabstops ∧
      (moves step n y).1.session.selected? = some u := by
  have hlt := (List.getElem?_eq_some_iff.mp hu).1
  have hstep : ∃ (step : Int) (n : Nat), (step = 1 ∨ step = -1) ∧ (y.1.session.index : Int) + n * step = place := by
    rcases Nat.le_total y.1.session.index place with hle | hle
    · exact ⟨1, place - y.1.session.index, .inl rfl, by omega⟩
    · exact ⟨-1, y.1.session.index - place, .inr rfl, by omega⟩
  obtain ⟨step, n, hstep, hn⟩ := hstep
  obtain ⟨v, hrun, hts, hidx⟩ := running_moves hstep n h hn hi hone hlt
  refine ⟨step, n, hstep, hrun.active, hts, ?_⟩
  rw [Session.selected?_eq hrun, ← hrun.getElem, hts, hidx, hu]

/-- A session that runs has begun with a final tabstop. As long as this is among the tabstops it is the first one and
every move that ends the session selects it; no move back ends the session, and moves back and forth lead to all others.
Only a removal that swallows all of its ranges can take it away. -/
theorem ends_on_final_of_runs {x y : Scene} (hx : Initial x) (h : Runs KeepsMarkers x y)
    (ha : y.1.session.isActive = true) :
    (∃ first, Since x first y) ∧ ∀ first, Since x first y →
      first.id = 0 ∧ ∀ t ∈ y.1.session.tabstops, t.key = first.key →
        t.id = 0 ∧ y.1.session.tabstops[0]? = some t ∧
        (∀ step, (y.1.move y.2 step).1.session.isActive = false →
          let chosen := y.1.session.selectTabstop y.2 0
          chosen.1.selectedKey = some first.key ∧ y.1.session.tabNext y.2 step = chosen.1.detach chosen.2) ∧
        (∀ step < 0, (y.1.move y.2 step).1.session.isActive = true) ∧
        (∀ u ∈ y.1.session.tabstops, u.key ≠ first.key → ∃ step n, (step = 1 ∨ step = -1) ∧
          (moves step n y).1.session.isActive = true ∧ (moves step n y).1.session.tabstops = y.1.session.tabstops ∧
          (moves step n y).1.session.selected? = some u) ∧
        ∀ d, (y.1.handle y.2 (.change d)).1.session.isActive = true →
          ((∃ u ∈ (y.1.handle y.2 (.change d)).1.session.tabstops, u.key = first.key) ↔
            ∃ r ∈ t.ranges, ¬ (d.action = .remove ∧
              Session.isSwallowed d.range (y.1.session.around.contains t.key) r.range = true)) := by
  have hidle : x.1.session.isActive = false := by
    obtain ⟨vars, linkMirrors, hs⟩ := hx.session
    rw [hs]
    rfl
  refine ⟨since_of_acts (valid_of_initial hx) hidle (acts_of_runs h) ha, fun first hfirst => ?_⟩
  obtain ⟨hv, -, hid, hk⟩ := hfirst.endsOn (valid_of_initial hx)
  refine ⟨hid, fun t ht hkey => ?_⟩
  obtain ⟨s, hrun⟩ := hv.exists_running ha
  obtain ⟨hzero, hget⟩ := hk.eq_first hrun.toFollowing ht hkey
  have hindex := Session.index_pos hk hrun ht hkey
  have hlt := (List.getElem?_eq_some_iff.mp hrun.getElem).1
  refine ⟨hzero, hget, fun step he => hk.tabNext_ends hrun ht hkey he, fun step hneg => ?_, fun u hu hne => ?_,
    fun d hd => ?_⟩
  · exact Session.tabNext_of_place_ne hrun.toFollowing (List.ne_nil_of_mem ht)
      (y.1.session.placeAfter_of_neg hneg hindex hlt)
  · obtain ⟨place, hplace⟩ := List.getElem?_of_mem hu
    refine reached hrun hindex hplace (Nat.one_le_iff_ne_zero.mpr ?_)
    rintro rfl
    obtain rfl := Option.some.inj (hplace.symm.trans hget)
    exact hne hkey
  · have hselected : y.1.session.selectedKey ≠ some t.key := hkey ▸ hk.unselected
    rw [← hkey, ← Session.mem_changed_iff hrun.toFollowing ht hselected d]
    obtain ⟨index, markers, -, he⟩ := Session.onChange_eq hrun d
    have hhandle : (y.1.handle y.2 (.change d)).1.session = (y.1.session.onChange y.2 d).1 := by
      unfold SnippetInserter.handle
      rw [Session.handle_of_active ha]
    rw [hhandle, he] at hd ⊢
    split at hd
    · rw [Session.isActive_detach] at hd
      cases hd
    · rw [if_neg ‹_›]

/-- A snippet is inserted, and the way leads back from its first tabstop. -/
def insertAndReturn (x : Scene) (source : String) : Scene :=
  let y := (x.1.insert x.2 source {}).2
  (y.1.run y.2 .previous).2

theorem runs_insertAndReturn (x : Scene) (source : String) : Runs KeepsMarkers x (x.insertAndReturn source) := by
  obtain ⟨i, b⟩ := x
  have hinsert : Step KeepsMarkers (i, b) (i.insert b source {}).2 := .insert source {}
  unfold insertAndReturn
  dsimp only
  generalize (i.insert b source {}).2 = y at hinsert ⊢
  exact (Relation.ReflTransGen.single hinsert).tail (.run .previous)

theorem since_insert {x : Scene} (hi : x.1.session.isActive = false) (source : String) {first : Tabstop}
    (ha : (x.1.insert x.2 source {}).2.1.session.isActive = true)
    (hfirst : (x.1.insert x.2 source {}).2.1.session.tabstops[0]? = some first) :
    Since x first (x.1.insert x.2 source {}).2 := by
  obtain ⟨i, b⟩ := x
  dsimp only at hi
  rw [SnippetInserter.insert_eq] at ha hfirst ⊢
  have hexpanded : (expandSnippet i.vars b.context {} source).IsExpansion := ⟨_, _, _, _, rfl⟩
  generalize expandSnippet i.vars b.context {} source = expanded at hexpanded ha hfirst ⊢
  dsimp only at ha hfirst ⊢
  generalize hreplaced : b.replace b.selection.toRange expanded.text = replaced at ha hfirst ⊢
  rw [SnippetInserter.handleChanges_of_inactive hi] at ha hfirst ⊢
  have hacts : Act (i, b) (i, replaced.1) := hreplaced ▸ act_replace i b _ _
  exact .begins (.single hacts) hi hexpanded ha hfirst

theorem since_insertAndReturn {x : Scene} (hi : x.1.session.isActive = false) (source : String) {first : Tabstop}
    (ha : (x.insertAndReturn source).1.session.isActive = true)
    (hfirst : (x.1.insert x.2 source {}).2.1.session.tabstops[0]? = some first) :
    Since x first (x.insertAndReturn source) := by
  have hinserted := @since_insert x hi source first
  unfold insertAndReturn at ha ⊢
  generalize (x.1.insert x.2 source {}).2 = y at hinserted ha hfirst ⊢
  dsimp only [SnippetInserter.run] at ha ⊢
  split at ha
  · rename_i hy
    rw [if_pos hy] at *
    exact .goesOn (hinserted hy hfirst) (.move (-1)) ha
  · exact absurd ha ‹_›

theorem ends_on_final_of_runs_back :
    let start : Scene := (SnippetInserter.create { clock := ⟨2024, 3, 5, 7, 8, 9⟩ }, .ofText "")
    ∃ (back : Scene) (first : Tabstop), Initial start ∧ Runs KeepsMarkers start back ∧
      back.1.session.isActive = true ∧ Since start first back ∧ first.id = 0 ∧
      (∃ t ∈ back.1.session.tabstops, t.key = first.key) ∧
      ∀ step < 0, (back.1.move back.2 step).1.session.isActive = true := by
  intro start
  have hstart : Initial start := ⟨⟨_, _, rfl⟩, rfl, rfl⟩
  have hactive : (start.insertAndReturn "$\x7b1:a\x7db$2").1.session.isActive = true := by decide +kernel
  have hkept : ∃ first ∈ (start.1.insert start.2 "$\x7b1:a\x7db$2" {}).2.1.session.tabstops[0]?,
      ∃ t ∈ (start.insertAndReturn "$\x7b1:a\x7db$2").1.session.tabstops, t.key = first.key := by decide +kernel
  obtain ⟨first, hfirst, t, ht, hkey⟩ := hkept
  have hruns : Runs KeepsMarkers start (start.insertAndReturn "$\x7b1:a\x7db$2") := start.runs_insertAndReturn _
  have hsince : Since start first (start.insertAndReturn "$\x7b1:a\x7db$2") :=
    since_insertAndReturn (by decide +kernel) _ hactive (Option.mem_def.mp hfirst)
  obtain ⟨hid, hall⟩ := (ends_on_final_of_runs hstart hruns hactive).2 first hsince
  obtain ⟨-, -, -, hback, -⟩ := hall t ht hkey
  exact ⟨_, first, hstart, hruns, hactive, hsince, hid, ⟨t, ht, hkey⟩, hback⟩

/-- A text is typed in place of a tabstop in which the final one is nested. The removal swallows the final tabstop, and
a move back ends the session. -/
theorem final_tabstop_lost :
    let start : Scene := (SnippetInserter.create { clock := ⟨2024, 3, 5, 7, 8, 9⟩ }, .ofText "")
    let typed := start.insertAndType "$\x7b1:a$0b\x7d" "x"
    Initial start ∧ Runs KeepsMarkers start typed ∧ typed.1.session.isActive = true ∧
      typed.1.session.tabstops.map (·.id) = [1] ∧
      (typed.1.move typed.2 (-1)).1.session.isActive = false := by
  intro start typed
  refine ⟨⟨⟨_, _, rfl⟩, rfl, rfl⟩, start.runs_insertAndType _ _, ?_, ?_, ?_⟩
  · decide +kernel
  · decide +kernel
  · decide +kernel

end Scene

end Scribe
