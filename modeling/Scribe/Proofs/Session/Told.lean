import Scribe.Proofs.Session.Follow

/-!
# What a session is told

While a snippet is filled in the session hears of changes: those that the user makes, and those with which it writes
linked ranges. What each of them preserves is preserved by all of them.
-/

namespace Scribe

namespace Session

/-- The session as each of the changes finds it, with the change. -/
def told (s : Session) (b : Buffer) : List Delta → List (Session × Delta)
  | [] => []
  | d :: ds => (s, d) :: (s.handle b (.change d)).1.told (s.handle b (.change d)).2 ds

/-- What the session is told while it gives a linked range its text. -/
def toldMirror (s : Session) (b : Buffer) (source : String) (r : TrackedRange) : List (Session × Delta) :=
  match s.range? r.key with
  | none => []
  | some x =>
    let value := s.mirrored b.context source r.transform
    if b.textRange x.range = value then []
    else { s with writing := some r.key }.told (b.replace x.range value).1 (b.replace x.range value).2

def toldMirrors (s : Session) (b : Buffer) (source : String) : List TrackedRange → List (Session × Delta)
  | [] => []
  | r :: rest =>
    let written := s.writeMirror b source r.key r.transform
    s.toldMirror b source r ++ written.1.toldMirrors written.2 source rest

/-- What the session is told while it writes the linked ranges of the selected tabstop. -/
def toldUpdate (s : Session) (b : Buffer) : List (Session × Delta) :=
  match s.selected? with
  | none => []
  | some t =>
    match t.primary? with
    | none => []
    | some p => { s with inChange := true }.toldMirrors b (b.textRange p.range) (t.ranges.filter (·.linked))

/-- Every change but the bad ones preserves `P`, which tells of the tabstops only. -/
structure Preserves (P : Session → Prop) (bad : Session → Delta → Prop) : Prop where
  change : ∀ {s : Session} {b : Buffer} {t : Tabstop} {text text' : List Char} {d : Delta} (index : Nat),
    Running s b t → (∀ r ∈ s.ranges, r.range.On text) → Delta.Applies text d text' → ¬ bad s d → P s →
    P { s with tabstops := s.changed d, index }
  congr : ∀ {s s' : Session}, s'.tabstops = s.tabstops → P s → P s'
  nil : ∀ {s : Session}, s.tabstops = [] → P s

variable {P : Session → Prop} {bad : Session → Delta → Prop} {s : Session} {b : Buffer} {t : Tabstop} {d : Delta}
  {text text' : List Char}

theorem on_changed (hon : ∀ r ∈ s.ranges, r.range.On text) (happ : Delta.Applies text d text') (index : Nat) :
    ∀ r ∈ ({ s with tabstops := s.changed d, index } : Session).ranges, r.range.On text' := by
  intro r' hr'
  obtain ⟨u, hu, r, hr, rfl⟩ := mem_ranges_changed hr'
  exact (hon r (mem_ranges.mpr ⟨u, hu, hr⟩)).shift happ _

theorem Preserves.handle (h : Preserves P bad) (hs : Steady s b text) (happ : Delta.Applies text d text')
    (hd : ¬ bad s d) (hp : P s) : P (s.handle b (.change d)).1 := by
  cases hs.valid with
  | idle hidle =>
    rw [handle_of_inactive hidle.inactive]
    exact hp
  | running t hrun =>
    obtain ⟨index, markers, hrun', he⟩ := onChange_eq hrun d
    rw [handle_of_active hrun.active]
    dsimp only
    rw [he]
    split
    · exact h.nil (idle_detach hrun'.toFollowing).tabstops
    · exact h.change index hrun hs.placed.on happ hd hp

theorem Preserves.handleAll (h : Preserves P bad) : ∀ {ds : List Delta} {text text' : List Char} {s : Session}
    {b : Buffer}, Delta.Chain text ds text' → Steady s b text → (∀ e ∈ s.told b ds, ¬ bad e.1 e.2) → P s →
    P (s.handleAll b (ds.map .change)).1
  | [], _, _, _, _, .nil, _, _, hp => hp
  | d :: ds, _, _, s, b, .cons happ hchain, hs, htold, hp => by
    rw [List.map_cons, handleAll_cons]
    exact h.handleAll hchain (steady_change hs happ).1 (fun e he => htold e (List.mem_cons_of_mem _ he))
      (h.handle hs happ (htold _ List.mem_cons_self) hp)

/-- While linked ranges are written the session does not end. -/
theorem Preserves.onChanges (h : Preserves P bad) : ∀ {ds : List Delta} {text text' : List Char} {s : Session}
    {b : Buffer} {t : Tabstop}, Delta.Chain text ds text' → Running s b t → s.inChange = true →
    (∀ r ∈ s.ranges, r.range.On text) → (∀ e ∈ s.told b ds, ¬ bad e.1 e.2) → P s → P (s.onChanges b ds).1
  | [], _, _, _, _, _, .nil, _, _, _, _, hp => hp
  | d :: ds, _, _, s, b, t, .cons happ hchain, hrun, hc, hon, htold, hp => by
    obtain ⟨index, markers, he, hrun'⟩ := onChange_writing hrun hc d
    have hhandle : s.handle b (.change d) = s.onChange b d := handle_of_active hrun.active _
    rw [told, hhandle, he] at htold
    rw [onChanges_cons, he]
    exact h.onChanges hchain hrun' hc (on_changed hon happ index) (fun e hmem => htold e (List.mem_cons_of_mem _ hmem))
      (h.change index hrun hon happ (htold _ List.mem_cons_self) hp)

theorem Preserves.writeMirror (h : Preserves P bad) (hrun : Running s b t) (hc : s.inChange = true) (hb : b.Sound)
    (hon : ∀ r ∈ s.ranges, r.range.On b.chars) {source : String} {r x : TrackedRange} (hx : x ∈ t.ranges)
    (hk : x.key = r.key) (htold : ∀ e ∈ s.toldMirror b source r, ¬ bad e.1 e.2) (hp : P s) :
    P (s.writeMirror b source r.key r.transform).1 := by
  have hrange : s.range? r.key = some x := hk ▸ range?_eq hrun.toFollowing (hrun.range_mem hx)
  rw [toldMirror, hrange] at htold
  dsimp only at htold
  by_cases heq : b.textRange x.range = s.mirrored b.context source r.transform
  · rw [writeMirror_eq, hrange]
    dsimp only
    rwa [if_pos heq]
  · rw [if_neg heq] at htold
    have honx := hon x (hrun.range_mem hx)
    obtain ⟨markers, t', he, -⟩ := writeMirror_of_ne hrun hc hb hx honx source r.transform heq
    obtain ⟨tabstops, index, lines, selections, markers', t'', r', hreplace, hchain, -⟩ :=
      rewritten_replace hrun hc hb hx honx (s.mirrored b.context source r.transform)
    rw [hk] at he
    rw [he]
    have hhost : Running { s with writing := some r.key }
        (b.replace x.range (s.mirrored b.context source r.transform)).1 t := by
      rw [hreplace]
      exact (hrun.set s.vars s.inChange (some r.key)).host ⟨rfl, rfl⟩ rfl
    have hheard := h.onChanges hchain hhost hc hon htold (h.congr (s := s) rfl hp)
    refine h.congr ?_ hheard
    rfl

theorem Preserves.writeMirrors (h : Preserves P bad) (source : String) : ∀ (ms : List TrackedRange) {s : Session}
    {b : Buffer} {t : Tabstop}, Running s b t → s.inChange = true → s.writing = none → b.Sound → Placed s b.chars →
    (∀ r ∈ ms, ∃ x ∈ t.ranges, x.linked = true ∧ x.key = r.key) →
    (∀ e ∈ s.toldMirrors b source ms, ¬ bad e.1 e.2) → P s → P (s.writeMirrors b source ms).1
  | [], _, _, _, _, _, _, _, _, _, _, hp => hp
  | r :: rest, s, b, t, hrun, hc, hw, hb, hplaced, hms, htold, hp => by
    obtain ⟨x, hx, hl, hk⟩ := hms r List.mem_cons_self
    have hfirst := h.writeMirror hrun hc hb hplaced.on hx hk
      (fun e he => htold e (List.mem_append_left _ he)) hp
    have hrest := fun e he => htold e (List.mem_append_right _ he)
    obtain ⟨tabstops, index, lines, selections, markers, g, he, hrun', hsound, hleaves, -, -⟩ :=
      writeMirror_leaves (I := fun _ _ => True) hrun hc hw hb hplaced hx hl source r.transform (fun _ _ hi => hi)
        (fun _ hi => hi) trivial
    rw [hk] at he
    rw [writeMirrors_cons]
    rw [he] at hfirst hrest ⊢
    refine h.writeMirrors source rest hrun' hc hw hsound hleaves.placed (fun r hr => ?_) hrest hfirst
    obtain ⟨y, hy, hly, hky⟩ := hms r (List.mem_cons_of_mem _ hr)
    exact ⟨_, Tabstop.mem_place_of_mem hy, hly, hky⟩

theorem Preserves.updateLinked (h : Preserves P bad) (hs : Steady s b b.chars) (hb : b.Sound) (hrun : Running s b t)
    (htold : ∀ e ∈ s.toldUpdate b, ¬ bad e.1 e.2) (hp : P s) : P (s.updateLinked b).1 := by
  rw [toldUpdate, selected?_eq hrun] at htold
  dsimp only at htold
  cases hprim : t.primary? with
  | none =>
    rw [updateLinked_of_no_primary hrun hprim]
    exact hp
  | some p =>
    rw [hprim] at htold
    rw [updateLinked_eq hrun hprim]
    dsimp only
    split
    · exact hp
    · have hwritten := h.writeMirrors (b.textRange p.range) (t.ranges.filter (·.linked)) (hrun.set s.vars true s.writing)
        rfl hs.writing hb ⟨hs.placed.on, hs.placed.apart⟩
        (fun r hr => ⟨r, (List.mem_filter.mp hr).1, (List.mem_filter.mp hr).2, rfl⟩) htold (h.congr (s := s) rfl hp)
      refine h.congr ?_ hwritten
      rfl

theorem Preserves.tabNext (h : Preserves P bad) (hs : Valid s b) (hp : P s) (step : Int) : P (s.tabNext b step).1 := by
  cases hs with
  | idle hidle =>
    rwa [tabNext_of_inactive hidle.inactive]
  | running t hrun =>
    obtain ⟨u, selections, completions, -, hrun', he⟩ :=
      tabNext_eq hrun.toFollowing (List.ne_nil_of_mem (mem_tabstops hrun)) step
    rw [he]
    split
    · exact h.nil (idle_detach hrun'.toFollowing).tabstops
    · exact h.congr (s := s) rfl hp

end Session

namespace Scene

open Session (Preserves)

/-- A step of filling in a snippet, with what the session is told. -/
inductive Tells : Scene → List (Session × Delta) → Scene → Prop
  | move {i : SnippetInserter} {b : Buffer} (step : Int) : Tells (i, b) [] (i.move b step)
  | edit {i : SnippetInserter} {b b' : Buffer} {ds : List Delta} {t : Tabstop} {p : TrackedRange} :
    i.session.selected? = some t → t.primary? = some p → b.EditsIn p.range ds b' →
    Tells (i, b) (i.session.told b' ds) (i.handleChanges b' ds)
  | afterCommand {i : SnippetInserter} {b : Buffer} :
    Tells (i, b) (i.session.toldUpdate b) (i.handle b (.afterCommand false))

theorem tells_typed {x : Scene} (h : AtRest x) {t : Tabstop} {p : TrackedRange}
    (ht : x.1.session.selected? = some t) (hp : t.primary? = some p) {s : Selection} (hs : x.2.selections = [s])
    (hstart : p.range.start ≤ s.toRange.start) (hstop : s.toRange.stop ≤ p.range.stop) (text : String) :
    Tells x (x.1.session.told (x.2.typeText text).1 (x.2.typeText text).2) (x.typed text) :=
  .edit ht hp (editsIn_typed h ht hp hs hstart hstop text)

/-- Any number of steps, with all that the session is told. -/
inductive TellsAll (x : Scene) : List (Session × Delta) → Scene → Prop
  | refl : TellsAll x [] x
  | tail {y z : Scene} {told told' : List (Session × Delta)} :
    TellsAll x told y → Tells y told' z → TellsAll x (told ++ told') z

theorem atRest_of_tells {x y : Scene} {told : List (Session × Delta)} (h : Tells x told y) (hx : AtRest x) :
    AtRest y := by
  cases h with
  | move step => exact SnippetInserter.atRest_move hx step
  | edit _ _ he => exact SnippetInserter.atRest_edit hx he.edits
  | afterCommand => exact SnippetInserter.atRest_handle hx _ nofun

theorem atRest_of_tellsAll {x y : Scene} {told : List (Session × Delta)} (h : TellsAll x told y) (hx : AtRest x) :
    AtRest y := by
  induction h with
  | refl => exact hx
  | tail _ hstep ih => exact atRest_of_tells hstep ih

variable {P : Session → Prop} {bad : Session → Delta → Prop}

theorem preserved_of_tells (h : Preserves P bad) {x y : Scene} {told : List (Session × Delta)} (hx : AtRest x)
    (hs : Tells x told y) (htold : ∀ e ∈ told, ¬ bad e.1 e.2) (hp : P x.1.session) : P y.1.session := by
  cases hs with
  | move step => exact h.tabNext hx.steady.valid hp step
  | edit _ _ he => exact h.handleAll he.inside.chain (SnippetInserter.steady_host hx he.toKeepsMarkers) htold hp
  | @afterCommand i b =>
    cases hx.steady.valid with
    | idle hidle =>
      rwa [SnippetInserter.handle_of_inactive hidle.inactive]
    | running t hrun =>
      rw [SnippetInserter.handle_afterCommand hrun.active]
      exact h.updateLinked hx.steady hx.sound hrun htold hp

/-- What every change but the bad ones preserves holds as long as the session is told no bad one. -/
theorem preserved_of_tellsAll (h : Preserves P bad) {x y : Scene} {told : List (Session × Delta)} (hx : AtRest x)
    (hs : TellsAll x told y) (htold : ∀ e ∈ told, ¬ bad e.1 e.2) (hp : P x.1.session) : P y.1.session := by
  induction hs with
  | refl => exact hp
  | tail hs hstep ih =>
    exact preserved_of_tells h (atRest_of_tellsAll hs hx) hstep (fun e he => htold e (List.mem_append_right _ he))
      (ih fun e he => htold e (List.mem_append_left _ he))

end Scene

end Scribe
