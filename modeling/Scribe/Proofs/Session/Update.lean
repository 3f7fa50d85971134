import Scribe.Proofs.Session.Frame
import Mathlib.Data.List.Pairwise

/-!
# Writing all linked ranges

The linked ranges of the selected tabstop are written one after the other. None of them undoes what has been done
for another one; what the primary range reads is safe as long as those that have to be written are apart from it.
-/

namespace Scribe

namespace Session

variable {s : Session} {b : Buffer} {t : Tabstop}

/-- The linked ranges of the selected tabstop `u` are being written; those with the keys `rest` are not done. If
`safe`, none of those that have to be written stands in the primary range. -/
structure Mirroring (source : String) (value : Option Transform → String) (out : List Char) (safe : Prop)
    (rest : List Nat) (s : Session) (b : Buffer) (u : Tabstop) : Prop where
  running : Running s b u
  inChange : s.inChange = true
  writing : s.writing = none
  sound : b.Sound
  placed : Placed s b.chars
  mirrored : ∀ ctx, ∀ r ∈ u.ranges, r.linked = true → s.mirrored ctx source r.transform = value r.transform
  order : ∃ done, (u.ranges.filter (·.linked)).map (·.key) = done ++ rest
  primary : safe → ∀ p, u.primary? = some p → p.range.Reads b.chars source.toList
  written : ∀ r ∈ u.ranges, r.linked = true → r.key ∉ rest → r.range.Reads b.chars (value r.transform).toList
  apart : safe → ∀ p, u.primary? = some p → ∀ r ∈ u.ranges, r.linked = true →
    r.range.Apart p.range ∨ r.range.Reads b.chars (value r.transform).toList
  outside : outside b.chars u.linkedRanges = out

theorem Placed.apart_of_ne {text : List Char} (h : Placed s text) (ht : t ∈ s.tabstops) {x y : TrackedRange}
    (hx : x ∈ t.ranges) (hy : y ∈ t.ranges) (hlx : x.linked = true) (hly : y.linked = true) (hne : x ≠ y) :
    x.range.Apart y.range := by
  have hsymm : Std.Symm fun x y : TrackedRange => x.range.Apart y.range := ⟨fun _ _ hap => hap.symm⟩
  exact (h.apart t ht).forall (List.mem_filter.mpr ⟨hx, hlx⟩) (List.mem_filter.mpr ⟨hy, hly⟩) hne

theorem writeMirror_of_reads (h : Following s b) (hb : b.Sound) {r : TrackedRange} (hr : r ∈ s.ranges)
    (source : String) (transform : Option Transform)
    (hreads : r.range.Reads b.chars (s.mirrored b.context source transform).toList) :
    s.writeMirror b source r.key transform = (s, b) := by
  obtain ⟨m, n, hmn, hn, hrange, hpiece⟩ := hreads
  rw [writeMirror_eq, range?_eq h hr]
  dsimp only
  rw [hrange, Buffer.textRange_place hb.wellFormed hmn hn, hpiece, String.ofList_toList, if_pos rfl]

section
variable {source : String} {value : Option Transform → String} {out : List Char} {safe : Prop} {rest : List Nat}
  {x : TrackedRange} (h : Mirroring source value out safe (x.key :: rest) s b t) (hx : x ∈ t.ranges)
include h hx

/-- A range that reads what it shall read is done. -/
theorem Mirroring.skip (hreads : x.range.Reads b.chars (value x.transform).toList) :
    Mirroring source value out safe rest s b t := by
  obtain ⟨done, horder⟩ := h.order
  refine { h with order := ⟨done ++ [x.key], by simpa using horder⟩, written := fun r hr hlr hk => ?_ }
  by_cases hkx : r.key = x.key
  · rw [eq_of_range_key h.running.toFollowing (mem_tabstops h.running) hr hx hkx]
    exact hreads
  · exact h.written r hr hlr (by simpa [hkx] using hk)

/-- A range that had to be written reads what it shall read then, and the others are as they were. -/
theorem Mirroring.write (hl : x.linked = true) (hnot : ¬ x.range.Reads b.chars (value x.transform).toList)
    {tabstops : List Tabstop} {index : Nat} {b' : Buffer} {g : TrackedRange → Range}
    (hrun : Running { s with tabstops, index } b' (t.place g)) (hsound : b'.Sound)
    (hg : Leaves t x b.chars { s with tabstops, index } b'.chars g)
    (hreads : (g x).Reads b'.chars (value x.transform).toList) :
    Mirroring source value out safe rest { s with tabstops, index } b' (t.place g) := by
  have hne : ∀ r ∈ t.ranges, r ≠ x → r.key ≠ x.key := fun r hr hne hk => hne (eq_of_place_key hrun hr hx hk)
  have hapart : ∀ r ∈ t.ranges, r.linked = true → r ≠ x → r.range.Apart x.range := fun r hr hlr hne =>
    h.placed.apart_of_ne (mem_tabstops h.running) hr hx hlr hl hne
  exact {
    running := hrun
    inChange := h.inChange
    writing := h.writing
    sound := hsound
    placed := hg.placed
    mirrored := fun ctx r' hr' hlr => by
      obtain ⟨r, hr, rfl⟩ := Tabstop.mem_place.mp hr'
      exact h.mirrored ctx r hr hlr
    order := by
      obtain ⟨done, horder⟩ := h.order
      refine ⟨done ++ [x.key], ?_⟩
      have hkeys : ((t.place g).ranges.filter (·.linked)).map (·.key) = (t.ranges.filter (·.linked)).map (·.key) := by
        rw [Tabstop.linked_place, List.map_map]
        rfl
      rw [hkeys, horder, List.append_assoc, List.singleton_append]
    primary := fun hsafe p' hp' => by
      rw [Tabstop.primary?_place, Option.map_eq_some_iff] at hp'
      obtain ⟨p, hp, rfl⟩ := hp'
      have hpm := (Tabstop.mem_of_primary? hp).1
      have hap := (h.apart hsafe p hp x hx hl).resolve_right hnot
      exact (hg.reads p hpm (hne p hpm (Tabstop.primary_ne hp hl)) hap.symm).2 _ (h.primary hsafe p hp)
    written := fun r' hr' hlr hk => by
      obtain ⟨r, hr, rfl⟩ := Tabstop.mem_place.mp hr'
      by_cases hrx : r = x
      · subst hrx
        exact hreads
      · have hkr : r.key ∉ x.key :: rest := by
          rw [List.mem_cons, not_or]
          exact ⟨hne r hr hrx, hk⟩
        exact (hg.reads r hr (hne r hr hrx) (hapart r hr hlr hrx)).2 _ (h.written r hr hlr hkr)
    apart := fun hsafe p' hp' r' hr' hlr => by
      rw [Tabstop.primary?_place, Option.map_eq_some_iff] at hp'
      obtain ⟨p, hp, rfl⟩ := hp'
      obtain ⟨r, hr, rfl⟩ := Tabstop.mem_place.mp hr'
      have hpm := (Tabstop.mem_of_primary? hp).1
      by_cases hrx : r = x
      · subst hrx
        exact .inr hreads
      · rcases h.apart hsafe p hp r hr hlr with hap | hrd
        · exact .inl (hg.apart r hr p hpm (hne r hr hrx) (hne p hpm (Tabstop.primary_ne hp hl)) hap)
        · exact .inr ((hg.reads r hr (hne r hr hrx) (hapart r hr hlr hrx)).2 _ hrd)
    outside := by
      rw [Tabstop.linkedRanges_place, hg.outside]
      exact h.outside }

end

section
variable {source : String} {value : Option Transform → String} {out : List Char} {safe : Prop}
  {I : Session → List Char → Prop}
  (hI : ∀ {rest : List Nat} {s₀ s s' : Session} {b : Buffer} {u : Tabstop} {x : TrackedRange}
    {text text' : List Char} {f : TrackedRange → Range}, Mirroring source value out safe (x.key :: rest) s₀ b u →
    x ∈ u.ranges → x.linked = true → Leaves u x b.chars s text f →
    Rewrite x.key (value x.transform) (s, text) (s', text') → I s₀ b.chars → I s text → I s' text')
  (hset : ∀ {s : Session} {text : List Char} (writing : Option Nat), I s text → I { s with writing } text)
include hI hset

/-- One of the linked ranges is written, or found to read what it shall read. -/
theorem mirroring_writeMirror {rest : List Nat} {x : TrackedRange}
    (h : Mirroring source value out safe (x.key :: rest) s b t) (hx : x ∈ t.ranges) (hl : x.linked = true)
    (hi : I s b.chars) : ∃ tabstops index lines selections markers g,
      s.writeMirror b source x.key x.transform =
        ({ s with tabstops, index }, { b with lines, selections, markers }) ∧
      Mirroring source value out safe rest { s with tabstops, index } { b with lines, selections, markers }
        (t.place g) ∧
      I { s with tabstops, index } ({ b with lines, selections, markers } : Buffer).chars := by
  have hvalue := h.mirrored b.context x hx hl
  by_cases hreads : x.range.Reads b.chars (value x.transform).toList
  · have hsame := writeMirror_of_reads h.running.toFollowing h.sound (h.running.range_mem hx) source x.transform
      (hvalue ▸ hreads)
    refine ⟨s.tabstops, s.index, b.lines, b.selections, b.markers, (·.range), hsame, ?_, hi⟩
    rw [Tabstop.place_self]
    exact h.skip hx hreads
  · obtain ⟨tabstops, index, lines, selections, markers, g, he, hrun, hsound, hg, hreads', hi'⟩ :=
      writeMirror_leaves h.running h.inChange h.writing h.sound h.placed hx hl source x.transform
        (fun hlv hstep hi' => hI h hx hl hlv (hvalue ▸ hstep) hi hi') hset hi
    exact ⟨tabstops, index, lines, selections, markers, g, he, h.write hx hl hreads hrun hsound hg (hvalue ▸ hreads'), hi'⟩

theorem mirroring_writeMirrors : ∀ (ms : List TrackedRange) {s : Session} {b : Buffer} {t : Tabstop},
    Mirroring source value out safe (ms.map (·.key)) s b t →
    (∀ r ∈ ms, ∃ x ∈ t.ranges, x.linked = true ∧ x.key = r.key ∧ x.transform = r.transform) → I s b.chars →
    ∃ tabstops index lines selections markers g,
      s.writeMirrors b source ms = ({ s with tabstops, index }, { b with lines, selections, markers }) ∧
      Mirroring source value out safe [] { s with tabstops, index } { b with lines, selections, markers } (t.place g) ∧
      I { s with tabstops, index } ({ b with lines, selections, markers } : Buffer).chars
  | [], s, b, t, h, _, hi =>
    ⟨s.tabstops, s.index, b.lines, b.selections, b.markers, (·.range), rfl, (Tabstop.place_self t).symm ▸ h, hi⟩
  | r :: rest, s, b, t, h, hms, hi => by
    obtain ⟨x, hx, hl, hk, ht⟩ := hms r List.mem_cons_self
    rw [List.map_cons, ← hk] at h
    obtain ⟨tabstops, index, lines, selections, markers, g, he, h', hi'⟩ := mirroring_writeMirror hI hset h hx hl hi
    have hms' : ∀ r ∈ rest, ∃ x ∈ (t.place g).ranges, x.linked = true ∧ x.key = r.key ∧ x.transform = r.transform := by
      intro r hr
      obtain ⟨y, hy, hly, hky, hty⟩ := hms r (List.mem_cons_of_mem _ hr)
      exact ⟨_, Tabstop.mem_place_of_mem hy, hly, hky, hty⟩
    obtain ⟨tabstops', index', lines', selections', markers', g', he', h'', hi''⟩ :=
      mirroring_writeMirrors rest h' hms' hi'
    refine ⟨tabstops', index', lines', selections', markers', fun r => g' { r with range := g r }, ?_, ?_, hi''⟩
    · rw [writeMirrors_cons, ← hk, ← ht, he]
      exact he'
    · have hplace : (t.place g).place g' = t.place fun r => g' { r with range := g r } := by
        unfold Tabstop.place
        rw [List.map_map]
        rfl
      rw [← hplace]
      exact h''

end

/-! ## The whole update -/

theorem updateLinked_eq (h : Running s b t) {p : TrackedRange} (hp : t.primary? = some p) :
    s.updateLinked b =
      let result := { s with inChange := true }.writeMirrors b (b.textRange p.range) (t.ranges.filter (·.linked))
      if t.ranges.filter (·.linked) = [] then (s, b) else ({ result.1 with inChange := false }, result.2) := by
  unfold updateLinked
  rw [selected?_eq h]
  dsimp only
  rw [hp]
  cases t.ranges.filter (·.linked) with
  | nil => rfl
  | cons r rest => rfl

theorem updateLinked_of_no_primary (h : Running s b t) (hp : t.primary? = none) : s.updateLinked b = (s, b) := by
  unfold updateLinked
  rw [selected?_eq h]
  dsimp only
  rw [hp]

theorem textRange_eq (hb : b.Sound) {r : Range} {piece : List Char} (h : r.Reads b.chars piece) :
    b.textRange r = String.ofList piece := by
  obtain ⟨m, n, hmn, hn, rfl, rfl⟩ := h
  exact Buffer.textRange_place hb.wellFormed hmn hn

theorem reads_textRange (hb : b.Sound) {r : Range} (h : r.On b.chars) : r.Reads b.chars (b.textRange r).toList := by
  obtain ⟨piece, hr⟩ := h.reads
  rwa [textRange_eq hb hr, String.toList_ofList]

/-- What the session and the buffer are like when the linked ranges of the tabstop `t` have been written from its
primary range `p`. The range `r` stands at `g r` then. -/
structure Updated (s : Session) (b : Buffer) (t : Tabstop) (p : TrackedRange) (value : Option Transform → String)
    (safe : Prop) (s' : Session) (b' : Buffer) (g : TrackedRange → Range) : Prop where
  session : ∃ tabstops index, s' = { s with tabstops, index }
  buffer : ∃ lines selections markers, b' = { b with lines, selections, markers }
  running : Running s' b' (t.place g)
  sound : b'.Sound
  placed : Placed s' b'.chars
  primary : safe → (g p).Reads b'.chars (b.textRange p.range).toList
  written : ∀ r ∈ t.ranges, r.linked = true → (g r).Reads b'.chars (value r.transform).toList
  outside : outside b'.chars (t.place g).linkedRanges = outside b.chars t.linkedRanges

section
variable {p : TrackedRange} {value : Option Transform → String} {safe : Prop} (h : Running s b t)
  (hc : s.inChange = false) (hb : b.Sound) (hprim : t.primary? = some p)
include h hc hb hprim

omit hc in
/-- Before the first one is written all linked ranges are left to write. -/
theorem mirroring_of_running (hw : s.writing = none) (hp : Placed s b.chars)
    (hval : ∀ ctx, ∀ r ∈ t.ranges, r.linked = true →
      s.mirrored ctx (b.textRange p.range) r.transform = value r.transform)
    (hap : safe → ∀ r ∈ t.ranges, r.linked = true →
      r.range.Apart p.range ∨ r.range.Reads b.chars (value r.transform).toList) :
    Mirroring (b.textRange p.range) value (outside b.chars t.linkedRanges) safe
      ((t.ranges.filter (·.linked)).map (·.key)) { s with inChange := true } b t := by
  have hprimary : ∀ {p' : TrackedRange}, t.primary? = some p' → p' = p := fun hp' =>
    Option.some.inj (hp'.symm.trans hprim)
  exact {
    running := h.set s.vars true s.writing
    inChange := rfl
    writing := hw
    sound := hb
    placed := ⟨hp.on, hp.apart⟩
    mirrored := hval
    order := ⟨[], rfl⟩
    primary := fun _ p' hp' => by
      rw [hprimary hp']
      exact reads_textRange hb (hp.on p (h.range_mem (Tabstop.mem_of_primary? hprim).1))
    written := fun r hr hl hk => absurd (List.mem_map_of_mem (List.mem_filter.mpr ⟨hr, hl⟩)) hk
    apart := fun hsafe p' hp' => by
      rw [hprimary hp']
      exact hap hsafe
    outside := rfl }

/-- Writing the linked ranges gives each of them its text and leaves the rest alone. What else is kept by each
change is kept by all of them. -/
theorem updated_updateLinked (hw : s.writing = none) (hp : Placed s b.chars) {I : Session → List Char → Prop}
    (hI : ∀ {rest : List Nat} {s₀ s s' : Session} {b₀ : Buffer} {u : Tabstop} {x : TrackedRange}
      {text text' : List Char} {f : TrackedRange → Range},
      Mirroring (b.textRange p.range) value (outside b.chars t.linkedRanges) safe (x.key :: rest) s₀ b₀ u →
      x ∈ u.ranges → x.linked = true → Leaves u x b₀.chars s text f →
      Rewrite x.key (value x.transform) (s, text) (s', text') → I s₀ b₀.chars → I s text → I s' text')
    (hset : ∀ {s : Session} {text : List Char} (inChange : Bool) (writing : Option Nat), I s text →
      I { s with inChange, writing } text)
    (hval : ∀ ctx, ∀ r ∈ t.ranges, r.linked = true →
      s.mirrored ctx (b.textRange p.range) r.transform = value r.transform)
    (hap : safe → ∀ r ∈ t.ranges, r.linked = true →
      r.range.Apart p.range ∨ r.range.Reads b.chars (value r.transform).toList) (hi : I s b.chars) :
    ∃ g, Updated s b t p value safe (s.updateLinked b).1 (s.updateLinked b).2 g ∧
      I (s.updateLinked b).1 (s.updateLinked b).2.chars := by
  rw [updateLinked_eq h hprim]
  dsimp only
  by_cases hnil : t.ranges.filter (·.linked) = []
  · rw [if_pos hnil]
    refine ⟨(·.range), ?_, hi⟩
    exact {
      session := ⟨_, _, rfl⟩
      buffer := ⟨_, _, _, rfl⟩
      running := (Tabstop.place_self t).symm ▸ h
      sound := hb
      placed := hp
      primary := fun _ => reads_textRange hb (hp.on p (h.range_mem (Tabstop.mem_of_primary? hprim).1))
      written := fun r hr hl => by
        have := List.mem_filter.mpr ⟨hr, hl⟩
        rw [hnil] at this
        cases this
      outside := by rw [Tabstop.place_self] }
  · rw [if_neg hnil]
    have hstart := mirroring_of_running h hb hprim hw hp hval hap
    obtain ⟨tabstops, index, lines, selections, markers, g, he, hend, hi'⟩ := mirroring_writeMirrors hI
      (fun writing hi => hset _ writing hi) (t.ranges.filter (·.linked)) hstart
      (fun r hr => ⟨r, (List.mem_filter.mp hr).1, (List.mem_filter.mp hr).2, rfl, rfl⟩) (hset true s.writing hi)
    rw [he]
    refine ⟨g, ?_, hset false s.writing hi'⟩
    exact {
      session := ⟨tabstops, index, by rw [← hc]⟩
      buffer := ⟨lines, selections, markers, rfl⟩
      running := hend.running.set s.vars false s.writing
      sound := hend.sound
      placed := ⟨hend.placed.on, hend.placed.apart⟩
      primary := fun hsafe => hend.primary hsafe _ (by rw [Tabstop.primary?_place, hprim]; rfl)
      written := fun r hr hl =>
        hend.written _ (Tabstop.mem_place_of_mem hr) hl List.not_mem_nil
      outside := hend.outside }

theorem updateLinked_of_reads (hreads : ∀ r ∈ t.ranges, r.linked = true →
    r.range.Reads b.chars (s.mirrored b.context (b.textRange p.range) r.transform).toList) :
    s.updateLinked b = (s, b) := by
  have hnone : ∀ ms : List TrackedRange, (∀ r ∈ ms, r ∈ t.ranges ∧ r.linked = true) →
      { s with inChange := true }.writeMirrors b (b.textRange p.range) ms = ({ s with inChange := true }, b) := by
    intro ms
    induction ms with
    | nil => intro _; rfl
    | cons r rest ih =>
      intro hms
      obtain ⟨hr, hl⟩ := hms r List.mem_cons_self
      have hmem := h.range_mem hr
      have hrun := h.set s.vars true s.writing
      rw [writeMirrors_cons, writeMirror_of_reads hrun.toFollowing hb hmem _ _ (hreads r hr hl)]
      exact ih fun r hr => hms r (List.mem_cons_of_mem _ hr)
  rw [updateLinked_eq h hprim]
  dsimp only
  rw [hnone _ fun r hr => List.mem_filter.mp hr]
  split
  · rfl
  · rw [← hc]

end

end Session

end Scribe
