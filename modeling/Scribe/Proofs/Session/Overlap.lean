import Scribe.Proofs.Buffer.Overlap
import Scribe.Proofs.Session.Update

/-!
# Linked ranges that overlap with the primary one

What the primary range reads changes when a linked range that overlaps with it is written, unless it reads nothing.
-/

namespace Scribe

namespace Session

variable {s s' : Session} {b : Buffer} {t u : Tabstop} {x p r : TrackedRange}
  {text₀ text text' source old : List Char} {f : TrackedRange → Range}

/-- While a linked range is written, it takes what is inserted, and the primary one does not. -/
theorem Leaves.change_primary (h : Leaves u x text₀ s text f) (hx : x ∈ u.ranges) (hl : x.linked = true)
    {value : String} (hs : Rewrite x.key value (s, text) (s', text')) : ∃ d f' absorbs, Delta.Applies text d text' ∧
      (d.action = .remove → f x = ⟨d.start, d.stop⟩) ∧
      (d.action = .insert → f x = .point d.start ∧ absorbs = true) ∧ (∃ b', Running s' b' (u.place f')) ∧
      f' x = (f x).shift d absorbs ∧ ∀ p, u.primary? = some p → ∃ absorbs', (d.action = .insert → absorbs' = false) ∧
        f' p = (f p).shift d absorbs' := by
  obtain ⟨d, index, b, b', rfl, happ, hrun, hrun', -, hremove, hinsert⟩ := h.change hx hs
  rw [shiftTabstop_place] at hrun'
  refine ⟨d, _, _, happ, hremove, fun hd => ⟨(hinsert hd).1, (hinsert hd).2.2.1⟩, ⟨b', hrun'⟩, rfl, fun p hp => ?_⟩
  obtain ⟨hmem, hlp⟩ := Tabstop.mem_of_primary? hp
  have hne : p.key ≠ x.key := by
    intro hk
    rw [eq_of_place_key hrun hmem hx hk, hl] at hlp
    cases hlp
  cases hd : d.action with
  | remove => exact ⟨_, fun hi => (by cases hi), rfl⟩
  | insert => exact ⟨false, fun _ => rfl, (hinsert hd).2.2.2 p hmem hne⟩

/-! ## A primary range that reads nothing -/

/-- The primary range of the selected tabstop reads nothing. -/
def EmptyPrimary (s : Session) (text : List Char) : Prop :=
  ∀ b t p, Running s b t → t.primary? = some p → p.range.Reads text []

theorem emptyPrimary (hrun : Running s b t) (hp : t.primary? = some p) (h : p.range.Reads text []) :
    EmptyPrimary s text := by
  intro b' u q hrun' hq
  obtain rfl := hrun.unique hrun'
  rw [hp] at hq
  obtain rfl := Option.some.inj hq
  exact h

theorem EmptyPrimary.set (h : EmptyPrimary s text) (inChange : Bool) (writing : Option Nat) :
    EmptyPrimary { s with inChange, writing } text :=
  fun b t p hrun hp => h b t p (hrun.set s.vars s.inChange s.writing) hp

theorem EmptyPrimary.rewrite (he : EmptyPrimary s text) (h : Leaves u x text₀ s text f) (hx : x ∈ u.ranges)
    (hl : x.linked = true) {value : String} (hs : Rewrite x.key value (s, text) (s', text')) :
    EmptyPrimary s' text' := by
  obtain ⟨d, f', absorbs, happ, -, -, ⟨b', hrun'⟩, -, hprimary⟩ := h.change_primary hx hl hs
  obtain ⟨b, hrun⟩ := h.running
  intro b'' t p' hrun'' hp'
  obtain rfl := hrun'.unique hrun''
  rw [Tabstop.primary?_place, Option.map_eq_some_iff] at hp'
  obtain ⟨p, hp, rfl⟩ := hp'
  obtain ⟨absorbs', hleave, hshift⟩ := hprimary p hp
  have hreads := he b _ _ hrun (Tabstop.primary?_place_of hp)
  show (f' p).Reads text' []
  rw [hshift]
  exact hreads.shift_nil happ hleave

/-! ## A primary range that overlaps -/

/-- The primary range of the selected tabstop has read `source` and its only linked range has read `old`. -/
def StruckPrimary (source old : List Char) (s : Session) (text : List Char) : Prop :=
  ∀ b t p r, Running s b t → t.primary? = some p → t.ranges.filter (·.linked) = [r] →
    Range.Struck source old text p.range r.range

theorem struckPrimary (hrun : Running s b t) (hp : t.primary? = some p) (hr : t.ranges.filter (·.linked) = [r])
    (h : Range.Struck source old text p.range r.range) : StruckPrimary source old s text := by
  intro b' u q r' hrun' hq hr'
  obtain rfl := hrun.unique hrun'
  rw [hp] at hq
  obtain rfl := Option.some.inj hq
  rw [hr, List.cons.injEq] at hr'
  obtain rfl := hr'.1
  exact h

theorem StruckPrimary.set (h : StruckPrimary source old s text) (inChange : Bool) (writing : Option Nat) :
    StruckPrimary source old { s with inChange, writing } text :=
  fun b t p r hrun hp hr => h b t p r (hrun.set s.vars s.inChange s.writing) hp hr

theorem StruckPrimary.rewrite (hst : StruckPrimary source old s text) (h : Leaves u x text₀ s text f)
    (hx : x ∈ u.ranges) (hl : x.linked = true) {value : String} (hs : Rewrite x.key value (s, text) (s', text')) :
    StruckPrimary source old s' text' := by
  obtain ⟨d, f', absorbs, happ, hremove, hinsert, ⟨b', hrun'⟩, hshift, hprimary⟩ := h.change_primary hx hl hs
  obtain ⟨b, hrun⟩ := h.running
  intro b'' t p' r' hrun'' hp' hr'
  obtain rfl := hrun'.unique hrun''
  rw [Tabstop.primary?_place, Option.map_eq_some_iff] at hp'
  obtain ⟨p, hp, rfl⟩ := hp'
  obtain ⟨absorbs', hleave, hshift'⟩ := hprimary p hp
  -- The only linked range is the one that is written.
  have honly : u.ranges.filter (·.linked) = [x] := by
    have hlen := congrArg List.length hr'
    rw [Tabstop.linked_place, List.length_map] at hlen
    obtain ⟨y, hy⟩ := List.length_eq_one_iff.mp hlen
    have hmem := List.mem_filter.mpr ⟨hx, hl⟩
    rw [hy, List.mem_singleton] at hmem
    rw [hy, hmem]
  have hplace : ∀ f, (u.place f).ranges.filter (·.linked) = [{ x with range := f x }] := by
    intro f
    rw [Tabstop.linked_place, honly]
    rfl
  have hstruck := hst b _ _ _ hrun (Tabstop.primary?_place_of hp) (hplace f)
  rw [hplace f', List.cons.injEq] at hr'
  obtain rfl := hr'.1
  show Range.Struck source old text' (f' p) (f' x)
  rw [hshift, hshift']
  cases hd : d.action with
  | remove => exact hstruck.shift_removal happ hd (hremove hd) _ _
  | insert =>
    obtain ⟨hpoint, rfl⟩ := hinsert hd
    obtain rfl := hleave hd
    exact hstruck.shift_insertion happ hd hpoint

/-- When the linked range has got its text, the primary one does not read `source` any more. -/
theorem StruckPrimary.ne (h : StruckPrimary source old s text) (hrun : Running s b (t.place f))
    (hp : t.primary? = some p) (hr : t.ranges.filter (·.linked) = [r]) {value piece : List Char}
    (hvalue : (f r).Reads text value) (hne : value ≠ old) (hpiece : (f p).Reads text piece) : piece ≠ source := by
  have hplace : (t.place f).ranges.filter (·.linked) = [{ r with range := f r }] := by
    rw [Tabstop.linked_place, hr]
    rfl
  exact (h b _ _ _ hrun (Tabstop.primary?_place_of hp) hplace).ne hvalue hne hpiece

end Session

end Scribe
