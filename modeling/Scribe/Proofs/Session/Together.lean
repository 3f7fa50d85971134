import Mathlib.Data.List.Pairwise
import Scribe.Proofs.Session.Typed

/-!
# Ranges that are edited together

A text is typed at all edited ranges of a tabstop, which stand in order and read the same. If none of them begins where
another one ends each of them reads that text afterwards. Otherwise the last one that does is empty.
-/

namespace Scribe

open Position (place)

theorem Range.On.take_append {text : List Char} {r : Range} {m : Nat} (hr : r.On text) (hm : m ≤ text.length)
    (hle : r.stop ≤ place text m) (rest : List Char) : r.On (text.take m ++ rest) := by
  obtain ⟨p, q, hpq, hq, rfl⟩ := hr
  have hqm : q ≤ m := (Position.place_le_iff hq hm).mp hle
  refine ⟨p, q, hpq, ?_, ?_⟩
  · rw [List.length_append, List.length_take]
    omega
  · rw [Position.place_take_append hm (Nat.le_trans hpq hqm), Position.place_take_append hm hqm]

namespace Buffer

/-! ## The order in which is typed -/

theorem pairwise_typingOrder {R : Range → Range → Prop} (hsymm : ∀ {x y : Range}, R x y → R y x)
    {selections : List Selection} (h : (selections.map Selection.toRange).Pairwise R) :
    (typingOrder selections).Pairwise fun x y => R x.2.toRange y.2.toRange := by
  have hperm := (perm_typingOrder selections).map Prod.snd
  rw [List.map_map, List.map_map] at hperm
  have hlisted : selections.zipIdx.map (Prod.snd ∘ fun s => (s.2, s.1.toRange)) = selections.map Selection.toRange := by
    conv => rhs; rw [← List.zipIdx_map_fst 0 selections, List.map_map]
    rfl
  rw [hlisted] at hperm
  exact List.pairwise_map.mp ((hperm.pairwise_iff hsymm).mpr h)

/-- Of selections one behind the other the last one is typed at first. -/
theorem typingOrder_of_ascending {selections : List Selection}
    (h : selections.Pairwise fun s s' => s.toRange.start < s'.toRange.start) :
    typingOrder selections = (selections.zipIdx.map fun s => (s.2, s.1)).reverse := by
  have hascending : (selections.zipIdx.map fun s => (s.2, s.1)).Pairwise
      fun x y => x.2.toRange.start < y.2.toRange.start := by
    rw [List.pairwise_map]
    rwa [← List.zipIdx_map_fst 0 selections, List.pairwise_map] at h
  have hdistinct : (selections.zipIdx.map fun s => (s.2, s.1)).Pairwise
      fun x y => x.2.toRange.start ≠ y.2.toRange.start := by
    refine hascending.imp fun hlt he => ?_
    rw [he] at hlt
    exact Position.lt_irrefl _ hlt
  have hsymm : Std.Symm fun x y : Nat × Selection => x.2.toRange.start ≠ y.2.toRange.start := ⟨fun _ _ => Ne.symm⟩
  have hperm := List.mergeSort_perm (selections.zipIdx.map fun s => (s.2, s.1)) fun a b =>
    decide (b.2.toRange.start ≤ a.2.toRange.start)
  refine List.Perm.eq_of_pairwise (fun x y hx hy hxy hyx => ?_)
    ((List.pairwise_mergeSort typesBefore_trans typesBefore_total _).imp of_decide_eq_true)
    (List.pairwise_reverse.mpr (hascending.imp Position.le_of_lt)) (hperm.trans (List.reverse_perm _).symm)
  by_contra hne
  exact hdistinct.forall (hperm.mem_iff.mp hx) (List.mem_reverse.mp hy) hne (Position.le_antisymm hyx hxy)

end Buffer

namespace Session

variable {t : Tabstop} {text : String} {c : List Char} {f : TrackedRange → Range} {sels : List (Nat × Selection)}

/-! ## Typing at one selection after the other -/

/-- What holds before a text is typed at selections, each of them before the last one, and is kept at each of them
holds in the end. -/
theorem typeAt_preserves {P : List Char → (TrackedRange → Range) → List (Nat × Selection) → Prop}
    (hstep : ∀ {c : List Char} {f f' : TrackedRange → Range} {e : Nat × Selection} {sels : List (Nat × Selection)}
      {m n : Nat}, e.2.toRange = ⟨place c m, place c n⟩ → TypedOver t c text.toList m n f f' →
      (∀ r ∈ t.ranges, (f r).On c) → (∀ x ∈ sels, x.2.toRange.stop ≤ place c m) → P c f (e :: sels) →
      P (c.take m ++ text.toList ++ c.drop n) f' sels) :
    ∀ (sels : List (Nat × Selection)) (done : List (Nat × Position)) {b : Buffer} {f : TrackedRange → Range},
      b.WellFormed → (∀ r ∈ t.ranges, (f r).On b.chars) → (∀ e ∈ sels, e.2.toRange.On b.chars) →
      sels.Pairwise (fun x y => y.2.toRange.stop ≤ x.2.toRange.start) → P b.chars f sels →
      P (Buffer.typeAt text b done sels).1.chars ((Buffer.typeAt text b done sels).2.2.foldl t.shifted f) []
  | [], _, _, _, _, _, _, _, hp => hp
  | e :: sels, done, b, f, hb, hon, hsels, hsorted, hp => by
    obtain ⟨m, n, hmn, hn, hrange⟩ := hsels e List.mem_cons_self
    obtain ⟨b', he, -, hwell, hchars⟩ := Buffer.splice_place hb hmn hn text
    obtain ⟨hbefore, hsorted⟩ := List.pairwise_cons.mp hsorted
    rw [hrange] at hbefore
    have htyped := typedOver_spliceDeltas t hmn hn text f
    rw [Buffer.typeAt_cons, hrange]
    dsimp only
    rw [he, List.foldl_append]
    refine typeAt_preserves hstep sels _ hwell (fun r hr => ?_) (fun x hx => ?_) hsorted ?_
    · rw [hchars]
      exact htyped.on (hon r hr)
    · rw [hchars, List.append_assoc]
      exact (hsels x (List.mem_cons_of_mem _ hx)).take_append (Nat.le_trans hmn hn) (hbefore x hx) _
    · rw [hchars]
      exact hstep hrange htyped hon hbefore hp

/-! ## Ranges that are apart -/

/-- While a text is typed each edited range waits for it where it was, or reads it behind the selections to come. -/
structure Retyping (t : Tabstop) (text : String) (c : List Char) (f : TrackedRange → Range)
    (sels : List (Nat × Selection)) : Prop where
  apart : text ≠ "" → sels.Pairwise fun x y => y.2.toRange.stop < x.2.toRange.start
  distinct : text ≠ "" → ∀ q ∈ t.edited, ∀ r ∈ t.edited, q.range = r.range → q.key = r.key
  ranges : ∀ r ∈ t.edited, (f r = r.range ∧ ∃ e ∈ sels, e.2.toRange = r.range) ∨
    (f r).Reads c text.toList ∧ (text ≠ "" → ∀ e ∈ sels, e.2.toRange.stop < (f r).start)

section
variable {f' : TrackedRange → Range} {e : Nat × Selection} {m n : Nat} {r : TrackedRange}

theorem Retyping.before (h : Retyping t text c f (e :: sels)) (he : e.2.toRange = ⟨place c m, place c n⟩)
    (hne : text ≠ "") : ∀ x ∈ sels, x.2.toRange.stop < place c m := by
  intro x hx
  have hlt := (List.pairwise_cons.mp (h.apart hne)).1 x hx
  rwa [he] at hlt

/-- A range that waits for a later selection stays where it is. -/
theorem Retyping.stays (h : Retyping t text c f (e :: sels)) (he : e.2.toRange = ⟨place c m, place c n⟩)
    (ht : TypedOver t c text.toList m n f f') (hle : ∀ x ∈ sels, x.2.toRange.stop ≤ place c m)
    (hon : (f r).On c) (hstay : f r = r.range) (hwaits : ∃ x ∈ sels, x.2.toRange = r.range) : f' r = r.range := by
  obtain ⟨x, hx, hxr⟩ := hwaits
  rw [← hstay]
  refine ht.before hon ?_
  rw [hstay, ← hxr]
  by_cases hne : text = ""
  · exact .inr ⟨by rw [hne]; rfl, hle x hx⟩
  · exact .inl (h.before he hne x hx)

/-- The range that waits for this selection takes the text: all others are before it or behind it. -/
theorem Retyping.taken (h : Retyping t text c f (e :: sels)) (he : e.2.toRange = ⟨place c m, place c n⟩)
    (ht : TypedOver t c text.toList m n f f') (hon : ∀ r ∈ t.ranges, (f r).On c) (hr : r ∈ t.edited)
    (hstay : f r = r.range) (her : e.2.toRange = r.range) :
    (f' r).Reads (c.take m ++ text.toList ++ c.drop n) text.toList ∧ place c m ≤ (f' r).start := by
  refine ht.alone r hr (by rw [hstay, ← her, he]) fun hne q hq hkey => ?_
  have hne : text ≠ "" := by simpa using hne
  refine ⟨hon q (Tabstop.mem_edited.mp hq).1, ?_⟩
  rcases h.ranges q hq with ⟨hqstay, y, hy, hyq⟩ | ⟨-, hqbehind⟩
  · left
    rcases List.mem_cons.mp hy with rfl | hy
    · exact absurd (h.distinct hne q hq r hr (hyq.symm.trans her)) hkey
    · rw [hqstay, ← hyq]
      exact h.before he hne y hy
  · have hlt := hqbehind hne e List.mem_cons_self
    rw [he] at hlt
    exact .inr hlt

theorem Retyping.step (he : e.2.toRange = ⟨place c m, place c n⟩) (ht : TypedOver t c text.toList m n f f')
    (hon : ∀ r ∈ t.ranges, (f r).On c) (hle : ∀ x ∈ sels, x.2.toRange.stop ≤ place c m)
    (h : Retyping t text c f (e :: sels)) :
    Retyping t text (c.take m ++ text.toList ++ c.drop n) f' sels := by
  refine ⟨fun hne => (List.pairwise_cons.mp (h.apart hne)).2, h.distinct, fun r hr => ?_⟩
  rcases h.ranges r hr with ⟨hstay, x, hx, hxr⟩ | ⟨hreads, hbehind⟩
  · by_cases hwaits : ∃ x ∈ sels, x.2.toRange = r.range
    · exact .inl ⟨h.stays he ht hle (hon r (Tabstop.mem_edited.mp hr).1) hstay hwaits, hwaits⟩
    · obtain rfl : x = e := (List.mem_cons.mp hx).resolve_right fun hx => hwaits ⟨x, hx, hxr⟩
      obtain ⟨hreads, hstart⟩ := h.taken he ht hon hr hstay hxr
      exact .inr ⟨hreads, fun hne y hy => Position.lt_of_lt_of_le (h.before he hne y hy) hstart⟩
  · by_cases hne : text = ""
    · subst hne
      exact .inr ⟨ht.nil rfl hreads, fun hne => absurd rfl hne⟩
    · have hlt := hbehind hne e List.mem_cons_self
      rw [he] at hlt
      obtain ⟨hreads', hstart⟩ := ht.behind hreads hlt
      exact .inr ⟨hreads', fun hne y hy => Position.lt_of_lt_of_le (h.before he hne y hy) (Position.le_of_lt hstart)⟩

end

/-! ## Ranges that touch -/

/-- While a text is typed the range `r`, which begins where `a` ends, waits for it or is empty behind the selections to
come. -/
structure Passing (t : Tabstop) (a r : TrackedRange) (c : List Char) (f : TrackedRange → Range)
    (sels : List (Nat × Selection)) : Prop where
  beside : ∀ e ∈ sels, e.2.toRange = r.range ∨ r.range.stop < e.2.toRange.start ∨
    e.2.toRange.start < r.range.start
  ranges : (f a = a.range ∧ f r = r.range ∧ ∃ e ∈ sels, e.2.toRange = r.range) ∨
    (f r).Reads c [] ∧ ∀ e ∈ sels, e.2.toRange.stop < (f r).start

section
variable {f' : TrackedRange → Range} {e : Nat × Selection} {m n : Nat} {a r : TrackedRange}

/-- As long as the range waits for a later selection, what is typed is behind it. -/
theorem Passing.before (h : Passing t a r c f (e :: sels)) (he : e.2.toRange = ⟨place c m, place c n⟩)
    (hle : ∀ x ∈ sels, x.2.toRange.stop ≤ place c m) (hself : e.2.toRange ≠ r.range)
    (hwaits : ∃ x ∈ sels, x.2.toRange = r.range) : r.range.stop < place c m := by
  obtain ⟨x, hx, hxr⟩ := hwaits
  have hstart : r.range.start ≤ e.2.toRange.start := by
    rw [he, ← hxr]
    exact Position.le_trans (Buffer.start_le_stop_between x.2.anchor x.2.lead) (hle x hx)
  have hlt := ((h.beside e List.mem_cons_self).resolve_left hself).resolve_right (Position.not_lt.mpr hstart)
  rwa [he] at hlt

theorem Passing.step {front back : List TrackedRange} (hranges : t.ranges = front ++ r :: back)
    (ha : a ∈ front) (hl : a.linked = false) (hkeys : ∀ q ∈ front, q.key ≠ r.key) (hmeet : a.range.stop = r.range.start)
    (hne : text ≠ "") (he : e.2.toRange = ⟨place c m, place c n⟩) (ht : TypedOver t c text.toList m n f f')
    (hon : ∀ r ∈ t.ranges, (f r).On c) (hle : ∀ x ∈ sels, x.2.toRange.stop ≤ place c m)
    (h : Passing t a r c f (e :: sels)) :
    Passing t a r (c.take m ++ text.toList ++ c.drop n) f' sels := by
  have hnew : text.toList ≠ [] := by simpa using hne
  have hona := hon a (hranges ▸ List.mem_append_left _ ha)
  have honr := hon r (hranges ▸ List.mem_append_right _ List.mem_cons_self)
  refine ⟨fun x hx => h.beside x (List.mem_cons_of_mem _ hx), ?_⟩
  rcases h.ranges with ⟨hstaya, hstay, x, hx, hxr⟩ | ⟨hreads, hbehind⟩
  · by_cases hself : e.2.toRange = r.range
    · -- The other range takes what is typed.
      have hstop : (f a).stop = place c m := by rw [hstaya, hmeet, ← hself, he]
      obtain ⟨hreads, hstart⟩ := ht.passed hranges ha hl List.mem_cons_self hkeys hona hstop
        (by rw [hstay, ← hself, he]) hnew
      exact .inr ⟨hreads, fun x hx => Position.lt_of_le_of_lt (hle x hx) hstart⟩
    · have hwaits : ∃ x ∈ sels, x.2.toRange = r.range :=
        ⟨x, (List.mem_cons.mp hx).resolve_left fun hxe => hself (hxe ▸ hxr), hxr⟩
      have hlt := h.before he hle hself hwaits
      rw [← hstay] at hlt
      have hlta : (f a).stop < place c m := by
        rw [hstaya, hmeet, ← hstay]
        exact Position.lt_of_le_of_lt honr.start_le_stop hlt
      exact .inl ⟨(ht.before hona (.inl hlta)).trans hstaya, (ht.before honr (.inl hlt)).trans hstay, hwaits⟩
  · have hlt := hbehind e List.mem_cons_self
    rw [he] at hlt
    obtain ⟨hreads', hstart⟩ := ht.behind hreads hlt
    exact .inr ⟨hreads', fun x hx => Position.lt_of_le_of_lt (hle x hx) hstart⟩

end

/-! ## At all edited ranges -/

/-- The edited ranges of a tabstop are selected. They stand in order and read the same. -/
structure Together (t : Tabstop) (b : Buffer) (piece : List Char) : Prop where
  on : ∀ r ∈ t.ranges, r.range.On b.chars
  nodup : (t.ranges.map (·.key)).Nodup
  ordered : t.edited.Pairwise fun x y => x.range.stop ≤ y.range.start
  reads : ∀ r ∈ t.edited, r.range.Reads b.chars piece
  selected : b.selections.map Selection.toRange = t.edited.map (·.range)

/-- The last range that begins where another one ends. -/
theorem exists_last_meeting : ∀ {rs : List TrackedRange}, rs.Pairwise (fun x y => x.range.stop ≤ y.range.start) →
    ¬ rs.Pairwise (fun x y => x.range.stop ≠ y.range.start) →
    ∃ front r back, rs = front ++ r :: back ∧ (∃ a ∈ front, a.range.stop = r.range.start) ∧
      ∀ q ∈ back, r.range.stop < q.range.start
  | [], _, hmeet => absurd .nil hmeet
  | x :: rs, hordered, hmeet => by
    obtain ⟨hx, hordered⟩ := List.pairwise_cons.mp hordered
    by_cases hrest : rs.Pairwise fun x y => x.range.stop ≠ y.range.start
    · have hnot : ¬ ∀ y ∈ rs, x.range.stop ≠ y.range.start := fun hall => hmeet (List.pairwise_cons.mpr ⟨hall, hrest⟩)
      push Not at hnot
      obtain ⟨r, hr, hxr⟩ := hnot
      obtain ⟨front, back, rfl⟩ := List.append_of_mem hr
      refine ⟨x :: front, r, back, rfl, ⟨x, List.mem_cons_self, hxr⟩, fun q hq => ?_⟩
      have hle := (List.pairwise_cons.mp (List.pairwise_append.mp hordered).2.1).1 q hq
      have hne := (List.pairwise_cons.mp (List.pairwise_append.mp hrest).2.1).1 q hq
      by_contra hlt
      exact hne (Position.le_antisymm hle (Position.not_lt.mp hlt))
    · obtain ⟨front, r, back, rfl, ⟨a, ha, har⟩, hback⟩ := exists_last_meeting hordered hrest
      exact ⟨x :: front, r, back, rfl, ⟨a, List.mem_cons_of_mem _ ha, har⟩, hback⟩

namespace Together

variable {b : Buffer} {piece : List Char}

theorem exists_edited (h : Together t b piece) {e : Nat × Selection} (he : e ∈ Buffer.typingOrder b.selections) :
    ∃ r ∈ t.edited, r.range = e.2.toRange := by
  have hmem := List.fst_mem_of_mem_zipIdx (Buffer.mem_typingOrder.mp he)
  have hmem' : e.2.toRange ∈ t.edited.map (·.range) := h.selected ▸ List.mem_map_of_mem hmem
  exact List.mem_map.mp hmem'

theorem exists_selection (h : Together t b piece) {r : TrackedRange} (hr : r ∈ t.edited) :
    ∃ e ∈ Buffer.typingOrder b.selections, e.2.toRange = r.range := by
  have hmem : r.range ∈ b.selections.map Selection.toRange := h.selected ▸ List.mem_map_of_mem hr
  obtain ⟨s, hs, hsr⟩ := List.mem_map.mp hmem
  obtain ⟨i, hi, rfl⟩ := List.getElem_of_mem hs
  refine ⟨(i, b.selections[i]), Buffer.mem_typingOrder.mpr ?_, hsr⟩
  exact List.mk_mem_zipIdx_iff_getElem?.mpr (List.getElem?_eq_getElem hi)

theorem eq_of_start (h : Together t b piece) {q r : TrackedRange} (hq : q ∈ t.edited) (hr : r ∈ t.edited)
    (hstart : q.range.start = r.range.start) : q.range = r.range :=
  (h.reads q hq).eq_of_start (h.reads r hr) hstart

/-- No selection reaches into one at which is typed before. -/
theorem sorted (h : Together t b piece) (hb : b.Sound) :
    (Buffer.typingOrder b.selections).Pairwise fun x y => y.2.toRange.stop ≤ x.2.toRange.start := by
  have hapart : (b.selections.map Selection.toRange).Pairwise Range.Apart := by
    rw [h.selected, List.pairwise_map]
    exact h.ordered.imp .inl
  refine ((Buffer.queued_typingOrder hb).sorted.and (Buffer.pairwise_typingOrder Range.Apart.symm hapart)).imp_of_mem ?_
  rintro x y hx hy ⟨hstart, hxy | hyx⟩
  · -- Both are the same cursor.
    obtain ⟨q, hq, hqx⟩ := h.exists_edited hx
    obtain ⟨r, hr, hry⟩ := h.exists_edited hy
    have hlex := Buffer.start_le_stop_between x.2.anchor x.2.lead
    have hat : x.2.toRange.start = y.2.toRange.start :=
      Position.le_antisymm (Position.le_trans hlex hxy) hstart
    have hsame : x.2.toRange = y.2.toRange := by
      rw [← hqx, ← hry] at hat ⊢
      exact h.eq_of_start hq hr hat
    rw [← hsame] at hxy ⊢
    exact hxy
  · exact hyx

/-- If no range begins where another one ends there is something between any two of them. -/
theorem apart (h : Together t b piece) (hmeet : t.edited.Pairwise fun x y => x.range.stop ≠ y.range.start) :
    t.edited.Pairwise fun x y => x.range.stop < y.range.start ∨ y.range.stop < x.range.start := by
  refine (h.ordered.and hmeet).imp fun ⟨hle, hne⟩ => .inl ?_
  by_contra hlt
  exact hne (Position.le_antisymm hle (Position.not_lt.mp hlt))

theorem sorted_of_apart (h : Together t b piece) (hb : b.Sound)
    (hmeet : t.edited.Pairwise fun x y => x.range.stop ≠ y.range.start) :
    (Buffer.typingOrder b.selections).Pairwise fun x y => y.2.toRange.stop < x.2.toRange.start := by
  have hstrict : (b.selections.map Selection.toRange).Pairwise fun x y => x.stop < y.start ∨ y.stop < x.start := by
    rw [h.selected, List.pairwise_map]
    exact h.apart hmeet
  refine ((h.sorted hb).and (Buffer.pairwise_typingOrder Or.symm hstrict)).imp ?_
  rintro x y ⟨hle, hxy | hyx⟩
  · have hlex := Buffer.start_le_stop_between x.2.anchor x.2.lead
    have hley := Buffer.start_le_stop_between y.2.anchor y.2.lead
    exact absurd (Position.lt_of_le_of_lt (Position.le_trans hley (Position.le_trans hle hlex)) hxy)
      (Position.lt_irrefl _)
  · exact hyx

theorem preserves (h : Together t b piece) (hb : b.Sound)
    {P : List Char → (TrackedRange → Range) → List (Nat × Selection) → Prop}
    (hstep : ∀ {c : List Char} {f f' : TrackedRange → Range} {e : Nat × Selection} {sels : List (Nat × Selection)}
      {m n : Nat}, e.2.toRange = ⟨place c m, place c n⟩ → TypedOver t c text.toList m n f f' →
      (∀ r ∈ t.ranges, (f r).On c) → (∀ x ∈ sels, x.2.toRange.stop ≤ place c m) → P c f (e :: sels) →
      P (c.take m ++ text.toList ++ c.drop n) f' sels)
    (hp : P b.chars (·.range) (Buffer.typingOrder b.selections)) :
    P (b.typeText text).1.chars ((b.typeText text).2.foldl t.shifted (·.range)) [] := by
  have hsels : ∀ e ∈ Buffer.typingOrder b.selections, e.2.toRange.On b.chars := fun e he => by
    obtain ⟨r, hr, hre⟩ := h.exists_edited he
    exact hre ▸ h.on r (Tabstop.mem_edited.mp hr).1
  exact typeAt_preserves hstep _ [] hb.wellFormed h.on hsels (h.sorted hb) hp

/-- Ranges that do not touch take the text, each its own. -/
theorem reads_of_apart (h : Together t b piece) (hb : b.Sound)
    (hmeet : text ≠ "" → t.edited.Pairwise fun x y => x.range.stop ≠ y.range.start) {r : TrackedRange}
    (hr : r ∈ t.edited) :
    ((b.typeText text).2.foldl t.shifted (·.range) r).Reads (b.typeText text).1.chars text.toList := by
  have hbegin : Retyping t text b.chars (·.range) (Buffer.typingOrder b.selections) := by
    refine ⟨fun hne => h.sorted_of_apart hb (hmeet hne), fun hne q hq r hr hsame => ?_,
      fun r hr => .inl ⟨rfl, h.exists_selection hr⟩⟩
    by_contra hkey
    have hle := (h.reads r hr).on.start_le_stop
    have hsymm : Std.Symm fun x y : TrackedRange => x.range.stop < y.range.start ∨ y.range.stop < x.range.start :=
      ⟨fun _ _ => Or.symm⟩
    have hlt := (h.apart (hmeet hne)).forall hq hr fun he => hkey (he ▸ rfl)
    rw [hsame, or_self] at hlt
    exact Position.not_lt.mpr hle hlt
  have hend := h.preserves hb Retyping.step hbegin
  rcases hend.ranges r hr with ⟨-, e, he, -⟩ | ⟨hreads, -⟩
  · cases he
  · exact hreads

theorem exists_ranges (h : Together t b piece) {front back : List TrackedRange} {r : TrackedRange}
    (hedited : t.edited = front ++ r :: back) : ∃ front' back', t.ranges = front' ++ r :: back' ∧
      (∀ a ∈ front, a ∈ front' ∧ a.linked = false) ∧ ∀ q ∈ front', q.key ≠ r.key := by
  obtain ⟨before, behind, hranges, hfront, hbehind⟩ := List.filter_eq_append_iff.mp hedited
  obtain ⟨between, back', rfl, -, -, -⟩ := List.filter_eq_cons_iff.mp hbehind
  have hranges' : t.ranges = (before ++ between) ++ r :: back' := by rw [hranges, List.append_assoc]
  refine ⟨before ++ between, back', hranges', fun a ha => ?_, fun q hq hk => ?_⟩
  · rw [← hfront] at ha
    obtain ⟨ha, hl⟩ := List.mem_filter.mp ha
    exact ⟨List.mem_append_left _ ha, by simpa using hl⟩
  · have hnodup := h.nodup
    rw [hranges', List.map_append, List.map_cons] at hnodup
    exact List.disjoint_of_nodup_append hnodup (List.mem_map_of_mem hq) (hk ▸ List.mem_cons_self)

/-- All other selections are before a range or behind it, if none begins where it ends. -/
theorem beside (h : Together t b piece) {front back : List TrackedRange} {r : TrackedRange}
    (hedited : t.edited = front ++ r :: back) (hback : ∀ q ∈ back, r.range.stop < q.range.start)
    {e : Nat × Selection} (he : e ∈ Buffer.typingOrder b.selections) :
    e.2.toRange = r.range ∨ r.range.stop < e.2.toRange.start ∨ e.2.toRange.start < r.range.start := by
  obtain ⟨q, hq, hqe⟩ := h.exists_edited he
  have hr : r ∈ t.edited := hedited ▸ List.mem_append_right _ List.mem_cons_self
  have hordered := h.ordered
  have hmem := hq
  rw [hedited] at hmem hordered
  rw [← hqe]
  rcases List.mem_append.mp hmem with hmem | hmem
  · have hle := (List.pairwise_append.mp hordered).2.2 q hmem r List.mem_cons_self
    by_cases hat : q.range.start = r.range.start
    · exact .inl (h.eq_of_start hq hr hat)
    · refine .inr (.inr ?_)
      by_contra hlt
      exact hat (Position.le_antisymm (Position.le_trans (h.reads q hq).on.start_le_stop hle) (Position.not_lt.mp hlt))
  · rcases List.mem_cons.mp hmem with rfl | hmem
    · exact .inl rfl
    · exact .inr (.inl (hback q hmem))

/-- Of ranges that touch the last one that begins where another one ends is left empty. -/
theorem exists_empty (h : Together t b piece) (hb : b.Sound) (hne : text ≠ "")
    (hmeet : ¬ t.edited.Pairwise fun x y => x.range.stop ≠ y.range.start) :
    ∃ r ∈ t.edited, ((b.typeText text).2.foldl t.shifted (·.range) r).Reads (b.typeText text).1.chars [] := by
  obtain ⟨front, r, back, hedited, ⟨a, ha, har⟩, hback⟩ := exists_last_meeting h.ordered hmeet
  obtain ⟨front', back', hranges, hfront, hkeys⟩ := h.exists_ranges hedited
  obtain ⟨ha, hl⟩ := hfront a ha
  have hr : r ∈ t.edited := hedited ▸ List.mem_append_right _ List.mem_cons_self
  have hbegin : Passing t a r b.chars (·.range) (Buffer.typingOrder b.selections) :=
    ⟨fun e he => h.beside hedited hback he, .inl ⟨rfl, rfl, h.exists_selection hr⟩⟩
  have hend := h.preserves hb (Passing.step hranges ha hl hkeys har hne) hbegin
  refine ⟨r, hr, ?_⟩
  rcases hend.ranges with ⟨-, -, e, he, -⟩ | ⟨hreads, -⟩
  · cases he
  · exact hreads

theorem reads_iff (h : Together t b piece) (hb : b.Sound) (text : String) :
    (∀ r ∈ t.edited, ((b.typeText text).2.foldl t.shifted (·.range) r).Reads (b.typeText text).1.chars text.toList) ↔
      text = "" ∨ t.edited.Pairwise fun x y => x.range.stop ≠ y.range.start := by
  constructor
  · intro hreads
    by_contra hnot
    rw [not_or] at hnot
    obtain ⟨r, hr, hempty⟩ := h.exists_empty hb hnot.1 hnot.2
    have hnil := (hreads r hr).unique hempty
    exact hnot.1 (String.toList_eq_nil_iff.mp hnil)
  · rintro hor r hr
    exact h.reads_of_apart hb (fun hne => hor.resolve_left hne) hr

end Together

end Session

end Scribe
