import Scribe.Proofs.Buffer.Followed

/-!
# Typing at several selections

Typing replaces each selection and leaves a cursor behind the new text, if no selection reaches into another one. The
selections are typed at from the last one to the first, in the order in which they begin. That order is the right one
but for a cursor and a selection that begins at it: the cursor may be listed before that selection only if nothing is typed.
-/

namespace Scribe

open Position (after)

/-! ## Lists -/

theorem lookup_of_mem {α : Type} {l : List (Nat × α)} (hnodup : (l.map (·.1)).Nodup) {i : Nat} {x : α}
    (h : (i, x) ∈ l) : l.lookup i = some x := by
  obtain ⟨front, back, rfl⟩ := List.append_of_mem h
  refine List.lookup_eq_some_iff.mpr ⟨front, back, rfl, fun y hy => bne_iff_ne.mpr fun he => ?_⟩
  rw [List.map_append, List.nodup_append] at hnodup
  exact hnodup.2.2 y.1 (List.mem_map_of_mem hy) i (List.mem_map_of_mem List.mem_cons_self) he.symm

theorem pair_sublist_map {α β : Type} {f : α → β} {l : List α} {x y : β} (h : [x, y].Sublist (l.map f)) :
    ∃ a a', [a, a'].Sublist l ∧ f a = x ∧ f a' = y := by
  obtain ⟨l', hl', he⟩ := List.sublist_map_iff.mp h
  obtain ⟨a, l₁, rfl, hx, h₁⟩ := List.map_eq_cons_iff.mp he.symm
  obtain ⟨a', l₂, rfl, hy, h₂⟩ := List.map_eq_cons_iff.mp h₁
  obtain rfl := List.map_eq_nil_iff.mp h₂
  exact ⟨a, a', hl', hx, hy⟩

/-! ## What typing is to do -/

/-- A selection, told by its place in the list and its range, and the cursor that it becomes. -/
structure Landing where
  index : Nat
  range : Range
  cursor : Position

/-- A text up to the end of its last selection, and what it becomes when every selection gives way to `new` and becomes
a cursor behind it. The selections stand one behind the other, and the last one is the first in the list. -/
inductive Retyped (new : List Char) : List Landing → List Char → List Char → Prop
  | nil : Retyped new [] [] []
  | cons {landings : List Landing} {old text : List Char} (index : Nat) (gap selected : List Char) :
    Retyped new landings old text →
    Retyped new
      (⟨index, ⟨after (old ++ gap), after (old ++ gap ++ selected)⟩, after (text ++ gap ++ new)⟩ :: landings)
      (old ++ gap ++ selected) (text ++ gap ++ new)

/-- The text has given way to `text` at every selection and is kept elsewhere, and every selection has become the
cursor behind its own text. -/
def Buffer.TypedAtEach (b : Buffer) (text : String) (b' : Buffer) : Prop :=
  ∃ landings old new rest, Retyped text.toList landings old new ∧ b.chars = old ++ rest ∧ b'.chars = new ++ rest ∧
    (landings.map fun l => (l.index, l.range)).Perm (b.selections.zipIdx.map fun s => (s.2, s.1.toRange)) ∧
    b'.selections.length = b.selections.length ∧
    ∀ l ∈ landings, b'.selections[l.index]? = some (.cursor l.cursor)

/-- Of a cursor and a selection that begins at it, the cursor is listed last. -/
def CursorsLast (selections : List Selection) : Prop :=
  selections.Pairwise fun s s' => s.isEmpty = true → s.toRange.start = s'.toRange.start → s'.isEmpty = true

theorem Selection.isEmpty_iff (s : Selection) : s.isEmpty = true ↔ s.toRange.start = s.toRange.stop := by
  obtain ⟨anchor, lead⟩ := s
  unfold isEmpty toRange Range.between
  rw [beq_iff_eq]
  split
  · exact eq_comm
  · rfl

section
variable {new old text : List Char} {landings : List Landing}

theorem Retyped.range_stop_le (h : Retyped new landings old text) : ∀ l ∈ landings, l.range.stop ≤ after old := by
  induction h with
  | nil => exact nofun
  | @cons _ old _ _ gap selected _ ih =>
    refine List.forall_mem_cons.mpr ⟨Position.le_refl _, fun l hl => Position.le_trans (ih l hl) ?_⟩
    rw [List.append_assoc]
    exact Position.after_le_append _ _

theorem Retyped.cursor_le (h : Retyped new landings old text) : ∀ l ∈ landings, l.cursor ≤ after text := by
  induction h with
  | nil => exact nofun
  | @cons _ _ text _ gap _ _ ih =>
    refine List.forall_mem_cons.mpr ⟨Position.le_refl _, fun l hl => Position.le_trans (ih l hl) ?_⟩
    rw [List.append_assoc]
    exact Position.after_le_append _ _

/-- Of two selections the one that ends first leaves the first cursor. -/
theorem Retyped.cursor_lt (h : Retyped new landings old text) (hnew : new ≠ []) : ∀ x ∈ landings, ∀ y ∈ landings,
    x.range.stop < y.range.stop → x.cursor < y.cursor := by
  induction h with
  | nil => exact nofun
  | @cons landings old text index gap selected h ih =>
    intro x hx y hy hlt
    rcases List.mem_cons.mp hy with rfl | hy
    · rcases List.mem_cons.mp hx with rfl | hx
      · exact absurd hlt (Position.lt_irrefl _)
      · have hle := h.cursor_le x hx
        show x.cursor < after (text ++ gap ++ new)
        rw [List.append_assoc, Position.after_append]
        exact Position.lt_of_le_of_lt hle (Position.lt_advance _ (by simp [hnew]))
    · rcases List.mem_cons.mp hx with rfl | hx
      · have hle := h.range_stop_le y hy
        have hstop : after old ≤ after (old ++ gap ++ selected) := by
          rw [List.append_assoc]
          exact Position.after_le_append _ _
        exact absurd hlt (Position.not_lt.mpr (Position.le_trans hle hstop))
      · exact ih x hx y hy hlt

end

/-! ## Selections one after the other -/

theorem Delta.Chain.shiftAll_le {text text' : List Char} {ds : List Delta} (h : Chain text ds text') :
    ∀ {p q : Position}, p ≤ q → shiftAll ds p ≤ shiftAll ds q := by
  induction h with
  | nil => exact fun h => h
  | cons happ _ ih => exact fun h => ih (shift_le_shift happ.start_le_stop h false)

namespace Buffer

open Delta (shiftAll)

/-- The cursors left so far do not matter for what is typed next, and move with it. -/
theorem typeAt_eq_append (text : String) : ∀ (sels : List (Nat × Selection)) (done : List (Nat × Position)) (b : Buffer),
    typeAt text b done sels =
      let typed := typeAt text b [] sels
      (typed.1, typed.2.1 ++ done.map (fun c => (c.1, shiftAll typed.2.2 c.2)), typed.2.2)
  | [], done, b => by simp [typeAt, shiftAll]
  | e :: sels, done, b => by
    rw [typeAt_cons text b [], typeAt_cons text b done]
    dsimp only
    rw [typeAt_eq_append text sels (_ :: done.map _), typeAt_eq_append text sels (_ :: [].map _)]
    simp [Delta.shiftAll_append, Function.comp_def]

section
variable {b b' : Buffer} {text : String} {e : Nat × Selection} {sels : List (Nat × Selection)}
  {front selected back : List Char} {ds : List Delta}

theorem Queued.typeAt_cons (hsels : b.Queued (e :: sels)) (hb : b.WellFormed)
    (h : b.Typed text e.2.toRange front selected back b' ds) : typeAt text b [] (e :: sels) =
      ((typeAt text b' [] sels).1, (typeAt text b' [] sels).2.1 ++
        [(e.1, shiftAll (typeAt text b' [] sels).2.2 (after (front ++ text.toList)))],
        ds ++ (typeAt text b' [] sels).2.2) := by
  rw [Buffer.typeAt_cons, h.splice]
  dsimp only
  rw [h.cursor hb (hsels.has e List.mem_cons_self), typeAt_eq_append]
  rfl

theorem Queued.start_le (hsels : b.Queued (e :: sels)) (h : b.Typed text e.2.toRange front selected back b' ds) :
    ∀ x ∈ sels, x.2.toRange.start ≤ after (front ++ text.toList) := fun x hx => by
  have hstart := (List.pairwise_cons.mp hsels.sorted).1 x hx
  rw [h.start] at hstart
  exact Position.le_trans hstart (Position.after_le_append _ _)

theorem Queued.chain (h : b.Queued sels) (hb : b.WellFormed) (text : String) :
    Delta.Chain b.chars (typeAt text b [] sels).2.2 (typeAt text b [] sels).1.chars := by
  obtain ⟨lines, he, -, hchain, -⟩ := typeAt_chain text sels [] hb h nofun
  rw [he]
  exact hchain

/-- No cursor is left behind where a position gets to that no selection begins behind. -/
theorem cursor_le_shiftAll (text : String) : ∀ {sels : List (Nat × Selection)} {b : Buffer}, b.WellFormed →
    b.Queued sels → ∀ {p : Position}, (∀ e ∈ sels, e.2.toRange.start ≤ p) →
    ∀ c ∈ (typeAt text b [] sels).2.1, c.2 ≤ shiftAll (typeAt text b [] sels).2.2 p
  | [], _, _, _, _, _ => nofun
  | e :: sels, b, hb, hsels, p, hp => by
    obtain ⟨front, selected, back, b', ds, ht, hsels'⟩ := hsels.exists_typed hb text
    -- The position is pushed behind the cursor by the first selection, and the others keep the two in order.
    have hcursor : after (front ++ text.toList) ≤ shiftAll ds p := by
      rw [← ht.atStart, ← ht.start]
      exact ht.chain.shiftAll_le (hp e List.mem_cons_self)
    have hrest : ∀ x ∈ sels, x.2.toRange.start ≤ shiftAll ds p := fun x hx =>
      Position.le_trans (hsels.start_le ht x hx) hcursor
    rw [hsels.typeAt_cons hb ht, Delta.shiftAll_append]
    intro c hc
    rcases List.mem_append.mp hc with hc | hc
    · exact cursor_le_shiftAll text ht.wellFormed hsels' hrest c hc
    · rw [List.mem_singleton.mp hc]
      exact (hsels'.chain ht.wellFormed text).shiftAll_le hcursor

/-- The cursors stand in the order in which the selections began. -/
theorem pairwise_cursors (text : String) : ∀ {sels : List (Nat × Selection)} {b : Buffer}, b.WellFormed →
    b.Queued sels → (typeAt text b [] sels).2.1.Pairwise fun c c' => c.2 ≤ c'.2
  | [], _, _, _ => .nil
  | e :: sels, b, hb, hsels => by
    obtain ⟨front, selected, back, b', ds, ht, hsels'⟩ := hsels.exists_typed hb text
    rw [hsels.typeAt_cons hb ht]
    refine List.pairwise_append.mpr ⟨pairwise_cursors text ht.wellFormed hsels', List.pairwise_singleton _ _, ?_⟩
    intro c hc c' hc'
    rw [List.mem_singleton.mp hc']
    exact cursor_le_shiftAll text ht.wellFormed hsels' (hsels.start_le ht) c hc

theorem map_fst_typeAt (text : String) : ∀ {sels : List (Nat × Selection)} {b : Buffer}, b.WellFormed →
    b.Queued sels → (typeAt text b [] sels).2.1.map (·.1) = (sels.map (·.1)).reverse
  | [], _, _, _ => rfl
  | e :: sels, b, hb, hsels => by
    obtain ⟨front, selected, back, b', ds, ht, hsels'⟩ := hsels.exists_typed hb text
    rw [hsels.typeAt_cons hb ht, List.map_append, map_fst_typeAt text ht.wellFormed hsels']
    simp

end

/-! ## Selections that do not reach into each other -/

/-- Typing at the selections does what it is to do: the text up to the last one has given way, and places behind it have
moved with the text. -/
structure Arrives (text : String) (b : Buffer) (sels : List (Nat × Selection)) (landings : List Landing)
    (old new rest : List Char) : Prop where
  retyped : Retyped text.toList landings old new
  chars : b.chars = old ++ rest
  typed : (typeAt text b [] sels).1.chars = new ++ rest
  ranges : (landings.map fun l => (l.index, l.range)).Perm (sels.map fun e => (e.1, e.2.toRange))
  cursors : (landings.map fun l => (l.index, l.cursor)).Perm (typeAt text b [] sels).2.1
  behind : ∀ between back, rest = between ++ back →
    shiftAll (typeAt text b [] sels).2.2 (after (old ++ between)) = after (new ++ between)

/-- The selection `y`, at which is typed later than at `x`, ends before `x`. If nothing is typed, `x` may also be a cursor
at which `y` begins. -/
def Clears (text : String) (x y : Nat × Selection) : Prop :=
  y.2.toRange.stop ≤ x.2.toRange.start ∨
    text = "" ∧ x.2.toRange.start = x.2.toRange.stop ∧ y.2.toRange.start = x.2.toRange.start

section
variable {b b' : Buffer} {text : String} {e : Nat × Selection} {sels : List (Nat × Selection)}
  {front selected back old new rest : List Char} {landings : List Landing} {ds : List Delta}

theorem Arrives.cons_behind (h : Arrives text b' sels landings old new rest)
    (ht : b.Typed text e.2.toRange front selected back b' ds) (hb : b.WellFormed) (hsels : b.Queued (e :: sels))
    (hstop : b.Has e.2.toRange.stop) (hle : old.length ≤ front.length) :
    ∃ landings old new rest, Arrives text b (e :: sels) landings old new rest := by
  have hchars : old ++ rest = front ++ text.toList ++ back := h.chars.symm.trans ht.new
  -- What stands between the other selections and this one.
  obtain ⟨gap, rfl⟩ : old <+: front := by
    refine List.prefix_of_prefix_length_le (List.prefix_append old rest) ?_ hle
    rw [hchars, List.append_assoc]
    exact List.prefix_append _ _
  have hrest : rest = gap ++ text.toList ++ back := by
    simpa only [List.append_assoc, List.append_cancel_left_eq] using hchars
  have hcursor : shiftAll (typeAt text b' [] sels).2.2 (after (old ++ gap ++ text.toList)) =
      after (new ++ gap ++ text.toList) := by
    rw [List.append_assoc, h.behind (gap ++ text.toList) back hrest, List.append_assoc]
  have hrange : e.2.toRange = ⟨after (old ++ gap), after (old ++ gap ++ selected)⟩ := by
    rw [← ht.start, ← ht.stop, clamp_of_has hstop]
  refine ⟨⟨e.1, ⟨after (old ++ gap), after (old ++ gap ++ selected)⟩, after (new ++ gap ++ text.toList)⟩ :: landings,
    old ++ gap ++ selected, new ++ gap ++ text.toList, back, ⟨.cons e.1 gap selected h.retyped, ht.old, ?_, ?_, ?_, ?_⟩⟩
  · rw [hsels.typeAt_cons hb ht]
    refine h.typed.trans ?_
    rw [hrest, ← List.append_assoc, ← List.append_assoc]
  · rw [List.map_cons, List.map_cons, hrange]
    exact h.ranges.cons _
  · rw [hsels.typeAt_cons hb ht, hcursor]
    exact (h.cursors.cons _).trans (List.perm_append_singleton _ _).symm
  · intro between back' hback
    rw [hsels.typeAt_cons hb ht, Delta.shiftAll_append, ht.behind between back' hback]
    have hbetween : rest = gap ++ text.toList ++ between ++ back' := by rw [hrest, hback, ← List.append_assoc]
    have hbehind := h.behind _ back' hbetween
    simp only [← List.append_assoc] at hbehind
    exact hbehind

/-- A cursor at which nothing is typed stays where the last one of the other selections begins. -/
theorem Arrives.cons_inside {index : Nat} {gap piece : List Char}
    (h : Arrives "" b' sels
      (⟨index, ⟨after (old ++ gap), after (old ++ gap ++ piece)⟩, after (new ++ gap ++ [])⟩ :: landings)
      (old ++ gap ++ piece) (new ++ gap ++ []) rest)
    (hretyped : Retyped [] landings old new) (ht : b.Typed "" e.2.toRange (old ++ gap) [] back b' ds)
    (hb : b.WellFormed) (hsels : b.Queued (e :: sels)) (hsels' : b'.Queued sels) (hstop : b.Has e.2.toRange.stop) :
    ∃ landings old new rest, Arrives "" b (e :: sels) landings old new rest := by
  have hchars : b.chars = b'.chars := ht.old.trans ht.new.symm
  have hback : back = piece ++ rest := by
    have hold := ht.new.symm.trans h.chars
    simpa only [String.toList_empty, List.append_assoc, List.append_cancel_left_eq, List.nil_append] using hold
  have hcursor : shiftAll (typeAt "" b' [] sels).2.2 (after (old ++ gap)) = after (new ++ gap) := by
    refine Position.le_antisymm ?_ ?_
    · have hshift := h.behind [] rest rfl
      rw [List.append_nil, List.append_nil, List.append_nil] at hshift
      rw [← hshift]
      exact (hsels'.chain ht.wellFormed "").shiftAll_le (Position.after_le_append _ _)
    · have hmem := h.cursors.mem_iff.mp List.mem_cons_self
      have hle := cursor_le_shiftAll "" ht.wellFormed hsels' (List.pairwise_cons.mp hsels.sorted).1 _ hmem
      rw [List.append_nil, ht.start] at hle
      exact hle
  have hrange : e.2.toRange = ⟨after (old ++ gap), after (old ++ gap ++ [])⟩ := by
    rw [← ht.start, ← ht.stop, clamp_of_has hstop]
  have hcons : Retyped [] (⟨index, ⟨after (old ++ gap), after (old ++ gap ++ piece)⟩, after (new ++ gap)⟩ ::
      ⟨e.1, ⟨after (old ++ gap), after (old ++ gap ++ [])⟩, after (new ++ gap)⟩ :: landings)
      (old ++ gap ++ piece) (new ++ gap) := by
    have h := Retyped.cons index [] piece (Retyped.cons e.1 gap [] hretyped)
    simpa only [List.append_nil] using h
  refine ⟨_, _, _, rest, ⟨hcons, hchars.trans h.chars, ?_, ?_, ?_, ?_⟩⟩
  · rw [hsels.typeAt_cons hb ht, ← List.append_nil (new ++ gap)]
    exact h.typed
  · rw [List.map_cons, List.map_cons, List.map_cons, hrange]
    exact (List.Perm.swap _ _ _).trans (h.ranges.cons _)
  · rw [hsels.typeAt_cons hb ht, String.toList_empty, List.append_nil, hcursor, List.map_cons, List.map_cons]
    refine (List.Perm.swap _ _ _).trans (List.Perm.trans ?_ (List.perm_append_singleton _ _).symm)
    have hcursors := h.cursors
    rw [List.append_nil] at hcursors
    exact hcursors.cons _
  · intro between back' hrest
    have hpast := ht.behind (piece ++ between) back' (by rw [hback, hrest, List.append_assoc])
    have hbehind := h.behind between back' hrest
    simp only [String.toList_empty, List.append_nil, ← List.append_assoc] at hpast hbehind
    rw [hsels.typeAt_cons hb ht, Delta.shiftAll_append, hpast, hbehind]

theorem Typed.nil_of_cursor (h : b.Typed text e.2.toRange front selected back b' ds) (hstop : b.Has e.2.toRange.stop)
    (hcursor : e.2.toRange.start = e.2.toRange.stop) : selected = [] := by
  by_contra hne
  have hlt := Position.lt_advance (after front) hne
  rw [← Position.after_append, ← h.stop, clamp_of_has hstop, ← hcursor, h.start] at hlt
  exact Position.lt_irrefl _ hlt

theorem exists_arrives (text : String) : ∀ {sels : List (Nat × Selection)} {b : Buffer}, b.WellFormed → b.Queued sels →
    (∀ e ∈ sels, b.Has e.2.toRange.stop) → sels.Pairwise (Clears text) →
    ∃ landings old new rest, Arrives text b sels landings old new rest
  | [], b, _, _, _, _ => ⟨[], [], [], b.chars, .nil, rfl, rfl, .refl _, .refl _, fun _ _ _ => rfl⟩
  | e :: sels, b, hb, hsels, hstops, hclears => by
    obtain ⟨front, selected, back, b', ds, ht, hsels'⟩ := hsels.exists_typed hb text
    obtain ⟨hclear, hclears⟩ := List.pairwise_cons.mp hclears
    have hstop := hstops e List.mem_cons_self
    have hstops' : ∀ x ∈ sels, b'.Has x.2.toRange.stop := fun x hx => by
      have hhas := hstops x (List.mem_cons_of_mem _ hx)
      rcases hclear x hx with hle | ⟨rfl, hcursor, -⟩
      · exact ht.keeps hb hhas hle
      · obtain rfl := ht.nil_of_cursor hstop hcursor
        rw [has_iff ht.wellFormed, ht.new]
        rwa [has_iff hb, ht.old] at hhas
    obtain ⟨landings, old, new, rest, h⟩ := exists_arrives text ht.wellFormed hsels' hstops' hclears
    by_cases hle : old.length ≤ front.length
    · exact h.cons_behind ht hb hsels hstop hle
    · -- The last one of the others reaches behind the start of this one, which must be a cursor then.
      have hchars : old ++ rest = front ++ (text.toList ++ back) := by
        rw [← List.append_assoc]
        exact h.chars.symm.trans ht.new
      have hretyped := h.retyped
      cases hretyped with
      | nil => exact absurd (Nat.zero_le _) hle
      | @cons landings old _ index gap piece hretyped =>
        obtain ⟨y, hy, hyr⟩ := List.mem_map.mp (h.ranges.mem_iff.mp List.mem_cons_self)
        obtain ⟨-, hrange⟩ := Prod.mk.inj hyr
        rcases hclear y hy with hbefore | ⟨rfl, hcursor, hat⟩
        · rw [hrange, ht.start] at hbefore
          exact absurd ((Position.after_lt_iff hchars.symm).mpr (Nat.lt_of_not_le hle)) (Position.not_lt.mpr hbefore)
        · rw [hrange, ht.start] at hat
          rw [List.append_assoc] at hchars
          obtain rfl := Position.after_inj hchars hat
          obtain rfl := ht.nil_of_cursor hstop hcursor
          exact h.cons_inside hretyped ht hb hsels hsels' hstop

end

/-! ## The order in which is typed -/

section
variable {b : Buffer} {selections : List Selection}

theorem nodup_typingOrder (selections : List Selection) : ((typingOrder selections).map (·.1)).Nodup := by
  refine ((List.mergeSort_perm _ _).map _).nodup_iff.mpr ?_
  rw [List.map_map]
  show (selections.zipIdx.map Prod.snd).Nodup
  rw [List.zipIdx_map_snd]
  exact List.nodup_range'

/-- Of two selections that begin together the one listed first is typed at first. -/
theorem typingOrder_stable (selections : List Selection) : (typingOrder selections).Pairwise fun x y =>
    y.2.toRange.start = x.2.toRange.start → x.1 ≤ y.1 := by
  rw [typingOrder, ← List.mergeSort_zipIdx, List.pairwise_map]
  refine (List.pairwise_mergeSort (List.zipIdxLE_trans typesBefore_trans) (List.zipIdxLE_total typesBefore_total)
    _).imp_of_mem ?_
  -- An element of the list is listed where its number says.
  have hindex : ∀ x ∈ (List.map (fun s => (s.2, s.1)) selections.zipIdx).zipIdx, x.1.1 = x.2 := by
    rintro ⟨x, i⟩ hx
    obtain ⟨hi, he⟩ := List.mem_zipIdx' hx
    show x.1 = i
    rw [he]
    simp
  intro x y hx hy hle hat
  rw [List.mem_mergeSort] at hx hy
  rw [hindex x hx, hindex y hy]
  simpa [List.zipIdxLE, hat, Position.le_refl] using hle

theorem apart_of_mem_typingOrder (hapart : (selections.map Selection.toRange).Pairwise Range.Apart)
    {x y : Nat × Selection} (hx : x ∈ typingOrder selections) (hy : y ∈ typingOrder selections) (hne : x.1 ≠ y.1) :
    x.2.toRange.Apart y.2.toRange := by
  obtain ⟨hi, hxi⟩ := List.mem_zipIdx' (mem_typingOrder.mp hx)
  obtain ⟨hj, hyj⟩ := List.mem_zipIdx' (mem_typingOrder.mp hy)
  rw [List.pairwise_map, List.pairwise_iff_getElem] at hapart
  rw [hxi, hyj]
  rcases Nat.lt_or_gt_of_ne hne with hlt | hlt
  · exact hapart x.1 y.1 hi hj hlt
  · exact (hapart y.1 x.1 hj hi hlt).symm

theorem isEmpty_of_cursorsLast (h : CursorsLast selections) {x y : Nat × Selection} (hx : x ∈ typingOrder selections)
    (hy : y ∈ typingOrder selections) (hlt : x.1 < y.1) (hempty : x.2.isEmpty = true)
    (hat : x.2.toRange.start = y.2.toRange.start) : y.2.isEmpty = true := by
  obtain ⟨hi, hxi⟩ := List.mem_zipIdx' (mem_typingOrder.mp hx)
  obtain ⟨hj, hyj⟩ := List.mem_zipIdx' (mem_typingOrder.mp hy)
  rw [hxi] at hempty hat
  rw [hyj] at hat ⊢
  exact List.pairwise_iff_getElem.mp h x.1 y.1 hi hj hlt hempty hat

theorem clears_typingOrder (hb : b.Sound) (hapart : (b.selections.map Selection.toRange).Pairwise Range.Apart)
    {text : String} (h : text = "" ∨ CursorsLast b.selections) :
    (typingOrder b.selections).Pairwise (Clears text) := by
  have hnodup := List.pairwise_map.mp (nodup_typingOrder b.selections)
  refine (((queued_typingOrder hb).sorted.and (typingOrder_stable b.selections)).and hnodup).imp_of_mem ?_
  rintro x y hx hy ⟨⟨hstart, hstable⟩, hne⟩
  rcases apart_of_mem_typingOrder hapart hx hy hne with hxy | hyx
  · -- Both begin where the first one, a cursor, is.
    have hlex := start_le_stop_between x.2.anchor x.2.lead
    have hcursor : x.2.toRange.start = x.2.toRange.stop :=
      Position.le_antisymm hlex (Position.le_trans hxy hstart)
    have hat : y.2.toRange.start = x.2.toRange.start := Position.le_antisymm hstart (hcursor ▸ hxy)
    rcases h with hnil | hlast
    · exact .inr ⟨hnil, hcursor, hat⟩
    · have hlt := Nat.lt_of_le_of_ne (hstable hat) hne
      have hempty := isEmpty_of_cursorsLast hlast hx hy hlt ((Selection.isEmpty_iff _).mpr hcursor) hat.symm
      left
      rw [← (Selection.isEmpty_iff _).mp hempty]
      exact hstart
  · exact .inl hyx

end

/-! ## What typing does -/

section
variable {b : Buffer} {text : String}

theorem typeText_getElem? (hb : b.Sound) {i : Nat} {p : Position}
    (h : (i, p) ∈ (typeAt text b [] (typingOrder b.selections)).2.1) :
    (b.typeText text).1.selections[i]? = some (.cursor p) := by
  have hkeys := map_fst_typeAt text hb.wellFormed (queued_typingOrder hb)
  have hmem : i ∈ ((typingOrder b.selections).map (·.1)).reverse := hkeys ▸ List.mem_map_of_mem h
  obtain ⟨e, he, rfl⟩ := List.mem_map.mp (List.mem_reverse.mp hmem)
  have hnodup : ((typeAt text b [] (typingOrder b.selections)).2.1.map (·.1)).Nodup := by
    rw [hkeys]
    exact List.nodup_reverse.mpr (nodup_typingOrder _)
  have hlt := (List.mem_zipIdx' (mem_typingOrder.mp he)).1
  unfold typeText
  dsimp only
  rw [List.getElem?_map, List.getElem?_range hlt, Option.map_some, lookup_of_mem hnodup h]
  rfl

theorem perm_typingOrder (selections : List Selection) :
    ((typingOrder selections).map fun e => (e.1, e.2.toRange)).Perm
      (selections.zipIdx.map fun s => (s.2, s.1.toRange)) := by
  refine ((List.mergeSort_perm _ _).map _).trans ?_
  rw [List.map_map]
  exact .refl _

theorem typedAtEach_of_clears (hb : b.Sound) (h : (typingOrder b.selections).Pairwise (Clears text)) :
    b.TypedAtEach text (b.typeText text).1 := by
  have hstops : ∀ e ∈ typingOrder b.selections, b.Has e.2.toRange.stop := fun e he => by
    obtain ⟨ha, hl⟩ := hb.selections e.2 (List.fst_mem_of_mem_zipIdx (mem_typingOrder.mp he))
    exact (has_between ha hl).2
  obtain ⟨landings, old, new, rest, h⟩ := exists_arrives text hb.wellFormed (queued_typingOrder hb) hstops h
  refine ⟨landings, old, new, rest, h.retyped, h.chars, h.typed, h.ranges.trans (perm_typingOrder _), ?_, fun l hl => ?_⟩
  · show ((List.range b.selections.length).map _).length = _
    rw [List.length_map, List.length_range]
  · exact typeText_getElem? hb (h.cursors.mem_iff.mp (List.mem_map_of_mem hl))

/-- A text that is typed at a cursor first is taken for a part of the selection that begins there. -/
theorem not_typedAtEach (hb : b.Sound) (htext : text ≠ "") (h : ¬ CursorsLast b.selections) :
    ¬ b.TypedAtEach text (b.typeText text).1 := by
  rintro ⟨landings, old, new, rest, hretyped, -, -, hranges, -, hlands⟩
  unfold CursorsLast at h
  rw [List.pairwise_iff_forall_sublist] at h
  push Not at h
  obtain ⟨s, s', hsub, hempty, hat, hfull⟩ := h
  -- The cursor is typed at before the selection, so it ends up behind the cursor that the selection becomes.
  have hlisted : b.selections = (b.selections.zipIdx.map fun s => (s.2, s.1)).map (·.2) := by
    rw [List.map_map]
    exact (List.zipIdx_map_fst 0 b.selections).symm
  rw [hlisted] at hsub
  obtain ⟨x, y, hpair, rfl, rfl⟩ := pair_sublist_map hsub
  have hsorted : [x, y].Sublist (typingOrder b.selections) :=
    List.pair_sublist_mergeSort typesBefore_trans typesBefore_total
      (decide_eq_true (hat ▸ Position.le_refl _)) hpair
  have hkeys := map_fst_typeAt text hb.wellFormed (queued_typingOrder hb)
  have hreversed := (hsorted.map (·.1)).reverse
  rw [← hkeys] at hreversed
  obtain ⟨cy, cx, hcursors, hcy, hcx⟩ := pair_sublist_map hreversed
  have hle := List.pairwise_pair.mp ((pairwise_cursors text hb.wellFormed (queued_typingOrder hb)).sublist hcursors)
  -- But it stands before the selection.
  have hland : ∀ e ∈ typingOrder b.selections, ∀ c ∈ (typeAt text b [] (typingOrder b.selections)).2.1, c.1 = e.1 →
      ∃ l ∈ landings, l.range = e.2.toRange ∧ l.cursor = c.2 := by
    intro e he c hc hce
    have hmem := hranges.mem_iff.mpr ((perm_typingOrder _).mem_iff.mp (List.mem_map_of_mem he))
    obtain ⟨l, hl, hle⟩ := List.mem_map.mp hmem
    obtain ⟨hindex, hrange⟩ := Prod.mk.inj hle
    have hlands := hlands l hl
    rw [hindex, ← hce, typeText_getElem? hb hc] at hlands
    exact ⟨l, hl, hrange, (congrArg Selection.anchor (Option.some.inj hlands)).symm⟩
  obtain ⟨lx, hlx, hrx, hpx⟩ := hland x (hsorted.subset (by simp)) cx (hcursors.subset (by simp)) hcx
  obtain ⟨ly, hly, hry, hpy⟩ := hland y (hsorted.subset (by simp)) cy (hcursors.subset (by simp)) hcy
  have hlt : lx.range.stop < ly.range.stop := by
    rw [hrx, hry, ← (Selection.isEmpty_iff _).mp hempty, hat]
    by_contra hnot
    exact hfull ((Selection.isEmpty_iff _).mpr
      (Position.le_antisymm (start_le_stop_between _ _) (Position.not_lt.mp hnot)))
  have hcursor := hretyped.cursor_lt (by simpa using htext) lx hlx ly hly hlt
  rw [hpx, hpy] at hcursor
  exact Position.not_lt.mpr hle hcursor

/-- Typing at selections that do not overlap does what it is to do if and only if nothing is typed, or no cursor is listed
before a selection that begins at it. Its changes always lead to what it makes of the text. -/
theorem typedAtEach_iff (hb : b.Made) (hapart : (b.selections.map Selection.toRange).Pairwise Range.Apart)
    (text : String) :
    let typed := (b.typeText text).1
    let deltas := (b.typeText text).2
    (b.TypedAtEach text typed ↔ text = "" ∨ CursorsLast b.selections) ∧
    typed.WellFormed ∧
    Delta.replay b.chars deltas = typed.chars ∧
    ∀ before d behind, deltas = before ++ d :: behind → d.Fits (Delta.replay b.chars before) := by
  have hs := hb.sound
  obtain ⟨hsound, hchain⟩ := (Step.typeText text).chain hs
  refine ⟨⟨fun h => ?_, fun h => typedAtEach_of_clears hs (clears_typingOrder hs hapart h)⟩, hsound.wellFormed,
    hchain.replay, fun _ _ _ hds => (hchain.applies hds).fits⟩
  by_contra hnot
  rw [not_or] at hnot
  exact not_typedAtEach hs hnot.1 hnot.2 h

/-- Two cursors behind the selection that begins at them in the list, which goes from the last one to the first. -/
theorem typedAtEach_iff_rows :
    let b := (ofText "abc\nde").setSelections [⟨⟨1, 2⟩, ⟨1, 1⟩⟩, ⟨⟨0, 1⟩, ⟨1, 1⟩⟩, ⟨⟨0, 1⟩, ⟨0, 1⟩⟩, ⟨⟨0, 1⟩, ⟨0, 1⟩⟩]
    let typed := (b.typeText "x\n").1
    b.Made ∧ (b.selections.map Selection.toRange).Pairwise Range.Apart ∧ CursorsLast b.selections ∧
      b.TypedAtEach "x\n" typed ∧ typed.text = "ax\nx\nx\nx\n" ∧
      typed.selections = [.cursor ⟨4, 0⟩, .cursor ⟨3, 0⟩, .cursor ⟨2, 0⟩, .cursor ⟨1, 0⟩] := by
  intro b typed
  have hb : b.Made := .setSelections _ (.ofText _)
  have hapart : (b.selections.map Selection.toRange).Pairwise Range.Apart := by decide +kernel
  have hlast : CursorsLast b.selections := by
    unfold CursorsLast
    decide +kernel
  refine ⟨hb, hapart, hlast, (typedAtEach_iff hb hapart "x\n").1.mpr (.inr hlast), ?_⟩
  change (b.typeText "x\n").1.text = _ ∧ (b.typeText "x\n").1.selections = _
  unfold typeText
  rw [typingOrder_of_pairwise (by decide +kernel)]
  decide +kernel

/-- The cursor is listed first: what is typed at it is gone when the selection behind it has been typed at. -/
theorem cursor_first_overwritten :
    let b := (ofText "abcd").setSelections [⟨⟨0, 1⟩, ⟨0, 1⟩⟩, ⟨⟨0, 1⟩, ⟨0, 3⟩⟩]
    let typed := (b.typeText "X").1
    b.Made ∧ (b.selections.map Selection.toRange).Pairwise Range.Apart ∧ ¬ b.TypedAtEach "X" typed ∧
      typed.text = "aXcd" ∧ typed.selections = [.cursor ⟨0, 2⟩, .cursor ⟨0, 2⟩] := by
  intro b typed
  have hb : b.Made := .setSelections _ (.ofText _)
  have hfirst : ¬ CursorsLast b.selections := by
    unfold CursorsLast
    decide +kernel
  refine ⟨hb, by decide +kernel, not_typedAtEach hb.sound (by decide) hfirst, ?_⟩
  change (b.typeText "X").1.text = _ ∧ (b.typeText "X").1.selections = _
  unfold typeText
  rw [typingOrder_of_pairwise (by decide +kernel)]
  decide +kernel

end

end Buffer

end Scribe
