import Scribe.Proofs.Buffer.Ranges
import Scribe.Proofs.Buffer.Splice

/-!
# Sound buffers

A buffer has a row, and its selections are in it. Whatever is done to a buffer keeps it sound, and the changes
that are told lead from its old text to its new one.
-/

namespace Scribe

open Position (place)

theorem Delta.Applies.exists_place {text text' : List Char} {d : Delta} (h : Delta.Applies text d text') {n : Nat}
    (hn : n ≤ text.length) (stays : Bool) : ∃ n' ≤ text'.length, d.shift (place text n) stays = place text' n' := by
  cases h with
  | @insertion i new hi =>
    exact ⟨_, Delta.pastInsertion_le_inserted hi hn _ stays, Delta.place_shift_insertion hi hn new stays⟩
  | @removal i j hij hj =>
    exact ⟨_, Delta.pastRemoval_le_removed hij hj hn, Delta.place_shift_removal hij hj hn _ stays⟩

theorem Delta.Chain.exists_place {text text' : List Char} {ds : List Delta} (h : Delta.Chain text ds text')
    (stays : Bool) : ∀ {n : Nat}, n ≤ text.length → ∃ n' ≤ text'.length,
      ds.foldl (fun p d => d.shift p stays) (place text n) = place text' n' := by
  induction h with
  | nil => exact fun {n} hn => ⟨n, hn, rfl⟩
  | cons happ _ ih =>
    intro n hn
    obtain ⟨n₁, hn₁, he⟩ := happ.exists_place hn stays
    rw [List.foldl_cons, he]
    exact ih hn₁

namespace Buffer

/-- A buffer with a row, whose selections are in it. -/
structure Sound (b : Buffer) : Prop where
  wellFormed : b.WellFormed
  selections : ∀ s ∈ b.selections, b.Has s.anchor ∧ b.Has s.lead

section
variable {b b' : Buffer}

theorem chars_congr (h : b'.lines = b.lines) : b'.chars = b.chars := by
  unfold chars text
  rw [h]

theorem rows_congr (h : b'.lines = b.lines) : b'.rows = b.rows := by
  unfold rows
  rw [h]

theorem textRange_congr (h : b'.lines = b.lines) (r : Range) : b'.textRange r = b.textRange r := by
  have hline : b'.line = b.line := by
    funext row
    unfold line
    rw [h]
  have hclamp : b'.clamp = b.clamp := by
    funext p
    unfold clamp
    rw [h, hline]
  unfold textRange clampRange
  rw [hline, hclamp]

theorem WellFormed.congr (hb : b.WellFormed) (h : b'.lines = b.lines) : b'.WellFormed := by
  have hr := rows_congr h
  exact ⟨hr ▸ hb.rows_ne_nil, hr ▸ hb.noLineEnd⟩

/-- Markers and selections are no part of what makes a buffer sound, as long as the selections are in it. -/
theorem Sound.congr (hb : b.Sound) (h : b'.lines = b.lines) (hs : b'.selections = b.selections) : b'.Sound := by
  refine ⟨hb.wellFormed.congr h, fun s hmem => ?_⟩
  unfold Has
  rw [rows_congr h]
  rw [hs] at hmem
  exact hb.selections s hmem

theorem sound_ofText (text : String) : (ofText text).Sound := by
  have hrows : (ofText text).rows = Text.cutAt '\n' text.toList := by
    simp [rows, ofText, Text.splitLines]
  have hwell : (ofText text).WellFormed := by
    refine ⟨?_, fun row hrow => ?_⟩
    · rw [hrows]
      exact Text.cutAt_ne_nil _ _
    · rw [hrows] at hrow
      exact Text.not_mem_of_mem_cutAt hrow
  have hzero : (ofText text).Has {} := (has_iff hwell).mpr ⟨0, Nat.zero_le _, rfl⟩
  refine ⟨hwell, fun s hs => ?_⟩
  obtain rfl := List.mem_singleton.mp hs
  exact ⟨hzero, hzero⟩

/-! ## Positions -/

theorem clamp_le (hb : b.WellFormed) {p q : Position} (h : p ≤ q) : b.clamp p ≤ b.clamp q := by
  have hp := (b.has_iff_row_column _).mp (has_clamp hb p)
  unfold clamp at hp ⊢
  rw [Position.le_iff] at h ⊢
  dsimp only at hp ⊢
  split
  · rename_i hrow
    have hq : b.lines.size - 1 < q.row := by omega
    rw [if_pos hq]
    exact .inr ⟨rfl, Nat.le_refl _⟩
  · rename_i hrow
    rw [if_neg hrow] at hp
    split
    · rename_i hq
      dsimp only at hp ⊢
      rcases Nat.lt_or_eq_of_le (Nat.le_of_not_lt hrow) with hlt | he
      · exact .inl hlt
      · exact .inr ⟨he, he ▸ hp.2⟩
    · rcases h with hlt | ⟨he, hc⟩
      · exact .inl hlt
      · refine .inr ⟨he, ?_⟩
        dsimp only
        rw [he]
        omega

theorem splice_clampRange (hb : b.WellFormed) (r : Range) (text : String) :
    b.splice (b.clampRange r) text = b.splice r text := by
  have hclamp : b.clampRange (b.clampRange r) = b.clampRange r := by
    unfold clampRange
    rw [clamp_of_has (has_clamp hb r.start), clamp_of_has (has_clamp hb r.stop)]
  unfold splice
  rw [hclamp]

/-- A range in order, as far as the buffer has it, goes from one place to a later one. -/
theorem exists_places (hb : b.WellFormed) {r : Range} (hr : r.start ≤ r.stop) :
    ∃ m n, m ≤ n ∧ n ≤ b.chars.length ∧ b.clampRange r = ⟨place b.chars m, place b.chars n⟩ := by
  obtain ⟨m, hm, he⟩ := (has_iff hb).mp (has_clamp hb r.start)
  obtain ⟨n, hn, he'⟩ := (has_iff hb).mp (has_clamp hb r.stop)
  have hle := clamp_le hb hr
  rw [he, he'] at hle
  refine ⟨m, n, (Position.place_le_iff hm hn).mp hle, hn, ?_⟩
  unfold clampRange
  rw [he, he']

theorem has_selection (hb : b.Sound) : b.Has b.selection.anchor ∧ b.Has b.selection.lead := by
  unfold selection
  cases hs : b.selections with
  | nil =>
    have hzero : b.Has {} := (has_iff hb.wellFormed).mpr ⟨0, Nat.zero_le _, rfl⟩
    exact ⟨hzero, hzero⟩
  | cons s rest => exact hb.selections s (hs ▸ List.mem_cons_self)

theorem start_le_stop_between (p q : Position) : (Range.between p q).start ≤ (Range.between p q).stop := by
  unfold Range.between
  split
  · rename_i h
    exact Position.le_of_lt h
  · rename_i h
    exact Position.le_of_not_lt h

theorem has_between {p q : Position} (hp : b.Has p) (hq : b.Has q) :
    b.Has (Range.between p q).start ∧ b.Has (Range.between p q).stop := by
  unfold Range.between
  split
  · exact ⟨hq, hp⟩
  · exact ⟨hp, hq⟩

theorem on_selection (hb : b.Sound) : b.selection.toRange.On b.chars := by
  obtain ⟨ha, hl⟩ := has_selection hb
  obtain ⟨m, hm, he⟩ := (has_iff hb.wellFormed).mp ha
  obtain ⟨n, hn, he'⟩ := (has_iff hb.wellFormed).mp hl
  unfold Selection.toRange Range.between
  rw [he, he']
  split
  · rename_i h
    exact ⟨n, m, Nat.le_of_lt ((Position.place_lt_iff hn hm).mp h), hm, rfl⟩
  · rename_i h
    exact ⟨m, n, Nat.le_of_not_lt fun hlt => h ((Position.place_lt_iff hn hm).mpr hlt), hn, rfl⟩

/-! ## Operations -/

theorem sound_setSelections (hb : b.Sound) (selections : List Selection) : (b.setSelections selections).Sound := by
  unfold setSelections
  split
  · exact hb
  · refine ⟨hb.wellFormed.congr rfl, fun s hs => ?_⟩
    obtain ⟨s', -, rfl⟩ := List.mem_map.mp hs
    exact ⟨has_clamp hb.wellFormed _, has_clamp hb.wellFormed _⟩

theorem sound_setCursor (hb : b.Sound) (p : Position) : (b.setCursor p).Sound := by
  refine ⟨hb.wellFormed.congr rfl, List.forall_mem_singleton.mpr ?_⟩
  exact ⟨has_clamp hb.wellFormed p, has_clamp hb.wellFormed p⟩

theorem sound_select (hb : b.Sound) (r : Range) : (b.select r).Sound := by
  refine ⟨hb.wellFormed.congr rfl, List.forall_mem_singleton.mpr ?_⟩
  exact has_between (has_clamp hb.wellFormed r.start) (has_clamp hb.wellFormed r.stop)

theorem replace_clampRange (hb : b.WellFormed) (r : Range) (text : String) :
    b.replace (b.clampRange r) text = b.replace r text := by
  unfold replace
  rw [splice_clampRange hb]

theorem replace_place (hb : b.Sound) {m n : Nat} (hmn : m ≤ n) (hn : n ≤ b.chars.length) (text : String) :
    ∃ lines selections, b.replace ⟨place b.chars m, place b.chars n⟩ text =
        ({ b with lines, selections }, b.spliceDeltas m n text) ∧
      ({ b with lines, selections } : Buffer).Sound ∧
      ({ b with lines, selections } : Buffer).chars = b.chars.take m ++ text.toList ++ b.chars.drop n := by
  obtain ⟨b', he, ⟨lines, rfl⟩, hwell, hchars⟩ := splice_place hb.wellFormed hmn hn text
  have hchain := chain_spliceDeltas hmn hn text
  unfold replace
  rw [he]
  dsimp only
  refine ⟨lines, _, rfl, ⟨hwell.congr rfl, fun s hs => ?_⟩, hchars⟩
  obtain ⟨s', hs', rfl⟩ := List.mem_map.mp hs
  have hmove : ∀ p, b.Has p → Has { b with lines }
      ((b.spliceDeltas m n text).foldl (fun p d => d.shift p true) p) := by
    intro p hp
    obtain ⟨x, hx, rfl⟩ := (has_iff hb.wellFormed).mp hp
    obtain ⟨x', hx', he⟩ := hchain.exists_place true hx
    rw [he, ← hchars] at *
    exact (has_iff hwell).mpr ⟨x', hx', rfl⟩
  exact ⟨hmove _ (hb.selections s' hs').1, hmove _ (hb.selections s' hs').2⟩

/-- The changes of a replacement lead to the new text. -/
theorem replace_chain (hb : b.Sound) {r : Range} (hr : r.start ≤ r.stop) (text : String) :
    ∃ lines selections, (b.replace r text).1 = { b with lines, selections } ∧ (b.replace r text).1.Sound ∧
      Delta.Chain b.chars (b.replace r text).2 (b.replace r text).1.chars := by
  obtain ⟨m, n, hmn, hn, hclamp⟩ := exists_places hb.wellFormed hr
  obtain ⟨lines, selections, he, hsound, hchars⟩ := replace_place hb hmn hn text
  rw [← replace_clampRange hb.wellFormed, hclamp, he]
  refine ⟨lines, selections, rfl, hsound, ?_⟩
  rw [hchars]
  exact chain_spliceDeltas hmn hn text

end

end Buffer

end Scribe
