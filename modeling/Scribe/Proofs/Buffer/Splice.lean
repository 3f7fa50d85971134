import Scribe.Proofs.Buffer.Rows

/-!
# Splices

Replacing a range of a buffer replaces a piece of its text, and the changes that it answers with say which.
-/

namespace Scribe

open Position (place)
open Text (ended joinWith)

theorem Delta.applies_insertion {text : List Char} {m : Nat} (hm : m ≤ text.length) (n : Nat) (new : String) :
    Delta.Applies (text.take m ++ text.drop n) (Delta.insertion (place text m) new)
      (text.take m ++ new.toList ++ text.drop n) := by
  have hlen : (text.take m).length = m := List.length_take_of_le (by omega)
  have hle : m ≤ (text.take m ++ text.drop n).length := by
    rw [List.length_append]
    omega
  have happ := Delta.Applies.insertion new hle
  rwa [Position.place_take_append hm (Nat.le_refl m), List.take_left' hlen, List.drop_left' hlen] at happ

namespace Buffer

/-- Nothing but the lines differs. -/
def SameBut (b b' : Buffer) : Prop := ∃ lines, b' = { b with lines }

theorem rows_extract (b : Buffer) (k : Nat) :
    ((b.lines.extract 0 k).toList.map String.toList) = b.rows.take k := by
  simp [rows, List.extract_eq_take_drop, List.map_take]

theorem rows_extract_from (b : Buffer) (k : Nat) :
    ((b.lines.extract k b.lines.size).toList.map String.toList) = b.rows.drop k := by
  simp only [rows, Array.toList_extract, List.extract_eq_take_drop, ← List.map_drop]
  rw [List.take_of_length_le (by simp)]

theorem rows_removeText (b : Buffer) (start stop : Position) :
    (b.removeText start stop).rows = b.rows.take start.row ++
      ((b.line start.row).take start.column ++ (b.line stop.row).drop stop.column) :: b.rows.drop (stop.row + 1) := by
  conv => lhs; unfold rows removeText
  simp only [Array.toList_append, List.map_append, rows_extract, rows_extract_from, List.map_cons,
    String.toList_ofList, List.append_assoc, List.singleton_append]

theorem rows_insertText (b : Buffer) (p : Position) (text : String) :
    (b.insertText p text).rows = b.rows.take p.row ++
      Text.cutAt '\n' ((b.line p.row).take p.column ++ text.toList ++ (b.line p.row).drop p.column) ++
      b.rows.drop (p.row + 1) := by
  have hcut : ∀ pieces : List (List Char), (pieces.map String.ofList).map String.toList = pieces := by
    intro pieces
    simp only [List.map_map, Function.comp_def, String.toList_ofList, List.map_id']
  conv => lhs; unfold rows insertText
  simp only [Array.toList_append, List.map_append, rows_extract, rows_extract_from, hcut]

section
variable {b : Buffer} (hb : b.WellFormed) {m n : Nat}
include hb

theorem chars_removeText (hmn : m ≤ n) (hn : n ≤ b.chars.length) :
    (b.removeText (place b.chars m) (place b.chars n)).chars = b.chars.take m ++ b.chars.drop n := by
  rw [take_eq hb (Nat.le_trans hmn hn) rfl, drop_eq hb hn rfl, chars_eq, rows_removeText,
    Text.joinWith_append_cons, Text.joinWith_split, List.append_assoc]

theorem wellFormed_removeText (start stop : Position) : (b.removeText start stop).WellFormed where
  rows_ne_nil := by rw [rows_removeText]; simp
  noLineEnd row hrow := by
    have hline : ∀ r, '\n' ∉ b.line r := by
      intro r hm
      rw [← rows_getElem?] at hm
      cases hr : b.rows[r]? with
      | none => rw [hr] at hm; cases hm
      | some row => rw [hr] at hm; exact hb.noLineEnd row (List.mem_of_getElem? hr) hm
    rw [rows_removeText] at hrow
    rcases List.mem_append.mp hrow with hrow | hrow
    · exact hb.noLineEnd row (List.mem_of_mem_take hrow)
    · rcases List.mem_cons.mp hrow with rfl | hrow
      · intro hm
        rcases List.mem_append.mp hm with hm | hm
        · exact hline _ (List.mem_of_mem_take hm)
        · exact hline _ (List.mem_of_mem_drop hm)
      · exact hb.noLineEnd row (List.mem_of_mem_drop hrow)

theorem chars_insertText (hn : n ≤ b.chars.length) (text : String) :
    (b.insertText (place b.chars n) text).chars = b.chars.take n ++ text.toList ++ b.chars.drop n := by
  have hne := Text.cutAt_ne_nil '\n'
    ((b.line (place b.chars n).row).take (place b.chars n).column ++ text.toList ++
      (b.line (place b.chars n).row).drop (place b.chars n).column)
  rw [take_eq hb hn rfl, drop_eq hb hn rfl, chars_eq, rows_insertText, List.append_assoc]
  obtain ⟨y, ys, hcut⟩ := List.exists_cons_of_ne_nil hne
  rw [hcut, List.cons_append, Text.joinWith_append_cons, ← List.cons_append, ← hcut,
    Text.joinWith_join hne, Text.joinWith_cutAt, Text.joinWith_split]
  simp only [List.append_assoc]

theorem wellFormed_insertText (p : Position) (text : String) : (b.insertText p text).WellFormed where
  rows_ne_nil := by
    rw [rows_insertText]
    simp [Text.cutAt_ne_nil]
  noLineEnd row hrow := by
    rw [rows_insertText] at hrow
    rcases List.mem_append.mp hrow with hrow | hrow
    · rcases List.mem_append.mp hrow with hrow | hrow
      · exact hb.noLineEnd row (List.mem_of_mem_take hrow)
      · exact Text.not_mem_of_mem_cutAt hrow
    · exact hb.noLineEnd row (List.mem_of_mem_drop hrow)

/-! ## Splicing between places -/

/-- The changes of a splice. -/
def spliceDeltas (b : Buffer) (m n : Nat) (text : String) : List Delta :=
  (if m = n then []
    else [Delta.removal ⟨place b.chars m, place b.chars n⟩ (String.ofList ((b.chars.take n).drop m))]) ++
  if text = "" then [] else [Delta.insertion (place b.chars m) text]

theorem removal_step (hmn : m ≤ n) (hn : n ≤ b.chars.length) :
    (if place b.chars m = place b.chars n then (b, [])
      else (b.removeText (place b.chars m) (place b.chars n),
        [Delta.removal (.between (place b.chars m) (place b.chars n))
          (b.textRange (.between (place b.chars m) (place b.chars n)))])) =
      if m = n then (b, [])
      else (b.removeText (place b.chars m) (place b.chars n),
        [Delta.removal ⟨place b.chars m, place b.chars n⟩ (String.ofList ((b.chars.take n).drop m))]) := by
  have hm : m ≤ b.chars.length := Nat.le_trans hmn hn
  have hbetween : Range.between (place b.chars m) (place b.chars n) = ⟨place b.chars m, place b.chars n⟩ := by
    unfold Range.between
    rw [if_neg (Position.not_lt.mpr ((Position.place_le_iff hm hn).mpr hmn))]
  rw [hbetween, textRange_place hb hmn hn]
  by_cases h : m = n
  · rw [if_pos h, if_pos (by rw [h])]
  · rw [if_neg h, if_neg fun he => h ((Position.place_inj hm hn).mp he)]

theorem splice_place (hmn : m ≤ n) (hn : n ≤ b.chars.length) (text : String) :
    ∃ b', b.splice ⟨place b.chars m, place b.chars n⟩ text = (b', b.spliceDeltas m n text) ∧
      b.SameBut b' ∧ b'.WellFormed ∧ b'.chars = b.chars.take m ++ text.toList ++ b.chars.drop n := by
  have hm : m ≤ b.chars.length := Nat.le_trans hmn hn
  -- The text is put into what the removal leaves.
  obtain ⟨mid, hmid, hsame, hwell, hchars⟩ : ∃ mid, (if m = n then (b, [])
      else (b.removeText (place b.chars m) (place b.chars n),
        [Delta.removal ⟨place b.chars m, place b.chars n⟩ (String.ofList ((b.chars.take n).drop m))])) =
      (mid, if m = n then []
        else [Delta.removal ⟨place b.chars m, place b.chars n⟩ (String.ofList ((b.chars.take n).drop m))]) ∧
      b.SameBut mid ∧ mid.WellFormed ∧ mid.chars = b.chars.take m ++ b.chars.drop n := by
    by_cases h : m = n
    · subst h
      refine ⟨b, ?_, ⟨b.lines, rfl⟩, hb, (List.take_append_drop m _).symm⟩
      simp
    · refine ⟨b.removeText (place b.chars m) (place b.chars n), ?_, ⟨_, rfl⟩,
        wellFormed_removeText hb _ _, chars_removeText hb hmn hn⟩
      rw [if_neg h, if_neg h]
  unfold splice
  simp only [clampRange, clamp_place hb hm, clamp_place hb hn]
  rw [removal_step hb hmn hn, hmid]
  dsimp only
  by_cases ht : text = ""
  · subst ht
    refine ⟨mid, ?_, hsame, hwell, ?_⟩
    · simp [spliceDeltas]
    · rw [hchars]; simp
  · have hplace : place b.chars m = place mid.chars m := by
      rw [hchars, Position.place_take_append hm (Nat.le_refl m)]
    have hm' : m ≤ mid.chars.length := by
      rw [hchars, List.length_append, List.length_take]; omega
    refine ⟨mid.insertText (place b.chars m) text, ?_, ?_, wellFormed_insertText hwell _ _, ?_⟩
    · rw [if_neg (by simpa [String.isEmpty_iff] using ht)]
      simp [spliceDeltas, ht]
    · obtain ⟨lines, rfl⟩ := hsame
      exact ⟨_, rfl⟩
    · rw [hplace, chars_insertText hwell hm', hchars]
      have hlen : (b.chars.take m).length = m := List.length_take_of_le (by omega)
      rw [List.take_left' hlen, List.drop_left' hlen]

omit hb in
/-- The changes of a splice lead from the old text to the new one. -/
theorem chain_spliceDeltas (hmn : m ≤ n) (hn : n ≤ b.chars.length) (text : String) :
    Delta.Chain b.chars (b.spliceDeltas m n text) (b.chars.take m ++ text.toList ++ b.chars.drop n) := by
  have hm : m ≤ b.chars.length := Nat.le_trans hmn hn
  have hremove : Delta.Chain b.chars (if m = n then []
      else [Delta.removal ⟨place b.chars m, place b.chars n⟩ (String.ofList ((b.chars.take n).drop m))])
      (b.chars.take m ++ b.chars.drop n) := by
    by_cases h : m = n
    · subst h
      rw [if_pos rfl, List.take_append_drop]
      exact .nil
    · rw [if_neg h]
      exact .cons (.removal hmn hn) .nil
  have hinsert : Delta.Chain (b.chars.take m ++ b.chars.drop n)
      (if text = "" then [] else [Delta.insertion (place b.chars m) text])
      (b.chars.take m ++ text.toList ++ b.chars.drop n) := by
    by_cases ht : text = ""
    · subst ht
      rw [if_pos rfl]
      simpa using Delta.Chain.nil
    · rw [if_neg ht]
      exact .cons (Delta.applies_insertion hm n text) .nil
  exact hremove.append hinsert

end

end Buffer

end Scribe
