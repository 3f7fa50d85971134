import Scribe.Proofs.Buffer.Typing

/-!
# Changes inside of a range

What is typed in a range changes the text inside of it. The range follows the changes and takes what is inserted at
its ends.
-/

namespace Scribe

open Position (place)

namespace Delta

/-- Changes of a text one after the other, each in the range that follows them. -/
inductive Inside : Range → List Char → List Delta → List Char → Prop
  | nil {r : Range} {text : List Char} : Inside r text [] text
  | cons {r : Range} {text text' text'' : List Char} {d : Delta} {ds : List Delta} :
    Applies text d text' → r.start ≤ d.start → d.start ≤ r.stop → (d.action = .remove → d.stop ≤ r.stop) →
    Inside (r.shift d true) text' ds text'' → Inside r text (d :: ds) text''

theorem Inside.chain {r : Range} {text text' : List Char} {ds : List Delta} (h : Inside r text ds text') :
    Chain text ds text' := by
  induction h with
  | nil => exact .nil
  | cons happ _ _ _ _ ih => exact .cons happ ih

/-- Where a range is that takes what is inserted at its ends. -/
def follow (r : Range) (ds : List Delta) : Range := ds.foldl (fun r d => r.shift d true) r

theorem inside_insertion {text : List Char} {a m z : Nat} (ham : a ≤ m) (hmz : m ≤ z) (hz : z ≤ text.length)
    (new : String) :
    let text' := text.take m ++ new.toList ++ text.drop m
    let ds := if new = "" then [] else [insertion (place text m) new]
    Inside ⟨place text a, place text z⟩ text ds text' ∧
      follow ⟨place text a, place text z⟩ ds = ⟨place text' a, place text' (z + new.toList.length)⟩ := by
  have hm := Nat.le_trans hmz hz
  dsimp only
  by_cases hn : new = ""
  · subst hn
    rw [if_pos rfl, String.toList_empty, List.append_nil, List.take_append_drop]
    exact ⟨.nil, rfl⟩
  · rw [if_neg hn]
    refine ⟨.cons (.insertion new hm) ((Position.place_le_iff (Nat.le_trans ham hm) hm).mpr ham)
      ((Position.place_le_iff hm hz).mpr hmz) (fun hd => by cases hd) .nil, ?_⟩
    show (Range.mk _ _).shift _ true = _
    have hleft : pastInsertion m new.toList.length true a = a := by
      unfold pastInsertion
      rw [if_pos (by simp only [and_true]; omega)]
    have hright : pastInsertion m new.toList.length (!true) z = z + new.toList.length := by
      unfold pastInsertion
      rw [if_neg (by simp only [Bool.not_true, Bool.false_eq_true, and_false, or_false]; omega)]
    rw [Range.shift_insertion hm (Nat.le_trans ham hmz) hz, hleft, hright, Nat.max_eq_right (by omega)]

end Delta

namespace Buffer

variable {b : Buffer}

theorem inside_spliceDeltas {a m n z : Nat} (ham : a ≤ m) (hmn : m ≤ n) (hnz : n ≤ z) (hz : z ≤ b.chars.length)
    (text : String) :
    let text' := b.chars.take m ++ text.toList ++ b.chars.drop n
    Delta.Inside ⟨place b.chars a, place b.chars z⟩ b.chars (b.spliceDeltas m n text) text' ∧
      Delta.follow ⟨place b.chars a, place b.chars z⟩ (b.spliceDeltas m n text) =
        ⟨place text' a, place text' (z - (n - m) + text.toList.length)⟩ := by
  have hn := Nat.le_trans hnz hz
  have hm := Nat.le_trans hmn hn
  have ha := Nat.le_trans ham hm
  unfold spliceDeltas
  dsimp only
  by_cases he : m = n
  · subst he
    rw [if_pos rfl, List.nil_append, Nat.sub_self, Nat.sub_zero]
    exact Delta.inside_insertion ham hnz hz text
  · -- The text is inserted in what the removal leaves of the range.
    have hlen : (b.chars.take m).length = m := List.length_take_of_le (by omega)
    have hplace := Position.place_take_append hm (Nat.le_refl m) (b.chars.drop n)
    have hshift := Range.shift_removal hmn hn (Nat.le_trans ham (Nat.le_trans hmn hnz)) hz
      (String.ofList ((b.chars.take n).drop m)) true
    rw [Delta.pastRemoval_of_le hnz, show Delta.pastRemoval m n a = a from if_pos ham] at hshift
    have hrest : z - (n - m) ≤ (b.chars.take m ++ b.chars.drop n).length := by
      rw [Delta.length_removed hmn hn]
      omega
    have hinsert := Delta.inside_insertion ham (by omega) hrest text
    rw [hplace, List.take_left' hlen, List.drop_left' hlen, ← hshift] at hinsert
    rw [if_neg he, List.singleton_append]
    exact ⟨.cons (.removal hmn hn) ((Position.place_le_iff ha hm).mpr ham)
      ((Position.place_le_iff hm hz).mpr (Nat.le_trans hmn hnz))
      (fun _ => (Position.place_le_iff hn hz).mpr hnz) hinsert.1, hinsert.2⟩

theorem typeText_of_selection {s : Selection} (hs : b.selections = [s]) (text : String) :
    (b.typeText text).2 = (b.splice s.toRange text).2 ∧
      (b.typeText text).1.chars = (b.splice s.toRange text).1.chars := by
  have horder : typingOrder b.selections = [(0, s)] := by
    rw [hs]
    simp [typingOrder]
  unfold typeText
  rw [horder]
  exact ⟨List.append_nil _, rfl⟩

/-- What is typed at a selection in a range changes the text inside of it. -/
theorem inside_typeText (hb : b.Sound) {r : Range} (hr : r.On b.chars) {s : Selection} (hs : b.selections = [s])
    (hstart : r.start ≤ s.toRange.start) (hstop : s.toRange.stop ≤ r.stop) (text : String) :
    Delta.Inside r b.chars (b.typeText text).2 (b.typeText text).1.chars := by
  have hsel : b.selection = s := by
    unfold selection
    rw [hs]
    rfl
  obtain ⟨a, z, haz, hz, rfl⟩ := hr
  obtain ⟨m, n, hmn, hn, hrange⟩ := on_selection hb
  rw [hsel] at hrange
  rw [hrange] at hstart hstop
  have ham : a ≤ m := (Position.place_le_iff (Nat.le_trans haz hz) (Nat.le_trans hmn hn)).mp hstart
  have hnz : n ≤ z := (Position.place_le_iff hn hz).mp hstop
  obtain ⟨b', he, -, -, hchars⟩ := splice_place hb.wellFormed hmn hn text
  obtain ⟨hds, hchars'⟩ := typeText_of_selection hs text
  rw [hds, hchars', hrange, he, hchars]
  exact (inside_spliceDeltas ham hmn hnz hz text).1

end Buffer

end Scribe
