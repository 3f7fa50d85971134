import Scribe.Proofs.Buffer.Ranges

/-!
# Text outside of ranges

What happens inside of ranges that move with the text does not show outside of them.
-/

namespace Scribe

open Position (place place_lt_iff place_le_iff)

/-- Whether a range holds the character that begins at a position. -/
def Range.covers (r : Range) (p : Position) : Bool := r.start ≤ p && p < r.stop

/-- The characters of a text that none of the ranges holds. -/
def outside (text : List Char) (ranges : List Range) : List Char :=
  (text.zipIdx.filter fun e => !ranges.any (·.covers (place text e.2))).map (·.1)

/-! ## Sifting -/

/-- The characters whose numbers are kept, counted from `k`. -/
def sift (keep : Nat → Bool) (text : List Char) (k : Nat) : List Char :=
  ((text.zipIdx k).filter fun e => keep e.2).map (·.1)

theorem outside_eq (text : List Char) (ranges : List Range) :
    outside text ranges = sift (fun n => !ranges.any (·.covers (place text n))) text 0 := rfl

section
variable {keep keep' : Nat → Bool}

theorem sift_cons (c : Char) (text : List Char) (k : Nat) :
    sift keep (c :: text) k = if keep k then c :: sift keep text (k + 1) else sift keep text (k + 1) := by
  unfold sift
  rw [List.zipIdx_cons, List.filter_cons]
  dsimp only
  split <;> rfl

theorem sift_append (a b : List Char) (k : Nat) :
    sift keep (a ++ b) k = sift keep a k ++ sift keep b (k + a.length) := by
  unfold sift
  rw [List.zipIdx_append, List.filter_append, List.map_append]

theorem sift_eq_nil (text : List Char) : ∀ k, (∀ n < text.length, keep (k + n) = false) → sift keep text k = [] := by
  induction text with
  | nil => intro k _; rfl
  | cons c text ih =>
    intro k h
    have hc := h 0 (by simp)
    rw [Nat.add_zero] at hc
    rw [sift_cons, hc]
    refine ih (k + 1) fun n hn => ?_
    have := h (n + 1) (by simpa using hn)
    rwa [Nat.add_comm n, ← Nat.add_assoc] at this

theorem sift_eq_self (text : List Char) : ∀ k, (∀ n < text.length, keep (k + n) = true) → sift keep text k = text := by
  induction text with
  | nil => intro k _; rfl
  | cons c text ih =>
    intro k h
    have hc := h 0 (by simp)
    rw [Nat.add_zero] at hc
    rw [sift_cons, if_pos hc, ih (k + 1) fun n hn => ?_]
    have := h (n + 1) (by simpa using hn)
    rwa [Nat.add_comm n, ← Nat.add_assoc] at this

theorem sift_congr (text : List Char) : ∀ k k', (∀ n < text.length, keep (k + n) = keep' (k' + n)) →
    sift keep text k = sift keep' text k' := by
  induction text with
  | nil => intro k k' _; rfl
  | cons c text ih =>
    intro k k' h
    have hc := h 0 (by simp)
    rw [Nat.add_zero, Nat.add_zero] at hc
    have hrest := ih (k + 1) (k' + 1) fun n hn => by
      have := h (n + 1) (by simpa using hn)
      rwa [Nat.add_comm n, ← Nat.add_assoc, ← Nat.add_assoc] at this
    rw [sift_cons, sift_cons, hc, hrest]

theorem take_between_drop (text : List Char) {i j : Nat} (hij : i ≤ j) :
    text.take i ++ ((text.take j).drop i ++ text.drop j) = text := by
  have htake : text.take i = (text.take j).take i := by rw [List.take_take, Nat.min_eq_left hij]
  rw [← List.append_assoc, htake, List.take_append_drop, List.take_append_drop]

/-- A text of which nothing is kept between `i` and `j` gives what is left when that is removed. -/
theorem sift_removed {text : List Char} {i j : Nat} (hij : i ≤ j) (hj : j ≤ text.length)
    (hgone : ∀ x, i ≤ x → x < j → keep x = false) (hbefore : ∀ x < i, keep' x = keep x)
    (hbehind : ∀ x, j ≤ x → x < text.length → keep' (x - (j - i)) = keep x) :
    sift keep' (text.take i ++ text.drop j) 0 = sift keep text 0 := by
  have hlen : (text.take i).length = i := List.length_take_of_le (by omega)
  have hmid : ((text.take j).drop i).length = j - i := by
    rw [List.length_drop, List.length_take]
    omega
  have hnil : sift keep ((text.take j).drop i) i = [] := by
    refine sift_eq_nil _ _ fun n hn => hgone _ (Nat.le_add_right i n) ?_
    rw [hmid] at hn
    omega
  conv => rhs; rw [← take_between_drop text hij]
  rw [sift_append, sift_append, sift_append, hlen, hmid, Nat.zero_add, hnil, List.nil_append]
  congr 1
  · refine sift_congr _ 0 0 fun n hn => ?_
    rw [Nat.zero_add]
    exact hbefore n (hlen ▸ hn)
  · refine sift_congr _ _ _ fun n hn => ?_
    rw [List.length_drop] at hn
    have hpos : i + n = i + (j - i) + n - (j - i) := by omega
    rw [hpos]
    exact hbehind _ (by omega) (by omega)

end

/-! ## Covering -/

namespace Range

open Delta (pastInsertion pastRemoval length_inserted length_removed pastInsertion_le_inserted
  max_pastInsertion_le_inserted pastRemoval_le_removed)

section
variable {text : List Char} {i j m n x : Nat}

theorem covers_iff (hm : m ≤ text.length) (hn : n ≤ text.length) (hx : x ≤ text.length) :
    (Range.mk (place text m) (place text n)).covers (place text x) = true ↔ m ≤ x ∧ x < n := by
  unfold covers
  rw [Bool.and_eq_true, decide_eq_true_eq, decide_eq_true_eq, place_le_iff hm hx, place_lt_iff hx hn]

theorem covers_shift_insertion (hi : i ≤ text.length) (hmn : m ≤ n) (hn : n ≤ text.length) (new : String)
    (absorbs : Bool) (hx : x ≤ text.length) :
    ((Range.mk (place text m) (place text n)).shift (.insertion (place text i) new) absorbs).covers
        (place (text.take i ++ new.toList ++ text.drop i) (if x < i then x else x + new.toList.length)) = true ↔
      (Range.mk (place text m) (place text n)).covers (place text x) = true := by
  have hm := Nat.le_trans hmn hn
  rw [shift_insertion hi hmn hn, covers_iff hm hn hx, covers_iff]
  · cases absorbs <;> simp only [pastInsertion, Bool.not_true, Bool.not_false, and_true, and_false, or_false,
      Bool.false_eq_true] <;> split <;> split <;> split <;> omega
  · exact pastInsertion_le_inserted hi hm new.toList _
  · exact max_pastInsertion_le_inserted hi hmn hn new.toList _ _
  · rw [length_inserted hi]
    split <;> omega

theorem covers_shift_removal (hij : i ≤ j) (hj : j ≤ text.length) (hmn : m ≤ n) (hn : n ≤ text.length) (old : String)
    (absorbs : Bool) (hx : x ≤ text.length) (hout : x < i ∨ j ≤ x) :
    ((Range.mk (place text m) (place text n)).shift (.removal ⟨place text i, place text j⟩ old) absorbs).covers
        (place (text.take i ++ text.drop j) (if x < i then x else x - (j - i))) = true ↔
      (Range.mk (place text m) (place text n)).covers (place text x) = true := by
  have hm := Nat.le_trans hmn hn
  rw [shift_removal hij hj hmn hn, covers_iff hm hn hx, covers_iff]
  · have hcm := Delta.pastRemoval_cases i j m
    have hcn := Delta.pastRemoval_cases i j n
    split <;> omega
  · exact pastRemoval_le_removed hij hj hm
  · exact pastRemoval_le_removed hij hj hn
  · rw [length_removed hij hj]
    split <;> omega

/-- A range around the place of an insertion that it takes holds what is inserted. -/
theorem covers_inserted (hi : i ≤ text.length) (hmi : m ≤ i) (hin : i ≤ n) (hn : n ≤ text.length) (new : String)
    (hix : i ≤ x) (hx : x < i + new.toList.length) :
    ((Range.mk (place text m) (place text n)).shift (.insertion (place text i) new) true).covers
      (place (text.take i ++ new.toList ++ text.drop i) x) = true := by
  have hmn := Nat.le_trans hmi hin
  rw [shift_insertion hi hmn hn, covers_iff]
  · simp only [pastInsertion, Bool.not_true, Bool.false_eq_true, and_false, or_false, and_true]
    split <;> split <;> omega
  · exact pastInsertion_le_inserted hi (Nat.le_trans hmn hn) new.toList _
  · exact max_pastInsertion_le_inserted hi hmn hn new.toList _ _
  · rw [length_inserted hi]
    omega

end

end Range

/-! ## Changes inside of ranges -/

/-- Ranges after a change: some may be dropped whose text has been removed. -/
structure Moved (d : Delta) (ranges ranges' : List Range) : Prop where
  moved : ∀ r' ∈ ranges', ∃ r ∈ ranges, ∃ absorbs, r' = r.shift d absorbs
  kept : ∀ r ∈ ranges, (∃ absorbs, r.shift d absorbs ∈ ranges') ∨
    d.action = .remove ∧ d.start ≤ r.start ∧ r.stop ≤ d.stop

section
variable {text text' : List Char} {d : Delta} {i j x : Nat} {ranges ranges' : List Range}
  (hon : ∀ r ∈ ranges, r.On text)
include hon

theorem Moved.covers_insertion {new : String} (hm : Moved (.insertion (place text i) new) ranges ranges')
    (hi : i ≤ text.length) (hx : x ≤ text.length) :
    (ranges'.any (·.covers (place (text.take i ++ new.toList ++ text.drop i)
      (if x < i then x else x + new.toList.length)))) = ranges.any (·.covers (place text x)) := by
  rw [Bool.eq_iff_iff, List.any_eq_true, List.any_eq_true]
  constructor
  · rintro ⟨r', hr', hc⟩
    obtain ⟨r, hr, absorbs, rfl⟩ := hm.moved r' hr'
    obtain ⟨m, n, hmn, hn, rfl⟩ := hon r hr
    exact ⟨_, hr, (Range.covers_shift_insertion hi hmn hn new absorbs hx).mp hc⟩
  · rintro ⟨r, hr, hc⟩
    obtain ⟨m, n, hmn, hn, rfl⟩ := hon r hr
    rcases hm.kept _ hr with ⟨absorbs, hr'⟩ | ⟨hd, -⟩
    · exact ⟨_, hr', (Range.covers_shift_insertion hi hmn hn new absorbs hx).mpr hc⟩
    · cases hd

theorem Moved.covers_removal {old : String}
    (hm : Moved (.removal ⟨place text i, place text j⟩ old) ranges ranges') (hij : i ≤ j) (hj : j ≤ text.length)
    (hx : x ≤ text.length) (hout : x < i ∨ j ≤ x) :
    (ranges'.any (·.covers (place (text.take i ++ text.drop j) (if x < i then x else x - (j - i))))) =
      ranges.any (·.covers (place text x)) := by
  rw [Bool.eq_iff_iff, List.any_eq_true, List.any_eq_true]
  constructor
  · rintro ⟨r', hr', hc⟩
    obtain ⟨r, hr, absorbs, rfl⟩ := hm.moved r' hr'
    obtain ⟨m, n, hmn, hn, rfl⟩ := hon r hr
    exact ⟨_, hr, (Range.covers_shift_removal hij hj hmn hn _ absorbs hx hout).mp hc⟩
  · rintro ⟨r, hr, hc⟩
    obtain ⟨m, n, hmn, hn, rfl⟩ := hon r hr
    rcases hm.kept _ hr with ⟨absorbs, hr'⟩ | ⟨-, hs, ht⟩
    · exact ⟨_, hr', (Range.covers_shift_removal hij hj hmn hn _ absorbs hx hout).mpr hc⟩
    · -- A dropped range held only what is gone.
      have hm := Nat.le_trans hmn hn
      have him : i ≤ m := (place_le_iff (Nat.le_trans hij hj) hm).mp hs
      have hnj : n ≤ j := (place_le_iff hn hj).mp ht
      have := (Range.covers_iff hm hn hx).mp hc
      omega

theorem outside_insertion {new : String} (hm : Moved (.insertion (place text i) new) ranges ranges')
    (hi : i ≤ text.length)
    (hin : ∃ r ∈ ranges, r.start ≤ place text i ∧ place text i ≤ r.stop ∧
      r.shift (.insertion (place text i) new) true ∈ ranges') :
    outside (text.take i ++ new.toList ++ text.drop i) ranges' = outside text ranges := by
  obtain ⟨r, hr, hstart, hstop, hmem⟩ := hin
  have hlen : (text.take i).length = i := List.length_take_of_le hi
  have hnew : ∀ x, i ≤ x → x < i + new.toList.length →
      (ranges'.any (·.covers (place (text.take i ++ new.toList ++ text.drop i) x))) = true := by
    intro x hix hx
    obtain ⟨m, n, hmn, hn, rfl⟩ := hon r hr
    have hmi : m ≤ i := (place_le_iff (Nat.le_trans hmn hn) hi).mp hstart
    have hin : i ≤ n := (place_le_iff hi hn).mp hstop
    exact List.any_eq_true.mpr ⟨_, hmem, Range.covers_inserted hi hmi hin hn new hix hx⟩
  rw [outside_eq, outside_eq]
  conv => rhs; rw [← List.take_append_drop i text, sift_append, List.take_append_drop]
  rw [sift_append, sift_append, List.length_append, hlen, Nat.zero_add, sift_eq_nil new.toList, List.append_nil]
  · congr 1
    · refine sift_congr _ 0 0 fun n hn => ?_
      rw [hlen] at hn
      rw [Nat.zero_add, ← hm.covers_insertion hon hi (by omega), if_pos hn]
    · refine sift_congr _ _ _ fun n hn => ?_
      rw [List.length_drop] at hn
      have hpos : i + new.toList.length + n = i + n + new.toList.length := by omega
      rw [Nat.zero_add, ← hm.covers_insertion hon hi (by omega), if_neg (by omega), hpos]
  · intro n hn
    rw [hnew (i + n) (by omega) (by omega)]
    rfl

theorem outside_removal {old : String} (hm : Moved (.removal ⟨place text i, place text j⟩ old) ranges ranges')
    (hij : i ≤ j) (hj : j ≤ text.length) (hin : ∃ r ∈ ranges, r.start ≤ place text i ∧ place text j ≤ r.stop) :
    outside (text.take i ++ text.drop j) ranges' = outside text ranges := by
  obtain ⟨r, hr, hstart, hstop⟩ := hin
  have hi := Nat.le_trans hij hj
  -- What is removed was held.
  have hgone : ∀ x, i ≤ x → x < j → ranges.any (·.covers (place text x)) = true := by
    intro x hix hx
    obtain ⟨m, n, hmn, hn, rfl⟩ := hon r hr
    have hmi : m ≤ i := (place_le_iff (Nat.le_trans hmn hn) hi).mp hstart
    have hjn : j ≤ n := (place_le_iff hj hn).mp hstop
    refine List.any_eq_true.mpr ⟨_, hr, (Range.covers_iff (Nat.le_trans hmn hn) hn (by omega)).mpr ?_⟩
    omega
  rw [outside_eq, outside_eq]
  refine sift_removed hij hj (fun x hix hx => ?_) (fun x hx => ?_) fun x hjx hx => ?_
  · rw [hgone x hix hx]
    rfl
  · rw [← hm.covers_removal hon hij hj (by omega) (.inl hx), if_pos hx]
  · rw [← hm.covers_removal hon hij hj (by omega) (.inr hjx), if_neg (by omega)]

/-- A change in a range that takes it is not seen outside of the ranges. -/
theorem outside_moved (h : Delta.Applies text d text') (hm : Moved d ranges ranges')
    (hin : ∃ r ∈ ranges, r.start ≤ d.start ∧ (d.action = .insert → d.start ≤ r.stop ∧ r.shift d true ∈ ranges') ∧
      (d.action = .remove → d.stop ≤ r.stop)) :
    outside text' ranges' = outside text ranges := by
  obtain ⟨r, hr, hstart, hinsert, hremove⟩ := hin
  cases h with
  | insertion new hi => exact outside_insertion hon hm hi ⟨r, hr, hstart, hinsert rfl⟩
  | removal hij hj => exact outside_removal hon hm hij hj ⟨r, hr, hstart, hremove rfl⟩

end

end Scribe
