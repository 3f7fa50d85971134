import Scribe.Proofs.Buffer.Ranges

/-!
# Ranges that overlap

A range that overlaps with another one does not read the same when the other one is rewritten: it keeps what stands
around the other one, or loses what it had in common with it.
-/

namespace Scribe

open Position (place place_lt_iff place_le_iff place_inj)

namespace Delta

theorem piece_append {text : List Char} {a m n : Nat} (ham : a ≤ m) (hmn : m ≤ n) (hn : n ≤ text.length) :
    (text.take m).drop a ++ (text.take n).drop m = (text.take n).drop a := by
  have hlen : (text.take m).length = m := List.length_take_of_le (by omega)
  have htake : text.take n = text.take m ++ (text.take n).drop m := by
    conv => lhs; rw [← List.take_append_drop m (text.take n), List.take_take, Nat.min_eq_left hmn]
  conv => rhs; rw [htake]
  rw [List.drop_append_of_le_length (by omega)]

end Delta

namespace Range

open Delta (pastInsertion pastRemoval length_inserted length_removed pastRemoval_of_le piece_append)

/-- What becomes of a range that reads `source` while another one, with which it overlaps and which reads `old`, is
rewritten. -/
inductive Struck (source old : List Char) : List Char → Range → Range → Prop
  /-- The other one stands inside of it. -/
  | around {text : List Char} {a m n z : Nat} : a < m → m ≤ n → n < z → z ≤ text.length →
    (text.take m).drop a ++ old ++ (text.take z).drop n = source →
    Struck source old text ⟨place text a, place text z⟩ ⟨place text m, place text n⟩
  /-- The other one begins before it, or ends behind it, and has not been rewritten. -/
  | across {text : List Char} {a m n z : Nat} : a < z → m < n → a < n → m < z → m ≤ a ∨ z ≤ n → z ≤ text.length →
    n ≤ text.length → (text.take z).drop a = source → (text.take n).drop m = old →
    Struck source old text ⟨place text a, place text z⟩ ⟨place text m, place text n⟩
  /-- It has lost what it had in common with the other one. -/
  | beside {text : List Char} {p r : Range} {piece : List Char} : r.Apart p → p.Reads text piece →
    piece.length < source.length → Struck source old text p r

variable {source old text text' : List Char} {p r : Range} {d : Delta}

theorem struck_of_not_apart (hp : p.Reads text source) (hr : r.Reads text old) (hne : source ≠ [])
    (h : ¬ r.Apart p) : Struck source old text p r := by
  obtain ⟨a, z, haz, hz, rfl, hsource⟩ := hp
  obtain ⟨m, n, hmn, hn, rfl, hold⟩ := hr
  have ha := Nat.le_trans haz hz
  have hm := Nat.le_trans hmn hn
  have hpos : a < z := by
    rcases Nat.lt_or_eq_of_le haz with hlt | rfl
    · exact hlt
    · rw [List.drop_eq_nil_of_le (by rw [List.length_take]; exact Nat.min_le_left _ _)] at hsource
      exact absurd hsource.symm hne
  have han : a < n := by
    by_contra hle
    exact h (.inl ((place_le_iff hn ha).mpr (Nat.le_of_not_lt hle)))
  have hmz : m < z := by
    by_contra hle
    exact h (.inr ((place_le_iff hz hm).mpr (Nat.le_of_not_lt hle)))
  by_cases hin : a < m ∧ n < z
  · refine .around hin.1 hmn hin.2 hz ?_
    rw [← hold, piece_append (Nat.le_of_lt hin.1) hmn hn,
      piece_append (Nat.le_trans (Nat.le_of_lt hin.1) hmn) (Nat.le_of_lt hin.2) hz, hsource]
  · exact .across hpos (by omega) han hmz (by omega) hz hn hsource hold

theorem Struck.shift_removal (h : Struck source old text p r) (happ : Delta.Applies text d text')
    (hd : d.action = .remove) (hr : r = ⟨d.start, d.stop⟩) (absorbs absorbs' : Bool) :
    Struck source old text' (p.shift d absorbs) (r.shift d absorbs') := by
  cases h with
  | @around a m n z ham hmn hnz hz hsource =>
    cases happ with
    | insertion => cases hd
    | @removal i j hij hj =>
      have hn : n ≤ text.length := Nat.le_trans (Nat.le_of_lt hnz) hz
      have hm := Nat.le_trans hmn hn
      rw [Range.mk.injEq] at hr
      obtain rfl : m = i := (place_inj hm (Nat.le_trans hij hj)).mp hr.1
      obtain rfl : n = j := (place_inj hn hj).mp hr.2
      rw [Range.shift_removal hij hj (by omega) hz, Range.shift_removal hij hj hmn hn,
        pastRemoval_of_le (Nat.le_of_lt hnz), pastRemoval_of_le (Nat.le_refl n), show pastRemoval m n a = a from if_pos (Nat.le_of_lt ham),
        show pastRemoval m n m = m from if_pos (Nat.le_refl m)]
      refine .around ham (by omega) (by omega) ?_ ?_
      · rw [length_removed hij hj]
        omega
      · have hpost := Delta.piece_after_removal hij hj (Nat.le_refl n) (Nat.le_of_lt hnz)
        rw [Delta.piece_before hm (Nat.le_refl m), ← hsource, hpost]
  | @across a m n z haz hmn han hmz hout hz hn hsource hold =>
    cases happ with
    | insertion => cases hd
    | @removal i j hij hj =>
      have hm : m ≤ text.length := Nat.le_trans (Nat.le_of_lt hmn) hn
      rw [Range.mk.injEq] at hr
      obtain rfl : m = i := (place_inj hm (Nat.le_trans hij hj)).mp hr.1
      obtain rfl : n = j := (place_inj hn hj).mp hr.2
      have hlen := length_removed hij hj
      have hca := Delta.pastRemoval_cases m n a
      have hcz := Delta.pastRemoval_cases m n z
      rw [Range.shift_removal hij hj (Nat.le_of_lt haz) hz, Range.shift_removal hij hj hij hj,
        pastRemoval_of_le (Nat.le_refl n), show pastRemoval m n m = m from if_pos (Nat.le_refl m)]
      refine .beside ?_ ⟨_, _, ?_, ?_, rfl, rfl⟩ ?_
      · rcases hout with hma | hzn
        · exact .inl ((place_le_iff (by omega) (by omega)).mpr (by omega))
        · exact .inr ((place_le_iff (by omega) (by omega)).mpr (by omega))
      · omega
      · omega
      · rw [← hsource]
        simp only [List.length_drop, List.length_take]
        omega
  | beside hap hp hlt =>
    have hon : r.On text := by
      cases happ with
      | insertion => cases hd
      | removal hij hj => exact ⟨_, _, hij, hj, hr⟩
    refine .beside (hap.shift_removal happ hd hon hp.on _ _) (hp.shift_removal happ hd ?_ _) hlt
    rw [hr] at hap
    exact hap.symm

theorem Struck.shift_insertion (h : Struck source old text p r) (happ : Delta.Applies text d text')
    (hd : d.action = .insert) (hr : r = .point d.start) :
    Struck source old text' (p.shift d false) (r.shift d true) := by
  cases h with
  | @around a m n z ham hmn hnz hz hsource =>
    cases happ with
    | removal => cases hd
    | @insertion i new hi =>
      have hn : n ≤ text.length := Nat.le_trans (Nat.le_of_lt hnz) hz
      have hm := Nat.le_trans hmn hn
      unfold Range.point at hr
      rw [Range.mk.injEq] at hr
      obtain rfl : m = i := (place_inj hm hi).mp hr.1
      obtain rfl : n = m := (place_inj hn hi).mp hr.2
      have ha : pastInsertion n new.toList.length false a = a := if_pos (.inl ham)
      have hz' : pastInsertion n new.toList.length (!false) z = z + new.toList.length := if_neg (by omega)
      have hstart : pastInsertion n new.toList.length true n = n := if_pos (.inr ⟨rfl, rfl⟩)
      have hstop : pastInsertion n new.toList.length (!true) n = n + new.toList.length := if_neg (by simp)
      rw [Range.shift_insertion hi (by omega) hz, Range.shift_insertion hi hmn hn, ha, hz', hstart, hstop,
        Nat.max_eq_right (by omega), Nat.max_eq_right (by omega)]
      refine .around ham (by omega) (by omega) ?_ ?_
      · rw [length_inserted hi]
        omega
      · have hpost := Delta.piece_after_insertion (n := z) hi (Nat.le_refl n) new.toList
        rw [hpost, List.append_assoc (text.take n), Delta.piece_before hi (Nat.le_refl n), hsource]
  | @across a m n z haz hmn han hmz hout hz hn hsource hold =>
    -- It is not empty.
    unfold Range.point at hr
    rw [Range.mk.injEq] at hr
    have := (place_inj (Nat.le_trans (Nat.le_of_lt hmn) hn) hn).mp (hr.1.trans hr.2.symm)
    omega
  | beside hap hp hlt =>
    have hon : r.On text := by
      cases happ with
      | removal => cases hd
      | @insertion i new hi => exact ⟨_, _, Nat.le_refl _, hi, hr⟩
    refine .beside (hap.symm.shift_point happ hd hp.on hon hr).symm (hp.shift_insertion happ hd ?_) hlt
    rw [hr] at hap
    exact hap.symm

/-- When the other range has got its text, the range does not read `source` any more. -/
theorem Struck.ne (h : Struck source old text p r) {value piece : List Char} (hr : r.Reads text value)
    (hne : value ≠ old) (hp : p.Reads text piece) : piece ≠ source := by
  cases h with
  | @around a m n z ham hmn hnz hz hsource =>
    have ham' := Nat.le_of_lt ham
    have hnz' := Nat.le_of_lt hnz
    have hn := Nat.le_trans hnz' hz
    obtain rfl := hr.unique ⟨m, n, hmn, hn, rfl, rfl⟩
    obtain rfl := hp.unique ⟨a, z, Nat.le_trans ham' (Nat.le_trans hmn hnz'), hz, rfl, rfl⟩
    rw [← hsource, ← piece_append (Nat.le_trans ham' hmn) hnz' hz, ← piece_append ham' hmn hn]
    intro he
    exact hne (List.append_cancel_left (List.append_cancel_right he))
  | @across a m n z haz hmn han hmz hout hz hn hsource hold =>
    exact absurd (hr.unique ⟨m, n, Nat.le_of_lt hmn, hn, rfl, hold⟩) hne
  | beside hap hp' hlt =>
    obtain rfl := hp.unique hp'
    rintro rfl
    exact absurd hlt (Nat.lt_irrefl _)

end Range

end Scribe
