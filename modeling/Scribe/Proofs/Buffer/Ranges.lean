import Scribe.Proofs.Buffer.Places
import Scribe.Session.Tabstop

/-!
# Ranges of a text

A change of the text moves a range with it. Ranges that stand one behind the other stay so, unless one of them
takes what is inserted where they meet, and a range reads the same as long as the change happens outside of it.
-/

namespace Scribe

open Position (place place_lt_iff place_le_iff place_inj)

namespace Range

/-- A range of a text, from one of its places to a later one. -/
def On (text : List Char) (r : Range) : Prop :=
  ∃ m n, m ≤ n ∧ n ≤ text.length ∧ r = ⟨place text m, place text n⟩

/-- A range of a text, and what stands in it. -/
def Reads (text : List Char) (r : Range) (piece : List Char) : Prop :=
  ∃ m n, m ≤ n ∧ n ≤ text.length ∧ r = ⟨place text m, place text n⟩ ∧ (text.take n).drop m = piece

/-- Neither of two ranges begins before the other ends. -/
def Apart (a b : Range) : Prop := a.stop ≤ b.start ∨ b.stop ≤ a.start

theorem Apart.symm {a b : Range} (h : a.Apart b) : b.Apart a := Or.symm h

instance (a b : Range) : Decidable (a.Apart b) := inferInstanceAs (Decidable (_ ∨ _))

/-- One range is inside of another one, perhaps up to its ends. -/
def Within (a b : Range) : Prop := b.start ≤ a.start ∧ a.stop ≤ b.stop

instance (a b : Range) : Decidable (a.Within b) := inferInstanceAs (Decidable (_ ∧ _))

section
variable {text : List Char} {r : Range} {piece piece' : List Char}

theorem On.reads (h : r.On text) : ∃ piece, r.Reads text piece := by
  obtain ⟨m, n, hmn, hn, rfl⟩ := h
  exact ⟨_, m, n, hmn, hn, rfl, rfl⟩

theorem Reads.on (h : r.Reads text piece) : r.On text := by
  obtain ⟨m, n, hmn, hn, rfl, -⟩ := h
  exact ⟨m, n, hmn, hn, rfl⟩

theorem Reads.unique (h : r.Reads text piece) (h' : r.Reads text piece') : piece = piece' := by
  obtain ⟨m, n, hmn, hn, rfl, rfl⟩ := h
  obtain ⟨m', n', hmn', hn', he, rfl⟩ := h'
  rw [Range.mk.injEq] at he
  have hm := (place_inj (Nat.le_trans hmn hn) (Nat.le_trans hmn' hn')).mp he.1
  have hn := (place_inj hn hn').mp he.2
  rw [hm, hn]

theorem On.start_le_stop (h : r.On text) : r.start ≤ r.stop := by
  obtain ⟨m, n, hmn, hn, rfl⟩ := h
  exact (place_le_iff (Nat.le_trans hmn hn) hn).mpr hmn

theorem Reads.nil_iff (h : r.Reads text piece) : piece = [] ↔ r.start = r.stop := by
  obtain ⟨m, n, hmn, hn, rfl, rfl⟩ := h
  show _ ↔ place text m = place text n
  rw [place_inj (Nat.le_trans hmn hn) hn, List.drop_eq_nil_iff, List.length_take]
  omega

end

end Range

/-! ## Numbers of places -/

namespace Delta

/-- The number of a place after `k` characters have been inserted at `i`. -/
def pastInsertion (i k : Nat) (stays : Bool) (x : Nat) : Nat := if x < i ∨ (x = i ∧ stays) then x else x + k

/-- The number of a place after the characters from `i` to `j` have been removed. -/
def pastRemoval (i j x : Nat) : Nat := if x ≤ i then x else if x ≤ j then i else x - (j - i)

section
variable {i j k m n length : Nat}

theorem pastInsertion_le_length (stays : Bool) (h : n ≤ length) : pastInsertion i k stays n ≤ length + k := by
  unfold pastInsertion
  split <;> omega

theorem pastInsertion_le {stays stays' : Bool} (h : m ≤ n) (hmeet : m = i → n = i → stays' = true → stays = true) :
    pastInsertion i k stays m ≤ pastInsertion i k stays' n := by
  unfold pastInsertion
  split
  · split <;> omega
  · rename_i hm
    split
    · rename_i hn
      have hmi : ¬ m < i := fun hlt => hm (.inl hlt)
      rcases hn with hlt | ⟨hni, hs⟩
      · omega
      · exact absurd (.inr ⟨by omega, hmeet (by omega) hni hs⟩) hm
    · omega

theorem pastRemoval_cases (i j n : Nat) : (n ≤ i ∧ pastRemoval i j n = n) ∨
    (i < n ∧ n ≤ j ∧ pastRemoval i j n = i) ∨ (i < n ∧ j < n ∧ pastRemoval i j n = n - (j - i)) := by
  unfold pastRemoval
  split
  · omega
  · split <;> omega

theorem pastRemoval_le_length (hij : i ≤ j) (hj : j ≤ length) (h : n ≤ length) :
    pastRemoval i j n ≤ length - (j - i) := by
  have := pastRemoval_cases i j n
  omega

theorem pastRemoval_le (hij : i ≤ j) (h : m ≤ n) : pastRemoval i j m ≤ pastRemoval i j n := by
  have hm := pastRemoval_cases i j m
  have hn := pastRemoval_cases i j n
  omega

theorem pastRemoval_of_le (h : j ≤ n) : pastRemoval i j n = n - (j - i) := by
  have := pastRemoval_cases i j n
  omega

end

section
variable {text : List Char} {i j m n : Nat}

theorem length_inserted (hi : i ≤ text.length) (new : List Char) :
    (text.take i ++ new ++ text.drop i).length = text.length + new.length := by
  simp only [List.length_append, List.length_take, List.length_drop]
  omega

theorem length_removed (hij : i ≤ j) (hj : j ≤ text.length) :
    (text.take i ++ text.drop j).length = text.length - (j - i) := by
  simp only [List.length_append, List.length_take, List.length_drop]
  omega

theorem pastInsertion_le_inserted (hi : i ≤ text.length) (hn : n ≤ text.length) (new : List Char) (stays : Bool) :
    pastInsertion i new.length stays n ≤ (text.take i ++ new ++ text.drop i).length := by
  rw [length_inserted hi]
  exact pastInsertion_le_length stays hn

theorem max_pastInsertion_le_inserted (hi : i ≤ text.length) (hmn : m ≤ n) (hn : n ≤ text.length) (new : List Char)
    (stays stays' : Bool) : max (pastInsertion i new.length stays m) (pastInsertion i new.length stays' n) ≤
      (text.take i ++ new ++ text.drop i).length :=
  Nat.max_le.mpr ⟨pastInsertion_le_inserted hi (Nat.le_trans hmn hn) new stays,
    pastInsertion_le_inserted hi hn new stays'⟩

theorem pastRemoval_le_removed (hij : i ≤ j) (hj : j ≤ text.length) (hn : n ≤ text.length) :
    pastRemoval i j n ≤ (text.take i ++ text.drop j).length := by
  rw [length_removed hij hj]
  exact pastRemoval_le_length hij hj hn

theorem piece_before (hi : i ≤ text.length) (hn : n ≤ i) (rest : List Char) :
    ((text.take i ++ rest).take n).drop m = (text.take n).drop m := by
  rw [List.take_append_of_le_length (by rw [List.length_take]; omega), List.take_take, Nat.min_eq_left hn]

theorem piece_after_insertion (hi : i ≤ text.length) (him : i ≤ m) (new : List Char) :
    ((text.take i ++ new ++ text.drop i).take (n + new.length)).drop (m + new.length) = (text.take n).drop m := by
  have hlen : (text.take i ++ new).length = i + new.length := by
    rw [List.length_append, List.length_take, Nat.min_eq_left hi]
  refine List.ext_getElem? fun x => ?_
  simp only [List.getElem?_drop, List.getElem?_take]
  rw [List.getElem?_append_right (by omega), List.getElem?_drop, hlen]
  have hx : i + (m + new.length + x - (i + new.length)) = m + x := by omega
  rw [hx]
  split <;> split <;> first | rfl | omega

theorem piece_after_removal (hij : i ≤ j) (hj : j ≤ text.length) (hjm : j ≤ m) (hmn : m ≤ n) :
    ((text.take i ++ text.drop j).take (n - (j - i))).drop (m - (j - i)) = (text.take n).drop m := by
  have hlen : (text.take i).length = i := List.length_take_of_le (by omega)
  refine List.ext_getElem? fun x => ?_
  simp only [List.getElem?_drop, List.getElem?_take]
  rw [List.getElem?_append_right (by omega), List.getElem?_drop, hlen]
  have hx : j + (m - (j - i) + x - i) = m + x := by omega
  rw [hx]
  split <;> split <;> first | rfl | omega

end

end Delta

/-! ## Shifting ranges -/

namespace Range

open Delta (pastInsertion pastRemoval Applies pastInsertion_le pastInsertion_le_inserted max_pastInsertion_le_inserted
  pastRemoval_le pastRemoval_le_removed pastRemoval_of_le length_inserted)

section
variable {text : List Char} {i j m n : Nat}

theorem shift_insertion (hi : i ≤ text.length) (hmn : m ≤ n) (hn : n ≤ text.length) (new : String) (absorbs : Bool) :
    (Range.mk (place text m) (place text n)).shift (.insertion (place text i) new) absorbs =
      ⟨place (text.take i ++ new.toList ++ text.drop i) (pastInsertion i new.toList.length absorbs m),
        place (text.take i ++ new.toList ++ text.drop i) (max (pastInsertion i new.toList.length absorbs m)
          (pastInsertion i new.toList.length (!absorbs) n))⟩ := by
  have hstart := pastInsertion_le_inserted hi (Nat.le_trans hmn hn) new.toList absorbs
  have hstop := pastInsertion_le_inserted hi hn new.toList (!absorbs)
  unfold shift
  rw [Delta.place_shift_insertion hi (Nat.le_trans hmn hn), Delta.place_shift_insertion hi hn]
  change Range.mk (place _ (pastInsertion _ _ _ _))
    (if place _ (pastInsertion _ _ _ _) < place _ (pastInsertion _ _ _ _) then place _ (pastInsertion _ _ _ _)
      else place _ (pastInsertion _ _ _ _)) = _
  by_cases h : pastInsertion i new.toList.length (!absorbs) n < pastInsertion i new.toList.length absorbs m
  · rw [if_pos ((place_lt_iff hstop hstart).mpr h), Nat.max_eq_left (Nat.le_of_lt h)]
  · rw [if_neg fun hlt => h ((place_lt_iff hstop hstart).mp hlt), Nat.max_eq_right (Nat.le_of_not_lt h)]

theorem shift_removal (hij : i ≤ j) (hj : j ≤ text.length) (hmn : m ≤ n) (hn : n ≤ text.length) (old : String)
    (absorbs : Bool) :
    (Range.mk (place text m) (place text n)).shift (.removal ⟨place text i, place text j⟩ old) absorbs =
      ⟨place (text.take i ++ text.drop j) (pastRemoval i j m),
        place (text.take i ++ text.drop j) (pastRemoval i j n)⟩ := by
  have hle := pastRemoval_le hij hmn
  have hstop := pastRemoval_le_removed hij hj hn
  unfold shift
  rw [Delta.place_shift_removal hij hj (Nat.le_trans hmn hn), Delta.place_shift_removal hij hj hn]
  change Range.mk (place _ (pastRemoval _ _ _))
    (if place _ (pastRemoval _ _ _) < place _ (pastRemoval _ _ _) then place _ (pastRemoval _ _ _)
      else place _ (pastRemoval _ _ _)) = _
  rw [if_neg (Position.not_lt.mpr ((place_le_iff (Nat.le_trans hle hstop) hstop).mpr hle))]

end

section
variable {text text' : List Char} {d : Delta}

theorem On.shift {r : Range} (hr : r.On text) (h : Applies text d text') (absorbs : Bool) :
    (r.shift d absorbs).On text' := by
  obtain ⟨m, n, hmn, hn, rfl⟩ := hr
  cases h with
  | @insertion i new hi =>
    rw [shift_insertion hi hmn hn]
    exact ⟨_, _, Nat.le_max_left _ _, max_pastInsertion_le_inserted hi hmn hn new.toList absorbs _, rfl⟩
  | @removal i j hij hj =>
    rw [shift_removal hij hj hmn hn]
    exact ⟨_, _, pastRemoval_le hij hmn, pastRemoval_le_removed hij hj hn, rfl⟩

/-- Two ranges, one behind the other, stay so; only if they meet where a text is inserted and the second one
takes it must the first one leave it and have a text of its own. -/
theorem stop_le_start_shift (h : Applies text d text') {a b : Range} (ha : a.On text) (hb : b.On text)
    (hab : a.stop ≤ b.start) (absorbs absorbs' : Bool)
    (hmeet : d.action = .insert → absorbs' = true → a.stop = d.start → b.start = d.start →
      absorbs = false ∧ a.start ≠ d.start) :
    (a.shift d absorbs).stop ≤ (b.shift d absorbs').start := by
  obtain ⟨m, n, hmn, hn, rfl⟩ := ha
  obtain ⟨p, q, hpq, hq, rfl⟩ := hb
  have hnp : n ≤ p := (place_le_iff hn (Nat.le_trans hpq hq)).mp hab
  cases h with
  | @insertion i new hi =>
    have hmeet' : absorbs' = true → n = i → p = i → absorbs = false ∧ m ≠ i := by
      intro hx hni hpi
      subst hni hpi
      obtain ⟨hf, hne⟩ := hmeet rfl hx rfl rfl
      exact ⟨hf, fun he => hne (by rw [he]; rfl)⟩
    rw [shift_insertion hi hmn hn, shift_insertion hi hpq hq]
    refine (place_le_iff ?_ ?_).mpr (Nat.max_le.mpr ⟨?_, ?_⟩)
    · exact max_pastInsertion_le_inserted hi hmn hn new.toList _ _
    · exact pastInsertion_le_inserted hi (Nat.le_trans hpq hq) new.toList _
    · exact pastInsertion_le (Nat.le_trans hmn hnp) fun hm hp hx => absurd hm (hmeet' hx (by omega) hp).2
    · exact pastInsertion_le hnp fun hn' hp hx => by simp [(hmeet' hx hn' hp).1]
  | @removal i j hij hj =>
    rw [shift_removal hij hj hmn hn, shift_removal hij hj hpq hq]
    exact (place_le_iff (pastRemoval_le_removed hij hj hn)
      (pastRemoval_le_removed hij hj (Nat.le_trans hpq hq))).mpr (pastRemoval_le hij hnp)

/-- Two ranges that meet where a text is inserted overlap then if the second one takes it, and the first one takes it
too or is empty. -/
theorem not_stop_le_start_shift (h : Applies text d text') {a b : Range} (ha : a.On text) (hb : b.On text)
    (hd : d.action = .insert) (htext : d.text ≠ "") (hstop : a.stop = d.start) (hstart : b.start = d.start)
    {absorbs : Bool} (htakes : absorbs = true ∨ a.start = d.start) :
    ¬ (a.shift d absorbs).stop ≤ (b.shift d true).start := by
  obtain ⟨m, n, hmn, hn, rfl⟩ := ha
  obtain ⟨p, q, hpq, hq, rfl⟩ := hb
  have hm := Nat.le_trans hmn hn
  cases h with
  | @insertion i new hi =>
    have hlen : 0 < new.toList.length := by
      rw [List.length_pos_iff, ne_eq, String.toList_eq_nil_iff]
      exact htext
    have hni : n = i := (place_inj hn hi).mp hstop
    have hpi : p = i := (place_inj (Nat.le_trans hpq hq) hi).mp hstart
    have hmi : absorbs = true ∨ m = i := htakes.imp_right (place_inj hm hi).mp
    rw [shift_insertion hi hmn hn, shift_insertion hi hpq hq,
      place_le_iff (max_pastInsertion_le_inserted hi hmn hn new.toList _ _)
        (pastInsertion_le_inserted hi (Nat.le_trans hpq hq) new.toList _)]
    unfold pastInsertion
    rcases hmi with rfl | rfl
    · simp only [hni, hpi, Bool.not_true, Bool.false_eq_true, and_false, and_true, or_false, or_true]
      split_ifs <;> omega
    · cases absorbs <;> simp only [hni, hpi, Bool.not_true, Bool.not_false, Bool.false_eq_true, and_false, and_true,
        or_false, or_true] <;> split_ifs <;> omega
  | removal => cases hd

theorem Apart.shift_removal {a b : Range} (hab : a.Apart b) (h : Applies text d text') (hd : d.action = .remove)
    (ha : a.On text) (hb : b.On text) (absorbs absorbs' : Bool) :
    (a.shift d absorbs).Apart (b.shift d absorbs') := by
  have hne : ¬ d.action = .insert := by simp [hd]
  rcases hab with hab | hab
  · exact .inl (stop_le_start_shift h ha hb hab _ _ fun hi => absurd hi hne)
  · exact .inr (stop_le_start_shift h hb ha hab _ _ fun hi => absurd hi hne)

/-- An empty range leaves a text that another empty range takes, and comes after it. -/
theorem stop_le_start_of_empty (h : Applies text d text') (hd : d.action = .insert) {a b : Range}
    (ha : a = .point d.start) (hb : b = .point d.start) :
    (b.shift d true).stop ≤ (a.shift d false).start := by
  cases h with
  | @insertion i new hi =>
    subst ha hb
    show ((Range.mk (place text i) (place text i)).shift _ true).stop ≤
      ((Range.mk (place text i) (place text i)).shift _ false).start
    rw [shift_insertion hi (Nat.le_refl i) hi, shift_insertion hi (Nat.le_refl i) hi]
    simp [pastInsertion, Position.le_refl]
  | removal => cases hd

theorem Apart.shift_point {a b : Range} (hab : a.Apart b) (h : Applies text d text') (hd : d.action = .insert)
    (ha : a.On text) (hbon : b.On text) (hb : b = .point d.start) : (a.shift d false).Apart (b.shift d true) := by
  rcases hab with hle | hle
  · by_cases hstart : a.start = d.start
    · have hpoint : a = .point d.start := by
        have hge := ha.start_le_stop
        rw [hb] at hle
        cases a with
        | mk start stop =>
          obtain rfl : start = d.start := hstart
          exact congrArg (Range.mk d.start) (Position.le_antisymm hle hge)
      exact .inr (stop_le_start_of_empty h hd hpoint hb)
    · exact .inl (stop_le_start_shift h ha hbon hle _ _ fun _ _ _ _ => ⟨rfl, hstart⟩)
  · exact .inr (stop_le_start_shift h hbon ha hle _ _ fun _ hf => by cases hf)

/-! ## One inside of another -/

theorem within_place_iff {m n p q : Nat} (hmn : m ≤ n) (hn : n ≤ text.length) (hpq : p ≤ q) (hq : q ≤ text.length) :
    (Range.mk (place text m) (place text n)).Within ⟨place text p, place text q⟩ ↔ p ≤ m ∧ n ≤ q :=
  and_congr (place_le_iff (Nat.le_trans hpq hq) (Nat.le_trans hmn hn)) (place_le_iff hn hq)

/-- The ends of a range inside of another one stand between the ends of that one. -/
theorem Within.exists_places {a b : Range} (hab : a.Within b) (ha : a.On text) (hb : b.On text) :
    ∃ p m n q, p ≤ m ∧ m ≤ n ∧ n ≤ q ∧ q ≤ text.length ∧
      a = ⟨place text m, place text n⟩ ∧ b = ⟨place text p, place text q⟩ := by
  obtain ⟨m, n, hmn, hn, rfl⟩ := ha
  obtain ⟨p, q, hpq, hq, rfl⟩ := hb
  obtain ⟨hpm, hnq⟩ := (within_place_iff hmn hn hpq hq).mp hab
  exact ⟨p, m, n, q, hpm, hmn, hnq, hq, rfl, rfl⟩

theorem within_shift_insertion_iff {i m n p q : Nat} (hi : i ≤ text.length) (hmn : m ≤ n) (hn : n ≤ text.length)
    (hpq : p ≤ q) (hq : q ≤ text.length) (new : String) (absorbs absorbs' : Bool) :
    ((Range.mk (place text m) (place text n)).shift (.insertion (place text i) new) absorbs).Within
        ((Range.mk (place text p) (place text q)).shift (.insertion (place text i) new) absorbs') ↔
      pastInsertion i new.toList.length absorbs' p ≤ pastInsertion i new.toList.length absorbs m ∧
        max (pastInsertion i new.toList.length absorbs m) (pastInsertion i new.toList.length (!absorbs) n) ≤
          max (pastInsertion i new.toList.length absorbs' p) (pastInsertion i new.toList.length (!absorbs') q) := by
  rw [shift_insertion hi hmn hn, shift_insertion hi hpq hq]
  exact within_place_iff (Nat.le_max_left _ _) (max_pastInsertion_le_inserted hi hmn hn new.toList _ _)
    (Nat.le_max_left _ _) (max_pastInsertion_le_inserted hi hpq hq new.toList _ _)

/-- A range inside of another one stays there, unless a text is inserted at an end of the outer one. -/
theorem Within.shift {a b : Range} (hab : a.Within b) (h : Applies text d text') (ha : a.On text) (hb : b.On text)
    (hends : d.action = .insert → d.text ≠ "" → b.start ≠ d.start ∧ b.stop ≠ d.start) (absorbs absorbs' : Bool) :
    (a.shift d absorbs).Within (b.shift d absorbs') := by
  obtain ⟨p, m, n, q, hpm, hmn, hnq, hq, rfl, rfl⟩ := hab.exists_places ha hb
  have hn := Nat.le_trans hnq hq
  have hpq := Nat.le_trans hpm (Nat.le_trans hmn hnq)
  cases h with
  | @insertion i new hi =>
    -- No decision is needed at the ends of the outer one.
    have hends' : new.toList.length = 0 ∨ (p ≠ i ∧ q ≠ i) := by
      by_cases hnew : new = ""
      · exact .inl (by rw [hnew]; rfl)
      · obtain ⟨hstart, hstop⟩ := hends rfl hnew
        exact .inr ⟨fun he => hstart (by rw [he]; rfl), fun he => hstop (by rw [he]; rfl)⟩
    have hpast : ∀ {x y : Nat} (stays stays' : Bool), x ≤ y → (x = i → y = i → new.toList.length = 0) →
        pastInsertion i new.toList.length stays x ≤ pastInsertion i new.toList.length stays' y := by
      intro x y stays stays' hxy hmeet
      unfold pastInsertion
      split <;> split <;> omega
    rw [within_shift_insertion_iff hi hmn hn hpq hq]
    refine ⟨hpast _ _ hpm (by omega), Nat.max_le.mpr ⟨?_, ?_⟩⟩
    · exact Nat.le_trans (hpast _ _ (Nat.le_trans hmn hnq) (by omega)) (Nat.le_max_right _ _)
    · exact Nat.le_trans (hpast _ _ hnq (by omega)) (Nat.le_max_right _ _)
  | @removal i j hij hj =>
    rw [shift_removal hij hj hmn hn, shift_removal hij hj hpq hq, within_place_iff (pastRemoval_le hij hmn)
      (pastRemoval_le_removed hij hj hn) (pastRemoval_le hij hpq) (pastRemoval_le_removed hij hj hq)]
    exact ⟨pastRemoval_le hij hpm, pastRemoval_le hij hnq⟩

/-- A range that takes a text inserted where an outer one that does not take it ends or begins gets out of it. -/
theorem not_within_shift {a b : Range} (hab : a.Within b) (h : Applies text d text') (ha : a.On text) (hb : b.On text)
    (hd : d.action = .insert) (htext : d.text ≠ "") (hstart : a.start ≤ d.start) (hstop : d.start ≤ a.stop)
    (hend : b.start = d.start ∨ b.stop = d.start) : ¬ (a.shift d true).Within (b.shift d false) := by
  obtain ⟨p, m, n, q, hpm, hmn, hnq, hq, rfl, rfl⟩ := hab.exists_places ha hb
  have hn := Nat.le_trans hnq hq
  have hpq := Nat.le_trans hpm (Nat.le_trans hmn hnq)
  cases h with
  | @insertion i new hi =>
    have hmi := (place_le_iff (Nat.le_trans hmn hn) hi).mp hstart
    have hin := (place_le_iff hi hn).mp hstop
    have hlen : 0 < new.toList.length := by
      rw [List.length_pos_iff, ne_eq, String.toList_eq_nil_iff]
      exact htext
    have hend' : p = i ∨ q = i := hend.imp (place_inj (Nat.le_trans hpq hq) hi).mp (place_inj hq hi).mp
    rw [within_shift_insertion_iff hi hmn hn hpq hq]
    simp only [pastInsertion, Bool.not_true, Bool.not_false, Bool.false_eq_true, and_false, and_true, or_false]
    split_ifs <;> omega
  | removal => cases hd

/-- A range around a change, of which all is removed or which is empty and gets a text. -/
theorem around_written {r : Range} (hremove : d.action = .remove → r = ⟨d.start, d.stop⟩)
    (hinsert : d.action = .insert → r = .point d.start) :
    r.start ≤ d.start ∧ (d.action = .insert → d.start ≤ r.stop) ∧ (d.action = .remove → d.stop ≤ r.stop) := by
  refine ⟨?_, fun hd => ?_, fun hd => ?_⟩
  · cases hd : d.action with
    | remove => rw [hremove hd]; exact Position.le_refl _
    | insert => rw [hinsert hd]; exact Position.le_refl _
  · rw [hinsert hd]
    exact Position.le_refl _
  · rw [hremove hd]
    exact Position.le_refl _

/-- The ends of a range that does not touch the place of a change need no decision. -/
theorem shift_eq_of_not_touching {r : Range} (h : d.action = .insert → r.start ≠ d.start ∧ r.stop ≠ d.start)
    (absorbs absorbs' : Bool) : r.shift d absorbs = r.shift d absorbs' := by
  have hshift : ∀ p : Position, (d.action = .insert → p ≠ d.start) →
      ∀ stays stays', d.shift p stays = d.shift p stays' := by
    intro p hp stays stays'
    unfold Delta.shift
    cases hd : d.action with
    | insert => simp [hp hd]
    | remove => rfl
  unfold shift
  rw [hshift r.start (fun hd => (h hd).1) absorbs absorbs', hshift r.stop (fun hd => (h hd).2) (!absorbs) (!absorbs')]

/-! ## What ranges read -/

theorem Reads.shift_insertion {r : Range} {piece : List Char} (hr : r.Reads text piece) (h : Applies text d text')
    (hd : d.action = .insert) (hout : r.stop ≤ d.start ∨ d.start ≤ r.start) :
    (r.shift d false).Reads text' piece := by
  obtain ⟨m, n, hmn, hn, rfl, rfl⟩ := hr
  cases h with
  | @insertion i new hi =>
    have hm := Nat.le_trans hmn hn
    have hout' : n ≤ i ∨ i ≤ m := hout.imp (place_le_iff hn hi).mp (place_le_iff hi hm).mp
    rw [Range.shift_insertion hi hmn hn]
    refine ⟨_, _, Nat.le_max_left _ _, max_pastInsertion_le_inserted hi hmn hn new.toList _ _, rfl, ?_⟩
    by_cases hmi : m < i
    · have hni : n ≤ i := by omega
      have hm' : pastInsertion i new.toList.length false m = m := by simp [pastInsertion, hmi]
      have hn' : pastInsertion i new.toList.length (!false) n = n := by
        simp only [pastInsertion, Bool.not_false, and_true]
        exact if_pos (by omega)
      rw [hm', hn', Nat.max_eq_right hmn, List.append_assoc, Delta.piece_before hi hni]
    · have hm' : pastInsertion i new.toList.length false m = m + new.toList.length := by simp [pastInsertion, hmi]
      have hn' : max (m + new.toList.length) (pastInsertion i new.toList.length (!false) n) =
          n + new.toList.length := by
        simp only [pastInsertion, Bool.not_false, and_true]
        split <;> omega
      rw [hm', hn', Delta.piece_after_insertion hi (by omega)]
  | removal => cases hd

theorem Reads.shift_removal {r : Range} {piece : List Char} (hr : r.Reads text piece) (h : Applies text d text')
    (hd : d.action = .remove) (hout : r.stop ≤ d.start ∨ d.stop ≤ r.start) (absorbs : Bool) :
    (r.shift d absorbs).Reads text' piece := by
  obtain ⟨m, n, hmn, hn, rfl, rfl⟩ := hr
  cases h with
  | insertion => cases hd
  | @removal i j hij hj =>
    have hm := Nat.le_trans hmn hn
    have hi := Nat.le_trans hij hj
    have hout' : n ≤ i ∨ j ≤ m := hout.imp (place_le_iff hn hi).mp (place_le_iff hj hm).mp
    rw [Range.shift_removal hij hj hmn hn]
    refine ⟨_, _, pastRemoval_le hij hmn, pastRemoval_le_removed hij hj hn, rfl, ?_⟩
    rcases hout' with hni | hjm
    · have hm' : pastRemoval i j m = m := by simp [pastRemoval, Nat.le_trans hmn hni]
      have hn' : pastRemoval i j n = n := by simp [pastRemoval, hni]
      rw [hm', hn', Delta.piece_before hi hni]
    · rw [pastRemoval_of_le hjm, pastRemoval_of_le (Nat.le_trans hjm hmn), Delta.piece_after_removal hij hj hjm hmn]

theorem Reads.shift_nil {r : Range} (hr : r.Reads text []) (h : Applies text d text') {absorbs : Bool}
    (hd : d.action = .insert → absorbs = false) : (r.shift d absorbs).Reads text' [] := by
  obtain ⟨piece, hpiece⟩ := (hr.on.shift h absorbs).reads
  have hempty : (r.shift d absorbs).start = (r.shift d absorbs).stop := by
    have hr' := hr.nil_iff.mp rfl
    obtain ⟨m, n, hmn, hn, rfl⟩ := hr.on
    obtain rfl : m = n := (place_inj (Nat.le_trans hmn hn) hn).mp hr'
    cases h with
    | @insertion i new hi =>
      obtain rfl := hd rfl
      have hle : pastInsertion i new.toList.length (!false) m ≤ pastInsertion i new.toList.length false m :=
        pastInsertion_le (Nat.le_refl m) fun _ _ _ => rfl
      rw [Range.shift_insertion hi hmn hn, Nat.max_eq_left hle]
    | removal hij hj => rw [Range.shift_removal hij hj hmn hn]
  obtain rfl := hpiece.nil_iff.mpr hempty
  exact hpiece

theorem reads_shift_point (h : Applies text d text') (hd : d.action = .insert) {r : Range} (hr : r = .point d.start) :
    (r.shift d true).Reads text' d.text.toList := by
  cases h with
  | @insertion i new hi =>
    subst hr
    show ((Range.mk (place text i) (place text i)).shift _ true).Reads _ _
    rw [Range.shift_insertion hi (Nat.le_refl i) hi]
    have hm' : pastInsertion i new.toList.length true i = i := by simp [pastInsertion]
    have hn' : pastInsertion i new.toList.length (!true) i = i + new.toList.length := by simp [pastInsertion]
    rw [hm', hn', Nat.max_eq_right (by omega)]
    refine ⟨_, _, Nat.le_add_right _ _, ?_, rfl, ?_⟩
    · rw [length_inserted hi]
      omega
    · have hlen : (text.take i).length = i := List.length_take_of_le (by omega)
      have hlen' : i + new.toList.length = (text.take i ++ new.toList).length := by rw [List.length_append, hlen]
      rw [hlen', List.take_left, List.drop_left' hlen]
      rfl
  | removal => cases hd

theorem shift_removed (h : Applies text d text') (hd : d.action = .remove) {r : Range} (hr : r = ⟨d.start, d.stop⟩)
    (absorbs : Bool) : r.shift d absorbs = .point d.start := by
  cases h with
  | insertion => cases hd
  | @removal i j hij hj =>
    subst hr
    have hi := Nat.le_trans hij hj
    show (Range.mk (place text i) (place text j)).shift _ absorbs = .point (place text i)
    rw [Range.shift_removal hij hj hij hj]
    have hplace := Position.place_take_append hi (Nat.le_refl i) (text.drop j)
    have hm' : pastRemoval i j i = i := by simp [pastRemoval]
    have hn' : pastRemoval i j j = i := by
      rw [pastRemoval_of_le (Nat.le_refl j)]
      omega
    rw [hm', hn', hplace]
    rfl

end

end Range

end Scribe
