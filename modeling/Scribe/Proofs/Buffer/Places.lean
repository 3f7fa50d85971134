import Scribe.Buffer.Delta
import Mathlib.Data.List.Induction
import Mathlib.Tactic.ByContra

/-!
# Places in a text

The places of a text are the positions at which its characters begin, and its end. They are numbered by the
characters before them, and the order of positions is the order of these numbers.
-/

namespace Scribe

namespace Position

/-! ## The order -/

theorem lt_iff {p q : Position} : p < q ↔ p.row < q.row ∨ (p.row = q.row ∧ p.column < q.column) := Iff.rfl

theorem le_iff {p q : Position} : p ≤ q ↔ p.row < q.row ∨ (p.row = q.row ∧ p.column ≤ q.column) := Iff.rfl

theorem le_refl (p : Position) : p ≤ p := .inr ⟨rfl, Nat.le_refl _⟩

theorem lt_irrefl (p : Position) : ¬ p < p := by
  rw [lt_iff]; omega

theorem le_trans {p q r : Position} (h : p ≤ q) (h' : q ≤ r) : p ≤ r := by
  rw [le_iff] at *; omega

theorem lt_of_lt_of_le {p q r : Position} (h : p < q) (h' : q ≤ r) : p < r := by
  rw [lt_iff] at *; rw [le_iff] at h'; omega

theorem lt_of_le_of_lt {p q r : Position} (h : p ≤ q) (h' : q < r) : p < r := by
  rw [lt_iff] at *; rw [le_iff] at h; omega

theorem le_of_lt {p q : Position} (h : p < q) : p ≤ q := by
  rw [lt_iff] at h; rw [le_iff]; omega

theorem le_of_not_lt {p q : Position} (h : ¬ q < p) : p ≤ q := by
  rw [lt_iff] at h; rw [le_iff]; omega

theorem not_lt {p q : Position} : ¬ q < p ↔ p ≤ q := by
  rw [lt_iff, le_iff]; omega

theorem le_antisymm {p q : Position} (h : p ≤ q) (h' : q ≤ p) : p = q := by
  obtain ⟨r, c⟩ := p
  obtain ⟨r', c'⟩ := q
  simp only [le_iff, mk.injEq] at *
  omega

/-! ## Advancing -/

@[simp] theorem advance_nil (p : Position) : p.advance [] = p := rfl

theorem advance_append (p : Position) (a b : List Char) : p.advance (a ++ b) = (p.advance a).advance b :=
  List.foldl_append

theorem advance_concat (p : Position) (a : List Char) (c : Char) : p.advance (a ++ [c]) = (p.advance a).step c :=
  advance_append p a [c]

theorem lt_step (p : Position) (c : Char) : p < p.step c := by
  unfold step
  rw [lt_iff]
  split <;> simp

theorem le_advance (p : Position) (text : List Char) : p ≤ p.advance text := by
  induction text using List.reverseRecOn with
  | nil => exact le_refl p
  | append_singleton front c ih =>
    rw [advance_concat]
    exact le_trans ih (le_of_lt (lt_step _ c))

theorem lt_advance (p : Position) {text : List Char} (h : text ≠ []) : p < p.advance text := by
  cases text with
  | nil => exact absurd rfl h
  | cons c rest => exact lt_of_lt_of_le (lt_step p c) (le_advance (p.step c) rest)

theorem advance_row (p : Position) {row : List Char} (h : '\n' ∉ row) :
    p.advance row = ⟨p.row, p.column + row.length⟩ := by
  induction row using List.reverseRecOn with
  | nil => rfl
  | append_singleton front c ih =>
    have hc : c ≠ '\n' := fun he => h (by simp [he])
    rw [advance_concat, ih fun hm => h (List.mem_append_left _ hm)]
    simp [step, hc, Nat.add_assoc]

/-- The end of a text that begins at the start. -/
def after (text : List Char) : Position := advance {} text

theorem after_append (a b : List Char) : after (a ++ b) = (after a).advance b := advance_append {} a b

theorem after_le_append (a b : List Char) : after a ≤ after (a ++ b) := by
  rw [after_append]
  exact le_advance _ _

theorem offsetBy_after (origin : Position) (text : List Char) :
    (after text).offsetBy origin = origin.advance text := by
  induction text using List.reverseRecOn with
  | nil => rfl
  | append_singleton front c ih =>
    rw [after_append, advance_concat, ← ih]
    simp only [advance, List.foldl_cons, List.foldl_nil, step, offsetBy]
    by_cases hc : c = '\n'
    · simp only [hc, if_true]
      by_cases hr : (after front).row = 0
      · simp [hr]
      · simp [hr, Nat.add_assoc]
    · simp only [hc, if_false]
      split
      · simp [Nat.add_assoc]
      · rfl

/-! ## Places -/

/-- The place before which there are `n` characters. -/
def place (text : List Char) (n : Nat) : Position := after (text.take n)

theorem place_of_length_le {text : List Char} {n : Nat} (h : text.length ≤ n) : place text n = after text := by
  rw [place, List.take_of_length_le h]

theorem advance_place (text : List Char) {m n : Nat} (h : m ≤ n) :
    (place text m).advance ((text.take n).drop m) = place text n := by
  rw [place, place, ← after_append]
  congr 1
  have : text.take m = (text.take n).take m := by rw [List.take_take, Nat.min_eq_left h]
  rw [this, List.take_append_drop]

theorem place_append_left (a b : List Char) {n : Nat} (h : n ≤ a.length) : place (a ++ b) n = place a n := by
  rw [place, place, List.take_append_of_le_length h]

theorem place_length_append (a b : List Char) : place (a ++ b) a.length = after a := by rw [place, List.take_left]

theorem place_append_right (a b : List Char) (n : Nat) :
    place (a ++ b) (a.length + n) = (after a).advance (b.take n) := by
  rw [place, List.take_length_add_append, after_append]

theorem place_take_append {text : List Char} {m n : Nat} (hn : n ≤ text.length) (hmn : m ≤ n) (rest : List Char) :
    place (text.take n ++ rest) m = place text m := by
  rw [place_append_left _ _ (by rw [List.length_take]; omega), place, place, List.take_take, Nat.min_eq_left hmn]

section
variable {text : List Char} {m n : Nat}

theorem place_lt (h : m < n) (hn : n ≤ text.length) : place text m < place text n := by
  rw [← advance_place text (Nat.le_of_lt h)]
  refine lt_advance _ fun he => ?_
  have := congrArg List.length he
  simp only [List.length_drop, List.length_take, List.length_nil] at this
  omega

theorem place_lt_iff (hm : m ≤ text.length) (hn : n ≤ text.length) : place text m < place text n ↔ m < n := by
  constructor
  · intro h
    by_contra hge
    rcases Nat.lt_or_eq_of_le (Nat.le_of_not_lt hge) with hlt | rfl
    · have := place_lt hlt hm
      rw [lt_iff] at h this
      omega
    · exact lt_irrefl _ h
  · exact fun h => place_lt h hn

theorem place_le_iff (hm : m ≤ text.length) (hn : n ≤ text.length) : place text m ≤ place text n ↔ m ≤ n := by
  rw [← not_lt, place_lt_iff hn hm, Nat.not_lt]

theorem place_inj (hm : m ≤ text.length) (hn : n ≤ text.length) : place text m = place text n ↔ m = n := by
  constructor
  · intro h
    have h₁ := (place_le_iff hm hn).mp (h ▸ le_refl _)
    have h₂ := (place_le_iff hn hm).mp (h ▸ le_refl _)
    exact Nat.le_antisymm h₁ h₂
  · rintro rfl; rfl

end

section
variable {text front front' back back' : List Char}

theorem after_lt_iff (h : front ++ back = front' ++ back') : after front < after front' ↔ front.length < front'.length := by
  have hplace := place_length_append front back
  rw [h] at hplace
  rw [← hplace, ← place_length_append front' back', place_lt_iff _ (List.prefix_append _ _).length_le]
  exact h ▸ (List.prefix_append _ _).length_le

theorem after_inj (h : front ++ back = front' ++ back') (he : after front = after front') : front = front' := by
  refine List.append_inj_left h (Nat.le_antisymm ?_ ?_)
  · exact Nat.le_of_not_lt fun hlt => lt_irrefl _ (he ▸ (after_lt_iff h.symm).mpr hlt)
  · exact Nat.le_of_not_lt fun hlt => lt_irrefl _ (he ▸ (after_lt_iff h).mpr hlt)

end

end Position

/-! ## Changes -/

namespace Delta

open Position

theorem shift_of_insert {d : Delta} (h : d.action = .insert) (p : Position) (stays : Bool) :
    d.shift p stays =
      if p < d.start ∨ (p = d.start ∧ stays) then p
      else if p.row = d.start.row then ⟨d.stop.row, d.stop.column + (p.column - d.start.column)⟩
      else ⟨p.row + d.stop.row - d.start.row, p.column⟩ := by
  unfold shift
  rw [h]

theorem shift_of_remove {d : Delta} (h : d.action = .remove) (p : Position) (stays : Bool) :
    d.shift p stays =
      if p ≤ d.start then p
      else if p ≤ d.stop then d.start
      else if p.row = d.stop.row then ⟨d.start.row, d.start.column + (p.column - d.stop.column)⟩
      else ⟨p.row - (d.stop.row - d.start.row), p.column⟩ := by
  unfold shift
  rw [h]

theorem shift_insertion_behind (s : Position) (text : String) (between : List Char) (stays : Bool)
    (h : stays = false ∨ between ≠ []) :
    (insertion s text).shift (s.advance between) stays = (s.advance text.toList).advance between := by
  have hlt : ¬ (s.advance between < (insertion s text).start ∨
      (s.advance between = (insertion s text).start ∧ stays = true)) := by
    rintro (hlt | ⟨he, hs⟩)
    · exact not_lt.mpr (le_advance s between) hlt
    · rcases h with h | h
      · rw [h] at hs; cases hs
      · exact lt_irrefl s (by simpa [he, insertion] using lt_advance s h)
  rw [shift_of_insert rfl, if_neg hlt, ← offsetBy_after s, ← offsetBy_after (s.advance text.toList)]
  simp only [offsetBy, insertion]
  by_cases hrow : (after between).row = 0
  · simp [hrow]
  · simp only [hrow, if_false]
    have : ¬ (s.row + (after between).row = s.row) := by omega
    simp only [this, if_false, Position.mk.injEq, and_true]
    have := le_iff.mp (le_advance s text.toList)
    omega

theorem shift_removal_behind (s : Position) (removed between : List Char) (text : String) (stays : Bool)
    (h : between ≠ []) :
    (removal ⟨s, s.advance removed⟩ text).shift ((s.advance removed).advance between) stays =
      s.advance between := by
  have hstop : s.advance removed < (s.advance removed).advance between := lt_advance _ h
  have hstart : s < (s.advance removed).advance between := by
    have := le_advance s removed
    rw [lt_iff] at *; rw [le_iff] at this; omega
  have hstart' : ¬ (s.advance removed).advance between ≤ (removal ⟨s, s.advance removed⟩ text).start :=
    fun hle => not_lt.mpr hle hstart
  have hstop' : ¬ (s.advance removed).advance between ≤ (removal ⟨s, s.advance removed⟩ text).stop :=
    fun hle => not_lt.mpr hle hstop
  rw [shift_of_remove rfl, if_neg hstart', if_neg hstop', ← offsetBy_after (s.advance removed),
    ← offsetBy_after s between]
  simp only [offsetBy, removal]
  by_cases hrow : (after between).row = 0
  · simp [hrow]
  · simp only [hrow, if_false]
    have : ¬ ((s.advance removed).row + (after between).row = (s.advance removed).row) := by omega
    simp only [this, if_false, Position.mk.injEq, and_true]
    have := le_iff.mp (le_advance s removed)
    omega

/-! ## Shifting places -/

theorem place_shift_insertion {text : List Char} {n x : Nat} (hn : n ≤ text.length) (hx : x ≤ text.length)
    (new : String) (stays : Bool) :
    (insertion (place text n) new).shift (place text x) stays =
      place (text.take n ++ new.toList ++ text.drop n)
        (if x < n ∨ (x = n ∧ stays) then x else x + new.toList.length) := by
  by_cases hc : x < n ∨ (x = n ∧ stays)
  · have hp : place text x < (insertion (place text n) new).start ∨
        (place text x = (insertion (place text n) new).start ∧ stays = true) :=
      hc.imp (fun h => place_lt h hn) fun h => ⟨by rw [h.1]; rfl, h.2⟩
    have hxn : x ≤ n := by omega
    rw [shift_of_insert rfl, if_pos hp, if_pos hc, List.append_assoc, place_take_append hn hxn]
  · have hxn : n ≤ x := by omega
    have hne : stays = false ∨ (text.take x).drop n ≠ [] := by
      rcases Nat.lt_or_eq_of_le hxn with hlt | rfl
      · right
        intro he
        have := congrArg List.length he
        simp only [List.length_drop, List.length_take, List.length_nil] at this
        omega
      · left
        simpa using hc
    rw [if_neg hc, ← advance_place text hxn, shift_insertion_behind _ _ _ _ hne]
    have hlen : (text.take n ++ new.toList).length = n + new.toList.length := by
      rw [List.length_append, List.length_take, Nat.min_eq_left hn]
    have hpos : x + new.toList.length = (text.take n ++ new.toList).length + (x - n) := by omega
    rw [hpos, place_append_right, after_append, List.drop_take]
    rfl

theorem place_shift_removal {text : List Char} {n m x : Nat} (hnm : n ≤ m) (hm : m ≤ text.length)
    (hx : x ≤ text.length) (old : String) (stays : Bool) :
    (removal ⟨place text n, place text m⟩ old).shift (place text x) stays =
      place (text.take n ++ text.drop m) (if x ≤ n then x else if x ≤ m then n else x - (m - n)) := by
  have hn : n ≤ text.length := Nat.le_trans hnm hm
  have hleft : ∀ k ≤ n, place (text.take n ++ text.drop m) k = place text k :=
    fun _ hk => place_take_append hn hk _
  by_cases h₁ : x ≤ n
  · have hp : place text x ≤ (removal ⟨place text n, place text m⟩ old).start := (place_le_iff hx hn).mpr h₁
    rw [shift_of_remove rfl, if_pos hp, if_pos h₁, hleft x h₁]
  · by_cases h₂ : x ≤ m
    · have hp : ¬ place text x ≤ (removal ⟨place text n, place text m⟩ old).start :=
        fun h => h₁ ((place_le_iff hx hn).mp h)
      have hq : place text x ≤ (removal ⟨place text n, place text m⟩ old).stop := (place_le_iff hx hm).mpr h₂
      rw [shift_of_remove rfl, if_neg hp, if_pos hq, if_neg h₁, if_pos h₂, hleft n (Nat.le_refl n)]
      rfl
    · have hmx : m ≤ x := by omega
      have hne : (text.take x).drop m ≠ [] := by
        intro he
        have := congrArg List.length he
        simp only [List.length_drop, List.length_take, List.length_nil] at this
        omega
      have hlen : (text.take n).length = n := List.length_take_of_le hn
      have hpos : x - (m - n) = (text.take n).length + (x - m) := by omega
      rw [if_neg h₁, if_neg h₂, ← advance_place text hmx, ← advance_place text hnm,
        shift_removal_behind _ _ _ _ _ hne, hpos, place_append_right, List.drop_take]
      rfl

/-- A change of a text: the positions are places of the text before it, and a removal carries the text that it
removes. -/
inductive Applies : List Char → Delta → List Char → Prop
  | insertion {text : List Char} {n : Nat} (new : String) : n ≤ text.length →
    Applies text (insertion (place text n) new) (text.take n ++ new.toList ++ text.drop n)
  | removal {text : List Char} {n m : Nat} : n ≤ m → m ≤ text.length →
    Applies text (removal ⟨place text n, place text m⟩ (String.ofList ((text.take m).drop n)))
      (text.take n ++ text.drop m)

/-- Changes one after the other. -/
inductive Chain : List Char → List Delta → List Char → Prop
  | nil {text : List Char} : Chain text [] text
  | cons {text text' text'' : List Char} {d : Delta} {ds : List Delta} :
    Applies text d text' → Chain text' ds text'' → Chain text (d :: ds) text''

theorem Chain.append {text text' text'' : List Char} {ds ds' : List Delta} (h : Chain text ds text')
    (h' : Chain text' ds' text'') : Chain text (ds ++ ds') text'' := by
  induction h with
  | nil => exact h'
  | cons ha _ ih => exact .cons ha (ih h')

end Delta

end Scribe
