import Scribe.Proofs.Buffer.Outside
import Scribe.Proofs.Buffer.Replay

/-!
# Ranges that follow their text

Whatever a buffer answers with when it is edited, a range that is shifted by it stays a range of the buffer, and reads
what it read before, with what is inserted in it and without what is removed from it.
-/

namespace Scribe

open Position (place place_lt_iff place_le_iff place_inj)

/-! ## Positions -/

namespace Position

theorem advance_lineEnds (p : Position) (n : Nat) : p.advance (List.replicate (n + 1) '\n') = ⟨p.row + (n + 1), 0⟩ := by
  induction n with
  | zero => rfl
  | succ n ih => rw [List.replicate_succ', advance_concat, ih]; rfl

theorem exists_advance {p q : Position} (h : p ≤ q) : ∃ between, q = p.advance between := by
  obtain ⟨row, column⟩ := q
  rcases h with hlt | ⟨hrow, hcolumn⟩
  · obtain ⟨n, rfl⟩ := Nat.exists_eq_add_of_lt hlt
    refine ⟨List.replicate (n + 1) '\n' ++ List.replicate column ' ', ?_⟩
    rw [advance_append, advance_lineEnds, advance_row _ (by simp)]
    simp [Nat.add_assoc]
  · refine ⟨List.replicate (column - p.column) ' ', ?_⟩
    dsimp only at hrow hcolumn
    rw [advance_row _ (by simp), List.length_replicate, hrow, Nat.add_sub_cancel' hcolumn]

end Position

namespace Delta

section
variable {d : Delta}

theorem shift_insert_cases (h : d.action = .insert) (p : Position) (stays : Bool) :
    p ≤ d.start ∧ d.shift p stays = p ∨
      ∃ between, p = d.start.advance between ∧ (stays = false ∨ between ≠ []) := by
  by_cases hbefore : p < d.start ∨ p = d.start ∧ stays = true
  · refine .inl ⟨hbefore.elim Position.le_of_lt fun he => he.1 ▸ Position.le_refl p, ?_⟩
    rw [shift_of_insert h]
    exact if_pos hbefore
  · obtain ⟨between, rfl⟩ := Position.exists_advance (Position.not_lt.mp fun hlt => hbefore (.inl hlt))
    refine .inr ⟨between, rfl, ?_⟩
    by_contra hnot
    rw [not_or, not_not, Bool.not_eq_false] at hnot
    exact hbefore (.inr ⟨by rw [hnot.2, Position.advance_nil], hnot.1⟩)

theorem shift_remove_cases (h : d.action = .remove) (p : Position) (stays : Bool) :
    p ≤ d.start ∧ d.shift p stays = p ∨ d.start ≤ p ∧ d.shift p stays = d.start ∨
      ∃ between, between ≠ [] ∧ p = d.stop.advance between := by
  rw [shift_of_remove h]
  by_cases hstart : p ≤ d.start
  · exact .inl ⟨hstart, if_pos hstart⟩
  rw [if_neg hstart]
  by_cases hstop : p ≤ d.stop
  · refine .inr (.inl ⟨Position.le_of_not_lt fun hlt => hstart (Position.le_of_lt hlt), if_pos hstop⟩)
  · rw [← Position.not_lt, not_not] at hstop
    obtain ⟨between, rfl⟩ := Position.exists_advance (Position.le_of_lt hstop)
    refine .inr (.inr ⟨between, ?_, rfl⟩)
    rintro rfl
    exact Position.lt_irrefl _ hstop

theorem shift_insert_behind (hd : d.start ≤ d.stop) (h : d.action = .insert) {between : List Char} {stays : Bool}
    (hbehind : stays = false ∨ between ≠ []) : d.shift (d.start.advance between) stays = d.stop.advance between := by
  obtain ⟨action, start, stop, text⟩ := d
  change start ≤ stop at hd
  obtain ⟨new, rfl⟩ := Position.exists_advance hd
  cases h
  have hshift := shift_insertion_behind start (String.ofList new) between stays hbehind
  unfold insertion at hshift
  rw [String.toList_ofList] at hshift
  exact hshift

theorem shift_remove_behind (hd : d.start ≤ d.stop) (h : d.action = .remove) {between : List Char} (hne : between ≠ [])
    (stays : Bool) : d.shift (d.stop.advance between) stays = d.start.advance between := by
  obtain ⟨action, start, stop, text⟩ := d
  change start ≤ stop at hd
  obtain ⟨removed, rfl⟩ := Position.exists_advance hd
  cases h
  exact shift_removal_behind start removed between text stays hne

theorem le_shift (hd : d.start ≤ d.stop) {p q : Position} (hp : p ≤ d.start) (hpq : p ≤ q) (stays : Bool) :
    p ≤ d.shift q stays := by
  cases h : d.action with
  | insert =>
    rcases shift_insert_cases h q stays with ⟨-, hq⟩ | ⟨between, rfl, hbetween⟩
    · rwa [hq]
    · rw [shift_insert_behind hd h hbetween]
      exact Position.le_trans hp (Position.le_trans hd (Position.le_advance _ _))
  | remove =>
    rcases shift_remove_cases h q stays with ⟨-, hq⟩ | ⟨-, hq⟩ | ⟨between, hne, rfl⟩
    · rwa [hq]
    · rwa [hq]
    · rw [shift_remove_behind hd h hne stays]
      exact Position.le_trans hp (Position.le_advance _ _)

theorem shift_le_shift (hd : d.start ≤ d.stop) {p q : Position} (hpq : p ≤ q) (stays : Bool) :
    d.shift p stays ≤ d.shift q stays := by
  -- What stands between the two positions stands between them still, if the first one moves with the text behind it.
  obtain ⟨further, rfl⟩ := Position.exists_advance hpq
  cases h : d.action with
  | insert =>
    rcases shift_insert_cases h p stays with ⟨hle, hp⟩ | ⟨between, rfl, hbetween⟩
    · rw [hp]
      exact le_shift hd hle hpq stays
    · have hbetween' := hbetween.imp_right (List.append_ne_nil_of_left_ne_nil · further)
      rw [← Position.advance_append, shift_insert_behind hd h hbetween, shift_insert_behind hd h hbetween',
        Position.advance_append]
      exact Position.le_advance _ _
  | remove =>
    rcases shift_remove_cases h p stays with ⟨hle, hp⟩ | ⟨hle, hp⟩ | ⟨between, hne, rfl⟩
    · rw [hp]
      exact le_shift hd hle hpq stays
    · rw [hp]
      exact le_shift hd (Position.le_refl _) (Position.le_trans hle hpq) stays
    · have hne' := List.append_ne_nil_of_left_ne_nil hne further
      rw [← Position.advance_append, shift_remove_behind hd h hne stays, shift_remove_behind hd h hne' stays,
        Position.advance_append]
      exact Position.le_advance _ _

end

/-- The removal of what was inserted brings every position back. -/
theorem shift_removal_shift_insertion (start : Position) (text : String) (p : Position) (stays stays' : Bool) :
    (removal ⟨start, start.advance text.toList⟩ text).shift ((insertion start text).shift p stays) stays' = p := by
  rcases shift_insert_cases (d := insertion start text) rfl p stays with ⟨hle, hp⟩ | ⟨between, rfl, hbetween⟩
  · rw [hp, shift_of_remove rfl]
    exact if_pos hle
  · change (removal _ _).shift ((insertion start text).shift (start.advance between) stays) _ = start.advance between
    rw [shift_insertion_behind start text between stays hbetween]
    by_cases hnil : between = []
    · subst hnil
      rw [Position.advance_nil, Position.advance_nil, shift_of_remove rfl]
      by_cases hstart : start.advance text.toList ≤ start
      · exact (if_pos hstart).trans (Position.le_antisymm hstart (Position.le_advance start text.toList))
      · exact (if_neg hstart).trans (if_pos (Position.le_refl _))
    · exact shift_removal_behind _ _ _ _ _ hnil

end Delta

/-! ## Ranges -/

theorem sift_between {keep : Nat → Bool} {text : List Char} {m n : Nat} (hmn : m ≤ n) (hn : n ≤ text.length)
    (h : ∀ k < text.length, keep k = true ↔ m ≤ k ∧ k < n) : sift keep text 0 = (text.take n).drop m := by
  have hlen : (text.take m).length = m := List.length_take_of_le (by omega)
  have hmid : ((text.take n).drop m).length = n - m := by
    rw [List.length_drop, List.length_take]
    omega
  have hfalse : ∀ k < text.length, ¬ (m ≤ k ∧ k < n) → keep k = false := fun k hk hout =>
    Bool.eq_false_iff.mpr fun hkeep => hout ((h k hk).mp hkeep)
  conv => lhs; rw [← take_between_drop text hmn]
  rw [sift_append, sift_append, hlen, hmid, Nat.zero_add, sift_eq_nil (text.take m), List.nil_append, sift_eq_self,
    sift_eq_nil (text.drop n), List.append_nil]
  · intro k hk
    rw [List.length_drop] at hk
    exact hfalse _ (by omega) (by omega)
  · intro k hk
    rw [hmid] at hk
    exact (h _ (by omega)).mpr (by omega)
  · intro k hk
    rw [hlen] at hk
    exact hfalse _ (by omega) (by omega)

namespace Range

open Delta (Applies pastInsertion pastRemoval)

/-- Whether a range takes what is inserted at a position. -/
def Takes (r : Range) (p : Position) (absorbs : Bool) : Prop :=
  r.start < p ∧ p < r.stop ∨ absorbs = true ∧ (p = r.start ∨ p = r.stop)

/-- The characters of a text that a range holds and another one does not. -/
def without (text : List Char) (r gone : Range) : List Char :=
  sift (fun k => r.covers (place text k) && !gone.covers (place text k)) text 0

section
variable {text text' : List Char} {d : Delta} {r : Range} {piece : List Char} {absorbs : Bool}

/-- What a range takes stands in it where it was inserted. -/
theorem Reads.shift_taken (hr : r.Reads text piece) (h : Applies text d text') (hd : d.action = .insert)
    (htakes : r.Takes d.start absorbs) : ∃ front back, Reads text ⟨r.start, d.start⟩ front ∧
      Reads text ⟨d.start, r.stop⟩ back ∧ (r.shift d absorbs).Reads text' (front ++ d.text.toList ++ back) := by
  obtain ⟨m, n, hmn, hn, rfl, rfl⟩ := hr
  have hm := Nat.le_trans hmn hn
  cases h with
  | removal => cases hd
  | @insertion i new hi =>
    have htakes' : m < i ∧ i < n ∨ absorbs = true ∧ (i = m ∨ i = n) :=
      htakes.imp (And.imp (place_lt_iff hm hi).mp (place_lt_iff hi hn).mp)
        (And.imp_right (Or.imp (place_inj hi hm).mp (place_inj hi hn).mp))
    have hmi : m ≤ i := by omega
    have hin : i ≤ n := by omega
    refine ⟨_, _, ⟨m, i, hmi, hi, rfl, rfl⟩, ⟨i, n, hin, hn, rfl, rfl⟩, ?_⟩
    have hstart : pastInsertion i new.toList.length absorbs m = m := if_pos (by grind)
    have hstop : pastInsertion i new.toList.length (!absorbs) n = n + new.toList.length := if_neg (by grind)
    rw [Range.shift_insertion hi hmn hn, hstart, hstop, Nat.max_eq_right (by omega)]
    refine ⟨m, n + new.toList.length, by omega, ?_, rfl, ?_⟩
    · rw [Delta.length_inserted hi]
      omega
    · have hlen : (text.take i).length = i := List.length_take_of_le (by omega)
      have htake : (text.take i ++ new.toList ++ text.drop i).take (n + new.toList.length) =
          text.take i ++ new.toList ++ (text.take n).drop i := by
        rw [List.take_append, List.take_of_length_le (by rw [List.length_append, hlen]; omega), List.length_append, hlen,
          Nat.add_sub_add_right, List.drop_take]
      rw [htake, List.append_assoc, List.drop_append_of_le_length (by omega), List.append_assoc]
      rfl

theorem Reads.shift_not_taken (hr : r.Reads text piece) (h : Applies text d text') (hd : d.action = .insert)
    (htakes : ¬ r.Takes d.start absorbs) : (r.shift d absorbs).Reads text' piece := by
  have hout : r.stop ≤ d.start ∨ d.start ≤ r.start := by
    by_contra hin
    rw [not_or, ← Position.not_lt, ← Position.not_lt, not_not, not_not] at hin
    exact htakes (.inl ⟨hin.2, hin.1⟩)
  cases absorbs with
  | false => exact hr.shift_insertion h hd hout
  | true =>
    rw [shift_eq_of_not_touching (fun _ => ⟨fun he => htakes (.inr ⟨rfl, .inl he.symm⟩),
      fun he => htakes (.inr ⟨rfl, .inr he.symm⟩)⟩) true false]
    exact hr.shift_insertion h hd hout

/-- What is removed is gone from a range, and nothing else. -/
theorem On.shift_without (hr : r.On text) (h : Applies text d text') (hd : d.action = .remove) (absorbs : Bool) :
    (r.shift d absorbs).Reads text' (without text r ⟨d.start, d.stop⟩) := by
  obtain ⟨m, n, hmn, hn, rfl⟩ := hr
  have hm := Nat.le_trans hmn hn
  cases h with
  | insertion => cases hd
  | @removal i j hij hj =>
    have hi := Nat.le_trans hij hj
    rw [shift_removal hij hj hmn hn]
    refine ⟨_, _, Delta.pastRemoval_le hij hmn, Delta.pastRemoval_le_removed hij hj hn, rfl, ?_⟩
    have hcm := Delta.pastRemoval_cases i j m
    have hcn := Delta.pastRemoval_cases i j n
    have hkeep : ∀ k ≤ text.length, ((Range.mk (place text m) (place text n)).covers (place text k) &&
        !(Range.mk (place text i) (place text j)).covers (place text k)) = true ↔
        (m ≤ k ∧ k < n) ∧ ¬ (i ≤ k ∧ k < j) := by
      intro k hk
      rw [Bool.and_eq_true, covers_iff hm hn hk, Bool.not_eq_true', Bool.eq_false_iff, ne_eq, covers_iff hi hj hk]
    have hleft : ∀ k < (text.take i ++ text.drop j).length,
        decide (pastRemoval i j m ≤ k ∧ k < pastRemoval i j n) = true ↔ pastRemoval i j m ≤ k ∧ k < pastRemoval i j n :=
      fun k _ => decide_eq_true_iff
    rw [← sift_between (Delta.pastRemoval_le hij hmn) (Delta.pastRemoval_le_removed hij hj hn) hleft]
    unfold without
    refine sift_removed hij hj (fun k hik hkj => ?_) (fun k hki => ?_) fun k hjk hk => ?_
    · exact Bool.eq_false_iff.mpr fun hkept => ((hkeep k (by omega)).mp hkept).2 ⟨hik, hkj⟩
    · rw [Bool.eq_iff_iff, decide_eq_true_iff]
      refine Iff.trans ?_ (hkeep k (by omega)).symm
      omega
    · rw [Bool.eq_iff_iff, decide_eq_true_iff]
      refine Iff.trans ?_ (hkeep k (by omega)).symm
      omega

end

end Range

/-! ## Ranges of buffers -/

namespace Buffer

/-- A range of the buffer: both ends are in it, in order. -/
def Holds (b : Buffer) (r : Range) : Prop := b.Has r.start ∧ b.Has r.stop ∧ r.start ≤ r.stop

section
variable {b b' : Buffer} {r : Range} {ds before behind : List Delta} {d : Delta}

theorem holds_iff (hb : b.WellFormed) : b.Holds r ↔ r.On b.chars := by
  constructor
  · rintro ⟨hstart, hstop, hle⟩
    obtain ⟨m, hm, hpm⟩ := (has_iff hb).mp hstart
    obtain ⟨n, hn, hpn⟩ := (has_iff hb).mp hstop
    obtain ⟨start, stop⟩ := r
    dsimp only at hpm hpn hle
    subst hpm hpn
    exact ⟨m, n, (place_le_iff hm hn).mp hle, hn, rfl⟩
  · intro hon
    have hle := hon.start_le_stop
    obtain ⟨m, n, hmn, hn, rfl⟩ := hon
    exact ⟨has_place hb (Nat.le_trans hmn hn), has_place hb hn, hle⟩

theorem textRange_of_reads (hb : b.WellFormed) {piece : List Char} (h : r.Reads b.chars piece) :
    (b.textRange r).toList = piece := by
  obtain ⟨m, n, hmn, hn, rfl, rfl⟩ := h
  rw [textRange_place hb hmn hn, String.toList_ofList]

theorem Holds.reads (hb : b.WellFormed) (h : b.Holds r) : r.Reads b.chars (b.textRange r).toList := by
  obtain ⟨piece, hpiece⟩ := ((holds_iff hb).mp h).reads
  rwa [textRange_of_reads hb hpiece]

/-- A range that is tracked follows its text through each change that a buffer answers with. `x` holds the text before
the change, and `y` the one after it. -/
theorem tracked_follows (hb : b.Made) (hstep : b.Step ds b') (hds : ds = before ++ d :: behind) :
    Delta.replay b.chars ds = b'.chars ∧
    (∀ {x y : Buffer}, x.WellFormed → y.WellFormed → x.chars = Delta.replay b.chars before →
      y.chars = Delta.replay b.chars (before ++ [d]) → ∀ (t : TrackedRange) (absorbs : Bool), x.Holds t.range →
        let shifted := (t.shift d absorbs).range
        y.Holds shifted ∧
        (d.action = .insert → t.range.Takes d.start absorbs → (y.textRange shifted).toList =
          (x.textRange ⟨t.range.start, d.start⟩).toList ++ d.text.toList ++
            (x.textRange ⟨d.start, t.range.stop⟩).toList) ∧
        (d.action = .insert → ¬ t.range.Takes d.start absorbs → y.textRange shifted = x.textRange t.range) ∧
        (d.action = .remove → (y.textRange shifted).toList = t.range.without x.chars ⟨d.start, d.stop⟩)) ∧
    d.start ≤ d.stop ∧
    (∀ e : Delta, e.start ≤ e.stop → ∀ (stays : Bool) (p q : Position), p ≤ q → e.shift p stays ≤ e.shift q stays) ∧
    ∀ (start : Position) (text : String) (p : Position) (stays stays' : Bool),
      (Delta.removal ⟨start, start.advance text.toList⟩ text).shift ((Delta.insertion start text).shift p stays) stays' =
        p := by
  obtain ⟨-, hchain⟩ := hstep.chain hb.sound
  have happ := hchain.applies hds
  refine ⟨hchain.replay, ?_, happ.start_le_stop, fun e he stays p q hpq => Delta.shift_le_shift he hpq stays,
    Delta.shift_removal_shift_insertion⟩
  intro x y hx hy hxt hyt t absorbs hr
  rw [← hxt, ← hyt] at happ
  have hreads := hr.reads hx
  have hon := hreads.on
  refine ⟨(holds_iff hy).mpr (hon.shift happ absorbs), fun hd htakes => ?_, fun hd htakes => ?_, fun hd => ?_⟩
  · obtain ⟨front, back, hfront, hback, htaken⟩ := hreads.shift_taken happ hd htakes
    rw [textRange_of_reads hx hfront, textRange_of_reads hx hback]
    exact textRange_of_reads hy htaken
  · exact String.toList_inj.mp (textRange_of_reads hy (hreads.shift_not_taken happ hd htakes))
  · exact textRange_of_reads hy (hon.shift_without happ hd absorbs)

end

/-- A range that absorbs the second change of a replacement, at its end. -/
theorem tracked_follows_end :
    let b := ofText "ab\ncd"
    let edited := b.replace ⟨⟨0, 1⟩, ⟨1, 1⟩⟩ "x\ny"
    let removal := Delta.removal ⟨⟨0, 1⟩, ⟨1, 1⟩⟩ "b\nc"
    let insertion := Delta.insertion ⟨0, 1⟩ "x\ny"
    let between := ofText "ad"
    let t : TrackedRange := { key := 0, range := ⟨⟨0, 0⟩, ⟨0, 1⟩⟩, linked := false }
    b.Made ∧ b.Step edited.2 edited.1 ∧ edited.2 = [removal] ++ [insertion] ∧
      between.WellFormed ∧ between.chars = Delta.replay b.chars [removal] ∧
      edited.1.WellFormed ∧ edited.1.chars = Delta.replay b.chars ([removal] ++ [insertion]) ∧
      between.Holds t.range ∧ t.range.Takes insertion.start true ∧
      (t.shift insertion true).range = ⟨⟨0, 0⟩, ⟨1, 1⟩⟩ ∧ edited.1.Holds (t.shift insertion true).range ∧
      (edited.1.textRange (t.shift insertion true).range).toList = ['a'] ++ "x\ny".toList ++ [] := by
  intro b edited removal insertion between t
  have hb : b.Made := .ofText _
  have hstep : b.Step edited.2 edited.1 := .replace _ (by decide)
  have hds : edited.2 = [removal] ++ [insertion] := by decide +kernel
  have hbetween : between.WellFormed := (sound_ofText _).wellFormed
  have hedited : edited.1.WellFormed := (hstep.chain hb.sound).1.wellFormed
  have hbefore : between.chars = Delta.replay b.chars [removal] := by decide +kernel
  have hafter : edited.1.chars = Delta.replay b.chars ([removal] ++ [insertion]) := by decide +kernel
  have hholds : between.Holds t.range :=
    ⟨(has_iff_row_column _ _).mpr (by decide +kernel), (has_iff_row_column _ _).mpr (by decide +kernel), by decide⟩
  have htakes : t.range.Takes insertion.start true := .inr ⟨rfl, .inr rfl⟩
  obtain ⟨hshifted, htaken, -, -⟩ :=
    (tracked_follows hb hstep hds).2.1 hbetween hedited hbefore hafter t true hholds
  refine ⟨hb, hstep, hds, hbetween, hbefore, hedited, hafter, hholds, htakes, by decide, hshifted, ?_⟩
  rw [htaken rfl htakes]
  decide +kernel

end Buffer

end Scribe
