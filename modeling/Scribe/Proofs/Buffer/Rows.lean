import Scribe.Buffer.Basic
import Scribe.Proofs.Buffer.Places
import Scribe.Proofs.Highlight.Lossless

/-!
# Rows of a buffer

A buffer with at least one row and no line end in a row is its text: its positions are the places of the text,
and an edit is a splice of the text.
-/

namespace Scribe

open Position (after place)

namespace Text

/-- The rows, each with a line end behind it. -/
def ended (rows : List (List Char)) : List Char := rows.flatMap (· ++ ['\n'])

theorem ended_append (xs ys : List (List Char)) : ended (xs ++ ys) = ended xs ++ ended ys :=
  List.flatMap_append

theorem ended_cons (x : List Char) (xs : List (List Char)) : ended (x :: xs) = x ++ ['\n'] ++ ended xs :=
  List.flatMap_cons

theorem joinWith_append_cons (xs : List (List Char)) (y : List Char) (ys : List (List Char)) :
    joinWith ['\n'] (xs ++ y :: ys) = ended xs ++ joinWith ['\n'] (y :: ys) := by
  induction xs with
  | nil => rfl
  | cons x xs ih =>
    rw [List.cons_append, joinWith_cons (by simp), ih]
    simp [ended]

theorem joinWith_split (a b : List Char) (ys : List (List Char)) :
    joinWith ['\n'] ((a ++ b) :: ys) = a ++ joinWith ['\n'] (b :: ys) := by
  cases ys with
  | nil => rfl
  | cons y ys =>
    rw [joinWith_cons (List.cons_ne_nil _ _), joinWith_cons (List.cons_ne_nil _ _)]
    simp only [List.append_assoc]

theorem joinWith_join {xs : List (List Char)} (h : xs ≠ []) (ys : List (List Char)) :
    joinWith ['\n'] (xs ++ ys) = joinWith ['\n'] (joinWith ['\n'] xs :: ys) := by
  cases ys with
  | nil => rw [List.append_nil]; rfl
  | cons y ys =>
    rw [joinWith_cons (by simp), joinWith_append_cons]
    have hx : ended xs = joinWith ['\n'] xs ++ ['\n'] := by
      induction xs with
      | nil => exact absurd rfl h
      | cons x xs ih =>
        cases xs with
        | nil => simp [ended, joinWith]
        | cons x' xs =>
          rw [joinWith_cons (by simp)]
          have := ih (by simp)
          simp only [ended, List.flatMap_cons] at this ⊢
          rw [this]
          simp
    rw [hx]

theorem not_mem_of_mem_cutAt {sep : Char} : ∀ {text piece : List Char}, piece ∈ cutAt sep text → sep ∉ piece
  | [], piece, hp => by
    simp only [cutAt, List.mem_singleton] at hp
    subst hp; simp
  | c :: text, piece, hp => by
    simp only [cutAt] at hp
    split at hp
    · rcases List.mem_cons.mp hp with rfl | hp
      · simp
      · exact not_mem_of_mem_cutAt hp
    · rename_i hc
      split at hp
      · rename_i first pieces hcut
        rcases List.mem_cons.mp hp with rfl | hp
        · have hf : sep ∉ first := not_mem_of_mem_cutAt (hcut ▸ List.mem_cons_self)
          simp only [List.mem_cons, not_or]
          exact ⟨fun he => hc he.symm, hf⟩
        · exact not_mem_of_mem_cutAt (hcut ▸ List.mem_cons_of_mem _ hp)
      · rename_i hcut
        exact absurd hcut (cutAt_ne_nil sep text)

end Text

open Text (ended joinWith)

/-! ## Positions in rows -/

namespace Position

/-- A position that rows have. -/
def InRows (rows : List (List Char)) (p : Position) : Prop :=
  ∃ row, rows[p.row]? = some row ∧ p.column ≤ row.length

/-- What stands before a position. -/
def upTo (rows : List (List Char)) (p : Position) : List Char :=
  ended (rows.take p.row) ++ ((rows[p.row]?.getD []).take p.column)

theorem after_ended (rows : List (List Char)) (h : ∀ row ∈ rows, '\n' ∉ row) :
    after (ended rows) = ⟨rows.length, 0⟩ := by
  induction rows using List.reverseRecOn with
  | nil => rfl
  | append_singleton front row ih =>
    have hf := ih fun r hr => h r (List.mem_append_left _ hr)
    have hcons : ended (front ++ [row]) = ended front ++ (row ++ ['\n']) := by simp [ended]
    rw [hcons, after_append, hf, advance_append, advance_row _ (h row (by simp)), List.length_append]
    rfl

section
variable {rows : List (List Char)}

theorem after_upTo (h : ∀ row ∈ rows, '\n' ∉ row) {p : Position} (hp : p.InRows rows) :
    after (upTo rows p) = p := by
  obtain ⟨row, hrow, hc⟩ := hp
  have hlt : p.row < rows.length := (List.getElem?_eq_some_iff.mp hrow).1
  have hnot : '\n' ∉ row.take p.column := fun hm => h row (List.mem_of_getElem? hrow) (List.mem_of_mem_take hm)
  rw [upTo, hrow, Option.getD_some, after_append, after_ended _ fun r hr => h r (List.mem_of_mem_take hr),
    advance_row _ hnot, List.length_take, List.length_take, Nat.min_eq_left hc,
    Nat.min_eq_left (Nat.le_of_lt hlt), Nat.zero_add]

theorem upTo_append {p : Position} (hp : p.InRows rows) :
    upTo rows p ++ joinWith ['\n'] ((rows[p.row]?.getD []).drop p.column :: rows.drop (p.row + 1)) =
      joinWith ['\n'] rows := by
  obtain ⟨row, hrow, hc⟩ := hp
  obtain ⟨hlt, he⟩ := List.getElem?_eq_some_iff.mp hrow
  have hsplit : rows = rows.take p.row ++ row :: rows.drop (p.row + 1) := by
    rw [← he, ← List.drop_eq_getElem_cons hlt, List.take_append_drop]
  conv => rhs; rw [hsplit, Text.joinWith_append_cons, ← List.take_append_drop p.column row, Text.joinWith_split]
  rw [upTo, hrow, Option.getD_some, List.append_assoc]

theorem exists_length_upTo : ∀ {rows : List (List Char)}, rows ≠ [] → ∀ {n : Nat},
    n ≤ (joinWith ['\n'] rows).length → ∃ p : Position, p.InRows rows ∧ (upTo rows p).length = n
  | [], hne, _, _ => absurd rfl hne
  | [row], _, n, hn => by
    refine ⟨⟨0, n⟩, ⟨row, rfl, hn⟩, ?_⟩
    have hle : n ≤ row.length := hn
    simp [upTo, ended, Nat.min_eq_left hle]
  | row :: row' :: rest, _, n, hn => by
    by_cases hle : n ≤ row.length
    · refine ⟨⟨0, n⟩, ⟨row, rfl, hle⟩, ?_⟩
      simpa [upTo, ended] using Nat.min_eq_left hle
    · rw [Text.joinWith_cons (by simp)] at hn
      simp only [List.length_append, List.length_singleton] at hn
      have hrest : n - (row.length + 1) ≤ (joinWith ['\n'] (row' :: rest)).length := by omega
      obtain ⟨p, ⟨r, hr, hc⟩, hlen⟩ := exists_length_upTo (List.cons_ne_nil row' rest) hrest
      refine ⟨⟨p.row + 1, p.column⟩, ⟨r, hr, hc⟩, ?_⟩
      simp only [upTo, ended, List.take_succ_cons, List.flatMap_cons, List.getElem?_cons_succ,
        List.length_append, List.length_singleton] at hlen ⊢
      omega

theorem upTo_isPrefix {p : Position} (hp : p.InRows rows) : upTo rows p <+: joinWith ['\n'] rows :=
  ⟨_, upTo_append hp⟩

theorem place_upTo (h : ∀ row ∈ rows, '\n' ∉ row) {p : Position} (hp : p.InRows rows) :
    place (joinWith ['\n'] rows) (upTo rows p).length = p := by
  rw [place, ← List.prefix_iff_eq_take.mp (upTo_isPrefix hp), after_upTo h hp]

/-- The positions in rows are the places of their text. -/
theorem inRows_iff (hne : rows ≠ []) (h : ∀ row ∈ rows, '\n' ∉ row) {p : Position} :
    p.InRows rows ↔ ∃ n ≤ (joinWith ['\n'] rows).length, p = place (joinWith ['\n'] rows) n := by
  constructor
  · intro hp
    exact ⟨(upTo rows p).length, (upTo_isPrefix hp).length_le, (place_upTo h hp).symm⟩
  · rintro ⟨n, hn, rfl⟩
    obtain ⟨q, hq, rfl⟩ := exists_length_upTo hne hn
    rwa [place_upTo h hq]

theorem upTo_place (hne : rows ≠ []) (h : ∀ row ∈ rows, '\n' ∉ row) {n : Nat}
    (hn : n ≤ (joinWith ['\n'] rows).length) :
    upTo rows (place (joinWith ['\n'] rows) n) = (joinWith ['\n'] rows).take n := by
  have hp := (inRows_iff hne h).mpr ⟨n, hn, rfl⟩
  have hpre := upTo_isPrefix hp
  rw [List.prefix_iff_eq_take.mp hpre, (place_inj hpre.length_le hn).mp (place_upTo h hp)]

theorem joinWith_place (hne : rows ≠ []) (h : ∀ row ∈ rows, '\n' ∉ row) {n : Nat}
    (hn : n ≤ (joinWith ['\n'] rows).length) {p : Position} (hp : place (joinWith ['\n'] rows) n = p) :
    joinWith ['\n'] ((rows[p.row]?.getD []).drop p.column :: rows.drop (p.row + 1)) =
      (joinWith ['\n'] rows).drop n := by
  have hin := (inRows_iff hne h).mpr ⟨n, hn, hp.symm⟩
  have hsplit := upTo_append hin
  have hup : upTo rows p = (joinWith ['\n'] rows).take n := hp ▸ upTo_place hne h hn
  rw [hup] at hsplit
  exact List.append_cancel_left (hsplit.trans (List.take_append_drop n _).symm)

end

end Position

/-! ## Buffers -/

namespace Buffer

/-- The lines as lists of characters. -/
def rows (b : Buffer) : List (List Char) := b.lines.toList.map String.toList

def chars (b : Buffer) : List Char := b.text.toList

/-- There is a row, and no row holds a line end. -/
structure WellFormed (b : Buffer) : Prop where
  rows_ne_nil : b.rows ≠ []
  noLineEnd : ∀ row ∈ b.rows, '\n' ∉ row

theorem chars_eq (b : Buffer) : b.chars = joinWith ['\n'] b.rows := by
  simp [chars, text, Text.joinLines, rows]

theorem rows_getElem? (b : Buffer) (row : Nat) : b.rows[row]?.getD [] = b.line row := by
  simp only [rows, line, List.getElem?_map, Array.getElem?_toList]
  cases b.lines[row]? with
  | none => rfl
  | some l => rfl

theorem length_rows (b : Buffer) : b.rows.length = b.lines.size := by simp [rows]

/-- A position that the buffer has. -/
def Has (b : Buffer) (p : Position) : Prop := p.InRows b.rows

theorem has_iff_row_column (b : Buffer) (p : Position) :
    b.Has p ↔ p.row < b.lines.size ∧ p.column ≤ (b.line p.row).length := by
  rw [← rows_getElem?, ← length_rows]
  constructor
  · rintro ⟨row, hrow, hc⟩
    exact ⟨(List.getElem?_eq_some_iff.mp hrow).1, by simpa [hrow] using hc⟩
  · rintro ⟨hlt, hc⟩
    exact ⟨_, List.getElem?_eq_getElem hlt, by simpa [List.getElem?_eq_getElem hlt] using hc⟩

theorem clamp_of_has {b : Buffer} {p : Position} (h : b.Has p) : b.clamp p = p := by
  obtain ⟨hlt, hc⟩ := (b.has_iff_row_column p).mp h
  unfold clamp
  dsimp only
  rw [if_neg (by omega), Nat.min_eq_left hc]

theorem take_rows (b : Buffer) {k : Nat} (h : k ≤ b.rows.length) : b.rows.take k = (List.range k).map b.line := by
  refine List.ext_getElem? fun i => ?_
  rw [List.getElem?_take, List.getElem?_map]
  by_cases hi : i < k
  · rw [if_pos hi, List.getElem?_range hi, Option.map_some, ← rows_getElem?,
      List.getElem?_eq_getElem (by omega)]
    rfl
  · rw [if_neg hi, List.getElem?_eq_none (by simpa using hi)]
    rfl

theorem take_rows_eq {b : Buffer} {r r' : Nat} (h : r < r') (h' : r' ≤ b.rows.length) :
    b.rows.take r' = b.rows.take r ++ b.line r :: (List.range' (r + 1) (r' - r - 1)).map b.line := by
  have hr : r' = r + (1 + (r' - r - 1)) := by omega
  rw [b.take_rows h', b.take_rows (by omega), List.range_eq_range', List.range_eq_range']
  conv => lhs; rw [hr, ← List.range'_append_1, Nat.zero_add, ← List.range'_append_1]
  rw [List.map_append, List.map_append]
  rfl

section
variable {b : Buffer} (hb : b.WellFormed)
include hb

theorem has_clamp (p : Position) : b.Has (b.clamp p) := by
  have hpos : 0 < b.lines.size := by
    rw [← length_rows]
    exact List.length_pos_iff.mpr hb.rows_ne_nil
  rw [has_iff_row_column]
  unfold clamp
  dsimp only
  split
  · exact ⟨by simp; omega, Nat.le_refl _⟩
  · exact ⟨by simp; omega, Nat.min_le_right _ _⟩

theorem has_iff {p : Position} : b.Has p ↔ ∃ n ≤ b.chars.length, p = place b.chars n := by
  rw [chars_eq]
  exact Position.inRows_iff hb.rows_ne_nil hb.noLineEnd

theorem has_place {n : Nat} (hn : n ≤ b.chars.length) : b.Has (place b.chars n) :=
  (has_iff hb).mpr ⟨n, hn, rfl⟩

theorem clamp_place {n : Nat} (hn : n ≤ b.chars.length) : b.clamp (place b.chars n) = place b.chars n :=
  clamp_of_has (has_place hb hn)

theorem take_eq {n : Nat} (hn : n ≤ b.chars.length) {p : Position} (hp : place b.chars n = p) :
    b.chars.take n = ended (b.rows.take p.row) ++ (b.line p.row).take p.column := by
  rw [chars_eq] at *
  rw [← Position.upTo_place hb.rows_ne_nil hb.noLineEnd hn, hp, Position.upTo, rows_getElem?]

theorem drop_eq {n : Nat} (hn : n ≤ b.chars.length) {p : Position} (hp : place b.chars n = p) :
    b.chars.drop n = joinWith ['\n'] ((b.line p.row).drop p.column :: b.rows.drop (p.row + 1)) := by
  rw [chars_eq] at *
  rw [← Position.joinWith_place hb.rows_ne_nil hb.noLineEnd hn hp, rows_getElem?]

/-- The text of a range is the piece of the text between its places. -/
theorem textRange_place {m n : Nat} (hmn : m ≤ n) (hn : n ≤ b.chars.length) :
    b.textRange ⟨place b.chars m, place b.chars n⟩ = String.ofList ((b.chars.take n).drop m) := by
  have hm : m ≤ b.chars.length := Nat.le_trans hmn hn
  have hle := (Position.place_le_iff hm hn).mpr hmn
  have hhas := (b.has_iff_row_column _).mp (has_place hb hm)
  have hhas' := (b.has_iff_row_column _).mp (has_place hb hn)
  have htake := take_eq hb hn rfl
  have htake' := take_eq hb hm rfl
  have hpre : b.chars.take n = b.chars.take m ++ (b.chars.take n).drop m := by
    conv => lhs; rw [← List.take_append_drop m (b.chars.take n), List.take_take, Nat.min_eq_left hmn]
  unfold textRange
  simp only [clampRange, clamp_place hb hm, clamp_place hb hn]
  generalize place b.chars m = p at hle hhas htake' ⊢
  generalize place b.chars n = q at hle htake hhas' ⊢
  generalize (b.chars.take n).drop m = mid at hpre ⊢
  rw [htake, htake'] at hpre
  split
  · rename_i hrow
    congr 1
    have hc : p.column ≤ q.column := by rw [Position.le_iff] at hle; omega
    rw [hrow, List.append_assoc, List.append_cancel_left_eq] at hpre
    have hsplit : (b.line q.row).take q.column =
        (b.line q.row).take p.column ++ ((b.line q.row).take q.column).drop p.column := by
      conv => lhs; rw [← List.take_append_drop p.column ((b.line q.row).take q.column), List.take_take,
        Nat.min_eq_left hc]
    rw [hsplit] at hpre
    rw [hrow]
    exact List.append_cancel_left hpre
  · rename_i hrow
    congr 1
    have hlt : p.row < q.row := by rw [Position.le_iff] at hle; omega
    rw [take_rows_eq hlt (by rw [length_rows]; omega), Text.ended_append, Text.ended_cons] at hpre
    rw [Text.joinWith_append_cons, Text.ended_cons]
    have hline : b.line p.row = (b.line p.row).take p.column ++ (b.line p.row).drop p.column :=
      (List.take_append_drop _ _).symm
    have hsame : ended (b.rows.take p.row) ++ (b.line p.row).take p.column ++ ((b.line p.row).drop p.column ++
        ['\n'] ++ ended ((List.range' (p.row + 1) (q.row - p.row - 1)).map b.line) ++
        (b.line q.row).take q.column) =
        ended (b.rows.take p.row) ++ (b.line p.row).take p.column ++ mid := by
      rw [← hpre]
      conv => rhs; rw [hline]
      simp only [List.append_assoc]
    exact List.append_cancel_left hsame

end

end Buffer

end Scribe
