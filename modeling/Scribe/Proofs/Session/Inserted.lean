import Scribe.Proofs.Session.Steady

/-!
# Inserted snippets

The places of an expansion are counted from its start, those of a session from the start of the buffer. Where a
snippet has been inserted, both tell of the same text.
-/

namespace Scribe

open Position (place after)

theorem TabstopRange.reads_offsetBy {text value piece : List Char} {r : TabstopRange} {m : Nat} (hm : m ≤ text.length)
    (hr : r.range.Reads value piece) (rest : List Char) :
    (r.offsetBy (place text m)).range.Reads (text.take m ++ value ++ rest) piece := by
  obtain ⟨p, q, hpq, hq, hrange, hpiece⟩ := hr
  have hlen : (text.take m).length = m := List.length_take_of_le (by omega)
  refine ⟨m + p, m + q, by omega, by simp only [List.length_append]; omega, ?_, ?_⟩
  · show Range.mk (r.range.start.offsetBy _) (r.range.stop.offsetBy _) = _
    rw [hrange, offsetBy_place hm value rest (Nat.le_trans hpq hq), offsetBy_place hm value rest hq]
  · rw [← hpiece, List.append_assoc, List.take_append, List.drop_append, hlen, Nat.add_sub_cancel_left,
      List.take_append_of_le_length hq, List.take_of_length_le (by omega), hlen, Nat.add_sub_cancel_left,
      List.drop_of_length_le (by omega), List.nil_append]

namespace Session

variable {s : Session} {b : Buffer} {linkMirrors : Bool} {origin : Position}

/-! ## Only markers are added -/

theorem sameText_trackRanges : ∀ (rs : List TabstopRange) (b : Buffer) (nextKey : Nat) (edited : Bool),
    SameText b (trackRanges linkMirrors origin b nextKey edited rs).2.1
  | [], b, _, _ => .refl b
  | r :: rest, b, nextKey, edited => by
    rw [trackRanges_cons]
    have hadd : SameText b (b.addMarker (tracked linkMirrors origin nextKey b.nextMarker edited r).range).1 :=
      ⟨rfl, rfl⟩
    exact hadd.trans (sameText_trackRanges rest _ _ _)

theorem sameText_trackGroups (keyOf : Nat → Option Nat) : ∀ (groups : List TabstopGroup) (b : Buffer)
    (key nextKey : Nat), SameText b (trackGroups linkMirrors origin keyOf b key nextKey groups).2.1
  | [], b, _, _ => .refl b
  | g :: rest, b, key, nextKey => by
    rw [trackGroups_cons]
    exact (sameText_trackRanges g.ranges b nextKey false).trans (sameText_trackGroups keyOf rest _ _ _)

theorem sameText_addTabstops (s : Session) (b : Buffer) (groups : List TabstopGroup) (origin : Position) :
    SameText b (s.addTabstops b groups origin).2 :=
  sameText_trackGroups _ groups b _ _

/-! ## What is followed, in order -/

theorem forall₂_trackGroups (keyOf : Nat → Option Nat) : ∀ (groups : List TabstopGroup) (b : Buffer)
    (key nextKey : Nat), List.Forall₂
      (fun g t => t.id = g.id ∧ ∃ (b' : Buffer) (nextKey' : Nat),
        t.ranges = (trackRanges linkMirrors origin b' nextKey' false g.ranges).1)
      groups (trackGroups linkMirrors origin keyOf b key nextKey groups).1
  | [], _, _, _ => .nil
  | g :: rest, b, key, nextKey => by
    rw [trackGroups_cons]
    exact .cons ⟨rfl, b, nextKey, rfl⟩ (forall₂_trackGroups keyOf rest _ _ _)

theorem lastFirst_eq {α : Type} (xs : List α) : lastFirst xs = xs.drop (xs.length - 1) ++ xs.take (xs.length - 1) := by
  unfold lastFirst
  rw [List.dropLast_eq_take]
  rcases List.eq_nil_or_concat xs with rfl | ⟨front, last, rfl⟩
  · rfl
  · simp

theorem forall₂_lastFirst {α β : Type} {R : α → β → Prop} {xs : List α} {ys : List β} (h : List.Forall₂ R xs ys) :
    List.Forall₂ R (lastFirst xs) (lastFirst ys) := by
  rw [lastFirst_eq, lastFirst_eq, h.length_eq]
  exact List.rel_append (List.forall₂_drop _ h) (List.forall₂_take _ h)

theorem tabstops_selectTabstop (s : Session) (b : Buffer) (place : Nat) :
    (s.selectTabstop b place).1.tabstops = s.tabstops := by
  unfold selectTabstop
  dsimp only
  split
  · rfl
  · split <;> rfl

/-- Moving changes no tabstop, unless it ends the session. -/
theorem tabstops_tabNext (s : Session) (b : Buffer) (step : Int) (h : (s.tabNext b step).1.isActive = true) :
    (s.tabNext b step).1.tabstops = s.tabstops := by
  unfold tabNext at h ⊢
  split at h
  · rename_i hstay
    rw [if_pos hstay]
  · rename_i hgo
    rw [if_neg hgo]
    dsimp only at h ⊢
    split at h
    · rw [isActive_detach] at h
      cases h
    · rename_i hplace
      rw [if_neg hplace]
      exact tabstops_selectTabstop s b _

end Session

namespace SnippetInserter

open Session (SameText Tracking lastFirst)

variable {i : SnippetInserter} {b : Buffer}

theorem sameText_added (i : SnippetInserter) (b : Buffer) (expanded : ExpandedSnippet) (origin : Position) :
    SameText b ((i.started b).1.addTabstops (i.started b).2 expanded.tabstops origin).2 :=
  (i.sameText_started b).trans
    (Session.sameText_addTabstops (i.started b).1 (i.started b).2 expanded.tabstops origin)

theorem lines_beginSession (hb : b.Sound) (expanded : ExpandedSnippet) (origin : Position) :
    (i.beginSession b expanded origin).2.lines = b.lines := by
  have hadded := sameText_added i b expanded origin
  rw [beginSession_started]
  exact (Session.sound_tabNext (hadded.sound hb) 1).2.trans hadded.lines

/-- Each tabstop was followed before, or is one of the snippet. -/
theorem mem_beginSession {expanded : ExpandedSnippet} {origin : Position} {t : Tabstop}
    (hactive : (i.beginSession b expanded origin).1.session.isActive = true)
    (ht : t ∈ (i.beginSession b expanded origin).1.session.tabstops) :
    t ∈ (i.started b).1.tabstops ∨
      ∃ g ∈ expanded.tabstops, Tracking i.session.linkMirrors origin (i.started b).1.nextKey g t := by
  rw [beginSession_started] at hactive ht
  dsimp only at hactive ht
  rw [Session.tabstops_tabNext _ _ 1 hactive] at ht
  rw [← i.linkMirrors_started b]
  exact Session.mem_addTabstops ht

theorem forall₂_beginSession (hidle : i.session.isActive = false) (expanded : ExpandedSnippet) (origin : Position)
    (hactive : (i.beginSession b expanded origin).1.session.isActive = true) :
    List.Forall₂
      (fun g t => t.id = g.id ∧ ∃ (b' : Buffer) (nextKey : Nat),
        t.ranges = (Session.trackRanges i.session.linkMirrors origin b' nextKey false g.ranges).1)
      (lastFirst expanded.tabstops) (i.beginSession b expanded origin).1.session.tabstops := by
  rw [beginSession_started] at hactive ⊢
  dsimp only at hactive ⊢
  rw [Session.tabstops_tabNext _ _ 1 hactive, started_of_inactive hidle]
  unfold Session.addTabstops
  simpa using Session.forall₂_lastFirst (Session.forall₂_trackGroups _ expanded.tabstops _ _ _)

/-- The range of a tabstop reads the text of the snippet that it covers. -/
def ReadsAs (value : List Char) (b : Buffer) (r : TabstopRange) (x : TrackedRange) : Prop :=
  ∃ piece, r.range.Reads value piece ∧ x.range.Reads b.chars piece ∧ b.textRange x.range = String.ofList piece

theorem reads_beginSession (hidle : i.session.isActive = false) (hb : b.Sound) {expanded : ExpandedSnippet}
    {text rest : List Char} {m : Nat} (hm : m ≤ text.length)
    (hchars : b.chars = text.take m ++ expanded.text.toList ++ rest)
    (hon : ∀ g ∈ expanded.tabstops, ∀ r ∈ g.ranges, r.range.On expanded.text.toList) :
    let begun := i.beginSession b expanded (place text m)
    begun.2.chars = b.chars ∧ (begun.1.session.isActive = true → List.Forall₂
      (fun g t => t.id = g.id ∧ List.Forall₂ (ReadsAs expanded.text.toList begun.2) g.ranges t.ranges)
      (lastFirst expanded.tabstops) begun.1.session.tabstops) := by
  intro begun
  have hlines : begun.2.lines = b.lines := lines_beginSession hb expanded (place text m)
  have hsame : begun.2.chars = b.chars := Buffer.chars_congr hlines
  have hwell : begun.2.WellFormed := hb.wellFormed.congr hlines
  refine ⟨hsame, fun hactive => ?_⟩
  have hmem : ∀ g ∈ lastFirst expanded.tabstops, g ∈ expanded.tabstops := fun g =>
    (Session.lastFirst_perm expanded.tabstops).mem_iff.mp
  refine ((List.forall₂_and_left _ _).mpr ⟨hmem, forall₂_beginSession hidle expanded _ hactive⟩).imp ?_
  rintro g t ⟨hg, hid, b', nextKey, hranges⟩
  refine ⟨hid, ?_⟩
  rw [hranges]
  refine (Session.forall₂_range_trackRanges hm (hon g hg) nextKey false).imp ?_
  rintro r x ⟨hr, hx⟩
  obtain ⟨piece, hpiece⟩ := hr.reads
  have hreads : x.range.Reads begun.2.chars piece := by
    rw [hx, hsame, hchars]
    exact TabstopRange.reads_offsetBy hm hpiece rest
  obtain ⟨p, q, hpq, hq, hrange, hslice⟩ := id hreads
  refine ⟨piece, hpiece, hreads, ?_⟩
  rw [hrange, Buffer.textRange_place hwell hpq hq, hslice]

theorem insert_fst (i : SnippetInserter) (b : Buffer) (source : String) (options : InsertOptions) :
    (i.insert b source options).1 = expandSnippet i.vars b.context options source := by
  have hs : Editor.selection b = b.selection := rfl
  have hc : Editor.context b = b.context := rfl
  unfold insert
  rw [hs, hc]
  generalize expandSnippet i.vars b.context options source = expanded
  dsimp only
  split <;> rfl

/-- A snippet takes the place of the selection. -/
theorem exists_insert (hb : b.Sound) (hidle : i.session.isActive = false) (source : String) {options : InsertOptions}
    (hrun : options.dryRun = false) :
    let expanded := expandSnippet i.vars b.context options source
    ∃ m n lines selections, m ≤ n ∧ n ≤ b.chars.length ∧
      b.selection.toRange = ⟨place b.chars m, place b.chars n⟩ ∧
      ({ b with lines, selections } : Buffer).Sound ∧
      ({ b with lines, selections } : Buffer).chars = b.chars.take m ++ expanded.text.toList ++ b.chars.drop n ∧
      (i.insert b source options).2 = i.beginSession { b with lines, selections } expanded (place b.chars m) := by
  intro expanded
  obtain ⟨m, n, hmn, hn, hrange⟩ := Buffer.on_selection hb
  obtain ⟨lines, selections, he, hsound, hchars⟩ := Buffer.replace_place hb hmn hn expanded.text
  refine ⟨m, n, lines, selections, hmn, hn, hrange, hsound, hchars, ?_⟩
  rw [insert_eq]
  simp only [hrun, Bool.false_eq_true, if_false]
  rw [hrange, he]
  dsimp only
  rw [handleChanges_of_inactive hidle]

/-- A snippet takes the place of the selection, and each range that is followed reads in the buffer what it covers in
the text of the snippet. -/
theorem reads_insert (hb : b.Sound) (hidle : i.session.isActive = false) (source : String) {options : InsertOptions}
    (hrun : options.dryRun = false) :
    let expanded := (i.insert b source options).1
    let inserted := (i.insert b source options).2
    (∃ before selected behind, b.chars = before ++ selected ++ behind ∧
      b.selection.toRange = ⟨after before, after (before ++ selected)⟩ ∧
      inserted.2.chars = before ++ expanded.text.toList ++ behind) ∧
    (inserted.1.session.isActive = true → List.Forall₂
      (fun g t => t.id = g.id ∧ List.Forall₂ (ReadsAs expanded.text.toList inserted.2) g.ranges t.ranges)
      (lastFirst expanded.tabstops) inserted.1.session.tabstops) ∧
    (∀ (p : Position) (a b : List Char), p.advance (a ++ b) = (p.advance a).advance b) ∧
    ∀ (origin : Position) (text : List Char), origin.advance text = (Position.advance {} text).offsetBy origin := by
  have hon := fun g hg => (group_expandSnippet i.vars b.context options source (g := g) hg).on
  obtain ⟨m, n, lines, selections, hmn, hn, hrange, hsound, hchars, hinsert⟩ := exists_insert hb hidle source hrun
  rw [insert_fst, hinsert]
  generalize expandSnippet i.vars b.context options source = expanded at hon hchars ⊢
  obtain ⟨hsame, hreads⟩ := reads_beginSession hidle hsound (Nat.le_trans hmn hn) hchars hon
  refine ⟨⟨b.chars.take m, (b.chars.take n).drop m, b.chars.drop n, ?_, ?_, hsame.trans hchars⟩, hreads,
    Position.advance_append, fun origin text => (Position.offsetBy_after origin text).symm⟩
  all_goals
    have htake : b.chars.take m ++ (b.chars.take n).drop m = b.chars.take n := by
      conv => rhs; rw [← List.take_append_drop m (b.chars.take n), List.take_take, Nat.min_eq_left hmn]
    rw [htake]
  · rw [List.take_append_drop]
  · exact hrange

/-- Over a selection that goes from one row to the next. -/
theorem reads_insert_rows :
    let i := create { clock := ⟨2024, 3, 5, 7, 8, 9⟩ }
    let b := (Buffer.ofText "one\ntwo").setSelections [⟨⟨1, 1⟩, ⟨0, 1⟩⟩]
    let expanded := (i.insert b "<$\x7b1:ä\n$2\x7d>$1" {}).1
    let inserted := (i.insert b "<$\x7b1:ä\n$2\x7d>$1" {}).2
    b.Sound ∧ i.session.isActive = false ∧ inserted.2.text = "o<ä\n>ä\nwo" ∧
      inserted.1.session.isActive = true ∧ List.Forall₂
        (fun g t => t.id = g.id ∧ List.Forall₂ (ReadsAs expanded.text.toList inserted.2) g.ranges t.ranges)
        (lastFirst expanded.tabstops) inserted.1.session.tabstops ∧
      inserted.1.session.ranges.map (fun x => inserted.2.textRange x.range) = ["", "ä\n", "ä\n", "", ""] := by
  intro i b
  have hb : b.Sound := Buffer.sound_setSelections (Buffer.sound_ofText _) _
  have hidle : i.session.isActive = false := rfl
  have hrun : ({} : InsertOptions).dryRun = false := rfl
  have hactive : (i.insert b "<$\x7b1:ä\n$2\x7d>$1" {}).2.1.session.isActive = true := by decide +kernel
  have hreads := (reads_insert hb hidle "<$\x7b1:ä\n$2\x7d>$1" hrun).2.1
  refine ⟨hb, hidle, ?_, hactive, hreads hactive, ?_⟩
  · decide +kernel
  · decide +kernel

end SnippetInserter

end Scribe
