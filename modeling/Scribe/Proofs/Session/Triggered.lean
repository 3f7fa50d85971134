import Scribe.Proofs.Session.Inserted
import Scribe.Proofs.Snippet.Adjacent

/-!
# Snippets expanded by their triggers

The expansion takes away what the triggers match around the cursor, and then inserts the content where this was.
-/

namespace Scribe

namespace Buffer

open Position (after)

variable {b : Buffer}

theorem not_mem_line (hb : b.WellFormed) (row : Nat) : '\n' ∉ b.line row := by
  rw [← rows_getElem?]
  cases h : b.rows[row]? with
  | none => simp
  | some line => exact hb.noLineEnd line (List.mem_of_getElem? h)

/-- What stands around a position on its line stands around it in the text. -/
theorem exists_around (hb : b.WellFormed) {p : Position} (hp : b.Has p) {w x y z : List Char}
    (hbefore : (b.line p.row).take p.column = w ++ x) (hafter : (b.line p.row).drop p.column = y ++ z) :
    ∃ front back, b.chars = front ++ x ++ y ++ back ∧ after front = ⟨p.row, p.column - x.length⟩ ∧
      after (front ++ x) = p ∧ after (front ++ x ++ y) = ⟨p.row, p.column + y.length⟩ := by
  obtain ⟨hrow, hcolumn⟩ := (b.has_iff_row_column p).mp hp
  have hline : b.line p.row = w ++ x ++ y ++ z := by
    rw [List.append_assoc (w ++ x), ← hbefore, ← hafter, List.take_append_drop]
  have hlength : p.column = w.length + x.length := by
    have := congrArg List.length hbefore
    rwa [List.length_take, Nat.min_eq_left hcolumn, List.length_append] at this
  have hplace : ∀ k ≤ (b.line p.row).length,
      after (Text.ended (b.rows.take p.row) ++ (b.line p.row).take k) = ⟨p.row, k⟩ := by
    intro k hk
    have hin : Position.InRows b.rows ⟨p.row, k⟩ := (b.has_iff_row_column ⟨p.row, k⟩).mpr ⟨hrow, hk⟩
    have hafter := Position.after_upTo hb.noLineEnd hin
    rwa [Position.upTo, rows_getElem?] at hafter
  refine ⟨Text.ended (b.rows.take p.row) ++ w, Text.joinWith ['\n'] (z :: b.rows.drop (p.row + 1)), ?_, ?_, ?_, ?_⟩
  · rw [b.chars_eq, ← Position.upTo_append hp, Position.upTo, rows_getElem?, hbefore, hafter, Text.joinWith_split]
    simp only [List.append_assoc]
  · have hw := hplace w.length (by rw [hline]; simp)
    rwa [hline, List.append_assoc (w ++ x), List.append_assoc w, List.take_left,
      show w.length = p.column - x.length by omega] at hw
  · have hx := hplace p.column hcolumn
    rwa [hbefore, ← List.append_assoc] at hx
  · have hy := hplace (p.column + y.length) (by rw [hline]; simp; omega)
    rw [hline, List.take_left' (by simp; omega)] at hy
    simpa only [List.append_assoc] using hy

end Buffer

namespace SnippetInserter

open Position (after place)
open Trigger (EndsAtLine StartsAtLine endsSafely startsSafely)

variable {i : SnippetInserter} {b : Buffer}

theorem matchAround?_of_findTrigger? {m : TriggerMatch} (h : i.findTrigger? b = some m) :
    (∃ scope, m.snippet ∈ i.store.snippets scope) ∧
      m.snippet.matchAround? (String.ofList ((b.line b.cursor.row).take b.cursor.column))
        (String.ofList ((b.line b.cursor.row).drop b.cursor.column)) = some m := by
  have hsplit : aroundCursor (Editor.context b) =
      ((b.line b.cursor.row).take b.cursor.column, (b.line b.cursor.row).drop b.cursor.column) := List.splitAt_eq
  unfold findTrigger? at h
  rw [hsplit] at h
  obtain ⟨scope, -, hscope⟩ := List.exists_of_findSome?_eq_some h
  obtain ⟨s, hmem, hs⟩ := List.exists_of_findSome?_eq_some hscope
  rw [(Snippet.fields_of_matchAround? hs).1]
  exact ⟨⟨scope, List.mem_reverse.mp hmem⟩, hs⟩

/-- A snippet put in at a cursor takes the place of no text. -/
theorem chars_insert (hb : b.Sound) (hidle : i.session.isActive = false) (source : String) {options : InsertOptions}
    (hrun : options.dryRun = false) {front back : List Char} (hchars : b.chars = front ++ back)
    (hcursor : b.selection.toRange = ⟨after front, after front⟩) :
    (i.insert b source options).2.2.chars =
      front ++ (expandSnippet i.vars b.context options source).text.toList ++ back := by
  obtain ⟨m, n, lines, selections, hmn, hn, hrange, hsound, htext, hinsert⟩ := exists_insert hb hidle source hrun
  have hfront : place b.chars front.length = after front := by rw [hchars, Position.place_length_append]
  have hlength : front.length ≤ b.chars.length := by rw [hchars, List.length_append]; omega
  obtain ⟨hm, hn'⟩ := Range.mk.inj (hrange.symm.trans hcursor)
  rw [← hfront] at hm hn'
  obtain rfl := (Position.place_inj (Nat.le_trans hmn hn) hlength).mp hm
  obtain rfl := (Position.place_inj hn hlength).mp hn'
  rw [hinsert, Buffer.chars_congr (lines_beginSession hsound _ _), htext, hchars, List.take_left, List.drop_left]

/-- Puts the content of a match in at a position, its groups known. -/
def insertMatch (i : SnippetInserter) (b : Buffer) (m : TriggerMatch) (start : Position) (options : InsertOptions) :
    SnippetInserter × Buffer :=
  let inserted := ({ i with vars := i.vars.setCaptures m.beforeCaptures m.afterCaptures }).insert
    (b.setSelections [.cursor start]) m.snippet.content options
  ({ inserted.2.1 with vars := inserted.2.1.vars.clearCaptures }, inserted.2.2)

theorem chars_insertMatch (hb : b.Sound) (hidle : i.session.isActive = false) (m : TriggerMatch)
    {options : InsertOptions} (hrun : options.dryRun = false) {front back : List Char} (hchars : b.chars = front ++ back) :
    (i.insertMatch b m (after front) options).2.chars = front ++
      (expandSnippet (i.vars.setCaptures m.beforeCaptures m.afterCaptures)
        (b.setSelections [.cursor (after front)]).context options m.snippet.content).text.toList ++ back := by
  have hfront : place b.chars front.length = after front := by rw [hchars, Position.place_length_append]
  have hlength : front.length ≤ b.chars.length := by
    rw [hchars]
    exact (List.prefix_append _ _).length_le
  have hcursor : (b.setSelections [.cursor (after front)]).selection.toRange = ⟨after front, after front⟩ := by
    show Range.between (b.clamp (after front)) (b.clamp (after front)) = _
    rw [← hfront, Buffer.clamp_place hb.wellFormed hlength]
    unfold Range.between
    rw [if_neg (Position.lt_irrefl _)]
  exact chars_insert (i := { i with vars := i.vars.setCaptures m.beforeCaptures m.afterCaptures })
    (Buffer.sound_setSelections hb _) hidle m.snippet.content hrun hchars hcursor

/-- The one change that takes a text away, none if it is empty. -/
def removalOf (front removed : List Char) : List Delta :=
  if removed = [] then [] else [.removal ⟨after front, after (front ++ removed)⟩ (String.ofList removed)]

theorem spliceDeltas_removal {front removed back : List Char} (hchars : b.chars = front ++ removed ++ back) :
    b.spliceDeltas front.length (front ++ removed).length "" = removalOf front removed := by
  have hfront : place b.chars front.length = after front := by
    rw [hchars, List.append_assoc, Position.place_length_append]
  have hback : place b.chars (front ++ removed).length = after (front ++ removed) := by
    rw [hchars, Position.place_length_append]
  have htext : (b.chars.take (front ++ removed).length).drop front.length = removed := by
    rw [hchars, List.take_left, List.drop_left]
  have hlength : front.length = (front ++ removed).length ↔ removed = [] := by
    rw [List.length_append, Nat.left_eq_add, List.length_eq_zero_iff]
  unfold Buffer.spliceDeltas removalOf
  rw [hfront, hback, htext, if_pos rfl, List.append_nil, if_congr hlength rfl rfl]

/-- The triggers of a match on both sides of the cursor are removed and nothing else is, before the content is put in
where they were. -/
theorem expandTrigger_around (hb : b.Sound) {m : TriggerMatch} (hm : i.findTrigger? b = some m)
    {options : InsertOptions} (hrun : options.dryRun = false)
    (hbefore : m.replaceBefore.toList <:+ (b.line b.cursor.row).take b.cursor.column)
    (hafter : m.replaceAfter.toList <+: (b.line b.cursor.row).drop b.cursor.column) :
    ∃ front back cleared, b.chars = front ++ m.replaceBefore.toList ++ m.replaceAfter.toList ++ back ∧
      b.cursor = after (front ++ m.replaceBefore.toList) ∧ cleared.Sound ∧ cleared.chars = front ++ back ∧
      let heard := i.handleChanges cleared (removalOf front (m.replaceBefore.toList ++ m.replaceAfter.toList))
      i.expandTrigger b options = (true, heard.1.insertMatch heard.2 m (after front) options) := by
  obtain ⟨w, hw⟩ := hbefore
  obtain ⟨z, hz⟩ := hafter
  obtain ⟨front, back, hchars, hstart, hcursor, hstop⟩ :=
    Buffer.exists_around hb.wellFormed (Buffer.has_selection hb).2 hw.symm hz.symm
  refine ⟨front, back, ?_⟩
  have hlength : m.replaceBefore.toList.length = m.replaceBefore.length ∧
      m.replaceAfter.toList.length = m.replaceAfter.length := ⟨String.length_toList, String.length_toList⟩
  rw [hlength.1] at hstart
  rw [hlength.2] at hstop
  rw [List.append_assoc front] at hchars hstop ⊢
  generalize m.replaceBefore.toList ++ m.replaceAfter.toList = removed at hchars hstop ⊢
  have hn : (front ++ removed).length ≤ b.chars.length := by
    rw [hchars]
    exact (List.prefix_append _ _).length_le
  obtain ⟨lines, selections, he, hsound, htext⟩ :=
    Buffer.replace_place hb (List.prefix_append front removed).length_le hn ""
  have hfront : place b.chars front.length = after front := by
    rw [hchars, List.append_assoc, Position.place_length_append]
  have hback : place b.chars (front ++ removed).length = after (front ++ removed) := by
    rw [hchars, Position.place_length_append]
  have hbetween : Range.between (after front) (after (front ++ removed)) = ⟨after front, after (front ++ removed)⟩ := by
    unfold Range.between
    rw [if_neg (Position.not_lt.mpr (Position.after_le_append _ _))]
  refine ⟨{ b with lines, selections }, hchars, hcursor.symm, hsound, ?_, ?_⟩
  · rw [htext, hchars, List.drop_left, List.append_assoc front, List.take_left]
    simp
  · have hexpand : i.expandTrigger b options = (true, i.expandMatch b m options) := by
      unfold expandTrigger
      rw [hm]
      dsimp only
      rw [hrun]
      rfl
    rw [hfront, hback, ← hbetween, hstart, hstop, spliceDeltas_removal hchars] at he
    rw [hexpand, expandMatch_eq, hstart]
    dsimp only [Buffer.cursor]
    rw [he]
    rfl

/-- What a trigger matches stands next to the cursor if each way through its pattern passes the end of the line, and
what an end trigger matches if each way passes the start of the line. So it is for a literal trigger and for each
pattern that is put in a group and can be read by itself. Then this text is removed and no other. -/
theorem expandTrigger_removes {d : SnippetDefinition} {s : Snippet} (hs : Snippet.compile d = .ok s) :
    (d.trigger = none ∨ endsSafely (s.definition.trigger.getD "").toList = true → EndsAtLine s.trigger) ∧
    (startsSafely (s.definition.endTrigger.getD "").toList = true → (∀ q ∈ s.endTrigger, q.tree.hasKeep = false) →
      StartsAtLine s.endTrigger) ∧
    (∀ (before behind : String) (m : TriggerMatch), '\n' ∉ before.toList → '\n' ∉ behind.toList →
      s.matchAround? before behind = some m → (EndsAtLine s.trigger → m.replaceBefore.toList <:+ before.toList) ∧
        (StartsAtLine s.endTrigger → m.replaceAfter.toList <+: behind.toList)) ∧
    (EndsAtLine s.trigger → StartsAtLine s.endTrigger → ∀ (i : SnippetInserter) (b : Buffer) (m : TriggerMatch)
      (options : InsertOptions), b.Sound → i.findTrigger? b = some m → m.snippet = s → options.dryRun = false →
      ∃ front back cleared, b.chars = front ++ m.replaceBefore.toList ++ m.replaceAfter.toList ++ back ∧
        b.cursor = after (front ++ m.replaceBefore.toList) ∧ cleared.Sound ∧ cleared.chars = front ++ back ∧
        (let heard := i.handleChanges cleared (removalOf front (m.replaceBefore.toList ++ m.replaceAfter.toList))
        i.expandTrigger b options = (true, heard.1.insertMatch heard.2 m (after front) options)) ∧
        (i.session.isActive = false → (i.expandTrigger b options).2.2.chars = front ++
          (expandSnippet (i.vars.setCaptures m.beforeCaptures m.afterCaptures)
            (cleared.setSelections [.cursor (after front)]).context options s.content).text.toList ++ back)) := by
  obtain ⟨name, htrigger, hend⟩ := Snippet.triggers_of_compile hs
  refine ⟨?_, ?_, fun _ _ _ => Snippet.replaced_around, ?_⟩
  · rintro (h | h)
    · exact Snippet.endsAtLine_of_literal hs h
    · exact Trigger.endsAtLine_of_endsSafely htrigger h
  · intro h hkeep q hq
    exact ⟨Trigger.goesBy_isStart_of_startsSafely hend h q hq, hkeep q hq⟩
  · intro htriggers hends i b m options hb hm hsnippet hrun
    obtain ⟨-, hmatch⟩ := matchAround?_of_findTrigger? hm
    rw [hsnippet] at hmatch
    have hline := Buffer.not_mem_line hb.wellFormed b.cursor.row
    obtain ⟨hbefore, hbehind⟩ := Snippet.replaced_around (by simpa using fun h => hline (List.mem_of_mem_take h))
      (by simpa using fun h => hline (List.mem_of_mem_drop h)) hmatch
    have hsuffix := hbefore htriggers
    have hprefix := hbehind hends
    rw [String.toList_ofList] at hsuffix hprefix
    obtain ⟨front, back, cleared, hchars, hcursor, hsound, hcleared, hexpand⟩ :=
      expandTrigger_around hb hm hrun hsuffix hprefix
    refine ⟨front, back, cleared, hchars, hcursor, hsound, hcleared, hexpand, fun hidle => ?_⟩
    rw [hexpand, handleChanges_of_inactive hidle, ← hsnippet]
    exact chars_insertMatch hsound hidle m hrun hcleared

/-- Groups with a group around them, and an end trigger. -/
theorem expandTrigger_removes_grouped :
    let d : SnippetDefinition := { trigger := some "((x)|(bar))", endTrigger := some "=+", content := "<$M0$1>" }
    let b := (Buffer.ofText "one\nx bar== two").setCursor ⟨1, 5⟩
    ∃ s, Snippet.compile d = .ok s ∧ ∃ m,
      let i := { create { clock := ⟨2024, 3, 5, 7, 8, 9⟩ } with store := ({} : SnippetStore).add "_" s }
      i.findTrigger? b = some m ∧ m.replaceBefore = "bar" ∧ m.replaceAfter = "==" ∧
      (∃ (front back : List Char) (cleared : Buffer), b.chars = front ++ "bar".toList ++ "==".toList ++ back ∧
        b.cursor = after (front ++ "bar".toList) ∧ cleared.chars = front ++ back) ∧
      (i.expandTrigger b {}).2.2.text = "one\nx <bar> two" := by
  intro d b
  let i (s : Snippet) : SnippetInserter :=
    { create { clock := ⟨2024, 3, 5, 7, 8, 9⟩ } with store := ({} : SnippetStore).add "_" s }
  let safe (s : Snippet) : Bool := endsSafely (s.definition.trigger.getD "").toList &&
    startsSafely (s.definition.endTrigger.getD "").toList && s.endTrigger.all (!·.tree.hasKeep)
  let works (s : Snippet) : Bool :=
    (((i s).findTrigger? b).map fun m => (m.replaceBefore, m.replaceAfter)) == some ("bar", "==") &&
      ((i s).expandTrigger b {}).2.2.text == "one\nx <bar> two"
  have hcompile : (Snippet.compile d).toOption.any (fun s => safe s && works s) = true := by decide +kernel
  cases hs : Snippet.compile d with
  | error e => rw [hs] at hcompile; cases hcompile
  | ok s =>
    rw [hs] at hcompile
    obtain ⟨hsafe, hworks⟩ := Bool.and_eq_true_iff.mp hcompile
    obtain ⟨hsafe, hkeep⟩ := Bool.and_eq_true_iff.mp hsafe
    obtain ⟨hends, hstarts⟩ := Bool.and_eq_true_iff.mp hsafe
    obtain ⟨hfound, htext⟩ := Bool.and_eq_true_iff.mp hworks
    obtain ⟨m, hm, hreplaced⟩ := Option.map_eq_some_iff.mp (eq_of_beq hfound)
    obtain ⟨hbefore, hbehind⟩ := Prod.mk.inj hreplaced
    have hsnippet : m.snippet = s := by
      obtain ⟨⟨scope, hmem⟩, -⟩ := matchAround?_of_findTrigger? hm
      dsimp only [i] at hmem
      rw [SnippetStore.snippets_add] at hmem
      split at hmem
      · cases hname : s.name? <;> rw [hname] at hmem <;> exact List.mem_singleton.mp hmem
      · cases hmem
    have hkeep' : ∀ q ∈ s.endTrigger, q.tree.hasKeep = false := by
      intro q hq
      rw [hq] at hkeep
      simpa using hkeep
    obtain ⟨htrigger, hendTrigger, -, hremoves⟩ := expandTrigger_removes hs
    have hb : b.Sound := Buffer.sound_setCursor (Buffer.sound_ofText _) _
    obtain ⟨front, back, cleared, hchars, hcursor, -, hcleared, -⟩ :=
      hremoves (htrigger (.inr hends)) (hendTrigger hstarts hkeep') (i s) b m {} hb hm hsnippet rfl
    rw [hbefore, hbehind] at hchars
    rw [hbefore] at hcursor
    exact ⟨s, rfl, m, hm, hbefore, hbehind, ⟨front, back, cleared, hchars, hcursor, hcleared⟩, eq_of_beq htext⟩

/-- The end of the line is asked for behind the last of two groups alone, so the first of them stands anywhere. As much
text as it matches is then removed from in front of the cursor. -/
theorem replaces_apart :
    let d : SnippetDefinition := { name := some "n", trigger := some "(x)|(bar)", content := "C" }
    let b := (Buffer.ofText "x bar").setCursor ⟨0, 5⟩
    ∃ s m, Snippet.compile d = .ok s ∧ s.matchAround? "x bar" "" = some m ∧
      ¬ m.replaceBefore.toList <:+ "x bar".toList ∧
      let i := { create { clock := ⟨2024, 3, 5, 7, 8, 9⟩ } with store := ({} : SnippetStore).add "_" s }
      (i.expandTrigger b {}).2.2.text = "x baC" := by
  intro d b
  let i (s : Snippet) : SnippetInserter :=
    { create { clock := ⟨2024, 3, 5, 7, 8, 9⟩ } with store := ({} : SnippetStore).add "_" s }
  have hfound : ((Snippet.compile d).toOption.map fun s => ((s.matchAround? "x bar" "").map (·.replaceBefore),
      ((i s).expandTrigger b {}).2.2.text)) = some (some "x", "x baC") := by decide +kernel
  cases hs : Snippet.compile d with
  | error e => rw [hs] at hfound; cases hfound
  | ok s =>
    rw [hs] at hfound
    obtain ⟨hmatch, htext⟩ := Prod.mk.inj (Option.some.inj hfound)
    obtain ⟨m, hm, hx⟩ := Option.map_eq_some_iff.mp hmatch
    refine ⟨s, m, rfl, hm, ?_, htext⟩
    rw [hx]
    decide

end SnippetInserter

end Scribe
