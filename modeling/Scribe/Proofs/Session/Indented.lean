import Scribe.Proofs.Session.Inserted
import Scribe.Proofs.Snippet.Pieces

/-!
# The indentation of what is inserted

Behind each line end of a literal text an inserted snippet has the indentation of a line of the buffer, as far as the cursor.
A snippet takes the place of the selection, so it is inserted where the selection begins. The cursor is there as well if
nothing is selected or if it was moved backwards; otherwise it is at the end of the selection, in whose line there may be
another indentation.
-/

namespace Scribe

namespace EditContext

variable (ctx : EditContext)

theorem newline_not_mem_tabString : '\n' ∉ ctx.tabString.toList := by
  unfold tabString
  split
  · simp
  · decide

/-- The length of a spelled text tells the length of the indentation, unless the text is one line. -/
theorem length_flatMap_spelling (indentation text : List Char) : (text.flatMap (ctx.spelling indentation)).length =
    text.count '\n' * (ctx.expandTabs indentation).length + (text.flatMap (ctx.spelling [])).length := by
  induction text with
  | nil => simp
  | cons c text ih =>
    rw [List.flatMap_cons, List.flatMap_cons, List.length_append, List.length_append, ih]
    by_cases hc : c = '\n'
    · subst hc
      have hnone : ctx.expandTabs [] = [] := rfl
      rw [List.count_cons_self, Nat.succ_mul]
      simp only [spelling, if_true, hnone, List.length_cons, List.length_nil]
      omega
    · rw [List.count_cons_of_ne (by simpa using hc)]
      simp only [spelling, if_neg hc]
      omega

theorem flatMap_spelling_of_not_mem {text : List Char} (h : '\n' ∉ text) (first second : List Char) :
    text.flatMap (ctx.spelling first) = text.flatMap (ctx.spelling second) := by
  refine List.flatMap_congr fun c hc => ?_
  have hne : c ≠ '\n' := fun he => h (he ▸ hc)
  simp only [spelling, if_neg hne]

theorem spelling_congr {first second : List Char} (h : ctx.expandTabs first = ctx.expandTabs second) :
    ctx.spelling first = ctx.spelling second := by
  funext c
  simp only [spelling, h]

/-- Two indentations make the same text of one line, and of more if they look alike. -/
theorem flatMap_spelling_eq_iff {first second text : List Char} :
    text.flatMap (ctx.spelling first) = text.flatMap (ctx.spelling second) ↔
      '\n' ∉ text ∨ ctx.expandTabs first = ctx.expandTabs second := by
  constructor
  · intro heq
    by_cases hmem : '\n' ∈ text
    · have hlength := congrArg List.length heq
      rw [length_flatMap_spelling, length_flatMap_spelling ctx second] at hlength
      have hsame : (ctx.expandTabs first).length = (ctx.expandTabs second).length :=
        Nat.eq_of_mul_eq_mul_left (List.count_pos_iff.mpr hmem) (Nat.add_right_cancel hlength)
      -- Up to the first line end they agree, and there the indentations stand side by side.
      obtain ⟨line, rest, rfl, hline⟩ := List.eq_append_cons_of_mem hmem
      rw [List.flatMap_append, List.flatMap_append, ctx.flatMap_spelling_of_not_mem hline first second] at heq
      have hrest := List.append_cancel_left heq
      rw [List.flatMap_cons, List.flatMap_cons] at hrest
      simp only [spelling, if_true, List.cons_append, List.cons.injEq, true_and] at hrest
      exact .inr (List.append_inj hrest hsame).1
    · exact .inl hmem
  · rintro (h | h)
    · exact ctx.flatMap_spelling_of_not_mem h first second
    · rw [ctx.spelling_congr h]

/-- To indent a text is to put the indentation behind the line ends of the text without it. -/
theorem flatMap_spelling (indentation text : List Char) : text.flatMap (ctx.spelling indentation) =
    Text.replaceChar '\n' ('\n' :: ctx.expandTabs indentation) (text.flatMap (ctx.spelling [])) := by
  rw [Text.replaceChar, List.flatMap_assoc]
  refine List.flatMap_congr fun c _ => ?_
  by_cases hc : c = '\n'
  · have hnone : ctx.expandTabs [] = [] := rfl
    simp [spelling, hc, hnone]
  · have hkeep : ∀ cs : List Char, '\n' ∉ cs → cs.flatMap (fun d => if d = '\n' then
        '\n' :: ctx.expandTabs indentation else [d]) = cs := by
      intro cs hcs
      conv => rhs; rw [← List.flatMap_singleton' cs]
      exact List.flatMap_congr fun d hd => if_neg fun he : d = '\n' => hcs (he ▸ hd)
    simp only [spelling, if_neg hc]
    split
    · exact (hkeep _ ctx.newline_not_mem_tabString).symm
    · exact (hkeep _ (by simpa using fun he => hc he.symm)).symm

theorem newline_mem_flatMap_spelling {text : List Char} : '\n' ∈ text.flatMap (ctx.spelling []) ↔ '\n' ∈ text := by
  rw [List.mem_flatMap]
  constructor
  · rintro ⟨c, hc, hmem⟩
    unfold spelling at hmem
    split at hmem
    · rename_i hline
      exact hline ▸ hc
    · split at hmem
      · exact absurd hmem ctx.newline_not_mem_tabString
      · exact List.mem_singleton.mp hmem ▸ hc
  · exact fun h => ⟨'\n', h, List.mem_cons_self⟩

end EditContext

namespace Piece

variable {pieces : List Piece} (transform : Transform → String → String) (spell : Char → List Char)

/-- Without transforms the pieces are one text. -/
theorem flatMap_spelled_of_literal (h : ∀ p ∈ pieces, p.transform = none) :
    pieces.flatMap (·.spelled transform spell) = (pieces.flatMap (·.text.toList)).flatMap spell := by
  rw [List.flatMap_assoc]
  refine List.flatMap_congr fun p hp => ?_
  rw [spelled, h p hp]

end Piece

theorem Selection.start_toRange {s : Selection} (h : s.lead ≤ s.anchor) : s.toRange.start = s.lead := by
  unfold toRange Range.between
  split
  · rfl
  · rename_i hlt
    exact Position.le_antisymm (Position.not_lt.mp hlt) h

namespace SnippetInserter

/-- Without a running session the buffer is the same but for the selection, and in the place of this is the text. -/
theorem exists_chars_insert {i : SnippetInserter} {b : Buffer} (hb : b.Sound) (hidle : i.session.isActive = false)
    (source : String) {options : InsertOptions} (hrun : options.dryRun = false) :
    ∃ before selected behind, b.chars = before ++ selected ++ behind ∧
      b.selection.toRange = ⟨.after before, .after (before ++ selected)⟩ ∧
      (i.insert b source options).2.2.chars = before ++ (i.insert b source options).1.text.toList ++ behind := by
  obtain ⟨m, n, lines, selections, hmn, hn, hrange, hsound, hchars, hinsert⟩ := exists_insert hb hidle source hrun
  have hlines := lines_beginSession (i := i) hsound (expandSnippet i.vars b.context options source)
    (Position.place b.chars m)
  have htake : b.chars.take m ++ (b.chars.take n).drop m = b.chars.take n := by
    conv => rhs; rw [← List.take_append_drop m (b.chars.take n), List.take_take, Nat.min_eq_left hmn]
  refine ⟨b.chars.take m, (b.chars.take n).drop m, b.chars.drop n, ?_, ?_, ?_⟩
  · rw [htake, List.take_append_drop]
  · rw [htake]
    exact hrange
  · rw [hinsert, insert_fst]
    exact (Buffer.chars_congr hlines).trans hchars

/-- What is inserted are the pieces of the template with the indentation at the cursor. They have the indentation at the
start of the selection if this looks alike, as it does where the cursor is there. For a template without transforms that is
the text without indentation and this indentation behind each of its line ends; and it is what is inserted only if the
indentations look alike, or there is no line end. -/
theorem insert_indents_iff {source : String} (hv : ∀ v, .var v ∉ templateTokens source) : ∃ pieces : List Piece,
    (∀ p ∈ pieces, ∀ f ∈ p.transform, ∃ t, .tabstop t ∈ templateTokens source ∧ t.transform = some f) ∧
    ∀ (i : SnippetInserter) (b : Buffer) (dryRun : Bool),
      let ctx := b.context
      let start := ctx.indentationAt b.selection.toRange.start
      let atCursor := ctx.indentationAt b.selection.lead
      let indented := (i.insert b source { dryRun }).1.text.toList
      let flat := (i.insert b source { dryRun, excludeIndent := true }).1.text.toList
      let spelled (indentation : List Char) := pieces.flatMap (·.spelled (i.vars.transform ctx) (ctx.spelling indentation))
      flat = spelled [] ∧ indented = spelled atCursor ∧
      (b.selection.lead ≤ b.selection.anchor → atCursor = start) ∧
      (ctx.expandTabs atCursor = ctx.expandTabs start → indented = spelled start) ∧
      ((∀ t, .tabstop t ∈ templateTokens source → t.transform = none) →
        spelled start = Text.replaceChar '\n' ('\n' :: ctx.expandTabs start) flat ∧
        (indented = spelled start ↔ '\n' ∉ flat ∨ ctx.expandTabs atCursor = ctx.expandTabs start)) ∧
      (b.Sound → i.session.isActive = false → dryRun = false → ∃ before selected behind,
        b.chars = before ++ selected ++ behind ∧ b.selection.toRange = ⟨.after before, .after (before ++ selected)⟩ ∧
        (i.insert b source { dryRun }).2.2.chars = before ++ indented ++ behind) := by
  obtain ⟨pieces, htransforms, hpieces⟩ := exists_pieces hv
  refine ⟨pieces, htransforms, fun i b dryRun => ?_⟩
  intro ctx start atCursor indented flat spelled
  have hflat : flat = spelled [] := by
    simp only [flat, insert_fst, hpieces]
    rfl
  have hindented : indented = spelled atCursor := by
    simp only [indented, insert_fst, hpieces]
    rfl
  refine ⟨hflat, hindented, fun hle => ?_, fun hsame => ?_, fun hliteral => ?_, fun hb hidle hrun => ?_⟩
  · simp only [atCursor, start, Selection.start_toRange hle]
  · rw [hindented]
    simp only [spelled, ctx.spelling_congr hsame]
  · have hnone : ∀ p ∈ pieces, p.transform = none := fun p hp => by
      cases hf : p.transform with
      | none => rfl
      | some f =>
        obtain ⟨t, ht, htf⟩ := htransforms p hp f hf
        exact nomatch (hliteral t ht).symm.trans htf
    have hspelled (indentation : List Char) :
        spelled indentation = (pieces.flatMap (·.text.toList)).flatMap (ctx.spelling indentation) :=
      Piece.flatMap_spelled_of_literal _ _ hnone
    rw [hindented, hflat, hspelled, hspelled, hspelled, ctx.newline_mem_flatMap_spelling]
    exact ⟨ctx.flatMap_spelling _ _, ctx.flatMap_spelling_eq_iff⟩
  · exact exists_chars_insert hb hidle source hrun

/-- Over a selection that was made backwards. -/
theorem insert_indents_iff_backwards :
    let i := create { clock := ⟨2024, 3, 5, 7, 8, 9⟩ }
    let b := (Buffer.ofText "    a\nb").setSelections [⟨⟨1, 1⟩, ⟨0, 2⟩⟩]
    (∀ v, .var v ∉ templateTokens "x\ny") ∧ (i.insert b "x\ny" {}).1.text.toList =
      Text.replaceChar '\n' ('\n' :: b.context.expandTabs (b.context.indentationAt b.selection.toRange.start))
        (i.insert b "x\ny" { excludeIndent := true }).1.text.toList := by
  intro i b
  have htokens : templateTokens "x\ny" = [.text "x\ny"] := rfl
  have hv : ∀ v, .var v ∉ templateTokens "x\ny" := by
    rw [htokens]
    exact fun v hmem => nomatch List.mem_singleton.mp hmem
  obtain ⟨pieces, -, hinsert⟩ := insert_indents_iff hv
  obtain ⟨-, -, hcursor, hsame, hliteral, -⟩ := hinsert i b false
  have hback : b.selection.lead ≤ b.selection.anchor := by decide +kernel
  have hnone : ∀ t, .tabstop t ∈ templateTokens "x\ny" → t.transform = none := by
    rw [htokens]
    exact fun t hmem => nomatch List.mem_singleton.mp hmem
  refine ⟨hv, (hsame ?_).trans (hliteral hnone).1⟩
  rw [hcursor hback]

/-- The selection ends in a line without indentation, so there is none in the line that takes its place. -/
theorem insert_loses_indentation :
    let i := create { clock := ⟨2024, 3, 5, 7, 8, 9⟩ }
    let b := (Buffer.ofText "    a\nb").setSelections [⟨⟨0, 2⟩, ⟨1, 1⟩⟩]
    b.selection.toRange.start = ⟨0, 2⟩ ∧ b.context.indentationAt ⟨0, 2⟩ = [' ', ' '] ∧
      (i.insert b "x\ny" {}).1.text = "x\ny" ∧ (i.insert b "x\ny" {}).2.2.text = "  x\ny" := by
  decide +kernel

end SnippetInserter

end Scribe
