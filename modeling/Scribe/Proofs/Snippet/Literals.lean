import Scribe.Proofs.Snippet.Adjacent

/-!
# Literal triggers

A literal trigger becomes a pattern in which each of its characters stands for itself. Between it and the end of the line
nothing is left to choose, so it matches at one place at most. If it begins with a letter, a digit or an underscore, the
edge of a word is asked for at that place. An edge has a word character on one side only; so the place is where a word begins
if the trigger begins with a word character, and where one ends if it does not. Some digits are none.
-/

namespace Scribe

namespace Pattern

/-! ## Reading -/

/-- An escaped text is read as its characters. -/
theorem readFrom_escapedChars (text rest : List Char) {r : Reader} (h : r.flags.extended = false) :
    readFrom r 0 (escapedChars text ++ rest) = readFrom (text.foldl Reader.pushChar r) 0 rest := by
  induction text generalizing r with
  | nil => rfl
  | cons c text ih =>
    obtain ⟨d, t, htext, hscan⟩ := scan_escaped h r.groupCount c (escapedChars text ++ rest)
    have happend : escapedChars (c :: text) ++ rest = d :: (t ++ (escapedChars text ++ rest)) := by
      unfold escapedChars
      rw [List.flatMap_cons, htext, List.append_assoc]
      rfl
    have htake : r.take (.char c) = .ok (r.pushChar c) := rfl
    rw [happend, readFrom_of_scan hscan htake]
    exact ih h

theorem foldl_pushChar_run (text reversed : List Char) {r : Reader} {rest : List Piece}
    (h : r.inner.pieces = .run reversed r.flags.caseless :: rest) : text.foldl Reader.pushChar r =
      { r with inner := { r.inner with pieces := .run (text.reverse ++ reversed) r.flags.caseless :: rest } } := by
  induction text generalizing r reversed with
  | nil => rw [List.foldl_nil, List.reverse_nil, List.nil_append, ← h]
  | cons c text ih =>
    have hpush : r.pushChar c =
        { r with inner := { r.inner with pieces := .run (c :: reversed) r.flags.caseless :: rest } } := by
      rw [Reader.pushChar, OpenGroup.pushChar, h]
      dsimp only
      rw [if_pos rfl]
    rw [List.foldl_cons, hpush, ih (c :: reversed) rfl, List.reverse_cons, List.append_assoc]
    rfl

/-- They are one run in a group of their own. -/
theorem foldl_pushChar {c : Char} {text : List Char} {r : Reader} (h : r.inner.pieces = []) :
    (c :: text).foldl Reader.pushChar r =
      { r with inner := { r.inner with pieces := [.run (c :: text).reverse r.flags.caseless] } } := by
  have hpush : r.pushChar c = { r with inner := { r.inner with pieces := [.run [c] r.flags.caseless] } } := by
    rw [Reader.pushChar, OpenGroup.pushChar, h]
  rw [List.foldl_cons, hpush, foldl_pushChar_run text [c] rfl, List.reverse_cons]

/-- A literal in a group, and the end of the line. -/
def literalSource (text : List Char) : List Char := ['(', '?', ':'] ++ escapedChars text ++ [')'] ++ ['$']

theorem readFrom_literalSource {r : Reader} (h : r.flags = {}) {text : List Char} (hne : text ≠ []) :
    readFrom r 0 (literalSource text) = .ok ((r.push (.literal text false)).push (.anchor .lineEnd)) := by
  obtain ⟨flags, inner, outer, groupCount, names, largestRef⟩ := r
  obtain rfl : flags = {} := h
  obtain ⟨c, text, rfl⟩ := List.exists_cons_of_ne_nil hne
  have hsource : literalSource (c :: text) = '(' :: '?' :: ':' :: (escapedChars (c :: text) ++ [')', '$']) := by
    simp [literalSource]
  let r : Reader := ⟨{}, inner, outer, groupCount, names, largestRef⟩
  have hopen : readFrom r 0 (literalSource (c :: text)) =
      readFrom (r.openGroup (.frame .plain) {}) 0 (escapedChars (c :: text) ++ [')', '$']) := by
    rw [hsource]
    rfl
  rw [hopen, readFrom_escapedChars _ _ rfl, foldl_pushChar rfl]
  have hclose : Tree.altAll (OpenGroup.alternatives
      ⟨.frame .plain, {}, [], [.run (c :: text).reverse false]⟩) = .literal (c :: text) false := by
    show Tree.literal (c :: text).reverse.reverse false = _
    rw [List.reverse_reverse]
  rw [← hclose]
  rfl

theorem compile_literal {text : List Char} (hne : text ≠ []) : compile (String.ofList (literalSource text)) =
    .ok ⟨String.ofList (literalSource text), .seq (.literal text false) (.anchor .lineEnd), 0⟩ :=
  compile_eq_ok.mpr ⟨_, _, readFrom_literalSource rfl hne, rfl, rfl⟩

theorem compile_guarded_literal {text : List Char} (hne : text ≠ []) :
    compile (String.ofList (['\\', 'b'] ++ literalSource text)) = .ok ⟨String.ofList (['\\', 'b'] ++ literalSource text),
      .seq (.anchor .wordBoundary) (.seq (.literal text false) (.anchor .lineEnd)), 0⟩ := by
  have hguard : readFrom (Reader.initial {}) 0 (['\\', 'b'] ++ literalSource text) =
      readFrom ((Reader.initial {}).push (.anchor .wordBoundary)) 0 (literalSource text) := rfl
  exact compile_eq_ok.mpr ⟨_, _, hguard.trans (readFrom_literalSource rfl hne), rfl, rfl⟩

/-! ## Matching -/

theorem literalEnd_eq_some_iff {input : Input} {cs : List Char} {pos stop : Nat} :
    input.literalEnd pos cs = some stop ↔ cs <+: input.text.toList.drop pos ∧ stop = pos + cs.length := by
  induction cs generalizing pos with
  | nil => simp [Input.literalEnd, eq_comm]
  | cons c cs ih =>
    rw [Input.literalEnd]
    by_cases hc : input.text[pos]? = some c
    · have hdrop : input.text.toList.drop pos = c :: input.text.toList.drop (pos + 1) := by
        rw [← Array.getElem?_toList] at hc
        obtain ⟨hlt, hget⟩ := List.getElem?_eq_some_iff.mp hc
        rw [List.drop_eq_getElem_cons hlt, hget]
      rw [if_pos hc, ih, hdrop, List.cons_prefix_cons, List.length_cons, Nat.add_right_comm, Nat.add_assoc]
      simp
    · rw [if_neg hc]
      refine iff_of_false (by simp) ?_
      rintro ⟨⟨more, hmore⟩, -⟩
      refine hc ?_
      have hget := congrArg (·[0]?) hmore
      simpa using hget.symm

section
variable {text : String} {literal : List Char} {p : Pattern} {place : Nat} {r : Progress} {m : Match}

/-- A literal in front of the end of the line is the rest of the line. -/
theorem run_literal_end (hline : '\n' ∉ text.toList) {origin : Nat} {s : Progress} (hs : s.pos ≤ text.toList.length) :
    run ⟨Text.chars text, origin⟩ (.seq (.literal literal false) (.anchor .lineEnd)) s some = some r ↔
      text.toList.drop s.pos = literal ∧ r = { s with pos := text.toList.length } := by
  simp only [run, Bool.false_eq_true, if_false]
  cases hstop : Input.literalEnd ⟨Text.chars text, origin⟩ s.pos literal with
  | none =>
    refine iff_of_false (by simp) ?_
    rintro ⟨rfl, -⟩
    have hrest : Input.literalEnd ⟨Text.chars text, origin⟩ s.pos (text.toList.drop s.pos) = some _ :=
      literalEnd_eq_some_iff.mpr ⟨List.prefix_refl _, rfl⟩
    cases hstop.symm.trans hrest
  | some stop =>
    obtain ⟨hliteral, rfl⟩ := literalEnd_eq_some_iff.mp hstop
    have hliteral : literal <+: text.toList.drop s.pos := hliteral
    dsimp only
    by_cases hrest : text.toList.drop s.pos = literal
    · have hsize : s.pos + literal.length = text.toList.length := by rw [← hrest, List.length_drop]; omega
      have hends : Input.anchorHolds ⟨Text.chars text, origin⟩ .lineEnd text.toList.length = true := by
        simp [Input.anchorHolds, Text.chars]
      rw [hsize, if_pos hends]
      simp [hrest, eq_comm]
    · have hends : ¬ Input.anchorHolds ⟨Text.chars text, origin⟩ .lineEnd (s.pos + literal.length) = true := by
        intro hholds
        have hsize := pos_of_isEnd hline rfl hholds
        rw [Text.chars, List.size_toArray] at hsize
        have hlength : literal.length = (text.toList.drop s.pos).length := by rw [List.length_drop]; omega
        exact hrest (hliteral.eq_of_length hlength).symm
      rw [if_neg hends]
      exact iff_of_false (by simp) fun h => hrest h.1

/-- At an edge of a word one side is a word character and the other is not. -/
theorem anchorHolds_wordBoundary {origin : Nat} {front rest : List Char} (h : text.toList = front ++ rest) :
    Input.anchorHolds ⟨Text.chars text, origin⟩ .wordBoundary front.length = true ↔
      front.getLast?.any Unicode.isWord ≠ rest.head?.any Unicode.isWord := by
  have hword (i : Nat) : Input.isWordAt ⟨Text.chars text, origin⟩ i = (front ++ rest)[i]?.any Unicode.isWord := by
    rw [← h, Input.isWordAt, Text.chars, List.getElem?_toArray]
    cases text.toList[i]? <;> rfl
  have hbehind : (front ++ rest)[front.length]? = rest.head? := by
    rw [List.getElem?_append_right (Nat.le_refl _), Nat.sub_self, List.head?_eq_getElem?]
  have hbefore : (decide (0 < front.length) && (front ++ rest)[front.length - 1]?.any Unicode.isWord) =
      front.getLast?.any Unicode.isWord := by
    rcases List.eq_nil_or_concat front with rfl | ⟨init, c, rfl⟩
    · rfl
    · simp
  simp only [Input.anchorHolds, hword, hbehind, hbefore, bne_iff_ne]

/-- A search for the rest of the line finds it where it can begin, if it may begin there. -/
theorem find?_literal_end {may : Nat → Prop}
    (hp : ∀ place ≤ text.toList.length, ∀ r, p.matchAt ⟨Text.chars text, 0⟩ place = some r ↔
      (text.toList.drop place = literal ∧ may place) ∧ r = { Progress.fresh 0 place with pos := text.toList.length }) :
    p.find? (Text.chars text) 0 = some m ↔ ∃ front, text.toList = front ++ literal ∧ may front.length ∧
      m = { whole := ⟨front.length, text.toList.length⟩, groups := [] } := by
  have hsize : (Text.chars text).size = text.toList.length := List.size_toArray
  have hreport {place : Nat} (hle : place ≤ text.toList.length) :
      Progress.report { Progress.fresh 0 place with pos := text.toList.length } = ⟨⟨place, text.toList.length⟩, []⟩ := by
    have hstart : min place text.toList.length = place := Nat.min_eq_left hle
    simp [Progress.report, Progress.fresh, hstart]
  rw [find?_eq_some_iff]
  constructor
  · rintro ⟨place, r, -, hle, hr, -, rfl⟩
    rw [hsize] at hle
    obtain ⟨⟨hrest, hmay⟩, rfl⟩ := (hp place hle r).mp hr
    have hfront : (text.toList.take place).length = place := List.length_take_of_le hle
    refine ⟨text.toList.take place, ?_, by rwa [hfront], by rw [hfront, hreport hle]⟩
    rw [← hrest, List.take_append_drop]
  · rintro ⟨front, hfront, hmay, rfl⟩
    have hle : front.length ≤ text.toList.length := by rw [hfront, List.length_append]; omega
    have hrest : text.toList.drop front.length = literal := by rw [hfront, List.drop_left]
    refine ⟨front.length, _, Nat.zero_le _, hsize ▸ hle, (hp _ hle _).mpr ⟨⟨hrest, hmay⟩, rfl⟩, fun q _ hq => ?_,
      hreport hle⟩
    -- At a place further in front more of the line would be left.
    cases hr : p.matchAt ⟨Text.chars text, 0⟩ q with
    | none => rfl
    | some r =>
      obtain ⟨⟨hrest', -⟩, -⟩ := (hp q (by omega) r).mp hr
      have hlength := congrArg List.length (hrest'.trans hrest.symm)
      rw [List.length_drop, List.length_drop] at hlength
      omega

end

end Pattern

/-- A literal is the only trigger, and nothing stands guard. -/
structure SnippetDefinition.LiteralOnly (d : SnippetDefinition) (literal : String) : Prop where
  tabTrigger : d.tabTrigger = some literal
  trigger : d.trigger = none
  guard : d.guard = none
  endTrigger : d.endTrigger = none
  endGuard : d.endGuard = none

namespace Trigger

open Pattern (escapedChars literalSource)

/-- The literals that are taken for words. -/
def beginsLikeWord (literal : String) : Bool := literal.toList.head?.any fun c => Unicode.isAlphanumeric c || c == '_'

theorem escapedChars_ne (text : List Char) : escapedChars text ≠ ['\\', 'b'] := by
  cases text with
  | nil => simp [escapedChars]
  | cons c text =>
    intro h
    unfold escapedChars at h
    rw [List.flatMap_cons] at h
    split at h
    · rename_i hc
      obtain ⟨rfl, -⟩ := List.cons.inj (List.cons.inj h).2
      cases hc
    · rename_i hc
      obtain ⟨rfl, -⟩ := List.cons.inj h
      exact hc rfl

theorem wrap_escapedChars {text : List Char} (hne : text ≠ []) :
    wrap (escapedChars text) = ['(', '?', ':'] ++ escapedChars text ++ [')'] := by
  rcases wrap_cases (escapedChars text) with ⟨hnil, -⟩ | ⟨hedge, -⟩ | ⟨hgroup, -⟩ | ⟨-, hwrap⟩
  · obtain ⟨c, text, rfl⟩ := List.exists_cons_of_ne_nil hne
    unfold escapedChars at hnil
    rw [List.flatMap_cons] at hnil
    split at hnil <;> cases hnil
  · exact absurd hedge (escapedChars_ne text)
  · cases hgroup.symm.trans (looksGrouped_escapedChars text)
  · exact hwrap

theorem openingSource_escapedChars {text guard : List Char} (hne : text ≠ []) (hguard : wrap guard = guard) :
    openingSource (escapedChars text) guard = guard ++ literalSource text := by
  have hend := endsWith_concat (guard ++ (['(', '?', ':'] ++ escapedChars text)) ')' '$'
  unfold openingSource
  dsimp only
  rw [hguard, wrap_escapedChars hne, ← List.append_assoc, hend]
  simp [literalSource]

end Trigger

namespace Snippet

open Trigger (beginsLikeWord)
open Pattern (literalSource)

variable {d : SnippetDefinition} {literal : String} {before behind : String}

/-- The pattern of a literal trigger without a guard. -/
def literalPattern (literal : String) : Pattern :=
  ⟨String.ofList (literalSource literal.toList), .seq (.literal literal.toList false) (.anchor .lineEnd), 0⟩

def wordPattern (literal : String) : Pattern :=
  ⟨String.ofList (['\\', 'b'] ++ literalSource literal.toList),
    .seq (.anchor .wordBoundary) (.seq (.literal literal.toList false) (.anchor .lineEnd)), 0⟩

theorem compile_literalOnly (h : d.LiteralOnly literal) (hne : literal.toList ≠ []) : compile d = .ok
    { definition := Trigger.withLiteral d
      opening := some (if beginsLikeWord literal then wordPattern literal else literalPattern literal)
      trigger := some (literalPattern literal), closing := none, endTrigger := none } := by
  have hwith : Trigger.withLiteral d =
      { d with
        guard := if beginsLikeWord literal then some "\\b" else none
        trigger := some (Pattern.escape literal) } := by
    obtain ⟨c, rest, hliteral⟩ := List.exists_cons_of_ne_nil hne
    simp only [Trigger.withLiteral, h.trigger, h.tabTrigger, hliteral, h.guard, beginsLikeWord]
    rfl
  have htrigger : (Pattern.escape literal).toList = Pattern.escapedChars literal.toList := by
    simp [Pattern.escape, Pattern.escapedChars]
  have hplain (name : String) : Trigger.compile? name (Trigger.openingSource (Pattern.escapedChars literal.toList) []) =
      .ok (some (literalPattern literal)) := by
    rw [Trigger.openingSource_escapedChars hne rfl, List.nil_append, Trigger.compile?, Pattern.compile_literal hne]
    rfl
  have hword (name : String) : Trigger.compile? name
      (Trigger.openingSource (Pattern.escapedChars literal.toList) ['\\', 'b']) = .ok (some (wordPattern literal)) := by
    rw [Trigger.openingSource_escapedChars hne rfl, Trigger.compile?, Pattern.compile_guarded_literal hne]
    rfl
  have hopening (name : String) : Trigger.compile? name (Trigger.openingSource (Pattern.escapedChars literal.toList)
      ((if beginsLikeWord literal then some "\\b" else none).getD "").toList) =
        .ok (some (if beginsLikeWord literal then wordPattern literal else literalPattern literal)) := by
    cases beginsLikeWord literal with
    | false => exact hplain name
    | true => exact hword name
  have hclosing (name : String) : Trigger.compile? name (Trigger.closingSource [] []) = .ok none := rfl
  have hnone : ((none : Option String).getD "").toList = [] := rfl
  unfold compile
  simp only [hwith, h.endTrigger, h.endGuard, Option.getD_some, htrigger, hopening, hnone, hplain, hclosing]
  rfl

/-- Where a literal trigger may begin: if it is taken for a word, at an edge of one. -/
def MayBegin (literal : String) (front : List Char) : Prop :=
  beginsLikeWord literal → front.getLast?.any Unicode.isWord ≠ literal.toList.head?.any Unicode.isWord

section
variable (hline : '\n' ∉ before.toList) {m : Match}
include hline

theorem find?_literalPattern : (literalPattern literal).find? (Text.chars before) 0 = some m ↔
    ∃ front, before.toList = front ++ literal.toList ∧ m = ⟨⟨front.length, before.toList.length⟩, []⟩ := by
  have hmatch : ∀ place ≤ before.toList.length, ∀ r,
      (literalPattern literal).matchAt ⟨Text.chars before, 0⟩ place = some r ↔
        (before.toList.drop place = literal.toList ∧ True) ∧
          r = { Pattern.Progress.fresh 0 place with pos := before.toList.length } := fun place hle r =>
    (Pattern.run_literal_end hline (s := .fresh 0 place) hle).trans (by simp [Pattern.Progress.fresh])
  simpa using Pattern.find?_literal_end hmatch (m := m)

theorem find?_wordPattern : (wordPattern literal).find? (Text.chars before) 0 = some m ↔
    ∃ front, before.toList = front ++ literal.toList ∧
      front.getLast?.any Unicode.isWord ≠ literal.toList.head?.any Unicode.isWord ∧
      m = ⟨⟨front.length, before.toList.length⟩, []⟩ := by
  let edge (place : Nat) : Prop := Pattern.Input.anchorHolds ⟨Text.chars before, 0⟩ .wordBoundary place = true
  have hmatch : ∀ place ≤ before.toList.length, ∀ r,
      (wordPattern literal).matchAt ⟨Text.chars before, 0⟩ place = some r ↔
        (before.toList.drop place = literal.toList ∧ edge place) ∧
          r = { Pattern.Progress.fresh 0 place with pos := before.toList.length } := by
    intro place hle r
    show (if Pattern.Input.anchorHolds _ _ place then _ else none) = some r ↔ _
    by_cases hedge : edge place
    · rw [if_pos hedge]
      exact (Pattern.run_literal_end hline (s := .fresh 0 place) hle).trans (by simp [hedge, Pattern.Progress.fresh])
    · rw [if_neg hedge]
      exact iff_of_false (by simp) fun h => hedge h.1.2
  exact (Pattern.find?_literal_end hmatch).trans (exists_congr fun front => and_congr_right fun hfront =>
    and_congr_left fun _ => Pattern.anchorHolds_wordBoundary hfront)

theorem find?_opening : Pattern.find? (if beginsLikeWord literal then wordPattern literal else literalPattern literal)
      (Text.chars before) 0 = some m ↔
    ∃ front, before.toList = front ++ literal.toList ∧ MayBegin literal front ∧
      m = ⟨⟨front.length, before.toList.length⟩, []⟩ := by
  unfold MayBegin
  cases beginsLikeWord literal with
  | false => simpa using find?_literalPattern hline
  | true => simpa using find?_wordPattern hline

end

/-- What is found is the literal. -/
theorem captures?_of_find? {p : Pattern} {front : List Char} (hfront : before.toList = front ++ literal.toList)
    (h : p.find? (Text.chars before) 0 = some ⟨⟨front.length, before.toList.length⟩, []⟩) :
    p.captures? before = some [literal] := by
  have hslice : (Text.slice (Text.chars before) ⟨front.length, before.toList.length⟩).toList = literal.toList := by
    rw [Text.chars, Text.toList_slice, List.take_length, hfront, List.drop_left]
  simp only [Pattern.captures?, h, Option.map_some, Match.spans, List.map_cons, List.map_nil, Text.sliceOr]
  rw [String.toList_inj.mp hslice]

theorem matchAround?_of_compile {s : Snippet} (h : d.LiteralOnly literal) (hne : literal.toList ≠ [])
    (hs : compile d = .ok s) (hline : '\n' ∉ before.toList) {m : TriggerMatch} :
    s.matchAround? before behind = some m ↔
      (∃ front, before.toList = front ++ literal.toList ∧ MayBegin literal front) ∧
        m = { snippet := s, beforeCaptures := [literal], afterCaptures := [""]
              replaceBefore := literal, replaceAfter := "" } := by
  cases (compile_literalOnly h hne).symm.trans hs
  unfold matchAround?
  rw [hasTrigger, Option.isSome_some, Bool.true_or, Bool.not_true, if_neg Bool.false_ne_true]
  generalize hp : (if beginsLikeWord literal then wordPattern literal else literalPattern literal) = p
  have hfind {m : Match} : p.find? (Text.chars before) 0 = some m ↔
      ∃ front, before.toList = front ++ literal.toList ∧ MayBegin literal front ∧
        m = ⟨⟨front.length, before.toList.length⟩, []⟩ := hp ▸ find?_opening hline
  by_cases hstands : ∃ front, before.toList = front ++ literal.toList ∧ MayBegin literal front
  · obtain ⟨front, hfront, hmay⟩ := id hstands
    have hopening := captures?_of_find? hfront (hfind.mpr ⟨front, hfront, hmay, rfl⟩)
    have htrigger := captures?_of_find? hfront ((find?_literalPattern hline).mpr ⟨front, hfront, rfl⟩)
    have hmatched : Trigger.matched (some (literalPattern literal)) before = literal := by
      rw [Trigger.matched, Option.bind_some, htrigger]
      rfl
    rw [and_iff_right hstands]
    simp only [Trigger.captures?, hopening, hmatched]
    exact Option.some_inj.trans eq_comm
  · have hnone : p.find? (Text.chars before) 0 = none := by
      refine Option.eq_none_iff_forall_not_mem.mpr fun m hm => hstands ?_
      obtain ⟨front, hfront, hmay, -⟩ := hfind.mp hm
      exact ⟨front, hfront, hmay⟩
    have hopening : Trigger.captures? (some p) before = none := by
      rw [Trigger.captures?, Pattern.captures?, hnone]
      rfl
    rw [hopening]
    exact iff_of_false (by simp) fun h => hstands h.1

/-- The text ends with the literal, and if this is taken for a word, no word character stands in front of it. -/
def EndsWithWord (literal before : String) : Prop := ∃ front, before.toList = front ++ literal.toList ∧
  (beginsLikeWord literal → ∀ c ∈ front.getLast?, Unicode.isWord c = false)

/-- A literal trigger compiles whatever its characters are. It matches where the text before the cursor ends with it, if it
is not taken for a word or begins at an edge of one, and it alone is replaced. These are whole words for all but the triggers
that are taken for words and begin with no word character. -/
theorem matchAround?_literal_iff (h : d.LiteralOnly literal) (hne : literal.toList ≠ []) (hline : '\n' ∉ literal.toList) :
    ∃ s, compile d = .ok s ∧
      (∀ before behind m, '\n' ∉ before.toList → (s.matchAround? before behind = some m ↔
        (∃ front, before.toList = front ++ literal.toList ∧ MayBegin literal front) ∧
          m = { snippet := s, beforeCaptures := [literal], afterCaptures := [""]
                replaceBefore := literal, replaceAfter := "" })) ∧
      ((∀ before behind, '\n' ∉ before.toList → '\n' ∉ behind.toList →
          ((s.matchAround? before behind).isSome ↔ EndsWithWord literal before)) ↔
        (beginsLikeWord literal → literal.toList.head?.any Unicode.isWord = true)) := by
  obtain ⟨s, hs⟩ : ∃ s, compile d = .ok s := ⟨_, compile_literalOnly h hne⟩
  have hsome {before behind : String} (hbefore : '\n' ∉ before.toList) : (s.matchAround? before behind).isSome ↔
      ∃ front, before.toList = front ++ literal.toList ∧ MayBegin literal front := by
    rw [Option.isSome_iff_exists]
    simp only [matchAround?_of_compile h hne hs hbefore, exists_and_left, exists_eq, and_true]
  refine ⟨s, hs, fun before behind m hbefore => matchAround?_of_compile h hne hs hbefore, fun hwhole hword => ?_,
    fun hword before behind hbefore _ => ?_⟩
  · -- The literal alone is a whole word.
    obtain ⟨front, hfront, hmay⟩ := (hsome hline).mp
      ((hwhole literal "" hline (by decide)).mpr ⟨[], rfl, by simp⟩)
    obtain rfl : front = [] := List.self_eq_append_left.mp hfront
    simpa using hmay hword
  · rw [hsome hbefore]
    refine exists_congr fun front => and_congr_right fun _ => forall_congr' fun hbegins => ?_
    rw [hword hbegins]
    cases front.getLast? <;> simp

theorem matchAround?_literal_iff_call :
    let d : SnippetDefinition := { name := some "n", tabTrigger := some "f(n", content := "C" }
    ∃ s, compile d = .ok s ∧ ∀ before behind, '\n' ∉ before.toList → '\n' ∉ behind.toList →
      ((s.matchAround? before behind).isSome ↔ EndsWithWord "f(n" before) := by
  intro d
  have hliteral : d.LiteralOnly "f(n" := ⟨rfl, rfl, rfl, rfl, rfl⟩
  obtain ⟨s, hs, -, hwhole⟩ := matchAround?_literal_iff hliteral (by decide) (by decide)
  exact ⟨s, hs, hwhole.mpr fun _ => by decide +kernel⟩

/-- A digit that is no word character: the trigger is found behind a word alone. -/
theorem superscript_needs_word :
    let d : SnippetDefinition := { name := some "n", tabTrigger := some "²x", content := "C" }
    ∃ s, compile d = .ok s ∧ EndsWithWord "²x" "²x" ∧ s.matchAround? "²x" "" = none ∧
      (s.matchAround? "a²x" "").isSome = true := by
  intro d
  have hfound : ((compile d).toOption.map fun s => ((s.matchAround? "²x" "").isSome,
      (s.matchAround? "a²x" "").isSome)) = some (false, true) := by decide +kernel
  cases hs : compile d with
  | error e => rw [hs] at hfound; cases hfound
  | ok s =>
    rw [hs] at hfound
    obtain ⟨hnone, hsome⟩ := Prod.mk.inj (Option.some.inj hfound)
    refine ⟨s, rfl, ⟨[], rfl, by simp⟩, ?_, hsome⟩
    simpa using hnone

end Snippet

end Scribe
