import Scribe.Proofs.Highlight.Coverage
import Scribe.Proofs.Pattern.Glued
import Scribe.Proofs.Snippet.Registered

/-!
# Triggers next to the cursor

The text that a trigger matches ends at the cursor if each way through its pattern passes the end of the line. The
anchor is put beside the pattern as it is written, so it holds for all of it if the pattern is put in a group and can be
read by itself, or if it is a group already and no bar stands outside of its parentheses.
-/

namespace Scribe

namespace Pattern

/-- The pattern can be read by itself, and no comment in it runs to its end. -/
def standsAlone (source : List Char) : Bool :=
  (compile (String.ofList source)).isOk &&
    (readings (Reader.initial {}) 0 source).all fun x => x.text.length = x.used + 1

/-- No bar stands outside of the groups that have a parenthesis at their end. -/
def isOneBranch (source : List Char) : Bool :=
  match readFrom (Reader.initial {}) 0 source with
  | .ok r => (r.inner :: r.outer).all (·.branches.isEmpty)
  | .error _ => false

/-- The last lexeme closes a group. -/
def closesLast (source : List Char) : Bool :=
  (readings (Reader.initial {}) 0 source).getLast?.any (·.text = [')'])

section
variable {source : List Char} {p : Pattern}

theorem exists_stands_of_standsAlone (h : standsAlone source = true) :
    ∃ u t, readFrom (Reader.initial {}) 0 source = .ok u ∧
      Stands source (readings (Reader.initial {}) 0 source) u t := by
  obtain ⟨hok, huncut⟩ := Bool.and_eq_true_iff.mp h
  cases hp : compile (String.ofList source) with
  | error e => rw [hp] at hok; cases hok
  | ok p =>
    obtain ⟨u, hread, hstands⟩ := exists_stands hp fun x hx => of_decide_eq_true (List.all_eq_true.mp huncut x hx)
    exact ⟨u, p.tree, hread, hstands⟩

theorem branches_of_isOneBranch {u : Reader} (h : isOneBranch source = true)
    (hread : readFrom (Reader.initial {}) 0 source = .ok u) : ∀ g ∈ u.inner :: u.outer, g.branches.isEmpty = true := by
  unfold isOneBranch at h
  rw [hread] at h
  exact List.all_eq_true.mp h

theorem goesBy_isEnd_of_closesLast (h : standsAlone source = true) (hone : isOneBranch source = true)
    (hlast : closesLast source = true) (hp : compile (String.ofList (source ++ ['$'])) = .ok p) :
    p.tree.goesBy Anchor.isEnd = true := by
  obtain ⟨u, t, hread, hstands⟩ := exists_stands_of_standsAlone h
  obtain ⟨q, hq, hgoes⟩ := hstands.compile_end (branches_of_isOneBranch hone hread) hlast
  cases hq.symm.trans hp
  exact hgoes

theorem goesBy_isStart_of_isOneBranch (h : standsAlone source = true) (hone : isOneBranch source = true)
    (hp : compile (String.ofList ('^' :: source)) = .ok p) : p.tree.goesBy Anchor.isStart = true := by
  obtain ⟨u, t, hread, hstands⟩ := exists_stands_of_standsAlone h
  obtain ⟨q, hq, hgoes⟩ := hstands.compile_start (branches_of_isOneBranch hone hread)
  cases hq.symm.trans hp
  exact hgoes

end

/-! ## Escaped texts -/

/-- A character and what escapes it is one lexeme. -/
theorem scan_escaped {flags : Flags} (hflags : flags.extended = false) (groupCount : Nat) (c : Char)
    (rest : List Char) : ∃ d t, (if specialChars.contains c then ['\\', c] else [c]) = d :: t ∧
      scan flags groupCount d (t ++ rest) = .ok (.char c, t.length) := by
  by_cases hc : specialChars.contains c = true
  · rw [if_pos hc]
    refine ⟨'\\', [c], rfl, ?_⟩
    have hmem : c ∈ specialChars := List.contains_iff_mem.mp hc
    simp only [specialChars, List.mem_cons, List.not_mem_nil, or_false] at hmem
    rcases hmem with rfl | rfl | rfl | rfl | rfl | rfl | rfl | rfl | rfl | rfl | rfl | rfl | rfl | rfl | rfl | rfl <;> rfl
  · rw [if_neg hc]
    refine ⟨c, [], rfl, ?_⟩
    have hne : ∀ d ∈ specialChars, c ≠ d := by
      rintro d hd rfl
      exact hc (List.contains_iff_mem.mpr hd)
    simp only [specialChars, List.mem_cons, List.not_mem_nil, or_false, forall_eq_or_imp, forall_eq] at hne
    unfold scan
    simp [hne, scanPlain, hflags]

/-- The text of a pattern that matches these characters and nothing else. -/
def escapedChars (text : List Char) : List Char :=
  text.flatMap fun c => if specialChars.contains c then ['\\', c] else [c]

/-- An escaped text is read character by character, all of them in one group. -/
theorem reads_escapedChars : ∀ (text : List Char) {r : Reader}, r.flags.extended = false →
    ∃ xs u, Reads r (escapedChars text) xs u ∧ u.outer = r.outer ∧ u.inner.kind = r.inner.kind ∧
      u.groupCount = r.groupCount ∧ u.largestRef = r.largestRef
  | [], r, _ => ⟨[], r, .nil, rfl, rfl, rfl, rfl⟩
  | c :: text, r, h => by
    obtain ⟨d, t, htext, hscan⟩ := scan_escaped h r.groupCount c (escapedChars text)
    obtain ⟨xs, u, hreads, houter, hkind, hcount, href⟩ := reads_escapedChars text (r := r.pushChar c) h
    have hpush : (r.inner.pushChar c r.flags.caseless).kind = r.inner.kind := by
      unfold OpenGroup.pushChar
      repeat' split
      all_goals rfl
    have happend : escapedChars (c :: text) = d :: (t ++ escapedChars text) := by
      unfold escapedChars
      rw [List.flatMap_cons, htext]
      rfl
    rw [happend]
    exact ⟨_, u, .cons hscan rfl hreads, houter, hkind.trans hpush, hcount, href⟩

theorem exists_stands_escapedChars (text : List Char) : ∃ xs u t, Stands (escapedChars text) xs u t := by
  obtain ⟨xs, u, hreads, houter, hkind, hcount, href⟩ :=
    reads_escapedChars text (r := Reader.initial {}) rfl
  refine ⟨xs, u, Tree.altAll u.inner.alternatives, hreads, finish_eq_ok.mpr ⟨?_, ?_⟩⟩
  · have hkind' : u.inner.kind = .frame .plain := hkind
    have houter' : u.outer = [] := houter
    rw [houter', Reader.finishFrom, OpenGroup.close, hkind']
  · have hcount' : u.groupCount = 0 := hcount
    have href' : u.largestRef = 0 := href
    omega

end Pattern

/-! ## Triggers as they are written -/

namespace Trigger

open Text (startsWith endsWith)
open Pattern (standsAlone isOneBranch closesLast escapedChars)

theorem endsWith_concat (text : List Char) (c d : Char) : endsWith (text ++ [c]) [d] = decide (d = c) := by
  have hreverse : (text ++ [c]).reverse = c :: text.reverse := List.reverse_concat
  unfold endsWith startsWith
  rw [hreverse, List.reverse_singleton, Text.dropStart?]
  split
  · rename_i h
    rw [decide_eq_true h]
    rfl
  · rename_i h
    rw [decide_eq_false h]
    rfl

theorem eq_concat_of_endsWith {text : List Char} {d : Char} (h : endsWith text [d] = true) :
    text = text.dropLast ++ [d] := by
  rcases List.eq_nil_or_concat text with rfl | ⟨init, c, rfl⟩
  · cases h
  · rw [List.concat_eq_append, endsWith_concat] at h
    rw [List.concat_eq_append, List.dropLast_concat, of_decide_eq_true h]

/-- The end of a text can be asked for beside the trigger: it is put in a group that can be read by itself, or it is
such a group. -/
def endsSafely (trigger : List Char) : Bool :=
  if looksGrouped trigger then
    let inner := if endsWith trigger ['$'] then trigger.dropLast else trigger
    standsAlone inner && isOneBranch inner && closesLast inner
  else standsAlone trigger

/-- The start of a text can be asked for beside the end trigger. -/
def startsSafely (trigger : List Char) : Bool :=
  if looksGrouped trigger then
    let inner := (Text.dropStart? ['^'] trigger).getD trigger
    standsAlone inner && isOneBranch inner
  else standsAlone trigger

/-- Every match of the pattern ends where a line ends. -/
def EndsAtLine (p : Option Pattern) : Prop := ∀ q ∈ p, q.tree.goesBy Anchor.isEnd = true

/-- Every match of the pattern starts where a line starts, and is reported from there. -/
def StartsAtLine (p : Option Pattern) : Prop :=
  ∀ q ∈ p, q.tree.goesBy Anchor.isStart = true ∧ q.tree.hasKeep = false

theorem compile?_cases {name : String} {source : List Char} {p : Option Pattern}
    (h : compile? name source = .ok p) :
    (source = [] ∧ p = none) ∨ ∃ q, Pattern.compile (String.ofList source) = .ok q ∧ p = some q := by
  unfold compile? at h
  split at h
  · rename_i hempty
    cases h
    exact .inl ⟨List.isEmpty_iff.mp hempty, rfl⟩
  · split at h
    · rename_i q hq
      cases h
      exact .inr ⟨q, hq, rfl⟩
    · cases h

section
variable (trigger : List Char)

/-- What is in no group yet is put in one, other than nothing and the edge of a word. -/
theorem wrap_cases : (trigger = [] ∧ wrap trigger = []) ∨ (trigger = ['\\', 'b'] ∧ wrap trigger = ['\\', 'b']) ∨
    (looksGrouped trigger = true ∧ trigger ≠ [] ∧ wrap trigger = trigger) ∨
    (looksGrouped trigger = false ∧ wrap trigger = ['(', '?', ':'] ++ trigger ++ [')']) := by
  unfold wrap
  by_cases hnil : trigger = []
  · exact .inl ⟨hnil, by simp [hnil]⟩
  · by_cases hedge : trigger = ['\\', 'b']
    · exact .inr (.inl ⟨hedge, by simp [hedge]⟩)
    · cases hgroup : looksGrouped trigger with
      | true => exact .inr (.inr (.inl ⟨rfl, hnil, by simp⟩))
      | false => exact .inr (.inr (.inr ⟨rfl, by simp [hnil, hedge]⟩))

theorem openingSource_cases : (trigger = [] ∧ openingSource trigger [] = []) ∨
    (trigger = ['\\', 'b'] ∧ openingSource trigger [] = ['\\', 'b', '$']) ∨
    (looksGrouped trigger = true ∧
      openingSource trigger [] = (if endsWith trigger ['$'] then trigger.dropLast else trigger) ++ ['$']) ∨
    (looksGrouped trigger = false ∧ openingSource trigger [] = ['(', '?', ':'] ++ trigger ++ [')'] ++ ['$']) := by
  have hsource : openingSource trigger [] = if (wrap trigger).isEmpty || endsWith (wrap trigger) ['$'] then wrap trigger
      else wrap trigger ++ ['$'] := rfl
  rw [hsource]
  rcases wrap_cases trigger with ⟨rfl, hwrap⟩ | ⟨rfl, hwrap⟩ | ⟨hgroup, hnil, hwrap⟩ | ⟨hgroup, hwrap⟩
  · exact .inl ⟨rfl, rfl⟩
  · exact .inr (.inl ⟨rfl, rfl⟩)
  · refine .inr (.inr (.inl ⟨hgroup, ?_⟩))
    rw [hwrap]
    by_cases hend : endsWith trigger ['$'] = true
    · rw [if_pos hend, if_pos (by simp [hend])]
      exact eq_concat_of_endsWith hend
    · rw [if_neg hend, if_neg (by simp [hend, hnil])]
  · refine .inr (.inr (.inr ⟨hgroup, ?_⟩))
    have hend := endsWith_concat (['(', '?', ':'] ++ trigger) ')' '$'
    rw [hwrap, hend]
    rfl

theorem closingSource_cases : (trigger = [] ∧ closingSource trigger [] = []) ∨
    (trigger = ['\\', 'b'] ∧ closingSource trigger [] = ['^', '\\', 'b']) ∨
    (looksGrouped trigger = true ∧ closingSource trigger [] = '^' :: (Text.dropStart? ['^'] trigger).getD trigger) ∨
    (looksGrouped trigger = false ∧ closingSource trigger [] = '^' :: (['(', '?', ':'] ++ trigger ++ [')'])) := by
  have hsource : closingSource trigger [] = if (wrap trigger).isEmpty || startsWith (wrap trigger) ['^'] then wrap trigger
      else '^' :: wrap trigger := by
    have hnone : wrap [] = [] := rfl
    unfold closingSource
    rw [hnone, List.append_nil]
  rw [hsource]
  rcases wrap_cases trigger with ⟨rfl, hwrap⟩ | ⟨rfl, hwrap⟩ | ⟨hgroup, hnil, hwrap⟩ | ⟨hgroup, hwrap⟩
  · exact .inl ⟨rfl, rfl⟩
  · exact .inr (.inl ⟨rfl, rfl⟩)
  · refine .inr (.inr (.inl ⟨hgroup, ?_⟩))
    rw [hwrap]
    cases trigger with
    | nil => exact absurd rfl hnil
    | cons c rest =>
      by_cases hc : c = '^'
      · subst hc
        rfl
      · have hstart : Text.dropStart? ['^'] (c :: rest) = none := by
          rw [Text.dropStart?, if_neg fun h => hc h.symm]
        rw [startsWith, hstart]
        rfl
  · refine .inr (.inr (.inr ⟨hgroup, ?_⟩))
    rw [hwrap]
    rfl

end

section
variable {name : String} {trigger : List Char} {p : Option Pattern}

/-- A trigger that is put in a group has to be readable by itself, no more. -/
theorem endsAtLine_of_stands {xs : List Pattern.Reading} {u : Pattern.Reader} {t : Tree}
    (hp : compile? name (openingSource trigger []) = .ok p) (hgroup : looksGrouped trigger = false)
    (h : Pattern.Stands trigger xs u t) : EndsAtLine p := by
  rcases compile?_cases hp with ⟨-, rfl⟩ | ⟨q, hq, rfl⟩
  · exact fun _ h => nomatch h
  rintro _ ⟨⟩
  rcases openingSource_cases trigger with ⟨-, hs⟩ | ⟨-, hs⟩ | ⟨hgroup', -⟩ | ⟨-, hs⟩
  · rw [hs] at hp
    cases hp
  · rw [hs] at hq
    cases hq
    decide +kernel
  · rw [hgroup] at hgroup'
    cases hgroup'
  · rw [hs] at hq
    obtain ⟨q', hq', hgoes⟩ := h.compile_group_end
    cases hq.symm.trans hq'
    exact hgoes

theorem endsAtLine_of_endsSafely (hp : compile? name (openingSource trigger []) = .ok p)
    (hsafe : endsSafely trigger = true) : EndsAtLine p := by
  unfold endsSafely at hsafe
  cases hgroup : looksGrouped trigger with
  | false =>
    rw [hgroup] at hsafe
    obtain ⟨u, t, -, hstands⟩ := Pattern.exists_stands_of_standsAlone hsafe
    exact endsAtLine_of_stands hp hgroup hstands
  | true =>
    rw [hgroup, if_pos rfl] at hsafe
    dsimp only at hsafe
    obtain ⟨hsafe, hlast⟩ := Bool.and_eq_true_iff.mp hsafe
    obtain ⟨halone, hone⟩ := Bool.and_eq_true_iff.mp hsafe
    rcases compile?_cases hp with ⟨-, rfl⟩ | ⟨q, hq, rfl⟩
    · exact fun _ h => nomatch h
    rintro _ ⟨⟩
    rcases openingSource_cases trigger with ⟨rfl, -⟩ | ⟨rfl, -⟩ | ⟨-, hs⟩ | ⟨hgroup', -⟩
    · cases hgroup
    · cases hgroup
    · rw [hs] at hq
      exact Pattern.goesBy_isEnd_of_closesLast halone hone hlast hq
    · rw [hgroup] at hgroup'
      cases hgroup'

theorem goesBy_isStart_of_startsSafely (hp : compile? name (closingSource trigger []) = .ok p)
    (hsafe : startsSafely trigger = true) : ∀ q ∈ p, q.tree.goesBy Anchor.isStart = true := by
  rcases compile?_cases hp with ⟨-, rfl⟩ | ⟨q, hq, rfl⟩
  · exact fun _ h => nomatch h
  rintro _ ⟨⟩
  unfold startsSafely at hsafe
  rcases closingSource_cases trigger with ⟨-, hs⟩ | ⟨-, hs⟩ | ⟨hgroup, hs⟩ | ⟨hgroup, hs⟩
  · rw [hs] at hp
    cases hp
  · rw [hs] at hq
    cases hq
    decide +kernel
  · rw [hgroup, if_pos rfl] at hsafe
    dsimp only at hsafe
    obtain ⟨halone, hone⟩ := Bool.and_eq_true_iff.mp hsafe
    rw [hs] at hq
    exact Pattern.goesBy_isStart_of_isOneBranch halone hone hq
  · rw [hgroup] at hsafe
    obtain ⟨u, t, -, hstands⟩ := Pattern.exists_stands_of_standsAlone hsafe
    obtain ⟨q', hq', hgoes⟩ := hstands.compile_group_start
    rw [hs] at hq
    cases hq.symm.trans hq'
    exact hgoes

end

theorem looksGrouped_escapedChars (text : List Char) : looksGrouped (escapedChars text) = false := by
  cases text with
  | nil => rfl
  | cons c text =>
    -- It starts with a backslash or with a character that means nothing.
    obtain ⟨d, rest, hd, hparen, hcaret⟩ : ∃ d rest, escapedChars (c :: text) = d :: rest ∧ d ≠ '(' ∧ d ≠ '^' := by
      unfold escapedChars
      rw [List.flatMap_cons]
      by_cases hc : Pattern.specialChars.contains c = true
      · rw [if_pos hc]
        exact ⟨'\\', _, rfl, by decide, by decide⟩
      · rw [if_neg hc]
        refine ⟨c, _, rfl, ?_, ?_⟩ <;> rintro rfl <;> exact hc rfl
    have hinner : (Text.dropStart? ['^'] (d :: rest)).getD (d :: rest) = d :: rest := by
      rw [Text.dropStart?, if_neg fun h => hcaret h.symm]
      rfl
    have hstart : ∀ tail, startsWith (d :: tail) ['('] = false := by
      intro tail
      unfold startsWith
      rw [Text.dropStart?, if_neg fun h => hparen h.symm]
      rfl
    rw [hd]
    unfold looksGrouped
    rw [hinner]
    dsimp only
    split
    · cases rest with
      | nil => rfl
      | cons e rest =>
        rw [List.dropLast_cons_cons, hstart]
        rfl
    · rw [hstart]
      rfl

/-! ## Around the cursor -/

theorem matched_of_find? {q : Pattern} {m : Match} {text : String} (hm : q.find? (Text.chars text) 0 = some m) :
    (matched (some q) text).toList = (text.toList.take m.whole.stop).drop m.whole.start := by
  refine Eq.trans ?_ (Text.toList_slice (Text.chars text) m.whole.start m.whole.stop)
  simp [matched, Pattern.captures?, hm, Match.spans, Text.sliceOr]

theorem matched_cases (p : Option Pattern) (text : String) : matched p text = "" ∨ ∃ q m, p = some q ∧
    q.find? (Text.chars text) 0 = some m ∧
    (matched p text).toList = (text.toList.take m.whole.stop).drop m.whole.start := by
  cases p with
  | none => exact .inl rfl
  | some q =>
    cases hm : q.find? (Text.chars text) 0 with
    | none =>
      refine .inl ?_
      simp [matched, Pattern.captures?, hm]
    | some m =>
      exact .inr ⟨q, m, rfl, hm, matched_of_find? hm⟩

section
variable {p : Option Pattern} {text : String} (hline : '\n' ∉ text.toList)
include hline

/-- What the trigger matches is the end of the text before the cursor. -/
theorem EndsAtLine.matched_suffix (h : EndsAtLine p) : (matched p text).toList <:+ text.toList := by
  rcases matched_cases p text with he | ⟨q, m, rfl, hm, he⟩
  · rw [he]
    exact List.nil_suffix
  · have hstop : m.whole.stop = text.toList.length := by
      rw [Pattern.stop_of_goesBy hline (h q rfl) hm, Text.chars, List.size_toArray]
    rw [he, hstop, List.take_length]
    exact List.drop_suffix _ _

/-- What the end trigger matches is the start of the text after the cursor. -/
theorem StartsAtLine.matched_prefix (h : StartsAtLine p) : (matched p text).toList <+: text.toList := by
  rcases matched_cases p text with he | ⟨q, m, rfl, hm, he⟩
  · rw [he]
    exact List.nil_prefix
  · obtain ⟨hgoes, hkeep⟩ := h q rfl
    rw [he, Pattern.start_of_goesBy hline hgoes hkeep hm, List.drop_zero]
    exact List.take_prefix _ _

end

end Trigger

namespace Snippet

open Trigger (EndsAtLine StartsAtLine endsSafely startsSafely)

variable {d : SnippetDefinition} {s : Snippet}

theorem fields_of_matchAround? {before behind : String} {m : TriggerMatch}
    (h : s.matchAround? before behind = some m) : m.snippet = s ∧
      m.replaceBefore = Trigger.matched s.trigger before ∧ m.replaceAfter = Trigger.matched s.endTrigger behind := by
  unfold matchAround? at h
  split at h
  · cases h
  · obtain ⟨_, -, h⟩ := Option.bind_eq_some_iff.mp h
    obtain ⟨_, -, h⟩ := Option.bind_eq_some_iff.mp h
    cases h
    exact ⟨rfl, rfl, rfl⟩

/-- The four patterns of a snippet. -/
theorem patterns_of_compile (hs : compile d = .ok s) : ∃ name,
    let field := fun f : Option String => (f.getD "").toList
    Trigger.compile? name (Trigger.openingSource (field s.definition.trigger) (field s.definition.guard)) = .ok s.opening ∧
      Trigger.compile? name (Trigger.openingSource (field s.definition.trigger) []) = .ok s.trigger ∧
      Trigger.compile? name (Trigger.closingSource (field s.definition.endTrigger) (field s.definition.endGuard)) =
        .ok s.closing ∧
      Trigger.compile? name (Trigger.closingSource (field s.definition.endTrigger) []) = .ok s.endTrigger := by
  obtain ⟨opening, hopening, hs⟩ := Pattern.bind_eq_ok.mp hs
  obtain ⟨trigger, htrigger, hs⟩ := Pattern.bind_eq_ok.mp hs
  obtain ⟨closing, hclosing, hs⟩ := Pattern.bind_eq_ok.mp hs
  obtain ⟨endTrigger, hend, hs⟩ := Pattern.bind_eq_ok.mp hs
  cases hs
  exact ⟨_, hopening, htrigger, hclosing, hend⟩

theorem triggers_of_compile (hs : compile d = .ok s) : ∃ name,
    Trigger.compile? name (Trigger.openingSource (s.definition.trigger.getD "").toList []) = .ok s.trigger ∧
      Trigger.compile? name (Trigger.closingSource (s.definition.endTrigger.getD "").toList []) = .ok s.endTrigger := by
  obtain ⟨name, -, htrigger, -, hend⟩ := patterns_of_compile hs
  exact ⟨name, htrigger, hend⟩

/-- A snippet that says no pattern for its trigger has a literal one, or none. -/
theorem trigger_withLiteral (h : d.trigger = none) :
    ∃ text, ((Trigger.withLiteral d).trigger.getD "").toList = Pattern.escapedChars text := by
  unfold Trigger.withLiteral
  rw [h]
  cases d.tabTrigger with
  | none => exact ⟨[], by rw [h]; rfl⟩
  | some literal =>
    dsimp only
    split
    · exact ⟨[], by rw [h]; rfl⟩
    · exact ⟨literal.toList, by simp [Pattern.escape, Pattern.escapedChars]⟩

theorem endsAtLine_of_literal (hs : compile d = .ok s) (h : d.trigger = none) : EndsAtLine s.trigger := by
  obtain ⟨name, htrigger, -⟩ := triggers_of_compile hs
  rw [definition_of_compile hs] at htrigger
  obtain ⟨text, htext⟩ := trigger_withLiteral h
  rw [htext] at htrigger
  obtain ⟨xs, u, t, hstands⟩ := Pattern.exists_stands_escapedChars text
  exact Trigger.endsAtLine_of_stands htrigger (Trigger.looksGrouped_escapedChars text) hstands

theorem replaced_around {before behind : String} {m : TriggerMatch} (hbefore : '\n' ∉ before.toList)
    (hbehind : '\n' ∉ behind.toList) (h : s.matchAround? before behind = some m) :
    (EndsAtLine s.trigger → m.replaceBefore.toList <:+ before.toList) ∧
      (StartsAtLine s.endTrigger → m.replaceAfter.toList <+: behind.toList) := by
  obtain ⟨-, hreplaceBefore, hreplaceAfter⟩ := fields_of_matchAround? h
  rw [hreplaceBefore, hreplaceAfter]
  exact ⟨fun hp => hp.matched_suffix hbefore, fun hp => hp.matched_prefix hbehind⟩

end Snippet

end Scribe
