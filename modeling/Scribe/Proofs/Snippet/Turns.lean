import Scribe.Proofs.Snippet.Rules

/-!
# Snippets turn by turn

The parser as a loop over the rules: a turn finds the next match, takes what stands before it for text, and the rule acts.
Behind a name a match may take nothing, but then the mode changes to one where every match takes something, so that the
loop comes to an end. It writes what the parser writes.
-/

namespace Scribe

namespace SnippetParser

open Pattern

/-- Where the loop stands. -/
structure Loop where
  state : State := {}
  mode : Mode := .inside .body
  pos : Nat := 0

/-- The characters between two places. -/
def between (text : Array Char) (start stop : Nat) : List Char := (text.extract start stop).toList

/-- One turn of the loop. Without a match what is left is text. A match that takes nothing and leaves the mode as it is
would be found again, so that the next character is taken for text then. -/
def turn (text : Array Char) (l : Loop) : Loop :=
  match next? l.mode text l.pos with
  | none => { l with state := literal l.state l.mode (between text l.pos text.size), pos := text.size }
  | some (a, span) =>
    let st := literal l.state l.mode (between text l.pos span.start)
    let (st, mode) := act st (between text span.start span.stop) (between text span.start text.size) a
    if span.isEmpty && mode = l.mode then
      { state := literal st l.mode (between text l.pos (l.pos + 1)), mode, pos := l.pos + 1 }
    else { state := st, mode, pos := span.stop }

/-- The loop after so many turns. -/
def turns (text : Array Char) (n : Nat) : Loop := (turn text)^[n] {}

theorem between_eq (text : Array Char) (start stop : Nat) :
    between text start stop = (text.toList.drop start).take (stop - start) := by
  rw [between, Array.toList_extract, List.extract_eq_take_drop]

theorem between_size (text : Array Char) (start : Nat) : between text start text.size = text.toList.drop start := by
  rw [between_eq]
  exact List.take_of_length_le (by simp)

/-- A match that takes nothing stands behind a name, and leads inside again. -/
theorem opened_of_front? {mode : Mode} {cs : List Char} {a : Action} (h : front? mode cs = some (a, 0)) :
    ∃ r, mode = .opened r ∧ ∀ st value source, (act st value source a).2 = .inside r := by
  obtain ⟨b, hb, hmap⟩ := List.exists_of_findSome?_eq_some h
  obtain ⟨n, hn, hpair⟩ := Option.map_eq_some_iff.mp hmap
  cases hpair
  by_cases hbody : a = .skipToBody
  · subst hbody
    refine ⟨.body, ?_, fun _ _ _ => rfl⟩
    rcases mode with (r | r) <;> cases r <;> simp [actions] at hb ⊢
  by_cases hformat : a = .skipToFormat
  · subst hformat
    refine ⟨.format, ?_, fun _ _ _ => rfl⟩
    rcases mode with (r | r) <;> cases r <;> simp [actions] at hb ⊢
  · exact absurd (length?_pos hn hbody hformat) (Nat.lt_irrefl 0)

section
variable {text : Array Char} {l : Loop} {a : Action} {span : Span}

theorem opened_of_isEmpty (h : next? l.mode text l.pos = some (a, span)) (hempty : span.isEmpty = true) :
    ∃ r, l.mode = .opened r ∧ ∀ st value source, (act st value source a).2 = .inside r := by
  obtain ⟨-, -, -, hfront, -⟩ := front?_of_next? h
  have hzero : span.stop - span.start = 0 := Nat.sub_eq_zero_of_le (by simpa [Span.isEmpty] using hempty)
  rw [hzero] at hfront
  exact opened_of_front? hfront

/-- The loop never finds the same empty match again. -/
theorem not_spins (h : next? l.mode text l.pos = some (a, span)) (st : State) (value source : List Char) :
    ¬(span.isEmpty = true ∧ (act st value source a).2 = l.mode) := by
  rintro ⟨hempty, hmode⟩
  obtain ⟨r, hr, hact⟩ := opened_of_isEmpty h hempty
  rw [hact, hr] at hmode
  cases hmode

theorem turn_of_none (h : next? l.mode text l.pos = none) :
    turn text l = { l with state := literal l.state l.mode (text.toList.drop l.pos), pos := text.size } := by
  rw [turn, h, ← between_size]

theorem turn_of_some (h : next? l.mode text l.pos = some (a, span)) :
    turn text l =
      let st := literal l.state l.mode ((text.toList.drop l.pos).take (span.start - l.pos))
      let cs := text.toList.drop span.start
      let next := act st (cs.take (span.stop - span.start)) cs a
      { state := next.1, mode := next.2, pos := span.stop } := by
  have hspin := not_spins h
  rw [turn, h]
  simp only [between_size, between_eq text l.pos span.start, between_eq text span.start span.stop]
  rw [if_neg (by simpa using hspin _ _ _)]

theorem mode_turn_of_isEmpty (h : next? l.mode text l.pos = some (a, span)) (hempty : span.isEmpty = true) :
    ∃ r, l.mode = .opened r ∧ (turn text l).mode = .inside r := by
  obtain ⟨r, hr, hact⟩ := opened_of_isEmpty h hempty
  rw [turn_of_some h]
  exact ⟨r, hr, hact _ _ _⟩

theorem next?_opened_ne_none {r : Region} (hmode : l.mode = .opened r) (hpos : l.pos ≤ text.size) :
    next? l.mode text l.pos ≠ none := by
  intro h
  have hfront := front?_of_next?_none h l.pos (Nat.le_refl _) hpos
  rw [hmode] at hfront
  exact front?_opened_ne_none r _ hfront

/-- A turn does what the parser does up to the end of the match. -/
theorem parseFrom_turn (hpos : l.pos ≤ text.size) :
    parseFrom l.state l.mode 0 (text.toList.drop l.pos) =
      parseFrom (turn text l).state (turn text l).mode 0 (text.toList.drop (turn text l).pos) := by
  cases h : next? l.mode text l.pos with
  | none =>
    rw [turn_of_none h]
    have hnone := front?_of_next?_none h
    rw [parseFrom_literal l.mode (text.size - l.pos) l.state (by simp) fun q hq => ?_]
    · rw [List.drop_drop, Nat.add_sub_cancel' hpos, List.take_of_length_le (by simp)]
    · rw [List.drop_drop]
      exact hnone _ (Nat.le_add_right _ _) (by omega)
  | some found =>
    obtain ⟨a, span⟩ := found
    rw [turn_of_some h]
    obtain ⟨hle, hstart, hstop, hfront, hnone⟩ := front?_of_next? h
    rw [parseFrom_literal l.mode (span.start - l.pos) l.state (by simp; omega) fun q hq => ?_]
    · rw [List.drop_drop, Nat.add_sub_cancel' hle, parseFrom_act hfront, List.drop_drop, Nat.add_sub_cancel' hstart]
    · rw [List.drop_drop]
      exact hnone _ (Nat.le_add_right _ _) (by omega)

theorem pos_turn (hpos : l.pos ≤ text.size) : l.pos ≤ (turn text l).pos ∧ (turn text l).pos ≤ text.size := by
  cases h : next? l.mode text l.pos with
  | none =>
    rw [turn_of_none h]
    exact ⟨hpos, Nat.le_refl _⟩
  | some found =>
    obtain ⟨a, span⟩ := found
    obtain ⟨hle, hstart, hstop, -⟩ := front?_of_next? h
    rw [turn_of_some h]
    exact ⟨Nat.le_trans hle hstart, hstop⟩

/-- How many turns are left at most: two for each character, and one behind a name. -/
def Loop.left (text : Array Char) (l : Loop) : Nat :=
  2 * (text.size - l.pos) + match l.mode with
    | .inside _ => 0
    | .opened _ => 1

theorem left_turn_lt (hpos : l.pos < text.size) : (turn text l).left text < l.left text := by
  cases h : next? l.mode text l.pos with
  | none =>
    cases hmode : l.mode with
    | opened r => exact absurd h (next?_opened_ne_none hmode (Nat.le_of_lt hpos))
    | inside r =>
      rw [turn_of_none h]
      simp only [Loop.left, hmode, Nat.sub_self]
      omega
  | some found =>
    obtain ⟨a, span⟩ := found
    obtain ⟨hle, hstart, hstop, hfront, -⟩ := front?_of_next? h
    rw [turn_of_some h]
    cases hmode : l.mode with
    | opened r =>
      rw [hmode] at hfront
      have hact := (act_opened (literal l.state l.mode ((text.toList.drop l.pos).take (span.start - l.pos))) hfront).1
      simp only [Loop.left, hmode] at hact ⊢
      rw [hact]
      dsimp only
      omega
    | inside r =>
      have hsome : span.stop - span.start ≠ 0 := by
        intro hzero
        rw [hzero] at hfront
        obtain ⟨r', hr', -⟩ := opened_of_front? hfront
        rw [hmode] at hr'
        cases hr'
      simp only [Loop.left, hmode]
      split <;> omega

/-- From here the loop comes to the end in so many turns, and there it has what the parser has. -/
theorem exists_turns (l : Loop) (hpos : l.pos ≤ text.size) :
    ∃ n ≤ l.left text, (∀ i < n, ((turn text)^[i] l).pos < text.size) ∧ ((turn text)^[n] l).pos = text.size ∧
      ((turn text)^[n] l).state = parseFrom l.state l.mode 0 (text.toList.drop l.pos) := by
  rcases Nat.eq_or_lt_of_le hpos with hend | hlt
  · refine ⟨0, Nat.zero_le _, fun i hi => absurd hi (Nat.not_lt_zero i), hend, ?_⟩
    rw [hend, List.drop_of_length_le (by simp)]
    rfl
  · have hless := left_turn_lt hlt
    obtain ⟨n, hn, hinside, hend, hstate⟩ := exists_turns (turn text l) (pos_turn hpos).2
    refine ⟨n + 1, Nat.lt_of_le_of_lt hn hless, fun i hi => ?_, hend, hstate.trans (parseFrom_turn hpos).symm⟩
    cases i with
    | zero => exact hlt
    | succ i => exact hinside i (Nat.lt_of_succ_lt_succ hi)
termination_by l.left text

end

/-- Each turn over the text makes progress. -/
structure Progresses (text : Array Char) : Prop where
  /-- A match that takes nothing stands right behind a name, and the mode changes to the one inside. -/
  idle : ∀ (l : Loop) (a : Action) (span : Span), next? l.mode text l.pos = some (a, span) → span.isEmpty = true →
    ∃ r, l.mode = .opened r ∧ (turn text l).mode = .inside r
  /-- In that mode every match of a rule takes something. -/
  takes : ∀ (r : Region), ∀ a ∈ actions (.inside r), ∀ (start : Nat) (m : Match),
    a.rule.find? text start = some m → m.whole.isEmpty = false
  /-- So no match takes nothing and leaves the mode as it is. -/
  not_spins : ∀ (l : Loop) (a : Action) (span : Span), next? l.mode text l.pos = some (a, span) →
    ∀ st value source, ¬(span.isEmpty = true ∧ (act st value source a).2 = l.mode)
  onward : ∀ l : Loop, l.pos ≤ text.size → l.pos ≤ (turn text l).pos ∧ (turn text l).pos ≤ text.size

theorem length_le_utf8ByteSize : ∀ cs : List Char, cs.length ≤ (String.ofList cs).utf8ByteSize
  | [] => Nat.zero_le _
  | c :: cs => by
    have ih := length_le_utf8ByteSize cs
    have hpos := Char.utf8Size_pos c
    rw [String.ofList_cons, String.utf8ByteSize_append, String.utf8ByteSize_singleton, List.length_cons]
    omega

end SnippetParser

open SnippetParser

/-- The loop of the snippet parser makes progress over every source. It ends after at most twice as many turns as the
source has bytes, and what it has written then is the snippet. -/
theorem exists_turns_parseSnippet (source : String) :
    let text := Text.chars source
    Progresses text ∧ ∃ n ≤ 2 * source.utf8ByteSize, (∀ i < n, (turns text i).pos < text.size) ∧
      (turns text n).pos = text.size ∧ (turns text n).state.settle.tokens.toList = parseSnippet source := by
  intro text
  have hbytes : 2 * text.size ≤ 2 * source.utf8ByteSize := by
    have hlength := length_le_utf8ByteSize source.toList
    rw [String.ofList_toList] at hlength
    have hsize : text.size = source.toList.length := rfl
    omega
  obtain ⟨n, hn, hinside, hend, hstate⟩ := @exists_turns text {} (Nat.zero_le _)
  refine ⟨?_, n, Nat.le_trans hn hbytes, hinside, hend, ?_⟩
  · exact {
      idle := fun l a span h => mode_turn_of_isEmpty h
      takes := fun r a ha start m h => isEmpty_of_find? ha h
      not_spins := fun l a span h => not_spins h
      onward := fun l h => pos_turn h }
  · rw [turns, hstate]
    rfl

/-- Behind the name in `$\x7b1\x7d` a match takes nothing. -/
example : next? (.opened .body) (Text.chars "$\x7b1\x7d") 3 = some (.skipToBody, ⟨3, 3⟩) := by decide +kernel

end Scribe
