import Scribe.Proofs.Highlight.Lossless
import Scribe.Proofs.Highlight.Nesting
import Scribe.Proofs.Highlight.Steps
import Mathlib.Data.List.Induction

/-!
# When a character is passed over

An empty match leaves the scan where it was found, unless it leaves the stack as it is too or there have been more empty
matches in a row than there are states; then the next character is passed over. A row goes on from place to place: an empty
match that is found further ahead counts with those before it, though the scan has moved.
-/

namespace Scribe

namespace ScanStep

/-- Where the match was found. -/
def place (step : ScanStep) : Nat := step.found.whole.start

def Skips (step : ScanStep) : Prop := step.found.whole.isEmpty = true ∧ step.after.pos = step.place + 1

def waits (step : ScanStep) : Bool := step.found.whole.isEmpty && step.after.pos == step.place

instance (step : ScanStep) : Decidable step.Skips := inferInstanceAs (Decidable (_ ∧ _))

/-- The empty matches in a row at the end, the last one first. -/
def row (steps : List ScanStep) : List ScanStep := steps.reverse.takeWhile waits

/-- The part of the row that was found at one place. -/
def rowAt (place : Nat) (steps : List ScanStep) : List ScanStep :=
  steps.reverse.takeWhile fun step => step.waits && step.place == place

/-- What an empty match that waits no longer is for: it has not changed the stack, or it is one too many at its place. -/
def Stuck (states : Nat) (earlier : List ScanStep) (step : ScanStep) : Prop :=
  step.after.stack = step.before.stack ∨ states < (rowAt step.place earlier).length + 1

instance (states : Nat) (earlier : List ScanStep) (step : ScanStep) : Decidable (step.Stuck states earlier) :=
  inferInstanceAs (Decidable (_ ∨ _))

theorem row_concat (steps : List ScanStep) (step : ScanStep) :
    row (steps ++ [step]) = if step.waits then step :: row steps else [] := by
  simp [row, List.takeWhile_cons]

theorem rowAt_eq_row {place : Nat} {steps : List ScanStep} (h : ∀ step ∈ row steps, step.place = place) :
    rowAt place steps = row steps := by
  unfold row rowAt at *
  generalize steps.reverse = last at h ⊢
  induction last with
  | nil => rfl
  | cons step rest ih =>
    by_cases hw : step.waits = true
    · rw [List.takeWhile_cons_of_pos hw] at h ⊢
      obtain ⟨hplace, hrest⟩ := List.forall_mem_cons.mp h
      rw [List.takeWhile_cons_of_pos (by simp [hw, hplace]), ih hrest]
    · rw [List.takeWhile_cons_of_neg hw, List.takeWhile_cons_of_neg (by simp [hw])]

end ScanStep

theorem Text.slice_ne_empty_iff {text : Array Char} {start stop : Nat} :
    slice text ⟨start, stop⟩ ≠ "" ↔ start < min stop text.size := by
  rw [ne_eq, ← String.toList_eq_nil_iff, toList_slice, List.drop_eq_nil_iff, List.length_take, Array.length_toList]
  omega

theorem TokenRun.getLast?_addAlone (run : TokenRun) (kind : String) {value : String} (h : value ≠ "") :
    (run.addAlone kind value).tokens.getLast? = some ⟨kind, value⟩ := by
  simp [addAlone, tokens, h]

namespace Tokenizer

variable {t : Tokenizer} {text : Array Char} {s : Scan} {step : ScanStep}

/-- A match takes some text, or passes over what comes next, or waits. -/
theorem step_cases (ht : t.Sound) (h : t.step? text s = some step) : step.place ≤ text.size ∧
    ((step.found.whole.isEmpty = false ∧ step.after.stalled = 0) ∨
      (step.found.whole.isEmpty = true ∧
        (step.after.stack = step.before.stack ∨ t.states.entries.length < s.stalled + 1) ∧
        step.after.pos = min (step.place + 1) text.size ∧ step.after.stalled = 0 ∧
        ∃ run : TokenRun, step.after.run =
          run.addAlone Token.emptyKind (Text.slice text ⟨step.place, min (step.place + 1) text.size⟩)) ∨
      (step.found.whole.isEmpty = true ∧
        ¬ (step.after.stack = step.before.stack ∨ t.states.entries.length < s.stalled + 1) ∧
        step.after.pos = step.place ∧ step.after.stalled = s.stalled + 1)) := by
  obtain ⟨-, hbefore, hfind, hafter⟩ := step?_eq_some h
  obtain ⟨hrule, p, m', -, hp, hwhole⟩ := PatternUnion.find?_eq_some hfind
  rw [← ht.rules_size _ (currentState_mem ht s.stack)] at hrule
  rw [afterMatch_eq (Array.getElem?_eq_getElem hrule)] at hafter
  have hbounds := Pattern.find?_bounds hp
  rw [← hwhole] at hbounds
  have hstalled : step.before.stalled = s.stalled := by rw [hbefore]
  refine ⟨Nat.le_trans hbounds.1 hbounds.2, ?_⟩
  rw [← hstalled, ScanStep.place, Span.isEmpty]
  dsimp only at hafter
  split at hafter
  · rename_i htakes
    exact .inl ⟨decide_eq_false (Nat.not_le.mpr htakes), by rw [hafter]⟩
  · rename_i hempty
    have hempty := decide_eq_true (Nat.not_lt.mp hempty)
    split at hafter
    · rename_i hstop
      refine .inr (.inl ⟨hempty, ?_, ?_, ?_, ?_⟩)
      · rw [hafter]
        exact hstop
      · rw [hafter]
      · rw [hafter]
      · exact ⟨_, by rw [hafter]⟩
    · rename_i hstay
      refine .inr (.inr ⟨hempty, ?_, ?_, ?_⟩)
      · rw [hafter]
        exact hstay
      · rw [hafter]
      · rw [hafter]

theorem skips_iff_of_step (ht : t.Sound) (h : t.step? text s = some step) :
    step.Skips ↔ step.found.whole.isEmpty = true ∧ step.place < text.size ∧
      (step.after.stack = step.before.stack ∨ t.states.entries.length < s.stalled + 1) := by
  obtain ⟨hle, htakes | hskips | hwaits⟩ := step_cases ht h
  · simp [ScanStep.Skips, htakes.1]
  · obtain ⟨hempty, hstop, hpos, -⟩ := hskips
    simp only [ScanStep.Skips, hempty, hstop, hpos, true_and, and_true]
    omega
  · obtain ⟨hempty, hstay, hpos, -⟩ := hwaits
    simp only [ScanStep.Skips, hempty, hpos, hstay, true_and, and_false, iff_false]
    omega

/-- What the scan counts is the length of the row. -/
theorem stalled_eq_length_row (ht : t.Sound) {budget : Nat} (hs : s.stalled = 0) {earlier later : List ScanStep}
    (h : t.steps text budget s = earlier ++ later) (hpos : (s.through earlier).pos < text.size) :
    (s.through earlier).stalled = (ScanStep.row earlier).length := by
  -- From the end, since a row is what the steps end with.
  induction earlier using List.reverseRecOn generalizing later with
  | nil => exact hs
  | append_singleton earlier step ih =>
    rw [List.append_assoc, List.singleton_append] at h
    have hstep := step?_of_steps_eq h
    have hrow := ih h (step?_eq_some hstep).1
    rw [Scan.through_concat] at hpos ⊢
    rw [ScanStep.row_concat, ScanStep.waits]
    obtain ⟨hle, htakes | hskips | hwaits⟩ := step_cases ht hstep
    · obtain ⟨htakes, hstalled⟩ := htakes
      simp [htakes, hstalled]
    · obtain ⟨hempty, -, hafter, hstalled, -⟩ := hskips
      have hmoved : step.after.pos ≠ step.place := by omega
      simp [hempty, hmoved, hstalled]
    · obtain ⟨hempty, -, hafter, hstalled⟩ := hwaits
      simp [hempty, hafter, hstalled, hrow]

/-- A match in a line passes over the next character if it is empty and has not changed the stack, or if it is empty and
the row with it is longer than there are states. So it is stuck, unless the row was not found at one place. -/
theorem skips_iff_of_row {table : RuleTable} {options : ScanOptions} (ht : compile table options = .ok t) {line : String}
    {stack : StateStack} {earlier later : List ScanStep} (h : t.lineSteps line stack = earlier ++ step :: later) :
    (step.Skips ↔ step.found.whole.isEmpty = true ∧ step.place < (Text.chars line).size ∧
      (step.after.stack = step.before.stack ∨ t.states.entries.length < (ScanStep.row earlier).length + 1)) ∧
    (step.Skips → step.after.run.tokens.getLast? =
      some ⟨Token.emptyKind, Text.slice (Text.chars line) ⟨step.place, step.place + 1⟩⟩) ∧
    (step.found.whole.isEmpty = true → step.place < (Text.chars line).size →
      ((step.Skips → step.Stuck t.states.entries.length earlier) ↔
        step.Stuck t.states.entries.length earlier ∨
          (ScanStep.row earlier).length + 1 ≤ t.states.entries.length)) ∧
    ((∀ e ∈ ScanStep.row earlier, e.place = step.place) → step.Skips → step.Stuck t.states.entries.length earlier) := by
  have hstep := step?_of_steps_eq h
  have hcount := stalled_eq_length_row (sound_of_compile ht) rfl h (step?_eq_some hstep).1
  have hskips := skips_iff_of_step (sound_of_compile ht) hstep
  rw [hcount] at hskips
  refine ⟨hskips, ?_, ?_, ?_⟩
  · intro hskip
    obtain ⟨-, htakes | ⟨-, -, -, -, run, hrun⟩ | hwaits⟩ := step_cases (sound_of_compile ht) hstep
    · simp [ScanStep.Skips, htakes.1] at hskip
    · have hplace := (hskips.mp hskip).2.1
      rw [hrun, Nat.min_eq_left hplace]
      exact TokenRun.getLast?_addAlone run _ (Text.slice_ne_empty_iff.mpr (by omega))
    · have hmoved := hskip.2
      rw [hwaits.2.2.1] at hmoved
      omega
  · intro hempty hplace
    constructor
    · intro hlaw
      by_cases hrow : (ScanStep.row earlier).length + 1 ≤ t.states.entries.length
      · exact .inr hrow
      · exact .inl (hlaw (hskips.mpr ⟨hempty, hplace, .inr (Nat.not_le.mp hrow)⟩))
    · rintro (hstuck | hrow) hskip
      · exact hstuck
      · obtain ⟨-, -, hsame | hlong⟩ := hskips.mp hskip
        · exact .inl hsame
        · omega
  · intro hrow hskip
    obtain ⟨-, -, hstuck⟩ := hskips.mp hskip
    rwa [ScanStep.Stuck, ScanStep.rowAt_eq_row hrow]

/-- Two states that lead to each other, each ahead of a letter of its own. -/
def sampleTurns : RuleTable :=
  { states := Dict.ofList [
    ("other", [.rule { token := .literal "turn", regex := "(?=y)", jump := some (.next startState) }]),
    (startState, [.rule { token := .literal "turn", regex := "(?=x)", jump := some (.next "other") }])] }

theorem exists_split_of_getElem? {steps : List ScanStep} {i : Nat} {step : ScanStep} (h : steps[i]? = some step) :
    steps = steps.take i ++ step :: steps.drop (i + 1) := by
  obtain ⟨hi, rfl⟩ := List.getElem?_eq_some_iff.mp h
  rw [← List.drop_eq_getElem_cons hi, List.take_append_drop]

/-- Of three empty matches the third is one too many. -/
theorem skips_iff_of_row_turns : ∃ t, compile sampleTurns = .ok t ∧ ∃ earlier step later,
    t.lineSteps "xyxy" .initial = earlier ++ step :: later ∧ (ScanStep.row earlier).length = 2 ∧ step.Skips ∧
      step.after.run.tokens.getLast? = some ⟨"empty", "x"⟩ := by
  obtain ⟨t, ht, step, hstep, hempty, hplace, hstates, hrow, hslice⟩ : ∃ t, compile sampleTurns = .ok t ∧
      ∃ step ∈ (t.lineSteps "xyxy" .initial)[2]?, step.found.whole.isEmpty = true ∧ step.place < (Text.chars "xyxy").size ∧
        t.states.entries.length = 2 ∧ (ScanStep.row ((t.lineSteps "xyxy" .initial).take 2)).length = 2 ∧
        Text.slice (Text.chars "xyxy") ⟨step.place, step.place + 1⟩ = "x" :=
    ⟨_, rfl, by decide +kernel⟩
  have hsplit := exists_split_of_getElem? hstep
  obtain ⟨hskips, htoken, -⟩ := skips_iff_of_row ht hsplit
  have hskip := hskips.mpr ⟨hempty, hplace, .inr (by rw [hstates, hrow]; decide)⟩
  rw [hslice] at htoken
  exact ⟨t, ht, _, step, _, hsplit, hrow, hskip, htoken hskip⟩

/-- The third of these matches changes the stack and is the only one at its place, and yet the next character is passed
over: the other two, further back, count as well. -/
theorem row_over_places : ∃ t, compile sampleTurns = .ok t ∧
    (∃ step ∈ (t.lineSteps "xyxy" .initial)[2]?, step.place = 2 ∧ step.Skips ∧
      ¬ step.Stuck t.states.entries.length ((t.lineSteps "xyxy" .initial).take 2)) ∧
    (t.lineSteps "xyxy" .initial).map (fun step => (step.place, step.after.stack.frames)) =
      [(0, ["other"]), (1, ["start"]), (2, ["other"]), (3, ["start"])] ∧
    t.lineTokens "xyxy" .initial = ⟨[⟨"text", "xy"⟩, ⟨"empty", "x"⟩, ⟨"text", "y"⟩], .initial⟩ :=
  ⟨_, rfl, by decide +kernel⟩

end Tokenizer

end Scribe
