import Scribe.Highlight.Scan

/-!
# Scans match by match

A scan makes one match after another, each from where the one before has left it, and then deals with the rest of the
line: it is one text, or it overflows. Which matches there are does not depend on the budget. It only says how many of
them are made.
-/

namespace Scribe

structure ScanStep where
  /-- Where the search begins; the stack names a state. -/
  before : Scan
  found : UnionMatch
  after : Scan

/-- Where the steps lead from `s`. -/
def Scan.through (s : Scan) (steps : List ScanStep) : Scan := steps.foldl (fun _ step => step.after) s

namespace Scan

variable (s : Scan)

@[simp] theorem through_nil : s.through [] = s := rfl

@[simp] theorem through_cons (step : ScanStep) (rest : List ScanStep) :
    s.through (step :: rest) = step.after.through rest := rfl

@[simp] theorem through_concat (steps : List ScanStep) (step : ScanStep) : s.through (steps ++ [step]) = step.after := by
  simp [through]

end Scan

namespace Tokenizer

variable (t : Tokenizer) (text : Array Char)

def step? (s : Scan) : Option ScanStep :=
  if s.pos < text.size then
    let (state, stack) := t.currentState s.stack
    (state.patterns.find? text s.pos).map fun m => ⟨{ s with stack }, m, t.afterMatch text state { s with stack } m⟩
  else none

/-- The matches that a budget is enough for. -/
def steps : Nat → Scan → List ScanStep
  | 0, _ => []
  | budget + 1, s =>
    match t.step? text s with
    | none => []
    | some step => step :: steps budget step.after

/-- The end of a scan that comes to no further match. -/
def settle (s : Scan) : Scan :=
  if s.pos < text.size then
    let (state, stack) := t.currentState s.stack
    { s with
      pos := text.size
      stack
      run := s.run.add state.defaultKind (Text.slice text ⟨s.pos, text.size⟩) true }
  else s

def lineSteps (line : String) (stack : StateStack) : List ScanStep :=
  t.steps (Text.chars line) t.options.maxMatches { stack }

/-- Where the last match of a line leaves the scan. -/
def lineEnd (line : String) (stack : StateStack) : Scan := Scan.through { stack } (t.lineSteps line stack)

variable {t text}

theorem step?_eq_some {s : Scan} {step : ScanStep} (h : t.step? text s = some step) :
    s.pos < text.size ∧ step.before = { s with stack := (t.currentState s.stack).2 } ∧
      (t.currentState s.stack).1.patterns.find? text s.pos = some step.found ∧
      step.after = t.afterMatch text (t.currentState s.stack).1 step.before step.found := by
  unfold step? at h
  split at h
  · rename_i hpos
    obtain ⟨m, hm, rfl⟩ := Option.map_eq_some_iff.mp h
    exact ⟨hpos, rfl, hm, rfl⟩
  · cases h

theorem scan_succ (budget : Nat) (s : Scan) : t.scan text (budget + 1) s =
    match t.step? text s with
    | some step => t.scan text budget step.after
    | none => t.settle text s := by
  by_cases hpos : s.pos < text.size
  · cases hfind : (t.currentState s.stack).1.patterns.find? text s.pos with
    | none => simp only [scan, step?, settle, hpos, hfind, if_true, Option.map_none]
    | some m => simp only [scan, step?, hpos, hfind, if_true, Option.map_some]
  · simp only [scan, step?, settle, hpos, if_false]

theorem scan_eq_steps : ∀ (budget : Nat) (s : Scan), t.scan text budget s =
    if (t.steps text budget s).length = budget then t.overflow text (s.through (t.steps text budget s))
    else t.settle text (s.through (t.steps text budget s))
  | 0, s => rfl
  | budget + 1, s => by
    rw [scan_succ]
    cases hstep : t.step? text s with
    | none => simp only [steps, hstep, List.length_nil, Nat.zero_ne_add_one, if_false, Scan.through_nil]
    | some step =>
      simp only [steps, hstep, List.length_cons, Nat.add_right_cancel_iff, Scan.through_cons]
      exact scan_eq_steps budget step.after

theorem lineTokens_eq (line : String) (stack : StateStack) : t.lineTokens line stack =
    let s := if (t.lineSteps line stack).length = t.options.maxMatches then
        t.overflow (Text.chars line) (t.lineEnd line stack)
      else t.settle (Text.chars line) (t.lineEnd line stack)
    ⟨s.run.tokens, s.stack⟩ := by
  rw [lineTokens, scan_eq_steps]
  rfl

theorem take_steps : ∀ {budget budget' : Nat} (s : Scan), budget ≤ budget' →
    (t.steps text budget' s).take budget = t.steps text budget s
  | 0, _, _, _ => rfl
  | budget + 1, 0, _, h => absurd h (Nat.not_succ_le_zero _)
  | budget + 1, budget' + 1, s, h => by
    unfold steps
    split
    · rfl
    · rename_i step _
      rw [List.take_succ_cons, take_steps step.after (Nat.le_of_succ_le_succ h)]

/-- Each step is made from where those before it lead. -/
theorem step?_of_steps_eq : ∀ {budget : Nat} {s : Scan} {earlier later : List ScanStep} {step : ScanStep},
    t.steps text budget s = earlier ++ step :: later → t.step? text (s.through earlier) = some step
  | 0, _, earlier, _, _, h => by simp [steps] at h
  | budget + 1, s, earlier, later, step, h => by
    unfold steps at h
    cases hstep : t.step? text s with
    | none => simp [hstep] at h
    | some first =>
      rw [hstep] at h
      cases earlier with
      | nil =>
        obtain ⟨rfl, -⟩ := List.cons.inj h
        exact hstep
      | cons e earlier =>
        obtain ⟨rfl, hrest⟩ := List.cons.inj h
        have hnext : t.step? text (first.after.through earlier) = some step := step?_of_steps_eq hrest
        exact hnext

/-- What each step keeps holds wherever the steps lead. -/
theorem through_steps {P : Scan → Prop} (hP : ∀ s step, P s → t.step? text s = some step → P step.after) :
    ∀ {budget : Nat} {s : Scan}, P s → (∀ step ∈ t.steps text budget s, P step.after) ∧
      P (s.through (t.steps text budget s))
  | 0, _, hs => ⟨fun _ h => (nomatch h), hs⟩
  | budget + 1, s, hs => by
    unfold steps
    cases hstep : t.step? text s with
    | none => exact ⟨fun _ h => (nomatch h), hs⟩
    | some step =>
      have hnext := hP s step hs hstep
      obtain ⟨hall, hlast⟩ : (∀ later ∈ t.steps text budget step.after, P later.after) ∧
          P (step.after.through (t.steps text budget step.after)) := through_steps hP hnext
      exact ⟨List.forall_mem_cons.mpr ⟨hnext, hall⟩, hlast⟩

theorem step?_options (options : ScanOptions) (s : Scan) :
    step? { t with options := options } text s = t.step? text s := rfl

/-- The bounds have no say in what is matched. -/
theorem steps_options (options : ScanOptions) : ∀ (budget : Nat) (s : Scan),
    steps { t with options := options } text budget s = t.steps text budget s
  | 0, _ => rfl
  | budget + 1, s => by
    unfold steps
    rw [step?_options]
    split
    · rfl
    · rename_i step _
      rw [steps_options options budget step.after]

end Tokenizer

end Scribe
