import Scribe.Proofs.Highlight.Frames
import Scribe.Proofs.Highlight.Lossless

/-!
# States within others

What a state does is its own affair as long as its frame is there: without handlers a run looks at the current frame and at
nothing below it, and compares stacks with stacks on the same ground. Only a run that pops its last frame, or that overflows
and starts anew, gets to what is around it.
-/

namespace Scribe

/-! ## Under the same names -/

theorem Jump.rename_id (j : Jump) : j.rename id = j := by cases j <;> rfl

theorem CompiledRule.rename_id (rule : CompiledRule) : rule.rename id = rule := by
  obtain ⟨token, jump, onMatch, merge⟩ := rule
  cases jump with
  | none => rfl
  | some j => simp only [rename, Option.map_some, Jump.rename_id]

theorem CompiledState.rename_id (state : CompiledState) : state.rename id = state := by
  have hrules : (CompiledRule.rename id) = id := funext CompiledRule.rename_id
  simp only [rename, hrules, Array.map_id, id_eq]

/-- The stack on top of other frames. -/
def StateStack.above (outer : List String) (s : StateStack) : StateStack := { s with frames := s.frames ++ outer }

theorem StateStack.within_id (outer : List String) (s : StateStack) : s.within id outer = s.above outer := by
  simp only [within, above, List.map_id]

def Scan.above (outer : List String) (s : Scan) : Scan := { s with stack := s.stack.above outer }

theorem Scan.within_id (outer : List String) (s : Scan) : s.within id outer = s.above outer := by
  simp only [within, above, StateStack.within_id]

def LineTokens.above (outer : List String) (l : LineTokens) : LineTokens := { l with state := l.state.above outer }

namespace Tokenizer

/-- The match does not pop the only frame. -/
def KeepsLast (_text : Array Char) (s : Scan) (_m : UnionMatch) (rule : CompiledRule) : Prop :=
  rule.jump = some .pop → 2 ≤ s.stack.depth

instance (text : Array Char) (s : Scan) (m : UnionMatch) (rule : CompiledRule) : Decidable (KeepsLast text s m rule) :=
  inferInstanceAs (Decidable (_ → _))

variable {t : Tokenizer} {text : Array Char} (outer : List String)

/-- An unknown current frame falls back to the start, whatever is around it. -/
theorem currentState_above {stack : StateStack} (hne : stack.frames ≠ []) :
    t.currentState (stack.above outer) = ((t.currentState stack).1, (t.currentState stack).2.above outer) := by
  obtain ⟨_ | ⟨n, frames⟩, data⟩ := stack
  · exact absurd rfl hne
  · have hcurrent : (StateStack.above outer ⟨n :: frames, data⟩).current = StateStack.current ⟨n :: frames, data⟩ := rfl
    unfold currentState
    rw [hcurrent]
    split <;> rfl

theorem currentState_frames_ne {stack : StateStack} (hne : stack.frames ≠ []) :
    (t.currentState stack).2.frames ≠ [] := by
  unfold currentState
  split
  · exact hne
  · exact List.cons_ne_nil _ _

theorem apply_frames_ne {j : Jump} {stack : StateStack} (hne : stack.frames ≠ []) : (j.apply stack).frames ≠ [] := by
  cases j with
  | next n => exact List.cons_ne_nil _ _
  | push n => exact List.cons_ne_nil _ _
  | pop =>
    obtain ⟨_ | ⟨n, _ | ⟨n', frames⟩⟩, data⟩ := stack
    · exact absurd rfl hne
    · exact List.cons_ne_nil _ _
    · exact List.cons_ne_nil _ _

section
variable {state : CompiledState} {s : Scan} {m : UnionMatch} (hhandlers : ∀ rule ∈ state.rules, rule.onMatch = none)
  (hne : s.stack.frames ≠ [])
include hhandlers hne

theorem afterMatch_above (hok : ∀ rule ∈ state.rules[m.rule]?, KeepsLast text s m rule) :
    t.afterMatch text state (s.above outer) m = (t.afterMatch text state s m).above outer := by
  have hwithin : t.afterMatch text (state.rename id) (s.within id outer) m =
      (t.afterMatch text state s m).within id outer := by
    refine afterMatch_within_of Function.injective_id hne fun rule hrule => ?_
    have hhandler := hhandlers rule (Array.mem_of_getElem? hrule)
    have hhandled : rule.handled text m s.stack = s.stack := by rw [CompiledRule.handled, hhandler]
    rw [hhandled]
    refine ⟨fun handler hh => ?_, hne, hok rule hrule, fun _ => Iff.rfl⟩
    rw [hhandler] at hh
    cases hh
  rwa [CompiledState.rename_id, Scan.within_id, Scan.within_id] at hwithin

theorem afterMatch_frames_ne : (t.afterMatch text state s m).stack.frames ≠ [] := by
  cases hrule : state.rules[m.rule]? with
  | none =>
    simp only [afterMatch, hrule]
    exact hne
  | some rule =>
    have hturn : (rule.turn text m s.stack).frames ≠ [] := by
      rw [CompiledRule.turn, CompiledRule.handled, hhandlers rule (Array.mem_of_getElem? hrule)]
      cases rule.jump with
      | none => exact hne
      | some j => exact apply_frames_ne hne
    rw [afterMatch_eq hrule]
    dsimp only
    split
    · exact hturn
    · split <;> exact hturn

end

/-! ## A run -/

section
variable (ht : t.Sound) (hhandlers : ∀ state ∈ t.states.values, ∀ rule ∈ state.rules, rule.onMatch = none)
include ht hhandlers

theorem scan_above : ∀ {budget : Nat} {s : Scan}, s.stack.frames ≠ [] → t.ScansWith KeepsLast text budget s →
    t.scan text budget (s.above outer) = (t.scan text budget s).above outer ∧
      (t.scan text budget s).stack.frames ≠ []
  | 0, s, hne, hrun => by
    have hpos : ¬ s.pos < text.size := Nat.not_lt.mpr hrun
    simp only [scan, overflow, Scan.above, hpos, if_false]
    exact ⟨trivial, hne⟩
  | budget + 1, s, hne, hrun => by
    have hcurrent := currentState_above (t := t) outer hne
    have hstate := hhandlers _ (currentState_mem ht s.stack)
    -- The match is made on the stack that the current state leaves, which is the same one unless its frame is unknown.
    have hne' : ({ s with stack := (t.currentState s.stack).2 } : Scan).stack.frames ≠ [] := currentState_frames_ne hne
    simp only [scan, Scan.above, hcurrent]
    split
    · rename_i hpos
      cases hfind : (t.currentState s.stack).1.patterns.find? text s.pos with
      | none => exact ⟨rfl, hne'⟩
      | some m =>
        obtain ⟨hok, hrest⟩ := hrun hpos m hfind
        have hafter := afterMatch_above (t := t) outer hstate hne' hok
        have hnext := scan_above (afterMatch_frames_ne hstate hne') hrest
        rw [← hafter] at hnext
        exact hnext
    · exact ⟨rfl, hne⟩

theorem tokenizeFrom_above : ∀ {lines : List String} {stack : StateStack}, stack.frames ≠ [] →
    t.RunsWith KeepsLast stack lines →
    t.tokenizeFrom (stack.above outer) lines = (t.tokenizeFrom stack lines).map (LineTokens.above outer)
  | [], _, _, _ => rfl
  | line :: rest, stack, hne, hrun => by
    obtain ⟨hline, hrest⟩ := hrun
    obtain ⟨hscan, hend⟩ := scan_above outer ht hhandlers (s := { stack }) hne hline
    have htokens : t.lineTokens line (stack.above outer) = (t.lineTokens line stack).above outer :=
      congrArg (fun s : Scan => (⟨s.run.tokens, s.stack⟩ : LineTokens)) hscan
    have hnext := tokenizeFrom_above hend hrest
    simp only [tokenizeFrom, htokens, List.map_cons]
    exact congrArg _ hnext

end

/-- Without handlers, a run from one frame on its own gives the tokens that it gives on top of others, and each line leaves
on top of them what it leaves there, if the run never pops its last frame and no line overflows. -/
theorem runs_above {table : RuleTable} {options : ScanOptions} (ht : compile table options = .ok t)
    (hrules : ∀ r ∈ table.rules, r.onMatch = none) {state : String} {data : Dict String String} {lines : List String}
    (hrun : t.RunsWith KeepsLast { frames := [state], data } lines) (outer : List String) :
    t.tokenizeFrom { frames := state :: outer, data } lines =
      (t.tokenizeFrom { frames := [state], data } lines).map fun l =>
        ⟨l.tokens, { l.state with frames := l.state.frames ++ outer }⟩ := by
  have hne : ({ frames := [state], data } : StateStack).frames ≠ [] := List.cons_ne_nil _ _
  exact tokenizeFrom_above outer (sound_of_compile ht) (onMatch_of_compile ht hrules) hne hrun

/-- From an unknown state, which is the start then, with brackets left open from line to line. -/
theorem runs_above_brackets : ∃ t, compile sampleBrackets = .ok t ∧ (∀ r ∈ sampleBrackets.rules, r.onMatch = none) ∧
    t.RunsWith KeepsLast { frames := ["lost"] } ["(a[", "])", "a"] ∧
    (t.tokenizeFrom { frames := ["lost", "item", "nowhere"] } ["(a[", "])", "a"]).map
        (fun l => (l.tokens.map (·.value), l.state.frames)) =
      [(["(", "a", "["], ["start#1#2", "start#1", "start", "item", "nowhere"]),
        (["])"], ["start", "item", "nowhere"]),
        (["a"], ["item", "item", "nowhere"])] := by
  have hrules : ∀ r ∈ sampleBrackets.rules, r.onMatch = none := by decide +kernel
  obtain ⟨t, ht, hrun, halone⟩ : ∃ t, compile sampleBrackets = .ok t ∧
      t.RunsWith KeepsLast { frames := ["lost"] } ["(a[", "])", "a"] ∧
      (t.tokenizeFrom { frames := ["lost"] } ["(a[", "])", "a"]).map
          (fun l => (l.tokens.map (·.value), l.state.frames ++ ["item", "nowhere"])) =
        [(["(", "a", "["], ["start#1#2", "start#1", "start", "item", "nowhere"]),
          (["])"], ["start", "item", "nowhere"]),
          (["a"], ["item", "item", "nowhere"])] :=
    ⟨_, rfl, by decide +kernel, by decide +kernel⟩
  have habove := runs_above ht hrules hrun ["item", "nowhere"]
  refine ⟨t, ht, hrules, hrun, ?_⟩
  rw [habove, List.map_map]
  exact halone

end Tokenizer

end Scribe
