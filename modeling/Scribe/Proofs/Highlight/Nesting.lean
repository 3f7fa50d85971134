import Scribe.Highlight.Scan
import Scribe.Proofs.Highlight.Compiling

/-!
# Runs within others

A run that never leaves its outermost frame does not see what is around that frame, and names of states
matter to it only in so far as they find a state. So a tokenizer that has the states of another one under
other names runs as that one does, on the renamed frames, with others around them or without.
-/

namespace Scribe

/-! ## Stacks -/

namespace StateStack

/-- The frames under other names, on top of those around them. -/
def within (f : String → String) (outer : List String) (s : StateStack) : StateStack :=
  { s with frames := s.frames.map f ++ outer }

variable {f : String → String} {outer : List String}

theorem within_inj (hf : f.Injective) {s s' : StateStack} : s.within f outer = s'.within f outer ↔ s = s' := by
  obtain ⟨frames, data⟩ := s
  obtain ⟨frames', data'⟩ := s'
  simp only [within, mk.injEq, List.append_cancel_right_eq, (List.map_injective_iff.mpr hf).eq_iff]

variable {s : StateStack}

theorem current_within (h : s.frames ≠ []) : (s.within f outer).current = f s.current := by
  obtain ⟨_ | ⟨n, frames⟩, data⟩ := s
  · exact absurd rfl h
  · rfl

theorem push_within (n : String) : (s.within f outer).push (f n) = (s.push n).within f outer := rfl

theorem next_within (h : s.frames ≠ []) (n : String) :
    (s.within f outer).next (f n) = (s.next n).within f outer := by
  obtain ⟨_ | ⟨_, frames⟩, data⟩ := s
  · exact absurd rfl h
  · rfl

/-- Where a frame is left to go back to, it is one of the run's own. -/
theorem pop_within (h : 2 ≤ s.depth) : (s.within f outer).pop = s.pop.within f outer := by
  obtain ⟨_ | ⟨n, _ | ⟨n', frames⟩⟩, data⟩ := s
  · exact absurd h (by simp [depth])
  · exact absurd h (by simp [depth])
  · rfl

end StateStack

theorem Jump.apply_within {f : String → String} {outer : List String} {s : StateStack} (h : s.frames ≠ []) (j : Jump)
    (hpop : j = .pop → 2 ≤ s.depth) : (j.rename f).apply (s.within f outer) = (j.apply s).within f outer := by
  cases j with
  | next n => exact StateStack.next_within h n
  | push n => exact StateStack.push_within n
  | pop => exact StateStack.pop_within (hpop rfl)

def Scan.within (f : String → String) (outer : List String) (s : Scan) : Scan :=
  { s with stack := s.stack.within f outer }

def LineTokens.within (f : String → String) (outer : List String) (l : LineTokens) : LineTokens :=
  { l with state := l.state.within f outer }

/-! ## What a run asks of a stack -/

/-- The stack as the handler of the rule leaves it. -/
def CompiledRule.handled (rule : CompiledRule) (text : Array Char) (m : UnionMatch) (stack : StateStack) : StateStack :=
  match rule.onMatch with
  | some handler => (handler (Text.slice text m.whole) stack.current stack).2
  | none => stack

/-- The stack after a match. -/
def CompiledRule.turn (rule : CompiledRule) (text : Array Char) (m : UnionMatch) (stack : StateStack) : StateStack :=
  (rule.jump.map (·.apply (rule.handled text m stack))).getD (rule.handled text m stack)

/-- The handler answers on the renamed stack within others as on the stack itself. -/
def Handler.AnswersWithin (handler : Handler) (f : String → String) (outer : List String) (value : String)
    (stack : StateStack) : Prop :=
  handler value (f stack.current) (stack.within f outer) =
    ((handler value stack.current stack).1, (handler value stack.current stack).2.within f outer)

namespace Tokenizer

variable (t : Tokenizer)

/-- There is a frame, and each names a state. -/
def Knows (stack : StateStack) : Prop := stack.frames ≠ [] ∧ ∀ n ∈ stack.frames, t.hasState n = true

/-- The match leaves the outermost frame where it is, and empty matches in a row do not come to their limit. A handler
does what it does whatever the frames are called, and enters states of the tokenizer. -/
def StaysWithin (f : String → String) (outer : List String) (text : Array Char) (s : Scan) (m : UnionMatch)
    (rule : CompiledRule) : Prop :=
  (rule.jump = some .pop → 2 ≤ (rule.handled text m s.stack).depth) ∧
    (m.whole.stop ≤ m.whole.start → rule.turn text m s.stack = s.stack ∨ s.stalled < t.states.entries.length) ∧
    ∀ handler ∈ rule.onMatch, handler.AnswersWithin f outer (Text.slice text m.whole) s.stack ∧
      t.Knows (handler (Text.slice text m.whole) s.stack.current s.stack).2

/-- Each match that the scan comes to is `ok`, and the budget lasts to the end of the line. -/
def ScansWith (ok : Array Char → Scan → UnionMatch → CompiledRule → Prop) (text : Array Char) : Nat → Scan → Prop
  | 0, s => text.size ≤ s.pos
  | budget + 1, s => s.pos < text.size →
    ∀ m ∈ (t.currentState s.stack).1.patterns.find? text s.pos,
      (∀ rule ∈ (t.currentState s.stack).1.rules[m.rule]?,
        ok text { s with stack := (t.currentState s.stack).2 } m rule) ∧
      ScansWith ok text budget
        (t.afterMatch text (t.currentState s.stack).1 { s with stack := (t.currentState s.stack).2 } m)

/-- Each match in the lines is `ok`, and no line overflows. -/
def RunsWith (ok : Array Char → Scan → UnionMatch → CompiledRule → Prop) (stack : StateStack) : List String → Prop
  | [] => True
  | line :: rest => t.ScansWith ok (Text.chars line) t.options.maxMatches { stack } ∧
    RunsWith ok (t.lineTokens line stack).state rest

section
variable {f : String → String} {outer : List String} {text : Array Char}

instance {handler : Handler} {value : String} {stack : StateStack} :
    Decidable (handler.AnswersWithin f outer value stack) := inferInstanceAs (Decidable (_ = _))

instance {stack : StateStack} : Decidable (t.Knows stack) := inferInstanceAs (Decidable (_ ∧ _))

instance {s : Scan} {m : UnionMatch} {rule : CompiledRule} : Decidable (t.StaysWithin f outer text s m rule) :=
  inferInstanceAs (Decidable (_ ∧ _ ∧ _))

instance decidableScansWith (ok : Array Char → Scan → UnionMatch → CompiledRule → Prop)
    [∀ text s m rule, Decidable (ok text s m rule)] : ∀ (budget : Nat) (s : Scan),
    Decidable (t.ScansWith ok text budget s)
  | 0, _ => inferInstanceAs (Decidable (_ ≤ _))
  | budget + 1, _ =>
    have := decidableScansWith ok budget
    inferInstanceAs (Decidable (_ < _ → ∀ m ∈ _, (∀ rule ∈ _, _) ∧ _))

instance decidableRunsWith (ok : Array Char → Scan → UnionMatch → CompiledRule → Prop)
    [∀ text s m rule, Decidable (ok text s m rule)] : ∀ (stack : StateStack) (lines : List String),
    Decidable (t.RunsWith ok stack lines)
  | _, [] => inferInstanceAs (Decidable True)
  | stack, line :: rest =>
    have : Decidable (t.ScansWith ok (Text.chars line) t.options.maxMatches { stack }) := decidableScansWith t ok _ _
    have := decidableRunsWith ok (t.lineTokens line stack).state rest
    inferInstanceAs (Decidable (_ ∧ _))

end

/-- Rules lead to states that the tokenizer has. -/
def Closed : Prop := ∀ state ∈ t.states.values, ∀ rule ∈ state.rules, ∀ n,
  rule.jump = some (.next n) ∨ rule.jump = some (.push n) → t.hasState n = true

/-- The states of the one, renamed, are states of the other. -/
structure Renames (f : String → String) (t t' : Tokenizer) : Prop where
  inj : f.Injective
  state : ∀ {name state}, t.states.get? name = some state → t'.states.get? (f name) = some (state.rename f)
  options : t'.options = t.options
  length : t.states.entries.length ≤ t'.states.entries.length

end Tokenizer

/-! ## A match -/

section
variable {f : String → String} {outer : List String} {text : Array Char}

theorem emit_eq_handled (rule : CompiledRule) (state : CompiledState) (m : UnionMatch) (stack : StateStack)
    (run : TokenRun) : (emit rule state text m stack run).1 = rule.handled text m stack := by
  unfold emit CompiledRule.handled
  cases rule.onMatch with
  | some handler => dsimp only; split <;> rfl
  | none => cases rule.token <;> rfl

section
variable {rule : CompiledRule} {m : UnionMatch} {stack : StateStack} (hne : stack.frames ≠ [])
  (hanswer : ∀ handler ∈ rule.onMatch, handler.AnswersWithin f outer (Text.slice text m.whole) stack)
include hne hanswer

theorem CompiledRule.handled_within :
    (rule.rename f).handled text m (stack.within f outer) = (rule.handled text m stack).within f outer := by
  obtain ⟨token, jump, onMatch, merge⟩ := rule
  cases onMatch with
  | some handler =>
    have h := hanswer handler rfl
    have hcurrent : (stack.within f outer).current = f stack.current := StateStack.current_within hne
    rw [Handler.AnswersWithin, ← hcurrent] at h
    exact congrArg Prod.snd h
  | none => rfl

theorem CompiledRule.turn_within (hhandled : (rule.handled text m stack).frames ≠ [])
    (hpop : rule.jump = some .pop → 2 ≤ (rule.handled text m stack).depth) :
    (rule.rename f).turn text m (stack.within f outer) = (rule.turn text m stack).within f outer := by
  unfold turn
  rw [handled_within hne hanswer]
  obtain ⟨token, jump, onMatch, merge⟩ := rule
  cases jump with
  | none => rfl
  | some j => exact j.apply_within hhandled fun h => hpop (congrArg some h)

theorem emit_within (state : CompiledState) (run : TokenRun) :
    (emit (rule.rename f) (state.rename f) text m (stack.within f outer) run).2 =
      (emit rule state text m stack run).2 := by
  obtain ⟨token, jump, onMatch, merge⟩ := rule
  unfold emit CompiledRule.rename CompiledState.rename
  cases onMatch with
  | some handler =>
    have h := hanswer handler rfl
    rw [Handler.AnswersWithin] at h
    simp only [StateStack.current_within hne, h]
    split <;> rfl
  | none => cases token <;> rfl

end

namespace Tokenizer

variable {t t' : Tokenizer} {state : CompiledState} {s : Scan} {m : UnionMatch} {rule : CompiledRule}

theorem knows_apply {stack : StateStack} {j : Jump} (htarget : ∀ n, j = .next n ∨ j = .push n → t.hasState n = true)
    (hpop : j = .pop → 2 ≤ stack.depth) (h : t.Knows stack) : t.Knows (j.apply stack) := by
  obtain ⟨hne, hall⟩ := h
  cases j with
  | push n => exact ⟨List.cons_ne_nil _ _, List.forall_mem_cons.mpr ⟨htarget n (.inr rfl), hall⟩⟩
  | next n =>
    have htail : ∀ k ∈ stack.frames.tail, t.hasState k = true := fun k hk => hall k (List.mem_of_mem_tail hk)
    exact ⟨List.cons_ne_nil _ _, List.forall_mem_cons.mpr ⟨htarget n (.inl rfl), htail⟩⟩
  | pop =>
    obtain ⟨_ | ⟨n, _ | ⟨n', frames⟩⟩, data⟩ := stack
    · exact absurd rfl hne
    · exact absurd (hpop rfl) (by simp [StateStack.depth])
    · exact ⟨List.cons_ne_nil _ _, (List.forall_mem_cons.mp hall).2⟩

theorem knows_handled (hknows : t.Knows s.stack) (hok : t.StaysWithin f outer text s m rule) :
    t.Knows (rule.handled text m s.stack) := by
  obtain ⟨-, -, hhandler⟩ := hok
  unfold CompiledRule.handled
  cases hmatch : rule.onMatch with
  | some handler => exact (hhandler handler hmatch).2
  | none => exact hknows

theorem knows_turn (ht : t.Closed) (hstate : state ∈ t.states.values) (hrule : rule ∈ state.rules)
    (hknows : t.Knows s.stack) (hok : t.StaysWithin f outer text s m rule) :
    t.Knows (rule.turn text m s.stack) := by
  have hhandled := knows_handled hknows hok
  have htarget := ht state hstate rule hrule
  have hpop := hok.1
  unfold CompiledRule.turn
  cases hjump : rule.jump with
  | none => exact hhandled
  | some j =>
    rw [hjump] at htarget hpop
    exact knows_apply (by simpa using htarget) (by simpa using hpop) hhandled

theorem afterMatch_eq (h : state.rules[m.rule]? = some rule) : t.afterMatch text state s m =
    let run := (emit rule state text m s.stack
      (s.run.add state.defaultKind (Text.slice text ⟨s.pos, m.whole.start⟩) true)).2
    let stack := rule.turn text m s.stack
    if m.whole.start < m.whole.stop then { pos := m.whole.stop, stack, run, stalled := 0 }
    else if stack = s.stack ∨ t.states.entries.length < s.stalled + 1 then
      let next := min (m.whole.start + 1) text.size
      { pos := next, stack, stalled := 0,
        run := run.addAlone Token.emptyKind (Text.slice text ⟨m.whole.start, next⟩) }
    else { pos := m.whole.start, stack, run, stalled := s.stalled + 1 } := by
  unfold afterMatch CompiledRule.turn
  simp only [h, emit_eq_handled]

/-- A match does the same within other frames if its rule does, and if empty matches come to the limit in both runs or in
neither. -/
theorem afterMatch_within_of (hf : f.Injective) (hne : s.stack.frames ≠ [])
    (hrules : ∀ rule ∈ state.rules[m.rule]?,
      (∀ handler ∈ rule.onMatch, handler.AnswersWithin f outer (Text.slice text m.whole) s.stack) ∧
      (rule.handled text m s.stack).frames ≠ [] ∧
      (rule.jump = some .pop → 2 ≤ (rule.handled text m s.stack).depth) ∧
      (m.whole.stop ≤ m.whole.start →
        (rule.turn text m s.stack = s.stack ∨ t'.states.entries.length < s.stalled + 1 ↔
          rule.turn text m s.stack = s.stack ∨ t.states.entries.length < s.stalled + 1))) :
    t'.afterMatch text (state.rename f) (s.within f outer) m = (t.afterMatch text state s m).within f outer := by
  have hrename : (state.rename f).rules[m.rule]? = (state.rules[m.rule]?).map (CompiledRule.rename f) :=
    Array.getElem?_map
  cases hrule : state.rules[m.rule]? with
  | none =>
    rw [hrule] at hrename
    simp only [afterMatch, hrule, hrename, Option.map_none]
    rfl
  | some rule =>
    rw [hrule] at hrename
    obtain ⟨hanswer, hhandled, hpop, hlimit⟩ := hrules rule hrule
    have hturn := CompiledRule.turn_within hne hanswer hhandled hpop
    rw [afterMatch_eq hrename, afterMatch_eq hrule]
    dsimp only [Scan.within]
    rw [hturn, emit_within hne hanswer]
    dsimp only [CompiledState.rename]
    split
    · rfl
    · rename_i hempty
      simp only [StateStack.within_inj hf, hlimit (Nat.le_of_not_lt hempty)]
      split <;> rfl

theorem afterMatch_within (ht : t.Renames f t') (hknows : t.Knows s.stack)
    (hok : ∀ rule ∈ state.rules[m.rule]?, t.StaysWithin f outer text s m rule) :
    t'.afterMatch text (state.rename f) (s.within f outer) m = (t.afterMatch text state s m).within f outer := by
  refine afterMatch_within_of ht.inj hknows.1 fun rule hrule => ?_
  obtain ⟨hpop, hlimit, hhandler⟩ := hok rule hrule
  have hhandled := knows_handled hknows (hok rule hrule)
  refine ⟨fun handler hh => (hhandler handler hh).1, hhandled.1, hpop, fun hempty => ?_⟩
  -- The limit of the larger tokenizer is not lower, and the run does not come to its own.
  have hlength := ht.length
  rcases hlimit hempty with h | h
  · exact iff_of_true (.inl h) (.inl h)
  · exact or_congr_right (iff_of_false (by omega) (by omega))

theorem knows_afterMatch (ht : t.Closed) (hstate : state ∈ t.states.values) (hknows : t.Knows s.stack)
    (hok : ∀ rule ∈ state.rules[m.rule]?, t.StaysWithin f outer text s m rule) :
    t.Knows (t.afterMatch text state s m).stack := by
  cases hrule : state.rules[m.rule]? with
  | none =>
    simp only [afterMatch, hrule]
    exact hknows
  | some rule =>
    have hturn := knows_turn ht hstate (Array.mem_of_getElem? hrule) hknows (hok rule hrule)
    rw [afterMatch_eq hrule]
    dsimp only
    split
    · exact hturn
    · split <;> exact hturn

/-! ## A run -/

theorem currentState_of_knows {stack : StateStack} (h : t.Knows stack) :
    ∃ state, t.states.get? stack.current = some state ∧ t.currentState stack = (state, stack) := by
  obtain ⟨_ | ⟨n, frames⟩, data⟩ := stack
  · exact absurd rfl h.1
  · obtain ⟨state, hstate⟩ := Option.isSome_iff_exists.mp ((List.forall_mem_cons.mp h.2).1)
    exact ⟨state, hstate, by simp only [currentState, StateStack.current, List.head?_cons, Option.getD_some, hstate]⟩

theorem scan_within (ht : t.Closed) (hrenames : t.Renames f t') : ∀ {budget : Nat} {s : Scan}, t.Knows s.stack →
    t.ScansWith (t.StaysWithin f outer) text budget s →
    t'.scan text budget (s.within f outer) = (t.scan text budget s).within f outer ∧
      t.Knows (t.scan text budget s).stack
  | 0, s, hknows, hrun => by
    have hpos : ¬ s.pos < text.size := Nat.not_lt.mpr hrun
    simp only [scan, overflow, Scan.within, hpos, if_false]
    exact ⟨trivial, hknows⟩
  | budget + 1, s, hknows, hrun => by
    obtain ⟨state, hstate, hcurrent⟩ := currentState_of_knows hknows
    have hcurrent' : t'.currentState (s.stack.within f outer) = (state.rename f, s.stack.within f outer) := by
      unfold currentState
      rw [StateStack.current_within hknows.1, hrenames.state hstate]
    simp only [ScansWith, hcurrent] at hrun
    simp only [scan, Scan.within, hcurrent, hcurrent', CompiledState.rename]
    split
    · rename_i hpos
      cases hfind : state.patterns.find? text s.pos with
      | none => exact ⟨rfl, hknows⟩
      | some m =>
        obtain ⟨hok, hrest⟩ := hrun hpos m hfind
        have hafter := afterMatch_within hrenames hknows hok
        have hnext := scan_within ht hrenames
          (knows_afterMatch ht (Dict.mem_values_of_get? hstate) hknows hok) hrest
        rw [← hafter] at hnext
        exact hnext
    · exact ⟨rfl, hknows⟩

theorem lineTokens_within (ht : t.Closed) (hrenames : t.Renames f t') {line : String} {stack : StateStack}
    (hknows : t.Knows stack)
    (hrun : t.ScansWith (t.StaysWithin f outer) (Text.chars line) t.options.maxMatches { stack }) :
    t'.lineTokens line (stack.within f outer) = (t.lineTokens line stack).within f outer ∧
      t.Knows (t.lineTokens line stack).state := by
  obtain ⟨hscan, hend⟩ := scan_within ht hrenames hknows hrun
  refine ⟨?_, hend⟩
  unfold lineTokens
  rw [hrenames.options]
  exact congrArg (fun s : Scan => (⟨s.run.tokens, s.stack⟩ : LineTokens)) hscan

/-- A run that stays within its frames is the same one under other names and within other frames. -/
theorem tokenizeFrom_within (ht : t.Closed) (hrenames : t.Renames f t') : ∀ {lines : List String} {stack : StateStack},
    t.Knows stack → t.RunsWith (t.StaysWithin f outer) stack lines →
    t'.tokenizeFrom (stack.within f outer) lines = (t.tokenizeFrom stack lines).map (LineTokens.within f outer)
  | [], _, _, _ => rfl
  | line :: rest, stack, hknows, hrun => by
    obtain ⟨hline, hrest⟩ := hrun
    obtain ⟨htokens, hend⟩ := lineTokens_within ht hrenames hknows hline
    have hnext := tokenizeFrom_within ht hrenames hend hrest
    simp only [tokenizeFrom, htokens, List.map_cons]
    exact congrArg _ hnext

/-- A rule of a compiled table leads to a state of it, or back. -/
theorem closed_of_compile {table : RuleTable} {options : ScanOptions} (h : compile table options = .ok t) :
    t.Closed := by
  intro state hstate rule hrule n hn
  obtain ⟨_, _, -, hcompile⟩ := exists_of_mem_values h hstate
  obtain ⟨rules, patterns, -, htargets, -, rfl⟩ := compileState_eq_ok hcompile
  obtain ⟨i, hi, rfl⟩ := List.mem_mapIdx.mp (List.mem_toArray.mp hrule)
  have htarget : n ∈ rules[i].target? := by
    unfold Rule.target?
    rcases hn with hn | hn <;> simp only [Rule.compiled] at hn <;> rw [hn] <;> rfl
  rw [hasState, contains_of_compile h]
  exact htargets rules[i] (List.getElem_mem hi) n htarget

end Tokenizer

end

end Scribe
