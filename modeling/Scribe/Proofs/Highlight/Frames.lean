import Scribe.Proofs.Highlight.Nesting
import Scribe.Proofs.Highlight.Steps

/-!
# Frames name states

A rule of a compiled table leads to a state of it, and a stack that has no frame left to go back to gets the start, which
every table has. So without handlers each frame names a state all along, if the frames at the beginning do.
-/

namespace Scribe

/-! ## The rules of a table -/

mutual

/-- The rules in an entry, inside of inline rules too. -/
def Entry.rules : Entry → List Rule
  | .rule r => [r]
  | .inline r entries => r :: Entry.rulesAll entries
  | .include _ => []
  | .defaultKind _ => []

def Entry.rulesAll : List Entry → List Rule
  | [] => []
  | e :: rest => e.rules ++ Entry.rulesAll rest

end

def RuleTable.rules (t : RuleTable) : List Rule := t.states.entries.flatMap fun e => Entry.rulesAll e.2

/-- One of the rules, but for where it leads. -/
def Rule.From (rules : List Rule) (r : Rule) : Prop := ∃ origin ∈ rules, ∃ jump, r = { origin with jump }

theorem Rule.From.mono {rules rules' : List Rule} {r : Rule} (h : r.From rules) (hsub : rules ⊆ rules') :
    r.From rules' := by
  obtain ⟨origin, horigin, hjump⟩ := h
  exact ⟨origin, hsub horigin, hjump⟩

theorem Rule.from_self {rules : List Rule} {r : Rule} (h : r ∈ rules) : r.From rules := ⟨r, h, r.jump, rfl⟩

namespace Entry

theorem mem_rulesAll {r : Rule} {entries : List Entry} : r ∈ rulesAll entries ↔ ∃ e ∈ entries, r ∈ e.rules := by
  induction entries with
  | nil => simp [rulesAll]
  | cons e rest ih => simp [rulesAll, ih]

mutual

theorem from_hoist (owner : String) (count : Nat) : ∀ e : Entry,
    (∀ r ∈ (e.hoist owner count).1.rules, r.From e.rules) ∧
      ∀ piece ∈ (e.hoist owner count).2.2, ∀ r ∈ rulesAll piece.2, r.From e.rules
  | .inline r entries => by
    obtain ⟨hown, hinner⟩ := from_hoistAll (owner ++ "#" ++ toString (count + 1)) (count + 1) entries
    have hsub : rulesAll entries ⊆ (Entry.inline r entries).rules := fun _ h => List.mem_cons_of_mem _ h
    constructor
    · intro r' hr'
      obtain rfl := List.mem_singleton.mp hr'
      exact ⟨r, List.mem_cons_self, _, rfl⟩
    · intro piece hpiece r' hr'
      rcases List.mem_append.mp hpiece with h | h
      · exact (hinner piece h r' hr').mono hsub
      · obtain rfl := List.mem_singleton.mp h
        exact (hown r' hr').mono hsub
  | .rule r => ⟨fun _ h => Rule.from_self h, fun _ h => (nomatch h)⟩
  | .include state => ⟨fun _ h => (nomatch h), fun _ h => (nomatch h)⟩
  | .defaultKind kind => ⟨fun _ h => (nomatch h), fun _ h => (nomatch h)⟩

/-- Naming the states of inline rules changes where rules lead and nothing else. -/
theorem from_hoistAll (owner : String) (count : Nat) : ∀ entries : List Entry,
    (∀ r ∈ rulesAll (hoistAll owner count entries).1, r.From (rulesAll entries)) ∧
      ∀ piece ∈ (hoistAll owner count entries).2.2, ∀ r ∈ rulesAll piece.2, r.From (rulesAll entries)
  | [] => ⟨fun _ h => (nomatch h), fun _ h => (nomatch h)⟩
  | e :: rest => by
    obtain ⟨he, hinner⟩ := from_hoist owner count e
    obtain ⟨hrest, hmore⟩ := from_hoistAll owner (e.hoist owner count).2.1 rest
    have hfirst : e.rules ⊆ rulesAll (e :: rest) := fun _ h => List.mem_append_left _ h
    have hlater : rulesAll rest ⊆ rulesAll (e :: rest) := fun _ h => List.mem_append_right _ h
    constructor
    · intro r hr
      rcases List.mem_append.mp hr with h | h
      · exact (he r h).mono hfirst
      · exact (hrest r h).mono hlater
    · intro piece hpiece r hr
      rcases List.mem_append.mp hpiece with h | h
      · exact (hinner piece h r hr).mono hfirst
      · exact (hmore piece h r hr).mono hlater

end

end Entry

theorem RuleTable.from_hoisted {t : RuleTable} {name : String} {entries : List Entry}
    (h : t.hoisted.get? name = some entries) : ∀ r ∈ Entry.rulesAll entries, r.From t.rules := by
  obtain ⟨e, he, hmem⟩ := exists_piece_of_get?_hoisted h
  have hsub : Entry.rulesAll e.2 ⊆ t.rules := fun _ h => List.mem_flatMap.mpr ⟨e, he, h⟩
  obtain ⟨hown, hinner⟩ := Entry.from_hoistAll e.1 0 e.2
  intro r hr
  rcases List.mem_cons.mp hmem with hmem | hmem
  · obtain ⟨-, rfl⟩ := Prod.mk.inj hmem
    exact (hown r hr).mono hsub
  · exact (hinner _ hmem r hr).mono hsub

theorem exists_of_mem_includedRules {states : Dict String (List Entry)} : ∀ {room : Nat} {path : List String}
    {name : String} {rules : List Rule}, includedRules states room path name = .ok rules →
    ∀ r ∈ rules, ∃ n entries, states.get? n = some entries ∧ r ∈ Entry.rulesAll entries
  | 0, _, _, _, h => by
    cases h
    exact fun _ h => (nomatch h)
  | room + 1, path, name, rules, h => by
    unfold includedRules at h
    cases hentries : states.get? name with
    | none =>
      rw [hentries] at h
      cases h
      exact fun _ h => (nomatch h)
    | some entries =>
      rw [hentries] at h
      refine foldlM_keeps (P := fun rules => ∀ r ∈ rules, ∃ n entries, states.get? n = some entries ∧
        r ∈ Entry.rulesAll entries) (fun e he found found' hfound hstep => ?_) (by simp) h
      have hown : ∀ r ∈ e.rules, ∃ n entries, states.get? n = some entries ∧ r ∈ Entry.rulesAll entries :=
        fun r hr => ⟨name, entries, hentries, Entry.mem_rulesAll.mpr ⟨e, he, hr⟩⟩
      cases e with
      | rule r =>
        cases hstep
        exact List.forall_mem_append.mpr ⟨hfound, fun r' hr' => hown r' hr'⟩
      | inline r inner =>
        cases hstep
        refine List.forall_mem_append.mpr ⟨hfound, fun r' hr' => hown r' ?_⟩
        exact List.mem_singleton.mp hr' ▸ List.mem_cons_self
      | defaultKind kind =>
        cases hstep
        exact hfound
      | «include» target =>
        dsimp only at hstep
        split at hstep
        · cases hstep
        · split at hstep
          · cases hstep
            exact hfound
          · cases hinner : includedRules states room (name :: path) target with
            | error e => rw [hinner] at hstep; cases hstep
            | ok more =>
              rw [hinner] at hstep
              cases hstep
              exact List.forall_mem_append.mpr ⟨hfound, exists_of_mem_includedRules hinner⟩

namespace Tokenizer

/-- A compiled rule is one of the table, but for where it leads and for kinds that its groups do not fit. -/
theorem exists_origin_of_compile {table : RuleTable} {options : ScanOptions} {t : Tokenizer}
    (ht : compile table options = .ok t) : ∀ state ∈ t.states.values, ∀ rule ∈ state.rules,
      ∃ origin ∈ table.rules, ∃ groupCount, rule.token = origin.token.fit groupCount ∧
        rule.onMatch = origin.onMatch ∧ rule.merge = origin.merge := by
  intro state hstate rule hrule
  obtain ⟨name, entries, -, hcompile⟩ := exists_of_mem_values ht hstate
  obtain ⟨rules, patterns, hincluded, -, -, rfl⟩ := compileState_eq_ok hcompile
  obtain ⟨i, hi, rfl⟩ := List.mem_mapIdx.mp (List.mem_toArray.mp hrule)
  obtain ⟨n, entries', hentries, hmem⟩ := exists_of_mem_includedRules hincluded _ (List.getElem_mem hi)
  obtain ⟨origin, horigin, jump, hr⟩ := RuleTable.from_hoisted hentries _ hmem
  rw [hr]
  exact ⟨origin, horigin, _, rfl, rfl, rfl⟩

/-- A table without handlers has none when it is compiled. -/
theorem onMatch_of_compile {table : RuleTable} {options : ScanOptions} {t : Tokenizer}
    (ht : compile table options = .ok t) (hrules : ∀ r ∈ table.rules, r.onMatch = none) :
    ∀ state ∈ t.states.values, ∀ rule ∈ state.rules, rule.onMatch = none := by
  intro state hstate rule hrule
  obtain ⟨origin, horigin, -, -, honMatch, -⟩ := exists_origin_of_compile ht state hstate rule hrule
  exact honMatch.trans (hrules origin horigin)

/-! ## Stacks -/

section
variable (t : Tokenizer)

/-- Each frame names a state, and there is one if there was one at first. -/
def KnowsAfter (first stack : StateStack) : Prop :=
  (∀ n ∈ stack.frames, t.hasState n = true) ∧ (first.frames ≠ [] → stack.frames ≠ [])

/-- The stacks that a line goes through, from the one that it starts with to the one that it leaves. -/
def lineStacks (line : String) (stack : StateStack) : List StateStack :=
  stack :: (t.lineSteps line stack).map (·.after.stack) ++ [(t.lineTokens line stack).state]

def stacksFrom (stack : StateStack) : List String → List StateStack
  | [] => [stack]
  | line :: rest => t.lineStacks line stack ++ stacksFrom (t.lineTokens line stack).state rest

end

variable {t : Tokenizer} {first stack : StateStack}

theorem knowsAfter_initial (hstart : t.hasState startState = true) : t.KnowsAfter first .initial := by
  constructor
  · intro n hn
    obtain rfl := List.mem_singleton.mp hn
    exact hstart
  · intro _
    exact List.cons_ne_nil _ _

theorem knowsAfter_apply {j : Jump} (hstart : t.hasState startState = true)
    (htarget : ∀ n, j = .next n ∨ j = .push n → t.hasState n = true) (h : t.KnowsAfter first stack) :
    t.KnowsAfter first (j.apply stack) := by
  obtain ⟨hall, -⟩ := h
  cases j with
  | push n => exact ⟨List.forall_mem_cons.mpr ⟨htarget n (.inr rfl), hall⟩, fun _ => List.cons_ne_nil _ _⟩
  | next n =>
    have htail : ∀ k ∈ stack.frames.tail, t.hasState k = true := fun k hk => hall k (List.mem_of_mem_tail hk)
    exact ⟨List.forall_mem_cons.mpr ⟨htarget n (.inl rfl), htail⟩, fun _ => List.cons_ne_nil _ _⟩
  | pop =>
    obtain ⟨_ | ⟨n, _ | ⟨n', frames⟩⟩, data⟩ := stack
    · exact ⟨List.forall_mem_cons.mpr ⟨hstart, hall⟩, fun _ => List.cons_ne_nil _ _⟩
    · exact ⟨List.forall_mem_cons.mpr ⟨hstart, fun _ hk => (nomatch hk)⟩, fun _ => List.cons_ne_nil _ _⟩
    · exact ⟨(List.forall_mem_cons.mp hall).2, fun _ => List.cons_ne_nil _ _⟩

/-- The current frame is one of the stack, or the start. -/
theorem currentState_of_knowsAfter (hstart : t.hasState startState = true) (h : t.KnowsAfter first stack) :
    ∃ state, t.states.get? stack.current = some state ∧ t.currentState stack = (state, stack) := by
  by_cases hframes : stack.frames = []
  · have hcurrent : stack.current = startState := by
      rw [StateStack.current, hframes]
      rfl
    obtain ⟨state, hstate⟩ := Option.isSome_iff_exists.mp hstart
    rw [← hcurrent] at hstate
    exact ⟨state, hstate, by simp only [currentState, hstate]⟩
  · exact currentState_of_knows ⟨hframes, h.1⟩

section
variable {table : RuleTable} {options : ScanOptions} (ht : compile table options = .ok t)
include ht

theorem hasState_start_of_compile : t.hasState startState = true := by
  rw [hasState, Dict.contains, (of_compile ht).start]
  rfl

variable (hrules : ∀ r ∈ table.rules, r.onMatch = none)
include hrules

theorem knowsAfter_step {text : Array Char} {s : Scan} {step : ScanStep} (h : t.KnowsAfter first s.stack)
    (hstep : t.step? text s = some step) : t.KnowsAfter first step.after.stack := by
  have hstart := hasState_start_of_compile ht
  obtain ⟨state, hstate, hcurrent⟩ := currentState_of_knowsAfter hstart h
  obtain ⟨-, hbefore, -, hafter⟩ := step?_eq_some hstep
  rw [hcurrent] at hbefore hafter
  have hmem : state ∈ t.states.values := Dict.mem_values_of_get? hstate
  cases hrule : state.rules[step.found.rule]? with
  | none =>
    simp only [afterMatch, hrule] at hafter
    rw [hafter, hbefore]
    exact h
  | some rule =>
    have hmemRule : rule ∈ state.rules := Array.mem_of_getElem? hrule
    have hturn : t.KnowsAfter first (rule.turn text step.found step.before.stack) := by
      have hhandled : rule.handled text step.found step.before.stack = s.stack := by
        rw [CompiledRule.handled, onMatch_of_compile ht hrules state hmem rule hmemRule, hbefore]
      rw [CompiledRule.turn, hhandled]
      cases hjump : rule.jump with
      | none => exact h
      | some j =>
        refine knowsAfter_apply hstart (fun n hn => ?_) h
        refine closed_of_compile ht state hmem rule hmemRule n ?_
        rw [hjump]
        exact hn.imp (congrArg some) (congrArg some)
    -- Whatever the match does to the position, the rule alone turns the stack.
    rw [afterMatch_eq hrule] at hafter
    dsimp only at hafter
    split at hafter
    · rwa [hafter]
    · split at hafter <;> rwa [hafter]

theorem knowsAfter_lineStacks {line : String} (h : t.KnowsAfter first stack) :
    ∀ s ∈ t.lineStacks line stack, t.KnowsAfter first s := by
  have hstart := hasState_start_of_compile ht
  obtain ⟨hsteps, hend⟩ : (∀ step ∈ t.lineSteps line stack, t.KnowsAfter first step.after.stack) ∧
      t.KnowsAfter first (t.lineEnd line stack).stack :=
    through_steps (P := fun s => t.KnowsAfter first s.stack) (fun _ _ => knowsAfter_step ht hrules) h
  intro s hs
  rcases List.mem_append.mp hs with hs | hs
  · rcases List.mem_cons.mp hs with rfl | hs
    · exact h
    · obtain ⟨step, hstep, rfl⟩ := List.mem_map.mp hs
      exact hsteps step hstep
  · obtain rfl := List.mem_singleton.mp hs
    rw [lineTokens_eq]
    dsimp only
    split
    · unfold overflow
      split
      · exact knowsAfter_initial hstart
      · exact hend
    · obtain ⟨state, -, hcurrent⟩ := currentState_of_knowsAfter hstart hend
      unfold settle
      split
      · rw [hcurrent]
        exact hend
      · exact hend

theorem knowsAfter_stacksFrom : ∀ {lines : List String} {stack : StateStack}, t.KnowsAfter first stack →
    ∀ s ∈ t.stacksFrom stack lines, t.KnowsAfter first s
  | [], _, h, _, hs => by
    obtain rfl := List.mem_singleton.mp hs
    exact h
  | line :: rest, stack, h, s, hs => by
    have hline : ∀ s ∈ t.lineStacks line stack, t.KnowsAfter first s := knowsAfter_lineStacks ht hrules h
    have hstate : t.KnowsAfter first (t.lineTokens line stack).state :=
      hline _ (List.mem_append_right _ List.mem_cons_self)
    rcases List.mem_append.mp hs with hs | hs
    · exact hline s hs
    · exact knowsAfter_stacksFrom hstate s hs

end

theorem state_mem_stacksFrom : ∀ {lines : List String} {stack : StateStack},
    ∀ l ∈ t.tokenizeFrom stack lines, l.state ∈ t.stacksFrom stack lines
  | [], _, _, h => (nomatch h)
  | line :: rest, stack, l, h => by
    rcases List.mem_cons.mp h with rfl | h
    · exact List.mem_append_left _ (List.mem_append_right _ List.mem_cons_self)
    · exact List.mem_append_right _ (state_mem_stacksFrom l h)

/-- Without handlers, frames that name states go on to name states: on each stack that lines go through, and on those
that they leave, no frame is unknown, one is left if there was one, and the scan goes on in the state that the current
frame names. -/
theorem frames_name_states {table : RuleTable} {options : ScanOptions} (ht : compile table options = .ok t)
    (hrules : ∀ r ∈ table.rules, r.onMatch = none) (hstack : ∀ n ∈ stack.frames, t.hasState n = true)
    (lines : List String) :
    (∀ l ∈ t.tokenizeFrom stack lines, l.state ∈ t.stacksFrom stack lines) ∧
    ∀ s ∈ t.stacksFrom stack lines,
      (∀ n ∈ s.frames, t.hasState n = true) ∧ (stack.frames ≠ [] → s.frames ≠ []) ∧
        ∃ state, t.states.get? s.current = some state ∧ t.currentState s = (state, s) := by
  refine ⟨fun l hl => state_mem_stacksFrom l hl, ?_⟩
  intro s hs
  have hfirst : t.KnowsAfter stack stack := ⟨hstack, fun hne => hne⟩
  have hknows := knowsAfter_stacksFrom ht hrules hfirst s hs
  have hcurrent := currentState_of_knowsAfter (hasState_start_of_compile ht) hknows
  exact ⟨hknows.1, hknows.2, hcurrent⟩

/-- Two states that include each other, with brackets in brackets. -/
def sampleBrackets : RuleTable :=
  { states := Dict.ofList [
    ("item", [.include startState, .rule { token := .literal "dot", regex := "\\.", jump := some .pop }]),
    (startState, [.rule { token := .literal "word", regex := "[a-z]", jump := some (.next "item") }, .include "item",
      .inline { token := .literal "open", regex := "\\(" } [
        .inline { token := .literal "open", regex := "\\[" } [
          .rule { token := .literal "close", regex := "\\]", jump := some .pop }, .include "item"],
        .rule { token := .literal "close", regex := "\\)", jump := some .pop }]])] }

def sampleStack : StateStack := { frames := ["item", startState] }

theorem frames_name_states_brackets : ∃ t, compile sampleBrackets = .ok t ∧
    (∀ r ∈ sampleBrackets.rules, r.onMatch = none) ∧ (∀ n ∈ sampleStack.frames, t.hasState n = true) ∧
    ∀ s ∈ t.stacksFrom sampleStack ["([a", "...).", "."],
      (∀ n ∈ s.frames, t.hasState n = true) ∧ s.frames ≠ [] ∧
        ∃ state, t.states.get? s.current = some state ∧ t.currentState s = (state, s) := by
  have hrules : ∀ r ∈ sampleBrackets.rules, r.onMatch = none := by decide +kernel
  obtain ⟨t, ht, hstack⟩ : ∃ t, compile sampleBrackets = .ok t ∧ ∀ n ∈ sampleStack.frames, t.hasState n = true :=
    ⟨_, rfl, by decide +kernel⟩
  have hframes := frames_name_states ht hrules hstack ["([a", "...).", "."]
  refine ⟨t, ht, hrules, hstack, fun s hs => ?_⟩
  obtain ⟨hall, hne, hcurrent⟩ := hframes.2 s hs
  exact ⟨hall, hne (List.cons_ne_nil _ _), hcurrent⟩

end Tokenizer

end Scribe
