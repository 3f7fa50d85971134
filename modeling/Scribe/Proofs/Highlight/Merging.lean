import Scribe.Proofs.Highlight.Frames
import Scribe.Proofs.Highlight.Stalling
import Scribe.Proofs.Highlight.Unmerged

/-!
# Merged tokens

A text joins the last token only if that one has its kind already, so merging has no say in the kind of any character. And
where each rule lets its token join, two tokens of one kind stand side by side only if one of them is a character that was
passed over, or a piece of a rest for which the budget was not enough: those stay alone.
-/

namespace Scribe

/-! ## The kinds that a match gives -/

theorem labels_addGroups_congr {kind : String} {text : Array Char} {stop : Nat} :
    ∀ {groups : List (String × Option Span)} {cursor : Nat} {run run' : TokenRun}, run'.labels = run.labels →
      (addGroups kind text stop cursor run' groups).labels = (addGroups kind text stop cursor run groups).labels
  | [], _, _, _, h => by simp only [addGroups, TokenRun.labels_addAlone, h]
  | (_, none) :: rest, _, _, _, h => by
    simp only [addGroups]
    exact labels_addGroups_congr h
  | (_, some span) :: rest, _, _, _, h => by
    simp only [addGroups]
    split
    · exact labels_addGroups_congr h
    · refine labels_addGroups_congr ?_
      simp only [TokenRun.labels_addAlone, h]

/-- A rule gives the same kinds with merging and without. -/
theorem emit_unmerged (rule : CompiledRule) (state : CompiledState) (text : Array Char) (m : UnionMatch)
    (stack : StateStack) {run run' : TokenRun} (h : run'.labels = run.labels) :
    (emit rule.unmerged state.unmerged text m stack run').1 = (emit rule state text m stack run).1 ∧
      (emit rule.unmerged state.unmerged text m stack run').2.labels = (emit rule state text m stack run).2.labels := by
  obtain ⟨token, jump, onMatch, merge⟩ := rule
  unfold emit CompiledRule.unmerged CompiledState.unmerged
  cases onMatch with
  | some handler =>
    dsimp only
    split
    · exact ⟨rfl, by simp only [TokenRun.labels_addAllAlone, h]⟩
    · exact ⟨rfl, by simp only [TokenRun.labels_add, h]⟩
  | none =>
    cases token with
    | literal kind => exact ⟨rfl, by simp only [TokenRun.labels_add, h]⟩
    | classify f => exact ⟨rfl, by simp only [TokenRun.labels_add, h]⟩
    | groups kinds => exact ⟨rfl, labels_addGroups_congr h⟩

/-! ## The scan with merging and without -/

/-- The text up to `stop`, which no rule has matched, gets the kind of such text; it joins the last token only if `merge`
says so. -/
def Scan.fill (s : Scan) (merge : Bool) (state : CompiledState) (text : Array Char) (stop : Nat) : Scan :=
  { s with pos := stop, run := s.run.add state.defaultKind (Text.slice text ⟨s.pos, stop⟩) merge }

/-- The scans stand at one place with one stack, and have given the same kinds. -/
structure Scan.Agree (s s' : Scan) : Prop where
  pos : s'.pos = s.pos
  stack : s'.stack = s.stack
  stalled : s'.stalled = s.stalled
  labels : s'.run.labels = s.run.labels

theorem Scan.Agree.fill {s s' : Scan} (h : s.Agree s') (merge merge' : Bool) (state : CompiledState) (text : Array Char)
    (stop : Nat) : (s.fill merge state text stop).Agree (s'.fill merge' state.unmerged text stop) := by
  have hkind : state.unmerged.defaultKind = state.defaultKind := rfl
  refine ⟨rfl, h.stack, h.stalled, ?_⟩
  simp only [Scan.fill, TokenRun.labels_add, h.labels, h.pos, hkind]

namespace Tokenizer

section
variable (t : Tokenizer)

/-- A scan for which `merge` says whether text that no rule has matched may join the token before it. -/
def scanWith (merge : Bool) (text : Array Char) : Nat → Scan → Scan
  | 0, s => t.overflow text s
  | budget + 1, s =>
    if s.pos < text.size then
      let (state, stack) := t.currentState s.stack
      let s := { s with stack }
      match state.patterns.find? text s.pos with
      | none => s.fill merge state text text.size
      | some m => scanWith merge text budget (t.afterMatch text state (s.fill merge state text m.whole.start) m)
    else s

def lineTokensWith (merge : Bool) (line : String) (stack : StateStack) : LineTokens :=
  let s := t.scanWith merge (Text.chars line) t.options.maxMatches { stack }
  ⟨s.run.tokens, s.stack⟩

end

variable {t : Tokenizer} {text : Array Char}

/-- Behind the text in front of it, a match finds no more such text. -/
theorem afterMatch_fill (state : CompiledState) (s : Scan) (m : UnionMatch) :
    t.afterMatch text state (s.fill true state text m.whole.start) m = t.afterMatch text state s m := by
  have hnone : Text.slice text ⟨m.whole.start, m.whole.start⟩ = "" := by
    simp [Text.slice]
  simp only [afterMatch, Scan.fill, hnone, TokenRun.add_empty]

theorem scanWith_true : ∀ (budget : Nat) (s : Scan), t.scanWith true text budget s = t.scan text budget s
  | 0, _ => rfl
  | budget + 1, s => by
    simp only [scanWith, scan, afterMatch_fill, scanWith_true budget]
    rfl

theorem lineTokensWith_true (line : String) (stack : StateStack) :
    t.lineTokensWith true line stack = t.lineTokens line stack := by
  rw [lineTokensWith, lineTokens, scanWith_true]

theorem currentState_unmerged (stack : StateStack) :
    t.unmerged.currentState stack = ((t.currentState stack).1.unmerged, (t.currentState stack).2) := by
  unfold currentState unmerged
  rw [Dict.get?_mapValues]
  cases t.states.get? stack.current <;> rfl

theorem afterMatch_unmerged (state : CompiledState) {s s' : Scan} (h : s.Agree s') (m : UnionMatch) :
    (t.afterMatch text state s m).Agree (t.unmerged.afterMatch text state.unmerged s' m) := by
  obtain ⟨pos, stack, run, stalled⟩ := s
  obtain ⟨pos', stack', run', stalled'⟩ := s'
  obtain ⟨rfl, rfl, rfl, hlabels⟩ := h
  have hrule : state.unmerged.rules[m.rule]? = (state.rules[m.rule]?).map CompiledRule.unmerged := Array.getElem?_map
  have hlength : t.unmerged.states.entries.length = t.states.entries.length := List.length_map _
  have hfill : (run'.add state.defaultKind (Text.slice text ⟨pos', m.whole.start⟩) true).labels =
      (run.add state.defaultKind (Text.slice text ⟨pos', m.whole.start⟩) true).labels := by
    simpa only [TokenRun.labels_add, List.append_left_inj] using hlabels
  unfold afterMatch
  rw [hrule, hlength]
  cases state.rules[m.rule]? with
  | none => exact ⟨rfl, rfl, rfl, hfill⟩
  | some rule =>
    obtain ⟨hstack, hemit⟩ := emit_unmerged rule state text m stack' hfill
    have hjump : rule.unmerged.jump = rule.jump := rfl
    have hkind : state.unmerged.defaultKind = state.defaultKind := rfl
    simp only [Option.map_some, hjump, hkind, hstack]
    split
    · exact ⟨rfl, rfl, rfl, hemit⟩
    · split
      · exact ⟨rfl, rfl, rfl, by simp only [TokenRun.labels_addAlone, hemit]⟩
      · exact ⟨rfl, rfl, rfl, hemit⟩

/-- Whatever may join, the scan goes the same way and gives the same kinds. -/
theorem scanWith_unmerged (merge merge' : Bool) : ∀ (budget : Nat) {s s' : Scan}, s.Agree s' →
    (t.scanWith merge text budget s).Agree (t.unmerged.scanWith merge' text budget s')
  | 0, s, s', h => by
    have hoptions : t.unmerged.options = t.options := rfl
    unfold scanWith overflow
    rw [h.pos, hoptions]
    split
    · exact ⟨rfl, congrArg StateStack.reset h.stack, h.stalled, by simp only [TokenRun.labels_addAllAlone, h.labels]⟩
    · exact h
  | budget + 1, ⟨pos, stack, run, stalled⟩, ⟨_, _, run', _⟩, ⟨rfl, rfl, rfl, hlabels⟩ => by
    have hpatterns : (t.currentState stack).1.unmerged.patterns = (t.currentState stack).1.patterns := rfl
    have hentered : Scan.Agree ⟨pos, (t.currentState stack).2, run, stalled⟩
      ⟨pos, (t.currentState stack).2, run', stalled⟩ := ⟨rfl, rfl, rfl, hlabels⟩
    simp only [scanWith, currentState_unmerged, hpatterns]
    split
    · cases (t.currentState stack).1.patterns.find? text pos with
      | none => exact hentered.fill ..
      | some m => exact scanWith_unmerged merge merge' budget (afterMatch_unmerged _ (hentered.fill ..) m)
    · exact ⟨rfl, rfl, rfl, hlabels⟩

theorem labels_lineTokens (line : String) (stack : StateStack) :
    Token.labels (t.lineTokens line stack).tokens = Token.labels (t.unmerged.lineTokensWith false line stack).tokens ∧
      (t.lineTokens line stack).state = (t.unmerged.lineTokensWith false line stack).state := by
  have hagree : (Scan.mk 0 stack {} 0).Agree (Scan.mk 0 stack {} 0) := ⟨rfl, rfl, rfl, rfl⟩
  have hscan : (t.scanWith true (Text.chars line) t.options.maxMatches _).Agree
    (t.unmerged.scanWith false (Text.chars line) t.options.maxMatches _) := scanWith_unmerged true false _ hagree
  rw [← lineTokensWith_true]
  exact ⟨hscan.labels.symm, hscan.stack.symm⟩

end Tokenizer

/-! ## Tokens that stay alone -/

/-- Of two tokens of one kind side by side one is `alone` behind those before it. The last token comes first. -/
def Token.Apart (alone : List Token → Token → Prop) : List Token → Prop
  | b :: a :: rest => (a.kind = b.kind → alone rest a ∨ alone (a :: rest) b) ∧ Apart alone (a :: rest)
  | _ => True

theorem Token.apart_of_append {alone : List Token → Token → Prop} {a b : Token} {rest : List Token} :
    ∀ later : List Token, Apart alone (later ++ b :: a :: rest) → a.kind = b.kind → alone rest a ∨ alone (a :: rest) b
  | [], h => h.1
  | [_], h => h.2.1
  | _ :: c :: later, h => apart_of_append (c :: later) h.2

namespace TokenRun

variable {alone : List Token → Token → Prop} {run : TokenRun}

/-- A token that may still grow is not taken for alone, and one that may not is. -/
structure Apart (alone : List Token → Token → Prop) (run : TokenRun) : Prop where
  tokens : Token.Apart alone run.reversed
  extensible : run.extensible = true → ∀ rest a b, run.reversed = b :: a :: rest → a.kind = b.kind → alone rest a
  alone : run.extensible = false → ∀ rest a, run.reversed = a :: rest → alone rest a

theorem apart_empty : Apart alone {} := ⟨trivial, fun h => (nomatch h), fun _ _ _ h => (nomatch h)⟩

theorem apart_add (h : run.Apart alone) (kind value : String) : (run.add kind value true).Apart alone := by
  obtain ⟨reversed, extensible⟩ := run
  unfold add
  split
  · exact h
  · cases reversed with
    | nil => exact ⟨trivial, fun _ _ _ _ h => (nomatch (List.cons.inj h).2), fun h => (nomatch h)⟩
    | cons last rest =>
      obtain ⟨htokens, hextensible, halone⟩ := h
      dsimp only
      split
      · -- The last token grows, and keeps its kind.
        rename_i hjoins
        simp only [Bool.true_and, Bool.and_eq_true, beq_iff_eq] at hjoins
        obtain ⟨rfl, -⟩ := hjoins
        refine ⟨?_, ?_, fun h => (nomatch h)⟩
        · cases rest with
          | nil => trivial
          | cons a rest => exact ⟨fun hkind => .inl (hextensible rfl rest a last rfl hkind), htokens.2⟩
        · intro _ rest' a b hreversed hkind
          obtain ⟨rfl, rfl⟩ := List.cons.inj hreversed
          exact hextensible rfl rest' a last rfl hkind
      · rename_i hjoins
        have hlast : last.kind = kind → alone rest last := by
          intro hkind
          cases extensible with
          | false => exact halone rfl rest last rfl
          | true => exact absurd (by simp [hkind]) hjoins
        refine ⟨⟨fun hkind => .inl (hlast hkind), htokens⟩, ?_, fun h => (nomatch h)⟩
        intro _ rest' a b hreversed hkind
        cases hreversed
        exact hlast hkind

theorem apart_addAlone {kind value : String} (h : run.Apart alone)
    (hnew : value ≠ "" → alone run.reversed ⟨kind, value⟩) : (run.addAlone kind value).Apart alone := by
  unfold addAlone
  split
  · exact h
  · rename_i hvalue
    have hnew := hnew fun he => hvalue (String.isEmpty_iff.mpr he)
    refine ⟨?_, fun h => (nomatch h), ?_⟩
    · have htokens := h.tokens
      generalize run.reversed = reversed at hnew htokens
      cases reversed with
      | nil => trivial
      | cons a rest => exact ⟨fun _ => .inr hnew, htokens⟩
    · intro _ rest a hreversed
      obtain ⟨rfl, rfl⟩ := List.cons.inj hreversed
      exact hnew

theorem apart_addAllAlone : ∀ {tokens : List Token} {run : TokenRun}, run.Apart alone →
    (∀ a ∈ tokens, ∀ rest, run.reversed <:+ rest → alone rest a) → (run.addAllAlone tokens).Apart alone
  | [], _, h, _ => h
  | a :: tokens, run, h, hnew => by
    obtain ⟨hfirst, hrest⟩ := List.forall_mem_cons.mp hnew
    have hadd : (run.addAlone a.kind a.value).Apart alone :=
      apart_addAlone h fun _ => hfirst run.reversed (List.suffix_refl _)
    have hgrown : run.reversed <:+ (run.addAlone a.kind a.value).reversed := by
      unfold addAlone
      split
      · exact List.suffix_refl _
      · exact List.suffix_cons _ _
    have hall : ((run.addAlone a.kind a.value).addAllAlone tokens).Apart alone :=
      apart_addAllAlone hadd fun b hb rest hsuffix => hrest b hb rest (hgrown.trans hsuffix)
    exact hall

end TokenRun

/-! ## Rules whose tokens join -/

/-- One kind for all of a match. -/
def TokenSpec.isSingle : TokenSpec → Bool
  | .groups _ => false
  | _ => true

/-- The rule gives one token, which may join the one before it. -/
def Rule.Joins (r : Rule) : Prop := r.onMatch = none ∧ r.token.isSingle = true ∧ r.merge = true

instance (r : Rule) : Decidable r.Joins := inferInstanceAs (Decidable (_ ∧ _))

def CompiledRule.Joins (r : CompiledRule) : Prop := r.onMatch = none ∧ r.token.isSingle = true ∧ r.merge = true

theorem TokenSpec.isSingle_fit {token : TokenSpec} (h : token.isSingle = true) (groupCount : Nat) :
    (token.fit groupCount).isSingle = true := by
  cases token with
  | literal kind => rfl
  | groups kinds => cases h
  | classify f => rfl

theorem exists_emit_eq_add {rule : CompiledRule} (h : rule.Joins) (state : CompiledState) (text : Array Char)
    (m : UnionMatch) (stack : StateStack) (run : TokenRun) :
    ∃ kind, (emit rule state text m stack run).2 = run.add kind (Text.slice text m.whole) true := by
  obtain ⟨token, jump, onMatch, merge⟩ := rule
  obtain ⟨rfl, hsingle, rfl⟩ := h
  cases token with
  | literal kind => exact ⟨kind, rfl⟩
  | groups kinds => cases hsingle
  | classify f => exact ⟨_, rfl⟩

namespace Tokenizer

variable {t : Tokenizer} {text : Array Char} {s : Scan} {step : ScanStep}

theorem joins_of_compile {table : RuleTable} {options : ScanOptions} (ht : compile table options = .ok t)
    (hrules : ∀ r ∈ table.rules, r.Joins) : ∀ state ∈ t.states.values, ∀ rule ∈ state.rules, rule.Joins := by
  intro state hstate rule hrule
  obtain ⟨origin, horigin, groupCount, htoken, honMatch, hmerge⟩ := exists_origin_of_compile ht state hstate rule hrule
  obtain ⟨hnone, hsingle, hjoins⟩ := hrules origin horigin
  exact ⟨honMatch.trans hnone, htoken ▸ TokenSpec.isSingle_fit hsingle groupCount, hmerge.trans hjoins⟩

section
variable (ht : t.Sound) (hjoins : ∀ state ∈ t.states.values, ∀ rule ∈ state.rules, rule.Joins)
include ht hjoins

/-- Of what a match writes, only a character that it passes over stays alone. -/
theorem apart_step {alone : List Token → Token → Prop} (h : s.run.Apart alone) (hstep : t.step? text s = some step)
    (halone : step.Skips → ∀ rest a, step.after.run.reversed = a :: rest → a.kind = Token.emptyKind → alone rest a) :
    step.after.run.Apart alone := by
  obtain ⟨-, hbefore, hfind, hafter⟩ := step?_eq_some hstep
  obtain ⟨hrule, -⟩ := PatternUnion.find?_eq_some hfind
  have hmem := currentState_mem ht s.stack
  rw [← ht.rules_size _ hmem] at hrule
  have hrun : step.before.run = s.run := by rw [hbefore]
  obtain ⟨kind, hemit⟩ := exists_emit_eq_add (hjoins _ hmem _ (Array.getElem_mem hrule)) (t.currentState s.stack).1 text
    step.found step.before.stack (step.before.run.add (t.currentState s.stack).1.defaultKind
      (Text.slice text ⟨step.before.pos, step.found.whole.start⟩) true)
  have hwritten := TokenRun.apart_add (TokenRun.apart_add h (t.currentState s.stack).1.defaultKind
    (Text.slice text ⟨step.before.pos, step.found.whole.start⟩)) kind (Text.slice text step.found.whole)
  rw [← hrun, ← hemit] at hwritten
  rw [afterMatch_eq (Array.getElem?_eq_getElem hrule)] at hafter
  dsimp only at hafter
  split at hafter
  · rw [hafter]
    exact hwritten
  · rename_i hempty
    split at hafter
    · have hlonger : step.after.run = _ := congrArg Scan.run hafter
      have hpos : step.after.pos = min (step.found.whole.start + 1) text.size := congrArg Scan.pos hafter
      rw [hlonger]
      refine TokenRun.apart_addAlone hwritten fun hvalue => ?_
      have hin := Text.slice_ne_empty_iff.mp hvalue
      have hskips : step.Skips := by
        refine ⟨decide_eq_true (Nat.not_lt.mp hempty), ?_⟩
        rw [hpos, ScanStep.place]
        omega
      refine halone hskips _ _ ?_ rfl
      rw [hlonger, TokenRun.addAlone, if_neg (by simpa using hvalue)]
    · rw [hafter]
      exact hwritten

theorem apart_steps {alone : List Token → Token → Prop} {budget : Nat} (h : s.run.Apart alone)
    (halone : ∀ step ∈ t.steps text budget s, step.Skips → ∀ rest a, step.after.run.reversed = a :: rest →
      a.kind = Token.emptyKind → alone rest a) : (s.through (t.steps text budget s)).run.Apart alone := by
  have hfrom : ∀ {earlier later : List ScanStep}, t.steps text budget s = earlier ++ later →
      (s.through earlier).run.Apart alone := by
    intro earlier later hsteps
    induction earlier using List.reverseRecOn generalizing later with
    | nil => exact h
    | append_singleton earlier step ih =>
      rw [List.append_assoc, List.singleton_append] at hsteps
      have hmem : step ∈ t.steps text budget s := by
        rw [hsteps]
        exact List.mem_append_right _ List.mem_cons_self
      rw [Scan.through_concat]
      exact apart_step ht hjoins (ih hsteps) (step?_of_steps_eq hsteps) (halone step hmem)
  exact hfrom (List.append_nil _).symm

end

/-! ## The tokens of a line -/

section
variable (t : Tokenizer) (line : String) (stack : StateStack)

/-- Behind the tokens of `front`, a match of the line has passed over a character, and this is its token. -/
def PassedOver (front : List Token) (a : Token) : Prop :=
  a.kind = Token.emptyKind ∧ ∃ step ∈ t.lineSteps line stack, step.Skips ∧ step.after.run.tokens = front ++ [a]

/-- The budget is used up, all tokens of matches are in `front`, and this token is a piece of the rest. -/
def LeftOver (front : List Token) (a : Token) : Prop :=
  a.kind = Token.overflowKind ∧ (t.lineSteps line stack).length = t.options.maxMatches ∧
    (t.lineEnd line stack).run.tokens <+: front

def StaysAlone (front : List Token) (a : Token) : Prop := t.PassedOver line stack front a ∨ t.LeftOver line stack front a

end

theorem exists_apart_lineTokens (ht : t.Sound) (hjoins : ∀ state ∈ t.states.values, ∀ rule ∈ state.rules, rule.Joins)
    (line : String) (stack : StateStack) : ∃ run : TokenRun, (t.lineTokens line stack).tokens = run.tokens ∧
      run.Apart fun rest a => t.StaysAlone line stack rest.reverse a := by
  have hend : (t.lineEnd line stack).run.Apart fun rest a => t.StaysAlone line stack rest.reverse a := by
    refine apart_steps ht hjoins TokenRun.apart_empty fun step hstep hskips rest a hrun hkind => ?_
    refine .inl ⟨hkind, step, hstep, hskips, ?_⟩
    rw [TokenRun.tokens, hrun, List.reverse_cons]
  rw [lineTokens_eq]
  dsimp only
  split
  · rename_i hlength
    refine ⟨_, rfl, ?_⟩
    unfold overflow
    split
    · refine TokenRun.apart_addAllAlone hend fun a ha rest hrest => ?_
      obtain ⟨piece, -, rfl⟩ := List.mem_map.mp ha
      exact .inr ⟨rfl, hlength, List.reverse_prefix.mpr hrest⟩
    · exact hend
  · refine ⟨_, rfl, ?_⟩
    unfold settle
    split
    · exact TokenRun.apart_add hend _ _
    · exact hend

/-- With merging switched off in each rule and for text that no rule has matched, the characters of a line have the same
kinds, one for each if searches go forward, and the stack is left the same. And if no rule has a handler, kinds for its
groups, or merging switched off, then of two tokens of one kind side by side one is a character passed over or a piece of
the rest of a line. -/
theorem merging_invisible_and_maximal {table : RuleTable} {options : ScanOptions} (ht : compile table options = .ok t) :
    (∃ t', compile table.unmerged options = .ok t' ∧ ∀ line stack,
      Token.labels (t.lineTokens line stack).tokens = Token.labels (t'.lineTokensWith false line stack).tokens ∧
        (t.lineTokens line stack).state = (t'.lineTokensWith false line stack).state ∧
        (t.SearchesForward → (Token.labels (t.lineTokens line stack).tokens).map (·.1) = line.toList)) ∧
    ((∀ r ∈ table.rules, r.Joins) → ∀ line stack front a b back,
      (t.lineTokens line stack).tokens = front ++ a :: b :: back → a.kind = b.kind →
        t.StaysAlone line stack front a ∨ t.StaysAlone line stack (front ++ [a]) b) := by
  constructor
  · refine ⟨t.unmerged, by rw [compile_unmerged, ht]; rfl, fun line stack => ?_⟩
    obtain ⟨hlabels, hstate⟩ := labels_lineTokens (t := t) line stack
    have hsound := sound_of_compile ht
    exact ⟨hlabels, hstate, fun hforward => (makeUp_lineTokens hsound hforward line stack).map_fst_labels⟩
  · intro hrules line stack front a b back htokens hkind
    obtain ⟨run, hrun, hapart⟩ := exists_apart_lineTokens (sound_of_compile ht) (joins_of_compile ht hrules) line stack
    have hreversed : run.reversed = back.reverse ++ b :: a :: front.reverse := by
      rw [hrun, TokenRun.tokens] at htokens
      rw [← List.reverse_reverse run.reversed, htokens]
      simp
    have hpair := hapart.tokens
    rw [hreversed] at hpair
    have halone := Token.apart_of_append back.reverse hpair hkind
    rwa [List.reverse_cons, List.reverse_reverse] at halone

/-- Letters one by one, and an empty match ahead of a sign. -/
def sampleLetters : RuleTable :=
  { states := Dict.ofList [
    (startState, [.rule { token := .literal "text", regex := "[a-c]" },
      .rule { token := .literal "sign", regex := "(?=!)" }])] }

/-- The letters and the digit, which no rule matches, join. The signs are passed over one by one. -/
theorem merging_letters : ∃ t t', compile sampleLetters = .ok t ∧ compile sampleLetters.unmerged = .ok t' ∧
    (∀ r ∈ sampleLetters.rules, r.Joins) ∧
    (t.lineTokens "ab1!!c" .initial).tokens = [⟨"text", "ab1"⟩, ⟨"empty", "!"⟩, ⟨"empty", "!"⟩, ⟨"text", "c"⟩] ∧
    Token.labels (t'.lineTokensWith false "ab1!!c" .initial).tokens =
      [('a', "text"), ('b', "text"), ('1', "text"), ('!', "empty"), ('!', "empty"), ('c', "text")] ∧
    (t.StaysAlone "ab1!!c" .initial [⟨"text", "ab1"⟩] ⟨"empty", "!"⟩ ∨
      t.StaysAlone "ab1!!c" .initial [⟨"text", "ab1"⟩, ⟨"empty", "!"⟩] ⟨"empty", "!"⟩) := by
  have hrules : ∀ r ∈ sampleLetters.rules, r.Joins := by decide +kernel
  obtain ⟨t, ht, htokens⟩ : ∃ t, compile sampleLetters = .ok t ∧
      (t.lineTokens "ab1!!c" .initial).tokens = [⟨"text", "ab1"⟩, ⟨"empty", "!"⟩, ⟨"empty", "!"⟩, ⟨"text", "c"⟩] :=
    ⟨_, rfl, by decide +kernel⟩
  obtain ⟨⟨t', ht', hsame⟩, hmaximal⟩ := merging_invisible_and_maximal ht
  have hlabels := (hsame "ab1!!c" .initial).1
  rw [htokens] at hlabels
  exact ⟨t, t', ht, ht', hrules, htokens, hlabels.symm, hmaximal hrules "ab1!!c" .initial [_] _ _ _ htokens rfl⟩

end Tokenizer

end Scribe
