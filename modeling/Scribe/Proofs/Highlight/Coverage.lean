import Scribe.Highlight.Scan
import Scribe.Proofs.Pattern.Bounds

/-!
# Tokens cover the line

Every step of a scan writes the text between the place where it stood and the place where it stands
then, and nothing else. So the tokens of a line make up the line.
-/

namespace Scribe

/-- The tokens are not empty, and side by side they are the text. -/
def Token.MakeUp (tokens : List Token) (text : String) : Prop :=
  (∀ t ∈ tokens, t.value ≠ "") ∧ String.join (tokens.map (·.value)) = text

namespace Token

/-- Each character with the kind of the token that covers it. -/
def labels (tokens : List Token) : List (Char × String) := tokens.flatMap fun t => t.value.toList.map (·, t.kind)

@[simp] theorem labels_nil : labels [] = [] := rfl

@[simp] theorem labels_cons (t : Token) (tokens : List Token) :
    labels (t :: tokens) = t.value.toList.map (·, t.kind) ++ labels tokens := rfl

@[simp] theorem labels_append (tokens more : List Token) : labels (tokens ++ more) = labels tokens ++ labels more :=
  List.flatMap_append

theorem map_fst_labels (tokens : List Token) : (labels tokens).map (·.1) = tokens.flatMap (·.value.toList) := by
  simp only [labels, List.map_flatMap, List.map_map, Function.comp_def, List.map_id']

theorem MakeUp.map_fst_labels {tokens : List Token} {text : String} (h : MakeUp tokens text) :
    (labels tokens).map (·.1) = text.toList := by
  rw [Token.map_fst_labels, ← h.2, String.toList_join, List.flatMap_map]

end Token

/-! ## Slices -/

namespace Text

theorem toList_slice (text : Array Char) (a b : Nat) :
    (slice text ⟨a, b⟩).toList = (text.toList.take b).drop a := by
  simp [slice, List.extract_eq_take_drop, List.drop_take]

theorem take_append_between (text : List Char) {a b : Nat} (h : a ≤ b) :
    text.take a ++ (text.take b).drop a = text.take b := by
  have : text.take a = (text.take b).take a := by rw [List.take_take, Nat.min_eq_left h]
  rw [this, List.take_append_drop]

theorem take_append_slice (text : Array Char) {a b : Nat} (h : a ≤ b) :
    text.toList.take a ++ (slice text ⟨a, b⟩).toList = text.toList.take b := by
  rw [toList_slice, take_append_between _ h]

theorem slice_append_slice (text : Array Char) {a b c : Nat} (hab : a ≤ b) (hbc : b ≤ c) :
    (slice text ⟨a, b⟩).toList ++ (slice text ⟨b, c⟩).toList = (slice text ⟨a, c⟩).toList := by
  have h₁ := take_append_slice text hab
  have h₂ := take_append_slice text hbc
  have h₃ := take_append_slice text (Nat.le_trans hab hbc)
  rw [← h₁, List.append_assoc] at h₂
  exact List.append_cancel_left (h₂.trans h₃.symm)

end Text

/-! ## Runs of tokens -/

namespace TokenRun

/-- The text that the tokens make up so far. -/
def text (run : TokenRun) : List Char := run.tokens.flatMap (·.value.toList)

/-- No token so far is empty. -/
def Solid (run : TokenRun) : Prop := ∀ t ∈ run.reversed, t.value ≠ ""

def labels (run : TokenRun) : List (Char × String) := Token.labels run.tokens

theorem map_fst_labels (run : TokenRun) : run.labels.map (·.1) = run.text := Token.map_fst_labels run.tokens

theorem add_empty (run : TokenRun) (kind : String) (merge : Bool) : run.add kind "" merge = run := rfl

/-- A text gets its kind, whether it joins the last token or not. -/
theorem labels_add (run : TokenRun) (kind value : String) (merge : Bool) :
    (run.add kind value merge).labels = run.labels ++ value.toList.map (·, kind) := by
  obtain ⟨reversed, extensible⟩ := run
  unfold add
  split
  · rename_i hvalue
    simp [String.isEmpty_iff.mp hvalue]
  · cases reversed with
    | nil => simp [labels, tokens]
    | cons last rest =>
      dsimp only
      split
      · rename_i hjoins
        simp only [Bool.and_eq_true, beq_iff_eq] at hjoins
        simp [labels, tokens, hjoins.2]
      · simp [labels, tokens]

theorem labels_addAlone (run : TokenRun) (kind value : String) :
    (run.addAlone kind value).labels = run.labels ++ value.toList.map (·, kind) := by
  unfold addAlone
  split
  · rename_i hvalue
    simp [String.isEmpty_iff.mp hvalue]
  · simp [labels, tokens]

theorem labels_addAllAlone : ∀ (tokens : List Token) (run : TokenRun),
    (run.addAllAlone tokens).labels = run.labels ++ Token.labels tokens
  | [], run => by simp [addAllAlone]
  | t :: tokens, run => by
    have hrest := labels_addAllAlone tokens (run.addAlone t.kind t.value)
    rw [labels_addAlone, List.append_assoc] at hrest
    exact hrest

theorem map_fst_label (value kind : String) : (value.toList.map (·, kind)).map (·.1) = value.toList := by
  simp only [List.map_map, Function.comp_def, List.map_id']

theorem text_add (run : TokenRun) (kind value : String) (merge : Bool) :
    (run.add kind value merge).text = run.text ++ value.toList := by
  rw [← map_fst_labels, labels_add, List.map_append, map_fst_labels, map_fst_label]

theorem solid_add {run : TokenRun} (h : run.Solid) (kind value : String) (merge : Bool) :
    (run.add kind value merge).Solid := by
  obtain ⟨reversed, extensible⟩ := run
  unfold add
  split
  · exact h
  · rename_i hv
    have hv : value ≠ "" := fun e => hv (String.isEmpty_iff.mpr e)
    cases reversed with
    | nil => simpa [Solid] using hv
    | cons last rest =>
      have hl := h last (by simp)
      dsimp only
      split
      · intro t ht
        rcases List.mem_cons.mp ht with rfl | ht
        · intro e
          have := congrArg String.toList e
          simp only [String.toList_append, String.toList_empty, List.append_eq_nil_iff,
            String.toList_eq_nil_iff] at this
          exact hl this.1
        · exact h t (by simp [ht])
      · intro t ht
        rcases List.mem_cons.mp ht with rfl | ht
        · exact hv
        · exact h t ht

theorem text_addAlone (run : TokenRun) (kind value : String) :
    (run.addAlone kind value).text = run.text ++ value.toList := by
  rw [← map_fst_labels, labels_addAlone, List.map_append, map_fst_labels, map_fst_label]

theorem solid_addAlone {run : TokenRun} (h : run.Solid) (kind value : String) :
    (run.addAlone kind value).Solid := by
  unfold addAlone
  split
  · exact h
  · rename_i hv
    intro t ht
    rcases List.mem_cons.mp ht with rfl | ht
    · exact fun e => hv (String.isEmpty_iff.mpr e)
    · exact h t ht

theorem text_addAllAlone (tokens : List Token) (run : TokenRun) :
    (run.addAllAlone tokens).text = run.text ++ tokens.flatMap (·.value.toList) := by
  rw [← map_fst_labels, labels_addAllAlone, List.map_append, map_fst_labels, Token.map_fst_labels]

theorem solid_addAllAlone : ∀ (tokens : List Token) {run : TokenRun}, run.Solid →
    (run.addAllAlone tokens).Solid
  | [], _, h => h
  | t :: tokens, _, h => solid_addAllAlone tokens (solid_addAlone h t.kind t.value)

theorem makeUp_tokens {run : TokenRun} (h : run.Solid) : Token.MakeUp run.tokens (String.ofList run.text) := by
  refine ⟨fun t ht => h t (List.mem_reverse.mp ht), String.toList_injective ?_⟩
  rw [String.toList_join, String.toList_ofList, List.flatMap_map]
  rfl

end TokenRun

/-! ## The tokens of a match -/

theorem text_addGroups (kind : String) (text : Array Char) {stop : Nat} :
    ∀ (groups : List (String × Option Span)) {cursor : Nat} (run : TokenRun), cursor ≤ stop →
      (addGroups kind text stop cursor run groups).text = run.text ++ (Text.slice text ⟨cursor, stop⟩).toList
  | [], cursor, run, _ => TokenRun.text_addAlone ..
  | (_, none) :: rest, cursor, run, h => text_addGroups kind text rest run h
  | (name, some span) :: rest, cursor, run, h => by
    simp only [addGroups]
    split
    · exact text_addGroups kind text rest run h
    · rename_i hspan
      simp only [Bool.or_eq_true, decide_eq_true_eq, not_or, Nat.not_lt, Nat.not_le] at hspan
      obtain ⟨⟨h₁, h₂⟩, h₃⟩ := hspan
      rw [text_addGroups kind text rest _ h₃, TokenRun.text_addAlone, TokenRun.text_addAlone]
      rw [List.append_assoc, List.append_assoc, ← List.append_assoc (Text.slice text _).toList]
      rw [Text.slice_append_slice text h₁ (Nat.le_of_lt h₂)]
      rw [Text.slice_append_slice text (Nat.le_trans h₁ (Nat.le_of_lt h₂)) h₃]

theorem solid_addGroups (kind : String) (text : Array Char) (stop : Nat) :
    ∀ (groups : List (String × Option Span)) (cursor : Nat) {run : TokenRun}, run.Solid →
      (addGroups kind text stop cursor run groups).Solid
  | [], _, _, h => TokenRun.solid_addAlone h _ _
  | (_, none) :: rest, cursor, _, h => solid_addGroups kind text stop rest cursor h
  | (name, some span) :: rest, cursor, _, h => by
    simp only [addGroups]
    split
    · exact solid_addGroups kind text stop rest cursor h
    · exact solid_addGroups kind text stop rest _ (TokenRun.solid_addAlone (TokenRun.solid_addAlone h _ _) _ _)

/-- Whatever the handler answers, the text of the match is written. -/
theorem text_emit (rule : CompiledRule) (state : CompiledState) (text : Array Char) (m : UnionMatch)
    (stack : StateStack) (run : TokenRun) (h : m.whole.start ≤ m.whole.stop) :
    (emit rule state text m stack run).2.text = run.text ++ (Text.slice text m.whole).toList := by
  unfold emit
  cases rule.onMatch with
  | some handler =>
    dsimp only
    split
    · rename_i hjoin
      have := congrArg String.toList hjoin
      rw [String.toList_join, List.flatMap_map] at this
      rw [TokenRun.text_addAllAlone, this]
    · exact TokenRun.text_add ..
  | none =>
    cases rule.token with
    | literal kind => exact TokenRun.text_add ..
    | classify f => exact TokenRun.text_add ..
    | groups kinds => exact text_addGroups _ text _ run h

theorem solid_emit (rule : CompiledRule) (state : CompiledState) (text : Array Char) (m : UnionMatch)
    (stack : StateStack) {run : TokenRun} (h : run.Solid) : (emit rule state text m stack run).2.Solid := by
  unfold emit
  cases rule.onMatch with
  | some handler =>
    dsimp only
    split
    · exact TokenRun.solid_addAllAlone _ h
    · exact TokenRun.solid_add h _ _ _
  | none =>
    cases rule.token with
    | literal kind => exact TokenRun.solid_add h _ _ _
    | classify f => exact TokenRun.solid_add h _ _ _
    | groups kinds => exact solid_addGroups _ text _ _ _ h

theorem flatten_chunks (n : Nat) (text : List Char) : (chunks n text).flatten = text := by
  fun_induction chunks n text with
  | case1 => rfl
  | case2 => simp
  | case3 text h ih => rw [List.flatten_cons, ih, List.take_append_drop]

/-! ## Scans -/

/-- The tokens so far make up the text before the place where the scan stands. -/
structure Scan.Covers (text : Array Char) (s : Scan) : Prop where
  inside : s.pos ≤ text.size
  text_eq : s.run.text = text.toList.take s.pos
  solid : s.run.Solid

namespace Tokenizer

variable {t : Tokenizer} {text : Array Char}

/-- What the regular expressions are relied on for: a search finds nothing before the place where it
begins. -/
def SearchesForward (t : Tokenizer) : Prop :=
  ∀ state ∈ t.states.values, ∀ (text : Array Char) (start : Nat) (m : UnionMatch),
    state.patterns.find? text start = some m → start ≤ m.whole.start

/-- Each pattern has its rule. -/
structure Sound (t : Tokenizer) : Prop where
  start_mem : t.start ∈ t.states.values
  rules_size : ∀ state ∈ t.states.values, state.rules.size = state.patterns.slots.length

theorem overflow_covers {s : Scan} (h : s.Covers text) :
    (t.overflow text s).Covers text ∧ (t.overflow text s).pos = text.size := by
  unfold overflow
  split
  · refine ⟨⟨Nat.le_refl _, ?_, TokenRun.solid_addAllAlone _ h.solid⟩, rfl⟩
    rw [TokenRun.text_addAllAlone, h.text_eq, List.flatMap_map]
    simp only [String.toList_ofList, List.flatMap_id', flatten_chunks]
    have := Text.take_append_slice text h.inside
    rwa [Text.slice, String.toList_ofList] at this
  · rename_i hpos
    exact ⟨h, Nat.le_antisymm h.inside (Nat.le_of_not_lt hpos)⟩

theorem afterMatch_covers {s : Scan} (h : s.Covers text) {state : CompiledState} {m : UnionMatch}
    (hrule : m.rule < state.rules.size) (hstart : s.pos ≤ m.whole.start)
    (hstop : m.whole.start ≤ m.whole.stop) (hin : m.whole.stop ≤ text.size) :
    (t.afterMatch text state s m).Covers text := by
  have hbefore : (s.run.add state.defaultKind (Text.slice text ⟨s.pos, m.whole.start⟩) true).text =
      text.toList.take m.whole.start := by
    rw [TokenRun.text_add, h.text_eq, Text.take_append_slice text hstart]
  have hemit (rule : CompiledRule) : (emit rule state text m s.stack
      (s.run.add state.defaultKind (Text.slice text ⟨s.pos, m.whole.start⟩) true)).2.text =
      text.toList.take m.whole.stop := by
    rw [text_emit _ _ _ _ _ _ hstop, hbefore, Text.take_append_slice text hstop]
  unfold afterMatch
  rw [Array.getElem?_eq_getElem hrule]
  dsimp only
  have hsolid := solid_emit state.rules[m.rule] state text m s.stack
    (TokenRun.solid_add h.solid state.defaultKind (Text.slice text ⟨s.pos, m.whole.start⟩) true)
  split
  · exact ⟨hin, hemit _, hsolid⟩
  · rename_i hempty
    have heq : m.whole.stop = m.whole.start := Nat.le_antisymm (Nat.le_of_not_lt hempty) hstop
    split
    · refine ⟨Nat.min_le_right _ _, ?_, TokenRun.solid_addAlone hsolid _ _⟩
      rw [TokenRun.text_addAlone, hemit, heq]
      exact Text.take_append_slice text (Nat.le_min.mpr ⟨Nat.le_succ _, Nat.le_trans hstop hin⟩)
    · exact ⟨Nat.le_trans hstop hin, (hemit _).trans (by rw [heq]), hsolid⟩

theorem currentState_mem (ht : t.Sound) (stack : StateStack) :
    (t.currentState stack).1 ∈ t.states.values := by
  unfold currentState
  split
  · rename_i state hs
    simp only [Dict.get?, Option.map_eq_some_iff] at hs
    obtain ⟨e, he, rfl⟩ := hs
    exact List.mem_map_of_mem (List.mem_of_find?_eq_some he)
  · exact ht.start_mem

theorem scan_covers (ht : t.Sound) (hf : t.SearchesForward) : ∀ (budget : Nat) {s : Scan}, s.Covers text →
    (t.scan text budget s).Covers text ∧ (t.scan text budget s).pos = text.size
  | 0, _, h => overflow_covers h
  | budget + 1, s, h => by
    simp only [scan]
    split
    · have hmem := currentState_mem ht s.stack
      split
      · refine ⟨⟨Nat.le_refl _, ?_, TokenRun.solid_add h.solid _ _ _⟩, rfl⟩
        dsimp only
        rw [TokenRun.text_add, h.text_eq]
        exact Text.take_append_slice text h.inside
      · rename_i m hm
        obtain ⟨hrule, p, m', -, hp, hwhole⟩ := PatternUnion.find?_eq_some hm
        have hb := Pattern.find?_bounds hp
        rw [← hwhole] at hb
        have hs : Scan.Covers text { s with stack := (t.currentState s.stack).2 } :=
          ⟨h.inside, h.text_eq, h.solid⟩
        refine scan_covers ht hf budget (afterMatch_covers hs ?_ ?_ hb.1 hb.2)
        · rwa [ht.rules_size _ hmem]
        · exact hf _ hmem _ _ _ hm
    · rename_i hpos
      exact ⟨h, Nat.le_antisymm h.inside (Nat.le_of_not_lt hpos)⟩

theorem makeUp_lineTokens (ht : t.Sound) (hf : t.SearchesForward) (line : String) (stack : StateStack) :
    Token.MakeUp (t.lineTokens line stack).tokens line := by
  have hstart : (Scan.Covers (Text.chars line) { stack }) :=
    ⟨Nat.zero_le _, by simp [TokenRun.text, TokenRun.tokens], by simp [TokenRun.Solid]⟩
  obtain ⟨h, hpos⟩ := scan_covers ht hf t.options.maxMatches hstart
  have := TokenRun.makeUp_tokens h.solid
  rw [h.text_eq, hpos] at this
  have hline : String.ofList ((Text.chars line).toList.take (Text.chars line).size) = line := by
    simp [Text.chars]
  rwa [hline] at this

end Tokenizer

end Scribe
