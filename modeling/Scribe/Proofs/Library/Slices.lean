import Scribe.Proofs.Library.Built
import Scribe.Snippet.Transform

/-!
# Slices in order

A scan cuts its line, and a transform its value, at the places where a search begins and where its match is reported.
Here the slices are checked: a slice that is out of order has no text, and then there is no result. With patterns that
have no `keep` in a look-behind each slice is in order, and the result is the one without the checks.
-/

namespace Scribe

/-! ## With checks -/

namespace Text

/-- The text of a stretch that is in order and inside of the text. -/
def slice? (text : Array Char) (span : Span) : Option String :=
  if span.start ≤ span.stop ∧ span.stop ≤ text.size then some (slice text span) else none

def sliceOr? (text : Array Char) (span : Option Span) : Option String :=
  match span with
  | some span => slice? text span
  | none => some ""

end Text

def addGroups? (defaultKind : String) (text : Array Char) (stop cursor : Nat) (run : TokenRun) :
    List (String × Option Span) → Option TokenRun
  | [] => (Text.slice? text ⟨cursor, stop⟩).map (run.addAlone defaultKind)
  | (_, none) :: rest => addGroups? defaultKind text stop cursor run rest
  | (kind, some span) :: rest =>
    if span.start < cursor || span.stop ≤ span.start || stop < span.stop then
      addGroups? defaultKind text stop cursor run rest
    else do
      let before ← Text.slice? text ⟨cursor, span.start⟩
      let own ← Text.slice? text span
      addGroups? defaultKind text stop span.stop ((run.addAlone defaultKind before).addAlone kind own) rest

def emit? (rule : CompiledRule) (state : CompiledState) (text : Array Char) (m : UnionMatch)
    (stack : StateStack) (run : TokenRun) : Option (StateStack × TokenRun) := do
  let value ← Text.slice? text m.whole
  match rule.onMatch with
  | some handler =>
    let (tokens, stack) := handler value stack.current stack
    if String.join (tokens.map (·.value)) = value then return (stack, run.addAllAlone tokens)
    else return (stack, run.add state.defaultKind value rule.merge)
  | none =>
    match rule.token with
    | .literal kind => return (stack, run.add kind value rule.merge)
    | .classify f =>
      let texts ← m.spans.mapM (Text.sliceOr? text)
      return (stack, run.add (f texts) value rule.merge)
    | .groups kinds =>
      let run ← addGroups? state.defaultKind text m.whole.stop m.whole.start run (kinds.zip m.spans.tail)
      return (stack, run)

namespace Tokenizer

variable (t : Tokenizer)

def overflow? (text : Array Char) (s : Scan) : Option Scan :=
  if s.pos < text.size then do
    let rest ← Text.slice? text ⟨s.pos, text.size⟩
    return { s with
      pos := text.size
      stack := s.stack.reset
      run := s.run.addAllAlone ((chunks t.options.overflowChunk rest.toList).map fun cs =>
        ⟨Token.overflowKind, String.ofList cs⟩) }
  else return s

def afterMatch? (text : Array Char) (state : CompiledState) (s : Scan) (m : UnionMatch) : Option Scan := do
  let before ← Text.slice? text ⟨s.pos, m.whole.start⟩
  let run := s.run.add state.defaultKind before true
  match state.rules[m.rule]? with
  | none => return { s with pos := text.size, run }
  | some rule =>
    let (stack, run) ← emit? rule state text m s.stack run
    let stack := (rule.jump.map (·.apply stack)).getD stack
    if m.whole.start < m.whole.stop then return { pos := m.whole.stop, stack, run, stalled := 0 }
    else if stack = s.stack ∨ t.states.entries.length < s.stalled + 1 then
      let next := min (m.whole.start + 1) text.size
      let skipped ← Text.slice? text ⟨m.whole.start, next⟩
      return { pos := next, stack, stalled := 0, run := run.addAlone Token.emptyKind skipped }
    else return { pos := m.whole.start, stack, run, stalled := s.stalled + 1 }

def scan? (text : Array Char) : Nat → Scan → Option Scan
  | 0, s => t.overflow? text s
  | budget + 1, s =>
    if s.pos < text.size then do
      let (state, stack) := t.currentState s.stack
      let s := { s with stack }
      match state.patterns.find? text s.pos with
      | none =>
        let rest ← Text.slice? text ⟨s.pos, text.size⟩
        return { s with pos := text.size, run := s.run.add state.defaultKind rest true }
      | some m => scan? text budget (← t.afterMatch? text state s m)
    else return s

def lineTokens? (line : String) (stack : StateStack) : Option LineTokens :=
  (t.scan? (Text.chars line) t.options.maxMatches { stack }).map fun s => ⟨s.run.tokens, s.stack⟩

end Tokenizer

namespace Transform

def rewriteFrom? (t : Transform) (p : Pattern) (lookup : String → String) (value : Array Char) :
    Nat → Nat → CaseState → Option (List Char)
  | 0, pos, _ => (Text.slice? value ⟨pos, value.size⟩).map String.toList
  | rounds + 1, pos, s =>
    match p.find? value pos with
    | none => (Text.slice? value ⟨pos, value.size⟩).map String.toList
    | some m => do
      let before ← Text.slice? value ⟨pos, m.whole.start⟩
      let groups ← m.spans.mapM (Text.sliceOr? value)
      let (out, s) := FormatToken.renderAll ⟨groups, lookup⟩ s t.format
      let (kept, next) :=
        if m.whole.start < m.whole.stop then ([], m.whole.stop)
        else match value[m.whole.start]? with
          | some c => ([c], m.whole.start + 1)
          | none => ([], value.size)
      let atEnd := m.whole.stop ≤ m.whole.start && value.size ≤ m.whole.start
      let rest ←
        if atEnd || !t.isGlobal then (Text.slice? value ⟨next, value.size⟩).map String.toList
        else rewriteFrom? t p lookup value rounds next s
      return before.toList ++ out ++ kept ++ rest

def applied? (t : Transform) (lookup : String → String) (value : String) : Option String :=
  match t.pattern? with
  | none => some value
  | some p =>
    let chars := Text.chars value
    (t.rewriteFrom? p lookup chars (chars.size + 2) 0 {}).map String.ofList

end Transform

/-! ## Slices of matches -/

variable {text : Array Char}

namespace Text

@[simp] theorem slice?_of_in {span : Span} (h : span.In text) : slice? text span = some (slice text span) := if_pos h

theorem mapM_sliceOr? : ∀ {spans : List (Option Span)}, (∀ span, some span ∈ spans → span.In text) →
    spans.mapM (sliceOr? text) = some (spans.map (sliceOr text))
  | [], _ => rfl
  | none :: spans, h => by
    have hrest := mapM_sliceOr? fun span hs => h span (List.mem_cons_of_mem _ hs)
    simp [List.mapM_cons, sliceOr?, sliceOr, hrest]
  | some span :: spans, h => by
    have hrest := mapM_sliceOr? fun span hs => h span (List.mem_cons_of_mem _ hs)
    have hfirst := h span List.mem_cons_self
    simp [List.mapM_cons, sliceOr?, sliceOr, hrest, hfirst]

end Text

/-- The match of a union and its groups lie in the text. -/
theorem PatternUnion.find?_in {u : PatternUnion} {start : Nat} {m : UnionMatch} (h : u.find? text start = some m) :
    m.whole.In text ∧ ∀ span, some span ∈ m.spans → span.In text := by
  simp only [find?, Option.bind_eq_bind, Option.bind_eq_some_iff, pure, Option.some.injEq] at h
  obtain ⟨p, -, m', hm', ⟨rule, slot⟩, -, rfl⟩ := h
  have hin := Pattern.find?_in hm'
  refine ⟨hin _ List.mem_cons_self, fun span hspan => hin span ?_⟩
  exact List.mem_of_mem_drop (List.mem_of_mem_take hspan)

/-! ## Scans -/

theorem addGroups?_eq (kind : String) {stop : Nat} (hstop : stop ≤ text.size) :
    ∀ (groups : List (String × Option Span)) {cursor : Nat} (run : TokenRun), cursor ≤ stop →
      addGroups? kind text stop cursor run groups = some (addGroups kind text stop cursor run groups) := by
  intro groups
  induction groups with
  | nil =>
    intro cursor run hcursor
    have hin : Span.In text ⟨cursor, stop⟩ := ⟨hcursor, hstop⟩
    simp [addGroups?, addGroups, hin]
  | cons g rest ih =>
    obtain ⟨name, _ | span⟩ := g
    · intro cursor run hcursor
      exact ih run hcursor
    · intro cursor run hcursor
      rw [addGroups?, addGroups]
      by_cases hskip : (span.start < cursor || span.stop ≤ span.start || stop < span.stop) = true
      · rw [if_pos hskip, if_pos hskip]
        exact ih run hcursor
      · rw [if_neg hskip, if_neg hskip]
        simp only [Bool.or_eq_true, decide_eq_true_eq, not_or, Nat.not_lt, Nat.not_le] at hskip
        obtain ⟨⟨hbefore, hlt⟩, hend⟩ := hskip
        have hspan : span.In text := ⟨Nat.le_of_lt hlt, Nat.le_trans hend hstop⟩
        have hgap : Span.In text ⟨cursor, span.start⟩ := ⟨hbefore, Nat.le_trans hspan.1 hspan.2⟩
        simp only [Text.slice?_of_in hgap, Text.slice?_of_in hspan, Option.bind_eq_bind, Option.bind_some]
        exact ih _ hend

theorem emit?_eq (rule : CompiledRule) (state : CompiledState) {m : UnionMatch} (hwhole : m.whole.In text)
    (hspans : ∀ span, some span ∈ m.spans → span.In text) (stack : StateStack) (run : TokenRun) :
    emit? rule state text m stack run = some (emit rule state text m stack run) := by
  unfold emit? emit
  rw [Text.slice?_of_in hwhole, Option.bind_eq_bind, Option.bind_some]
  cases rule.onMatch with
  | some handler =>
    dsimp only
    split <;> rfl
  | none =>
    cases rule.token with
    | literal kind => rfl
    | classify f =>
      dsimp only
      rw [Text.mapM_sliceOr? hspans]
      rfl
    | groups kinds =>
      dsimp only
      rw [addGroups?_eq state.defaultKind hwhole.2 _ run hwhole.1]
      rfl

namespace Tokenizer

variable {t : Tokenizer}

theorem overflow?_eq (s : Scan) (hs : s.pos ≤ text.size) : t.overflow? text s = some (t.overflow text s) := by
  have hrest : Span.In text ⟨s.pos, text.size⟩ := ⟨hs, Nat.le_refl _⟩
  unfold overflow? overflow
  split
  · simp [hrest, Text.slice]
  · rfl

theorem afterMatch?_eq (state : CompiledState) {s : Scan} {m : UnionMatch} (hstart : s.pos ≤ m.whole.start)
    (hwhole : m.whole.In text) (hspans : ∀ span, some span ∈ m.spans → span.In text) :
    t.afterMatch? text state s m = some (t.afterMatch text state s m) := by
  have hin := Nat.le_trans hwhole.1 hwhole.2
  have hbefore : Span.In text ⟨s.pos, m.whole.start⟩ := ⟨hstart, hin⟩
  have hskipped : Span.In text ⟨m.whole.start, min (m.whole.start + 1) text.size⟩ :=
    ⟨Nat.le_min.mpr ⟨Nat.le_succ _, hin⟩, Nat.min_le_right _ _⟩
  unfold afterMatch? afterMatch
  rw [Text.slice?_of_in hbefore, Option.bind_eq_bind, Option.bind_some]
  cases state.rules[m.rule]? with
  | none => rfl
  | some rule =>
    dsimp only
    simp only [emit?_eq rule state hwhole hspans, Option.bind_eq_bind, Option.bind_some, Text.slice?_of_in hskipped]
    split
    · rfl
    · split <;> rfl

theorem pos_afterMatch_le {state : CompiledState} {s : Scan} {m : UnionMatch} (h : m.whole.In text) :
    (t.afterMatch text state s m).pos ≤ text.size := by
  obtain ⟨hle, hin⟩ := h
  unfold afterMatch
  dsimp only
  split
  · exact Nat.le_refl _
  · split
    · exact hin
    · split
      · exact Nat.min_le_right _ _
      · exact Nat.le_trans hle hin

/-- A search of some state that reports a match in front of the place where it began. -/
def FindsBehind (t : Tokenizer) (text : Array Char) : Prop :=
  ∃ stack pos m, (t.currentState stack).1.patterns.find? text pos = some m ∧ m.whole.start < pos

/-- Nothing but such a search can put a slice out of order. -/
theorem scan?_eq_or : ∀ (budget : Nat) {s : Scan}, s.pos ≤ text.size →
    t.scan? text budget s = some (t.scan text budget s) ∨ t.FindsBehind text
  | 0, s, hs => .inl (overflow?_eq s hs)
  | budget + 1, s, hs => by
    rw [scan?, scan]
    by_cases hlt : s.pos < text.size
    · simp only [if_pos hlt]
      cases hm : (t.currentState s.stack).1.patterns.find? text s.pos with
      | none =>
        have hrest : Span.In text ⟨s.pos, text.size⟩ := ⟨hs, Nat.le_refl _⟩
        exact .inl (by simp [hrest])
      | some m =>
        obtain ⟨hwhole, hspans⟩ := PatternUnion.find?_in hm
        by_cases hstart : s.pos ≤ m.whole.start
        · have hafter := afterMatch?_eq (t := t) (t.currentState s.stack).1
            (s := { s with stack := (t.currentState s.stack).2 }) hstart hwhole hspans
          dsimp only
          rw [hafter, Option.bind_eq_bind, Option.bind_some]
          exact scan?_eq_or budget (pos_afterMatch_le hwhole)
        · exact .inr ⟨s.stack, s.pos, m, hm, Nat.lt_of_not_le hstart⟩
    · rw [if_neg hlt, if_neg hlt]
      exact .inl rfl

theorem lineTokens?_eq_or (t : Tokenizer) (line : String) (stack : StateStack) :
    t.lineTokens? line stack = some (t.lineTokens line stack) ∨ t.FindsBehind (Text.chars line) := by
  apply (scan?_eq_or (t := t) t.options.maxMatches (s := { stack }) (Nat.zero_le _)).imp_left
  intro hscan
  rw [lineTokens?, hscan]
  rfl

theorem lineTokens?_eq (ht : t.Sound) (hf : t.SearchesForward) (line : String) (stack : StateStack) :
    t.lineTokens? line stack = some (t.lineTokens line stack) := by
  apply (t.lineTokens?_eq_or line stack).resolve_right
  rintro ⟨stack', pos, m, hm, hlt⟩
  exact Nat.not_le_of_lt hlt (hf _ (currentState_mem ht stack') _ pos m hm)

end Tokenizer

/-! ## Transforms -/

namespace Transform

variable {t : Transform} {p : Pattern} {value : Array Char}

theorem rewriteFrom?_eq (lookup : String → String) (hkeep : t.isGlobal = true → p.tree.keepsBehind = false) :
    ∀ (rounds : Nat) {pos : Nat} (s : CaseState), pos ≤ value.size → (t.isGlobal = true ∨ pos = 0) →
      t.rewriteFrom? p lookup value rounds pos s = some (t.rewriteFrom p lookup value rounds pos s)
  | 0, pos, s, hpos, _ => by
    have hrest : Span.In value ⟨pos, value.size⟩ := ⟨hpos, Nat.le_refl _⟩
    simp [rewriteFrom?, rewriteFrom, hrest, Text.slice]
  | rounds + 1, pos, s, hpos, hfirst => by
    rw [rewriteFrom?, rewriteFrom]
    cases hm : p.find? value pos with
    | none =>
      have hrest : Span.In value ⟨pos, value.size⟩ := ⟨hpos, Nat.le_refl _⟩
      simp [hrest, Text.slice]
    | some m =>
      obtain ⟨hle, hin⟩ := Pattern.find?_bounds hm
      have hstart : pos ≤ m.whole.start := by
        rcases hfirst with hglobal | rfl
        · exact Pattern.le_start_of_find? (hkeep hglobal) hm
        · exact Nat.zero_le _
      have hbefore : Span.In value ⟨pos, m.whole.start⟩ := ⟨hstart, Nat.le_trans hle hin⟩
      dsimp only
      rw [Text.slice?_of_in hbefore, Text.mapM_sliceOr? (Pattern.find?_in hm)]
      simp only [Option.bind_eq_bind, Option.bind_some]
      generalize hnext : (if m.whole.start < m.whole.stop then (([] : List Char), m.whole.stop)
        else match value[m.whole.start]? with
          | some c => ([c], m.whole.start + 1)
          | none => ([], value.size)) = next
      have hle' : next.2 ≤ value.size := by
        rw [← hnext]
        split
        · exact hin
        · split
          · exact Pattern.lt_of_getElem? ‹_›
          · exact Nat.le_refl _
      have hrest : Span.In value ⟨next.2, value.size⟩ := ⟨hle', Nat.le_refl _⟩
      split
      · simp [hrest, Text.slice]
      · rename_i hmore
        have hglobal : t.isGlobal = true := by
          simp only [Bool.or_eq_true, Bool.not_eq_true', not_or, Bool.not_eq_false] at hmore
          exact hmore.2
        rw [rewriteFrom?_eq lookup hkeep rounds _ hle' (.inl hglobal)]
        simp [Text.slice]

theorem applied?_eq (hp : t.pattern? = some p) (hkeep : t.isGlobal = true → p.tree.keepsBehind = false)
    (lookup : String → String) (value : String) : t.applied? lookup value = some (t.apply lookup value) := by
  simp only [applied?, apply, hp]
  rw [rewriteFrom?_eq lookup hkeep _ _ (Nat.zero_le _) (.inr rfl)]
  rfl

end Transform

/-! ## All slices -/

/-- Whatever the pattern, a match and its groups lie in the text, and unless there is a `keep` in a look-behind the match
does not start in front of the place where its search began. A scan then has a result for every line and stack, and a
transform for every value; one that replaces a single match needs no condition. -/
theorem slices_in_order {table : RuleTable} {options : ScanOptions} {t : Tokenizer} {transform : Transform}
    {guard : Pattern} (ht : Tokenizer.compile table options = .ok t) (hguard : transform.pattern? = some guard) :
    (∀ (p : Pattern) (text : Array Char) (start : Nat) (m : Match), p.find? text start = some m →
      (∀ span, some span ∈ m.spans → span.In text) ∧ (p.tree.keepsBehind = false → start ≤ m.whole.start)) ∧
    ((∀ state ∈ t.states.values, ∀ p ∈ state.patterns.joined, p.tree.keepsBehind = false) →
      ∀ (line : String) (stack : StateStack), t.lineTokens? line stack = some (t.lineTokens line stack)) ∧
    (∀ (line : String) (stack : StateStack),
      t.lineTokens? line stack = some (t.lineTokens line stack) ∨ t.FindsBehind (Text.chars line)) ∧
    ((transform.isGlobal = true → guard.tree.keepsBehind = false) →
      ∀ (lookup : String → String) (value : String),
        transform.applied? lookup value = some (transform.apply lookup value)) := by
  refine ⟨fun p text start m hm => ⟨Pattern.find?_in hm, fun hkeep => Pattern.le_start_of_find? hkeep hm⟩, ?_,
    t.lineTokens?_eq_or, fun hkeep => Transform.applied?_eq hguard hkeep⟩
  intro hkeep
  exact Tokenizer.lineTokens?_eq (Tokenizer.sound_of_compile ht) (Tokenizer.searchesForward_of_keepsBehind hkeep)

/-- A `keep` behind a look-behind and one in a negated look-behind. -/
theorem slices_in_order_kept :
    let table : RuleTable := { states := Dict.ofList [(startState, [
      .rule { token := .literal "last", regex := "(?<=a)b\\Kc" },
      .rule { token := .groups ["one", "two"], regex := "([a-z])([0-9]?)(?<!\\K[0-9])" }])] }
    let transform : Transform := { guard := "(?<=[a-z])\\K[0-9]", format := [.text "-"], flags := "g" }
    ∃ t p, Tokenizer.compile table = .ok t ∧ transform.pattern? = some p ∧
      (∀ line stack, t.lineTokens? line stack = some (t.lineTokens line stack)) ∧
      (∀ lookup value, transform.applied? lookup value = some (transform.apply lookup value)) ∧
      (t.lineTokens? "abcd" .initial).map (·.tokens.map (·.value)) = some ["a", "b", "c", "d"] ∧
      transform.applied? id "a1b22" = some "a-b-2" := by
  intro table transform
  obtain ⟨t, ht, hkeep, htokens⟩ : ∃ t, Tokenizer.compile table = .ok t ∧
      (∀ state ∈ t.states.values, ∀ p ∈ state.patterns.joined, p.tree.keepsBehind = false) ∧
      (t.lineTokens? "abcd" .initial).map (·.tokens.map (·.value)) = some ["a", "b", "c", "d"] :=
    ⟨_, rfl, by decide +kernel, by decide +kernel⟩
  obtain ⟨p, hp⟩ : ∃ p, transform.pattern? = some p := Option.isSome_iff_exists.mp (by decide +kernel)
  have hkeep' : ∀ p ∈ transform.pattern?, p.tree.keepsBehind = false := by decide +kernel
  obtain ⟨-, hscan, -, htransform⟩ := slices_in_order ht hp
  exact ⟨t, p, ht, hp, hscan hkeep, htransform fun _ => hkeep' p hp, htokens, by decide +kernel⟩

/-- A `keep` in a look-behind reports a match that starts in front of its search, and the slice up to it has no text. -/
theorem slices_out_of_order :
    let table : RuleTable := { states := Dict.ofList [(startState, [
      .rule { token := .literal "second", regex := "(?<=\\Ka)b" }, .rule { token := .literal "first", regex := "a" }])] }
    let transform : Transform := { guard := "(?<=\\Ka)b|a", format := [], flags := "g" }
    (∃ p, Pattern.compile "(?<=\\Ka)b" = .ok p ∧ (p.find? (Text.chars "ab") 1).map (·.whole) = some ⟨0, 2⟩) ∧
      (∃ t, Tokenizer.compile table = .ok t ∧ t.lineTokens? "ab" .initial = none) ∧
      transform.pattern?.isSome = true ∧ transform.applied? id "ab" = none := by
  intro table transform
  exact ⟨⟨_, rfl, by decide +kernel⟩, ⟨_, rfl, by decide +kernel⟩, by decide +kernel, by decide +kernel⟩

end Scribe
