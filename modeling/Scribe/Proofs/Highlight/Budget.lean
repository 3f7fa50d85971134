import Scribe.Proofs.Highlight.Compiling
import Scribe.Proofs.Highlight.Coverage
import Scribe.Proofs.Highlight.Steps

/-!
# The budget of matches

A line whose budget is used up before its end has the tokens made so far, then the rest in plain pieces of one length, and
leaves nothing open. Any other line is what it is with a larger budget.
-/

namespace Scribe

/-! ## Pieces -/

theorem chunks_of_ne {n : Nat} (hn : 0 < n) {text : List Char} (h : text ≠ []) :
    chunks n text = text.take n :: chunks n (text.drop n) := by
  rw [chunks, dif_neg]
  rintro (h0 | h0)
  · omega
  · exact h h0

theorem chunks_nil (n : Nat) : chunks n [] = [] := by simp [chunks]

theorem ne_nil_of_mem_chunks {n : Nat} {text piece : List Char} (h : piece ∈ chunks n text) : piece ≠ [] := by
  fun_induction chunks n text with
  | case1 => cases h
  | case2 text _ hne =>
    obtain rfl := List.mem_singleton.mp h
    exact hne
  | case3 text hn ih =>
    rcases List.mem_cons.mp h with rfl | h
    · rw [not_or] at hn
      simp [hn]
    · exact ih h

/-- All pieces but the last are full. -/
theorem length_of_mem_chunks {n : Nat} (hn : 0 < n) (text : List Char) :
    (∀ piece ∈ (chunks n text).dropLast, piece.length = n) ∧
      ∀ piece ∈ (chunks n text).getLast?, 1 ≤ piece.length ∧ piece.length ≤ n := by
  by_cases hempty : text = []
  · subst hempty
    simp [chunks_nil]
  · have hpos := List.length_pos_iff.mpr hempty
    have ih := length_of_mem_chunks hn (text.drop n)
    rw [chunks_of_ne hn hempty]
    by_cases hrest : text.drop n = []
    · have hle := List.drop_eq_nil_iff.mp hrest
      rw [hrest, chunks_nil]
      simp only [List.dropLast_singleton, List.not_mem_nil, false_implies, implies_true, List.getLast?_singleton,
        Option.mem_some, forall_eq', List.length_take, true_and]
      omega
    · have hlt : n < text.length := by
        apply Nat.lt_of_not_le
        intro hle
        exact hrest (List.drop_eq_nil_iff.mpr hle)
      have hmore : chunks n (text.drop n) ≠ [] := by
        rw [chunks_of_ne hn hrest]
        exact List.cons_ne_nil _ _
      rw [List.dropLast_cons_of_ne_nil hmore, List.getLast?_cons_of_ne_nil hmore]
      refine ⟨List.forall_mem_cons.mpr ⟨?_, ih.1⟩, ih.2⟩
      rw [List.length_take, Nat.min_eq_left (Nat.le_of_lt hlt)]
termination_by text.length
decreasing_by
  simp only [List.length_drop]
  omega

theorem TokenRun.tokens_addAllAlone : ∀ {tokens : List Token} (run : TokenRun), (∀ token ∈ tokens, token.value ≠ "") →
    (run.addAllAlone tokens).tokens = run.tokens ++ tokens
  | [], run, _ => by simp [addAllAlone]
  | token :: rest, run, h => by
    obtain ⟨htoken, hrest⟩ := List.forall_mem_cons.mp h
    have hne : token.value.isEmpty = false := by simpa using htoken
    have hstep : (run.addAlone token.kind token.value).tokens = run.tokens ++ [token] := by
      simp [addAlone, hne, tokens]
    have ih := tokens_addAllAlone (run.addAlone token.kind token.value) hrest
    rw [hstep] at ih
    simpa [addAllAlone] using ih

namespace Tokenizer

variable {t : Tokenizer} {text : Array Char}

theorem overflow_of_rest {s : Scan} (h : s.pos < text.size) :
    ∃ pieces : List String,
      (t.overflow text s).run.tokens = s.run.tokens ++ pieces.map (⟨Token.overflowKind, ·⟩) ∧
      String.join pieces = String.ofList (text.toList.drop s.pos) ∧
      (∀ piece ∈ pieces.dropLast, piece.length = t.options.overflowChunk) ∧
      (∀ piece ∈ pieces.getLast?, 1 ≤ piece.length ∧ piece.length ≤ t.options.overflowChunk) ∧
      (t.overflow text s).stack = .initial := by
  have hrest : (text.extract s.pos text.size).toList = text.toList.drop s.pos := by
    rw [Array.toList_extract, List.extract_eq_take_drop, List.take_of_length_le]
    simp
  obtain ⟨hfull, hlast⟩ := length_of_mem_chunks t.options.overflowChunk_pos (text.toList.drop s.pos)
  refine ⟨(chunks t.options.overflowChunk (text.toList.drop s.pos)).map String.ofList, ?_, ?_, ?_, ?_, ?_⟩
  · rw [overflow, if_pos h]
    dsimp only
    rw [TokenRun.tokens_addAllAlone, hrest, List.map_map]
    · rfl
    · intro token htoken
      obtain ⟨piece, hpiece, rfl⟩ := List.mem_map.mp htoken
      intro he
      have hnil := congrArg String.toList he
      rw [String.toList_ofList] at hnil
      exact ne_nil_of_mem_chunks hpiece hnil
  · apply String.toList_injective
    rw [String.toList_join, List.flatMap_map, String.toList_ofList]
    simp only [String.toList_ofList, List.flatMap_id', flatten_chunks]
  · intro piece hpiece
    rw [← List.map_dropLast] at hpiece
    obtain ⟨cs, hcs, rfl⟩ := List.mem_map.mp hpiece
    simpa using hfull cs hcs
  · intro piece hpiece
    rw [List.getLast?_map] at hpiece
    obtain ⟨cs, hcs, rfl⟩ := Option.map_eq_some_iff.mp hpiece
    simpa using hlast cs hcs
  · rw [overflow, if_pos h]
    rfl

theorem overflow_eq_self {s : Scan} (h : ¬ s.pos < text.size) : t.overflow text s = s := if_neg h

/-- A scan that does not overflow is the same with a larger budget. -/
theorem scan_eq_scan {budget budget' : Nat} {s : Scan} (options : ScanOptions) (hle : budget ≤ budget')
    (h : (t.steps text budget s).length < budget ∨ ¬ (s.through (t.steps text budget s)).pos < text.size) :
    t.scan text budget s = scan { t with options := options } text budget' s := by
  induction budget generalizing s budget' with
  | zero =>
    have hend : ¬ s.pos < text.size := h.resolve_left (Nat.not_lt_zero _)
    rw [scan, overflow_eq_self hend]
    cases budget' with
    | zero => rw [scan, overflow_eq_self hend]
    | succ budget' => rw [scan, if_neg hend]
  | succ budget ih =>
    obtain ⟨budget', rfl⟩ := Nat.exists_eq_add_one_of_ne_zero (Nat.ne_of_gt (Nat.lt_of_lt_of_le (Nat.succ_pos budget) hle))
    rw [scan_succ, scan_succ, step?_options (t := t) options s]
    unfold steps at h
    cases hstep : t.step? text s with
    | none => rfl
    | some step =>
      simp only [hstep, List.length_cons, Nat.add_lt_add_iff_right, Scan.through_cons] at h ⊢
      exact ih (Nat.le_of_succ_le_succ hle) h

/-- The matches of a line are the first of those that a larger budget gives. What is left when the budget is used up
overflows; if nothing is left, or the budget is not used up, the larger budget makes no difference. -/
theorem lineTokens_within_budget {table : RuleTable} {options options' : ScanOptions} {t t' : Tokenizer}
    (ht : compile table options = .ok t) (ht' : compile table options' = .ok t')
    (hle : options.maxMatches ≤ options'.maxMatches) (line : String) (stack : StateStack) :
    t.lineSteps line stack = (t'.lineSteps line stack).take options.maxMatches ∧
    ((t.lineSteps line stack).length = options.maxMatches ∧ (t.lineEnd line stack).pos < (Text.chars line).size →
      ∃ pieces : List String,
        t.lineTokens line stack =
          ⟨(t.lineEnd line stack).run.tokens ++ pieces.map (⟨Token.overflowKind, ·⟩), .initial⟩ ∧
        String.join pieces = String.ofList (line.toList.drop (t.lineEnd line stack).pos) ∧
        (∀ piece ∈ pieces.dropLast, piece.length = options.overflowChunk) ∧
        ∀ piece ∈ pieces.getLast?, 1 ≤ piece.length ∧ piece.length ≤ options.overflowChunk) ∧
    ((t.lineSteps line stack).length < options.maxMatches ∨ ¬ (t.lineEnd line stack).pos < (Text.chars line).size →
      t.lineTokens line stack = t'.lineTokens line stack) := by
  obtain rfl := (of_compile ht).options
  have hother := compile_options table t.options options'
  rw [ht, ht', Except.map, Except.ok.injEq] at hother
  subst hother
  refine ⟨?_, ?_, ?_⟩
  · exact (take_steps _ hle).symm.trans (congrArg (List.take _) (steps_options options' _ _).symm)
  · rintro ⟨hspent, hrest⟩
    obtain ⟨pieces, htokens, hjoin, hfull, hlast, hstack⟩ := overflow_of_rest (t := t) hrest
    have hline : (Text.chars line).toList = line.toList := by simp [Text.chars]
    rw [hline] at hjoin
    refine ⟨pieces, ?_, hjoin, hfull, hlast⟩
    rw [lineTokens_eq]
    simp only [if_pos hspent, htokens, hstack]
  · intro h
    simp only [lineTokens, scan_eq_scan options' hle h]

/-- Each character is a token of its own. -/
def sampleCharacters : RuleTable :=
  { states := Dict.ofList [(startState, [.rule { token := .literal "char", regex := ".", merge := false }])] }

/-- Two letters of three fit in the budget, and of five the last three overflow. -/
theorem lineTokens_within_budget_spent :
    let small := (default : ScanOptions).withMaxMatches 2 |>.withOverflowChunk 2
    ∃ t t', compile sampleCharacters small = .ok t ∧ compile sampleCharacters = .ok t' ∧
      small.maxMatches ≤ (default : ScanOptions).maxMatches ∧
      t.lineSteps "añb日c" .initial = (t'.lineSteps "añb日c" .initial).take 2 ∧
      (∃ pieces : List String,
        t.lineTokens "añb日c" .initial = ⟨[⟨"char", "a"⟩, ⟨"char", "ñ"⟩] ++ pieces.map (⟨"overflow", ·⟩), .initial⟩ ∧
        String.join pieces = "b日c" ∧ (∀ piece ∈ pieces.dropLast, piece.length = 2) ∧
        ∀ piece ∈ pieces.getLast?, 1 ≤ piece.length ∧ piece.length ≤ 2) ∧
      t.lineTokens "añ" .initial = t'.lineTokens "añ" .initial := by
  intro small
  obtain ⟨t, ht, hspent, hend, htokens, hdone⟩ : ∃ t, compile sampleCharacters small = .ok t ∧
      (t.lineSteps "añb日c" .initial).length = 2 ∧ (t.lineEnd "añb日c" .initial).pos = 2 ∧
      (t.lineEnd "añb日c" .initial).run.tokens = [⟨"char", "a"⟩, ⟨"char", "ñ"⟩] ∧
      (t.lineEnd "añ" .initial).pos = 2 :=
    ⟨_, rfl, by decide +kernel, by decide +kernel, by decide +kernel, by decide +kernel⟩
  obtain ⟨t', ht'⟩ : ∃ t', compile sampleCharacters = .ok t' := ⟨_, rfl⟩
  have hle : small.maxMatches ≤ (default : ScanOptions).maxMatches := by decide
  obtain ⟨hsteps, hover, -⟩ := lineTokens_within_budget ht ht' hle "añb日c" .initial
  obtain ⟨-, -, hsame⟩ := lineTokens_within_budget ht ht' hle "añ" .initial
  obtain ⟨pieces, hpieces, hjoin, hfull, hlast⟩ := hover ⟨hspent, by rw [hend]; decide +kernel⟩
  rw [htokens] at hpieces
  rw [hend] at hjoin
  have hrest : String.ofList ("añb日c".toList.drop 2) = "b日c" := by decide +kernel
  exact ⟨t, t', ht, ht', hle, hsteps, ⟨pieces, hpieces, hjoin.trans hrest, hfull, hlast⟩,
    hsame (.inr (by rw [hdone]; decide +kernel))⟩

end Tokenizer

end Scribe
