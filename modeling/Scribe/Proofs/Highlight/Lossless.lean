import Scribe.Library.Basic
import Scribe.Proofs.Dict
import Scribe.Proofs.Highlight.Compiling
import Scribe.Proofs.Highlight.Coverage

/-!
# Nothing of a text is lost

In a compiled table each pattern of a state has its rule, so a scan covers its line. The modes of a library
are compiled tables, so the tokens of a text make up its lines.
-/

namespace Scribe

/-! ## Compiled tables -/

namespace PatternUnion

theorem length_collect : ∀ {rules : List RulePattern} {index wrapper : Nat} {slots : List UnionSlot}
    {alternatives : List (List Char)}, collect index wrapper rules = .ok (slots, alternatives) →
    slots.length = rules.length
  | [], _, _, _, _, h => by cases h; rfl
  | rule :: rest, index, wrapper, slots, alternatives, h => by
    simp only [collect] at h
    split at h
    · cases h
    · split at h
      · cases h
      · rename_i hrest
        cases h
        simp [length_collect hrest]

theorem length_slots {rules : List RulePattern} {u : PatternUnion} (h : compile rules = .ok u) :
    u.slots.length = rules.length := by
  unfold compile at h
  split at h
  · rename_i hr
    cases h
    simp [List.isEmpty_iff.mp hr]
  · split at h
    · cases h
    · rename_i hc
      dsimp only at h
      split at h
      · cases h
      · cases h
        exact length_collect hc

end PatternUnion

theorem size_rules_of_compileState {states : Dict String (List Entry)} {name : String}
    {entries : List Entry} {state : CompiledState} (h : compileState states name entries = .ok state) :
    state.rules.size = state.patterns.slots.length := by
  obtain ⟨rules, patterns, -, -, hpatterns, rfl⟩ := compileState_eq_ok h
  simp [PatternUnion.length_slots hpatterns]

theorem Tokenizer.sound_of_compile {table : RuleTable} {options : ScanOptions} {t : Tokenizer}
    (h : compile table options = .ok t) : t.Sound := by
  refine ⟨Dict.mem_values_of_get? (of_compile h).start, fun state hs => ?_⟩
  obtain ⟨_, _, -, hstate⟩ := exists_of_mem_values h hs
  exact size_rules_of_compileState hstate

/-- Patterns without a `keep` in a look-behind search forward. -/
theorem Tokenizer.searchesForward_of_keepsBehind {t : Tokenizer}
    (h : ∀ state ∈ t.states.values, ∀ p ∈ state.patterns.joined, p.tree.keepsBehind = false) :
    t.SearchesForward := by
  intro state hs text start m hm
  obtain ⟨-, p, m', hp, hm', hw⟩ := PatternUnion.find?_eq_some hm
  rw [hw]
  exact Pattern.le_start_of_find? (h state hs p hp) hm'

theorem Tokenizer.searchesForward_of_hasKeep {t : Tokenizer}
    (h : t.states.values.all fun state => state.patterns.joined.all (!·.tree.hasKeep)) :
    t.SearchesForward := by
  apply searchesForward_of_keepsBehind
  intro state hs p hp
  have hkeep := List.all_eq_true.mp h state hs
  rw [hp] at hkeep
  exact Tree.keepsBehind_of_hasKeep (by simpa using hkeep)

/-! ## Lines -/

namespace Text

theorem cutAt_ne_nil (sep : Char) : ∀ text, cutAt sep text ≠ []
  | [] => by simp [cutAt]
  | c :: text => by
    simp only [cutAt]
    split
    · simp
    · split <;> simp

theorem joinWith_cons {sep piece : List Char} {pieces : List (List Char)} (h : pieces ≠ []) :
    joinWith sep (piece :: pieces) = piece ++ sep ++ joinWith sep pieces := by
  cases pieces with
  | nil => exact absurd rfl h
  | cons p ps => rfl

theorem joinWith_cutAt (sep : Char) : ∀ text, joinWith [sep] (cutAt sep text) = text
  | [] => rfl
  | c :: text => by
    have ih := joinWith_cutAt sep text
    simp only [cutAt]
    split
    · rename_i hc
      rw [joinWith_cons (cutAt_ne_nil sep text), ih, hc]; rfl
    · cases hcut : cutAt sep text with
      | nil => exact absurd hcut (cutAt_ne_nil sep text)
      | cons piece pieces =>
        rw [hcut] at ih
        cases pieces with
        | nil => simpa [joinWith] using ih
        | cons p ps =>
          rw [joinWith_cons (by simp)] at ih ⊢
          simp only [List.cons_append, ih]

theorem joinLines_splitLines (text : String) : joinLines (splitLines text) = text := by
  have : (fun piece => (String.ofList piece).toList) = (id : List Char → List Char) := by
    funext piece; simp
  simp only [joinLines, splitLines, List.map_map, Function.comp_def, this, List.map_id, joinWith_cutAt,
    String.ofList_toList]

theorem not_mem_normalizeLineEnds (text : List Char) : '\r' ∉ normalizeLineEnds text := by
  fun_induction normalizeLineEnds text with
  | case1 => simp
  | case2 rest ih =>
    simp only [List.mem_cons, not_or]
    exact ⟨by decide, ih⟩
  | case3 c rest _ ih =>
    simp only [List.mem_cons, not_or]
    refine ⟨?_, ih⟩
    split
    · decide
    · rename_i hc
      exact fun e => hc e.symm

theorem mem_of_mem_cutAt {sep c : Char} : ∀ {text piece : List Char}, piece ∈ cutAt sep text → c ∈ piece → c ∈ text
  | [], piece, hp, hc => by
    simp only [cutAt, List.mem_singleton] at hp
    subst hp; cases hc
  | d :: text, piece, hp, hc => by
    simp only [cutAt] at hp
    split at hp
    · rcases List.mem_cons.mp hp with rfl | hp
      · cases hc
      · exact List.mem_cons_of_mem _ (mem_of_mem_cutAt hp hc)
    · split at hp
      · rename_i first pieces hcut
        rcases List.mem_cons.mp hp with rfl | hp
        · rcases List.mem_cons.mp hc with rfl | hc
          · exact List.mem_cons_self
          · exact List.mem_cons_of_mem _ (mem_of_mem_cutAt (hcut ▸ List.mem_cons_self) hc)
        · exact List.mem_cons_of_mem _ (mem_of_mem_cutAt (hcut ▸ List.mem_cons_of_mem _ hp) hc)
      · rename_i hcut
        exact absurd hcut (cutAt_ne_nil sep text)

end Text

namespace Tokenizer

variable {t : Tokenizer}

theorem stripReturn_eq_self {line : String} (h : '\r' ∉ line.toList) : stripReturn line = line := by
  simp only [stripReturn]
  split
  · rename_i hend
    exfalso; apply h
    rw [← List.mem_reverse]
    cases hr : line.toList.reverse with
    | nil => simp [Text.endsWith, Text.startsWith, Text.dropStart?, hr] at hend
    | cons c rest =>
      simp only [Text.endsWith, hr, List.reverse_cons, List.reverse_nil, List.nil_append,
        Text.startsWith, Text.dropStart?] at hend
      split at hend
      · rename_i hc; simp [← hc]
      · simp at hend
  · rfl

theorem makeUp_tokenizeFrom (ht : t.Sound) (hf : t.SearchesForward) : ∀ (lines : List String) (stack : StateStack),
    List.Forall₂ (fun entry line => Token.MakeUp entry.tokens line) (t.tokenizeFrom stack lines) lines
  | [], _ => .nil
  | line :: lines, stack => .cons (makeUp_lineTokens ht hf line stack) (makeUp_tokenizeFrom ht hf lines _)

end Tokenizer

end Scribe
