import Scribe.Library.Archive
import Scribe.Proofs.Highlight.Lossless

/-!
# Libraries as they are built

A library is made by adding tables, files, names and snippets to an empty one. Each name of such a library
stands for a mode of it, and each mode has a compiled table. So no text is lost in it.
-/

namespace Scribe

namespace Library

/-- A library made from an empty one. -/
inductive Built : Library → Prop
  | new (options : ScanOptions) : Built (withOptions options)
  | table {l l' : Library} {name : String} {table : RuleTable} :
    Built l → l.addTable name table = .ok l' → Built l'
  | file {l l' : Library} {name : String} {file : ModeFile} :
    Built l → l.addFile name file = .ok l' → Built l'
  | named {l : Library} (mode name : String) : Built l → Built (l.addAlias mode name)
  | snippets {l : Library} (scope : Option String) (definitions : List SnippetDefinition) :
    Built l → Built (l.addSnippets scope definitions)

/-- Modes are compiled, and names have a mode. -/
structure Sound (l : Library) : Prop where
  compiled : ∀ m ∈ l.modes, ∃ table options, Tokenizer.compile table options = .ok m.tokenizer
  placed : ∀ e ∈ l.places.entries, e.2 < l.modes.length

/-! ## Adding -/

theorem sound_withOptions (options : ScanOptions) : (withOptions options).Sound where
  compiled _ hm := by cases hm
  placed _ he := by cases he

theorem addTable_eq (l : Library) (name : String) (table : RuleTable) :
    l.addTable name table = (Tokenizer.compile table l.options).map fun t => l.setMode name t none := by
  simp only [addTable, bind, Except.bind, pure, Except.pure]
  cases Tokenizer.compile table l.options <;> rfl

theorem addFile_eq (l : Library) (name : String) (file : ModeFile) :
    l.addFile name file = (Tokenizer.compile file.toTable l.options).map fun t => l.setMode name t (some file) := by
  simp only [addFile, bind, Except.bind, pure, Except.pure]
  cases Tokenizer.compile file.toTable l.options <;> rfl

theorem exists_of_addTable {l l' : Library} {name : String} {table : RuleTable} (h : l.addTable name table = .ok l') :
    ∃ t, Tokenizer.compile table l.options = .ok t ∧ l' = l.setMode name t none := by
  rw [addTable_eq] at h
  cases hc : Tokenizer.compile table l.options with
  | error e => simp [hc, Except.map] at h
  | ok t => exact ⟨t, rfl, by simpa [hc, Except.map] using h.symm⟩

theorem exists_of_addFile {l l' : Library} {name : String} {file : ModeFile} (h : l.addFile name file = .ok l') :
    ∃ t, Tokenizer.compile file.toTable l.options = .ok t ∧ l' = l.setMode name t (some file) := by
  rw [addFile_eq] at h
  cases hc : Tokenizer.compile file.toTable l.options with
  | error e => simp [hc, Except.map] at h
  | ok t => exact ⟨t, rfl, by simpa [hc, Except.map] using h.symm⟩

theorem mem_modes_setMode {l : Library} {name : String} {t : Tokenizer} {source : Option ModeFile} {m : Mode}
    (h : m ∈ (l.setMode name t source).modes) : m ∈ l.modes ∨ m.tokenizer = t ∧ m.source = source := by
  unfold setMode at h
  split at h
  · rename_i place _
    obtain ⟨i, hi⟩ := List.getElem?_of_mem h
    rw [List.getElem?_modify] at hi
    obtain ⟨old, hold, rfl⟩ := Option.map_eq_some_iff.mp hi
    by_cases hp : place = i
    · exact .inr (by simp [hp])
    · exact .inl (by simpa [hp] using List.mem_of_getElem? hold)
  · rcases List.mem_append.mp h with h | h
    · exact .inl h
    · obtain rfl := List.mem_singleton.mp h
      exact .inr ⟨rfl, rfl⟩

section
variable {l : Library} (h : l.Sound)
include h

theorem sound_setMode {table : RuleTable} {options : ScanOptions} {t : Tokenizer}
    (ht : Tokenizer.compile table options = .ok t) (name : String) (source : Option ModeFile) :
    (l.setMode name t source).Sound := by
  refine ⟨fun m hm => ?_, fun e he => ?_⟩
  · rcases mem_modes_setMode hm with hm | ⟨rfl, -⟩
    · exact h.compiled m hm
    · exact ⟨table, options, ht⟩
  · unfold setMode at he ⊢
    split at he
    · simpa using h.placed e he
    · rw [List.length_append, List.length_singleton]
      rcases Dict.mem_insert he with rfl | he
      · exact Nat.lt_succ_self _
      · exact Nat.lt_succ_of_lt (h.placed e he)

theorem sound_addAlias (mode name : String) : (l.addAlias mode name).Sound := by
  unfold addAlias
  split
  · rename_i place hp
    refine ⟨h.compiled, fun e he => ?_⟩
    rcases Dict.mem_insert he with rfl | he
    · exact h.placed (mode, place) (Dict.mem_entries_of_get? hp)
    · exact h.placed e he
  · exact h

end

theorem Built.sound {l : Library} (h : l.Built) : l.Sound := by
  induction h with
  | new options => exact sound_withOptions options
  | table _ ha ih =>
    obtain ⟨t, ht, rfl⟩ := exists_of_addTable ha
    exact sound_setMode ih ht _ none
  | file _ ha ih =>
    obtain ⟨t, ht, rfl⟩ := exists_of_addFile ha
    exact sound_setMode ih ht _ _
  | named mode name _ ih => exact sound_addAlias ih mode name
  | snippets scope definitions _ ih => exact ⟨ih.compiled, ih.placed⟩

/-! ## Archives -/

theorem exists_of_addPlain {l l' : Library} {names : List String} (h : l.addPlain names = .ok l') :
    ∃ plain, l.addFile plainName ⟨Dict.ofList [(startState, [])]⟩ = .ok plain ∧
      l' = names.foldl (·.addAlias plainName ·) plain := by
  simp only [addPlain, bind, Except.bind, pure, Except.pure] at h
  split at h
  · cases h
  · rename_i plain hplain
    exact ⟨plain, hplain, (Except.ok.inj h).symm⟩

theorem built_addPlain {l l' : Library} {names : List String} (h : l.Built) (ha : l.addPlain names = .ok l') :
    l'.Built := by
  obtain ⟨plain, hplain, rfl⟩ := exists_of_addPlain ha
  exact List.foldlRecOn names _ (.file h hplain) fun _ hl _ _ => .named _ _ hl

theorem built_of_ofArchive {a : Archive} {l : Library} (h : ofArchive a = .ok l) : l.Built := by
  simp only [ofArchive, bind, Except.bind] at h
  split at h
  · cases h
  · rename_i modes hm
    refine foldlM_keeps (fun scope _ l l' hl hs => ?_)
      (List.foldlRecOn a.aliases _ ?_ fun _ hl _ _ => .named _ _ hl) h
    · unfold restoreSnippets at hs
      split at hs
      · cases hs; exact .snippets _ _ hl
      · cases hs
    · refine foldlM_keeps (P := Built) (fun mode _ l l' hl hs => ?_) (.new default) hm
      unfold restoreMode at hs
      split at hs
      · exact .file hl hs
      · cases hs

/-! ## Looking up -/

theorem mode?_isSome {l : Library} (h : l.Sound) {name : String} (hn : l.contains name) :
    ∃ m ∈ l.modes, l.mode? name = some m := by
  obtain ⟨place, hp⟩ := Option.isSome_iff_exists.mp hn
  have hlt := h.placed _ (Dict.mem_entries_of_get? hp)
  refine ⟨l.modes[place], List.getElem_mem hlt, ?_⟩
  rw [mode?, hp]
  exact List.getElem?_eq_getElem hlt

theorem mem_of_mode? {l : Library} {name : String} {m : Mode} (h : l.mode? name = some m) : m ∈ l.modes := by
  obtain ⟨place, -, hp⟩ := Option.bind_eq_some_iff.mp h
  exact List.mem_of_getElem? hp

/-- A name is found in the library, or the plain mode stands in for it. -/
def Answers (l : Library) (name : String) (fallback : Bool) : Prop :=
  l.contains name ∨ fallback ∧ l.contains plainName

theorem tokenize_eq_ok {l : Library} (h : l.Sound) {name : String} {fallback : Bool}
    (hn : l.Answers name fallback) (content : String) :
    ∃ m ∈ l.modes, l.tokenize name content fallback =
      .ok (m.tokenizer.tokenize (String.ofList (Text.normalizeLineEnds content.toList))) := by
  cases hm : l.mode? name with
  | some m => exact ⟨m, mem_of_mode? hm, by simp [tokenize, hm]⟩
  | none =>
    rcases hn with hn | ⟨rfl, hn⟩
    · obtain ⟨m, -, hm'⟩ := mode?_isSome h hn
      rw [hm] at hm'; cases hm'
    · obtain ⟨m, hmem, hm'⟩ := mode?_isSome h hn
      exact ⟨m, hmem, by simp [tokenize, hm, hm']⟩

/-! ## Texts -/

/-- The tokens of each line make up the line, and the lines make up the text. -/
structure MakesUp (lines : List LineTokens) (text : String) : Prop where
  each : List.Forall₂ (fun entry line => Token.MakeUp entry.tokens line) lines (Text.splitLines text)
  whole : Text.joinLines (lines.map fun entry => String.join (entry.tokens.map (·.value))) = text

theorem map_join_of_makeUp : ∀ {lines : List LineTokens} {texts : List String},
    List.Forall₂ (fun entry line => Token.MakeUp entry.tokens line) lines texts →
    lines.map (fun entry => String.join (entry.tokens.map (·.value))) = texts
  | _, _, .nil => rfl
  | _, _, .cons h rest => by rw [List.map_cons, h.2, map_join_of_makeUp rest]

theorem makesUp_tokenize {t : Tokenizer} (ht : t.Sound) (hf : t.SearchesForward) {text : List Char}
    (hr : '\r' ∉ text) : MakesUp (t.tokenize (String.ofList text)) (String.ofList text) := by
  have hlines : (Text.splitLines (String.ofList text)).map Tokenizer.stripReturn =
      Text.splitLines (String.ofList text) := by
    refine (List.map_congr_left fun line hl => ?_).trans (List.map_id _)
    refine Tokenizer.stripReturn_eq_self fun hmem => hr ?_
    obtain ⟨piece, hp, rfl⟩ := List.mem_map.mp hl
    rw [String.toList_ofList] at hp hmem
    exact Text.mem_of_mem_cutAt hp hmem
  have hall := Tokenizer.makeUp_tokenizeFrom ht hf (Text.splitLines (String.ofList text)) .initial
  rw [Tokenizer.tokenize, hlines]
  exact ⟨hall, by rw [map_join_of_makeUp hall, Text.joinLines_splitLines]⟩

/-- No text is lost: the tokens of a line make up the line, from every stack and whatever classifiers and
handlers do, and a library answers with tokens that make up the lines of the text. -/
theorem tokens_make_up_text :
    (∀ (table : RuleTable) (options : ScanOptions) (t : Tokenizer),
      Tokenizer.compile table options = .ok t → t.SearchesForward →
      ∀ (line : String) (stack : StateStack), Token.MakeUp (t.lineTokens line stack).tokens line) ∧
    (∀ l : Library, l.Built → (∀ m ∈ l.modes, m.tokenizer.SearchesForward) →
      ∀ (name content : String) (fallback : Bool), l.Answers name fallback →
      ∃ lines, l.tokenize name content fallback = .ok lines ∧
        MakesUp lines (String.ofList (Text.normalizeLineEnds content.toList))) := by
  constructor
  · intro table options t ht hf line stack
    exact Tokenizer.makeUp_lineTokens (Tokenizer.sound_of_compile ht) hf line stack
  · intro l hl hf name content fallback hn
    obtain ⟨m, hm, htok⟩ := tokenize_eq_ok hl.sound hn content
    obtain ⟨table, options, hc⟩ := hl.sound.compiled m hm
    exact ⟨_, htok, makesUp_tokenize (Tokenizer.sound_of_compile hc) (hf m hm)
      (Text.not_mem_normalizeLineEnds content.toList)⟩

/-- A state with a group for each half of an assignment, one with a handler that doubles what it reads, and
one that is left by an empty match. -/
def sampleTable : RuleTable where
  states := Dict.ofList [
    (startState, [
      .rule { token := .groups ["name", "value"], regex := "(\\w+)=(\\d*)" },
      .rule { token := .literal "quote", regex := "\"", jump := some (.push "string") },
      .rule { token := .classify fun texts => texts.headD "word", regex := "(?=!)|[a-z]+", caseless := true }]),
    ("string", [
      .rule { token := .literal "escape", regex := "\\\\.",
              onMatch := some fun value _ stack => ([⟨"escape", value ++ value⟩], stack.setData "seen" value) },
      .rule { token := .literal "quote", regex := "\"|$", jump := some .pop },
      .defaultKind "string"])]

theorem tokens_make_up_text_sampleTable : ∃ t l, Tokenizer.compile sampleTable default = .ok t ∧
    (withOptions default).addTable "sample" sampleTable = .ok l ∧
    (∀ line stack, Token.MakeUp (t.lineTokens line stack).tokens line) ∧
    ∀ content, ∃ lines, l.tokenize "sample" content false = .ok lines ∧
      MakesUp lines (String.ofList (Text.normalizeLineEnds content.toList)) := by
  obtain ⟨t, ht, hk⟩ : ∃ t, Tokenizer.compile sampleTable default = .ok t ∧
      t.states.values.all (fun state => state.patterns.joined.all (!·.tree.hasKeep)) = true :=
    ⟨_, rfl, by decide +kernel⟩
  have hf := Tokenizer.searchesForward_of_hasKeep hk
  have hl : (withOptions default).addTable "sample" sampleTable =
      .ok ((withOptions default).setMode "sample" t none) := by
    simp only [addTable, withOptions, ht, bind, Except.bind, pure, Except.pure]
  refine ⟨t, _, ht, hl, tokens_make_up_text.1 _ _ t ht hf, fun content => ?_⟩
  refine tokens_make_up_text.2 _ (.table (.new default) hl) (fun m hm => ?_) "sample" content false (.inl rfl)
  obtain rfl := List.mem_singleton.mp hm
  exact hf

end Library

end Scribe
