import Mathlib.Data.String.Basic
import Scribe.Proofs.Buffer.Rows
import Scribe.Proofs.Dict
import Scribe.Snippet.File

/-!
# Files that read back

A file of snippets is written line by line. Each line shows what it is: a field by its key, a line of a body by its
tab, and a blank line between two records by what comes after it. So a file reads as the definitions from which it was
written.
-/

namespace Scribe

/-! ## Lines -/

namespace Text

variable {sep : Char} {text : List Char}

theorem cutAt_append (h : sep ∉ text) (rest : List Char) : cutAt sep (text ++ sep :: rest) = text :: cutAt sep rest := by
  induction text with
  | nil => simp [cutAt]
  | cons c text ih =>
    rw [List.mem_cons, not_or] at h
    obtain ⟨hc, hrest⟩ := h
    simp [cutAt, Ne.symm hc, ih hrest]

theorem cutAt_ended {rows : List (List Char)} (h : ∀ row ∈ rows, '\n' ∉ row) :
    cutAt '\n' (ended rows) = rows ++ [[]] := by
  induction rows with
  | nil => rfl
  | cons row rows ih =>
    obtain ⟨hrow, hrows⟩ := List.forall_mem_cons.mp h
    rw [ended_cons, List.append_assoc, List.singleton_append, cutAt_append hrow, ih hrows]
    rfl

theorem cutOnce_append (h : sep ∉ text) (rest : List Char) : cutOnce sep (text ++ sep :: rest) = some (text, rest) := by
  induction text with
  | nil => simp [cutOnce]
  | cons c text ih =>
    rw [List.mem_cons, not_or] at h
    obtain ⟨hc, hrest⟩ := h
    simp [cutOnce, Ne.symm hc, ih hrest]

theorem dropTrailing_eq_self {p : Char → Bool} (h : ∀ c ∈ text.getLast?, p c = false) : dropTrailing p text = text := by
  unfold dropTrailing
  rw [List.getLast?_eq_head?_reverse] at h
  cases hr : text.reverse with
  | nil => simpa using hr.symm
  | cons c rest =>
    have hc : p c = false := by simpa [hr] using h
    rw [List.dropWhile_cons_of_neg (by simp [hc]), ← hr, List.reverse_reverse]

end Text

namespace SnippetFile

open Text (ended cutAt joinWith)

/-! ## What can be written -/

/-- The keys that mean something to a file. -/
def knownKeys : List String :=
  ["snippet", "regex", "name", "tabTrigger", "trigger", "guard", "endTrigger", "endGuard", "scope"]

/-- Whether a line that begins with this word is a field of that key. -/
def IsKey (key : List Char) : Prop :=
  key ≠ [] ∧ (∀ c ∈ key.head?, c ∉ ['#', '\x7b', '\t']) ∧ ' ' ∉ key ∧ '\n' ∉ key

instance (key : List Char) : Decidable (IsKey key) :=
  have : Decidable (∀ c ∈ key.head?, c ∉ ['#', '\x7b', '\t']) := Option.decidableForallMem key.head?
  inferInstanceAs (Decidable (_ ∧ _ ∧ _ ∧ _))

/-- Whether a text can stand at the end of a line. -/
def EndsLine (text : List Char) : Prop := '\n' ∉ text ∧ text.getLast? ≠ some '\r'

instance (text : List Char) : Decidable (EndsLine text) := inferInstanceAs (Decidable (_ ∧ _))

/-- Whether each slash has a backslash of its own, and each backslash has a character that it escapes. -/
def slashesEscaped : List Char → Bool
  | [] => true
  | ['\\'] => false
  | '\\' :: _ :: rest => slashesEscaped rest
  | c :: rest => c != '/' && slashesEscaped rest

end SnippetFile

namespace SnippetDefinition

def patterns (d : SnippetDefinition) : List (Option String) := [d.guard, d.trigger, d.endTrigger, d.endGuard]

/-- The values of all fields but the content. -/
def values (d : SnippetDefinition) : List String :=
  [d.name, d.tabTrigger, d.guard, d.trigger, d.endTrigger, d.endGuard, d.scope].filterMap id ++ d.extra.values

/-- A definition that a file can tell. -/
structure Writable (d : SnippetDefinition) : Prop where
  headed : d.name ≠ none ∨ d.tabTrigger ≠ none ∨ (∃ p ∈ d.patterns, p ≠ none) ∨ d.scope ≠ none ∨ d.extra.entries ≠ []
  values : ∀ v ∈ d.values, SnippetFile.EndsLine v.toList
  content : ∀ line ∈ Text.cutAt '\n' d.content.toList, line.getLast? ≠ some '\r'
  patterns : ∀ p ∈ d.patterns, ∀ v ∈ p, v.toList ≠ [] ∧ SnippetFile.slashesEscaped v.toList = true
  ordered : d.extra.keys.Pairwise (· < ·)
  keys : ∀ key ∈ d.extra.keys, SnippetFile.IsKey key.toList ∧ key ∉ SnippetFile.knownKeys

end SnippetDefinition

namespace SnippetFile

open Text (ended cutAt joinWith)

variable {d : SnippetDefinition}

/-! ## Rows -/

/-- The fields of a record, each a key and a value. -/
def nameFields (d : SnippetDefinition) : List (String × String) :=
  let apart := (d.name.map ("name", ·)).toList ++ (d.tabTrigger.map ("tabTrigger", ·)).toList
  match d.name, d.tabTrigger with
  | some name, some trigger =>
    if !trigger.isEmpty && Text.firstWord name.toList == trigger.toList then [("snippet", name)] else apart
  | _, _ => apart

def patternFields (d : SnippetDefinition) : List (String × String) :=
  if d.patterns.any (·.isSome) then
    [("regex", String.ofList ('/' :: joinWith ['/'] (d.patterns.map fun p => (p.getD "").toList) ++ ['/']))]
  else []

def fields (d : SnippetDefinition) : List (String × String) :=
  nameFields d ++ patternFields d ++ (d.scope.map ("scope", ·)).toList ++ d.extra.entries

def fieldRow (f : String × String) : List Char := f.1.toList ++ ' ' :: f.2.toList

def rows (d : SnippetDefinition) : List (List Char) :=
  (fields d).map fieldRow ++ (cutAt '\n' d.content.toList).map ('\t' :: ·)

def fileRows : List SnippetDefinition → List (List Char)
  | [] => []
  | [d] => rows d
  | d :: e :: ds => rows d ++ [] :: fileRows (e :: ds)

theorem fieldLine_eq (key : String) (value : Option String) :
    fieldLine key value = ended ((value.map (key, ·)).toList.map fieldRow) := by
  cases value <;> simp [fieldLine, ended, fieldRow]

theorem writeNames_eq (d : SnippetDefinition) : writeNames d = ended ((nameFields d).map fieldRow) := by
  unfold writeNames nameFields
  cases d.name with
  | none => cases d.tabTrigger <;> simp [fieldLine_eq, ended]
  | some name =>
    cases d.tabTrigger with
    | none => simp [fieldLine_eq, ended]
    | some trigger =>
      dsimp only
      split <;> simp [fieldLine_eq, ended]

theorem writePatterns_eq (d : SnippetDefinition) : writePatterns d = ended ((patternFields d).map fieldRow) := by
  have hpatterns : [d.guard, d.trigger, d.endTrigger, d.endGuard] = d.patterns := rfl
  unfold writePatterns patternFields
  rw [hpatterns]
  dsimp only
  split
  · simp only [ended, fieldRow, List.map_cons, List.map_nil, List.flatMap_cons, List.flatMap_nil, String.toList_ofList,
      List.append_nil]
    simp
  · rfl

theorem writeRecord_eq (d : SnippetDefinition) : writeRecord d = ended (rows d) := by
  have hextra : (d.extra.entries.flatMap fun e => fieldLine e.1 e.2) = ended (d.extra.entries.map fieldRow) := by
    simp [ended, fieldLine, fieldRow, List.flatMap_map]
  have hcontent : writeContent d.content = ended ((cutAt '\n' d.content.toList).map ('\t' :: ·)) := by
    simp [writeContent, ended, List.flatMap_map]
  unfold writeRecord rows fields
  rw [writeNames_eq, writePatterns_eq, fieldLine_eq, hextra, hcontent]
  simp only [List.map_append, Text.ended_append]

theorem write_eq (ds : List SnippetDefinition) : write ds = String.ofList (ended (fileRows ds)) := by
  have hjoin : joinWith ['\n'] (ds.map writeRecord) = ended (fileRows ds) := by
    induction ds with
    | nil => rfl
    | cons d ds ih =>
      cases ds with
      | nil => exact writeRecord_eq d
      | cons e ds =>
        rw [List.map_cons, Text.joinWith_cons (by simp), ih, writeRecord_eq, fileRows, Text.ended_append,
          Text.ended_cons]
        simp
  exact congrArg String.ofList hjoin

/-! ## Fields -/

/-- A field as it stands in a line. -/
structure IsField (f : String × String) : Prop where
  key : IsKey f.1.toList
  value : EndsLine f.2.toList

theorem mem_values {v : String} (h : d.name = some v ∨ d.tabTrigger = some v ∨ d.scope = some v ∨
    v ∈ d.extra.values ∨ some v ∈ d.patterns) : v ∈ d.values := by
  unfold SnippetDefinition.values SnippetDefinition.patterns at *
  simp only [List.mem_append, List.mem_filterMap, id_eq, exists_eq_right, List.mem_cons, List.not_mem_nil, or_false]
  rcases h with h | h | h | h | h
  · exact .inl (.inl h.symm)
  · exact .inl (.inr (.inl h.symm))
  · exact .inl (.inr (.inr (.inr (.inr (.inr (.inr h.symm))))))
  · exact .inr h
  · simp only [List.mem_cons, List.not_mem_nil, or_false] at h
    tauto

theorem not_mem_patternLine (h : ∀ p ∈ d.patterns, ∀ v ∈ p, '\n' ∉ v.toList) :
    '\n' ∉ '/' :: joinWith ['/'] (d.patterns.map fun p => (p.getD "").toList) ++ ['/'] := by
  have hnone : ∀ p ∈ d.patterns, '\n' ∉ (p.getD "").toList := by
    rintro (_ | v) hp
    · simp
    · exact h _ hp v rfl
  simp only [SnippetDefinition.patterns, List.forall_mem_cons] at hnone
  obtain ⟨hguard, htrigger, hend, hendGuard, -⟩ := hnone
  simp [SnippetDefinition.patterns, joinWith, hguard, htrigger, hend, hendGuard]

theorem endsLine_patterns (h : d.Writable) :
    EndsLine ('/' :: joinWith ['/'] (d.patterns.map fun p => (p.getD "").toList) ++ ['/']) := by
  refine ⟨not_mem_patternLine fun p hp v hv => ?_, by rw [List.getLast?_concat]; decide⟩
  obtain rfl := Option.mem_def.mp hv
  exact (h.values v (mem_values (.inr (.inr (.inr (.inr hp)))))).1

theorem mem_nameFields {f : String × String} (hf : f ∈ nameFields d) :
    f.1 ∈ ["snippet", "name", "tabTrigger"] ∧ (d.name = some f.2 ∨ d.tabTrigger = some f.2) := by
  unfold nameFields at hf
  cases hn : d.name with
  | none => cases ht : d.tabTrigger <;> simp_all
  | some name =>
    cases ht : d.tabTrigger with
    | none => simp_all
    | some trigger =>
      simp only [hn, ht] at hf
      split at hf
      · simp_all
      · have hf' : f = ("name", name) ∨ f = ("tabTrigger", trigger) := by simpa using hf
        rcases hf' with rfl | rfl <;> simp

/-- A field tells a name, the scope, the patterns, or something extra. -/
theorem mem_fields {f : String × String} (hf : f ∈ fields d) :
    f.1 ∈ ["snippet", "name", "tabTrigger", "scope"] ∧
        (d.name = some f.2 ∨ d.tabTrigger = some f.2 ∨ d.scope = some f.2) ∨
      f ∈ patternFields d ∨ f ∈ d.extra.entries := by
  unfold fields at hf
  simp only [List.mem_append] at hf
  rcases hf with ((hf | hf) | hf) | hf
  · obtain ⟨hkey, hvalue⟩ := mem_nameFields hf
    exact .inl ⟨by simp_all; tauto, hvalue.imp_right .inl⟩
  · exact .inr (.inl hf)
  · simp only [Option.mem_toList, Option.map_eq_some_iff] at hf
    obtain ⟨v, hv, rfl⟩ := hf
    exact .inl ⟨by simp, .inr (.inr hv)⟩
  · exact .inr (.inr hf)

theorem mem_patternFields {f : String × String} (hf : f ∈ patternFields d) :
    f = ("regex", String.ofList ('/' :: joinWith ['/'] (d.patterns.map fun p => (p.getD "").toList) ++ ['/'])) := by
  unfold patternFields at hf
  split at hf
  · exact List.mem_singleton.mp hf
  · cases hf

theorem isKey_of_known : ∀ key ∈ knownKeys, IsKey key.toList := by decide

theorem isKey_of_mem (h : ∀ key ∈ d.extra.keys, IsKey key.toList) {f : String × String} (hf : f ∈ fields d) :
    IsKey f.1.toList := by
  rcases mem_fields hf with ⟨hkey, -⟩ | hf | hf
  · refine isKey_of_known f.1 ?_
    simp only [List.mem_cons, List.not_mem_nil, or_false] at hkey
    rcases hkey with hkey | hkey | hkey | hkey <;> simp [hkey, knownKeys]
  · rw [mem_patternFields hf]
    exact isKey_of_known "regex" (by simp [knownKeys])
  · exact h f.1 (List.mem_map_of_mem hf)

theorem isField_of_mem (h : d.Writable) {f : String × String} (hf : f ∈ fields d) : IsField f := by
  refine ⟨isKey_of_mem (fun key hkey => (h.keys key hkey).1) hf, ?_⟩
  rcases mem_fields hf with ⟨-, hvalue⟩ | hf | hf
  · exact h.values f.2 (mem_values (hvalue.imp_right (Or.imp_right .inl)))
  · rw [mem_patternFields hf, String.toList_ofList]
    exact endsLine_patterns h
  · exact h.values f.2 (mem_values (.inr (.inr (.inr (.inl (List.mem_map_of_mem hf))))))

theorem fields_ne_nil (h : d.Writable) : fields d ≠ [] := by
  intro hnil
  simp only [fields, List.append_eq_nil_iff] at hnil
  obtain ⟨⟨⟨hnames, hpatterns⟩, hscope⟩, hextra⟩ := hnil
  rcases h.headed with hn | ht | ⟨p, hp, hsome⟩ | hs | he
  · obtain ⟨v, hv⟩ := Option.ne_none_iff_exists'.mp hn
    unfold nameFields at hnames
    cases ht : d.tabTrigger <;> simp only [hv, ht] at hnames
    · simp at hnames
    · split at hnames <;> simp at hnames
  · obtain ⟨v, hv⟩ := Option.ne_none_iff_exists'.mp ht
    unfold nameFields at hnames
    cases hn : d.name <;> simp only [hv, hn] at hnames
    · simp at hnames
    · split at hnames <;> simp at hnames
  · have hany : d.patterns.any (·.isSome) = true :=
      List.any_eq_true.mpr ⟨p, hp, Option.isSome_iff_ne_none.mpr hsome⟩
    simp [patternFields, hany] at hpatterns
  · obtain ⟨v, hv⟩ := Option.ne_none_iff_exists'.mp hs
    simp [hv] at hscope
  · exact he hextra

/-! ## Reading fields -/

/-- The fields take effect one after the other. -/
def setFields (d : SnippetDefinition) (fs : List (String × String)) : SnippetDefinition :=
  fs.foldl (fun d f => setField d f.1.toList f.2.toList) d

theorem setFields_append (d : SnippetDefinition) (fs fs' : List (String × String)) :
    setFields d (fs ++ fs') = setFields (setFields d fs) fs' := List.foldl_append

theorem setFields_names (d : SnippetDefinition) :
    setFields {} (nameFields d) = { name := d.name, tabTrigger := d.tabTrigger } := by
  unfold nameFields
  cases d.name with
  | none => cases d.tabTrigger <;> simp [setFields, setField]
  | some name =>
    cases d.tabTrigger with
    | none => simp [setFields, setField]
    | some trigger =>
      dsimp only
      split
      · rename_i hword
        have hfirst : String.ofList (Text.firstWord name.toList) = trigger := by
          simp only [Bool.and_eq_true, beq_iff_eq] at hword
          rw [hword.2, String.ofList_toList]
        simp [setFields, setField, hfirst]
      · simp [setFields, setField]

theorem splitAtSlashes_append {piece : List Char} (h : slashesEscaped piece = true) (current rest : List Char) :
    splitAtSlashes current (piece ++ '/' :: rest) = (current.reverse ++ piece) :: splitAtSlashes [] rest := by
  fun_induction slashesEscaped piece generalizing current with
  | case1 => simp [splitAtSlashes]
  | case2 => cases h
  | case3 c piece ih =>
    rw [List.cons_append, List.cons_append, splitAtSlashes, ih h]
    simp
  | case4 c piece hlone hpair ih =>
    have hc : c ≠ '\\' := by
      rintro rfl
      cases piece with
      | nil => exact hlone rfl rfl
      | cons c' rest => exact hpair c' rest rfl rfl
    simp only [Bool.and_eq_true, bne_iff_ne, ne_eq] at h
    rw [List.cons_append, splitAtSlashes, if_neg h.1, ih h.2]
    · simp
    · simp [hc]

theorem splitPatterns_line (text : List Char) :
    splitPatterns ('/' :: text ++ ['/']) = splitAtSlashes [] (text ++ ['/']) := by
  have htrim : Text.trimEnd ('/' :: text ++ ['/']) = '/' :: text ++ ['/'] :=
    Text.dropTrailing_eq_self fun c hc => by
      rw [List.getLast?_concat] at hc
      obtain rfl : '/' = c := by simpa using hc
      decide
  unfold splitPatterns
  rw [htrim]
  rfl

theorem splitPatterns_joinWith (h : ∀ p ∈ d.patterns, ∀ v ∈ p, v.toList ≠ [] ∧ slashesEscaped v.toList = true) :
    splitPatterns ('/' :: joinWith ['/'] (d.patterns.map fun p => (p.getD "").toList) ++ ['/']) =
      d.patterns.map fun p => (p.getD "").toList := by
  have hescaped : ∀ p ∈ d.patterns, slashesEscaped (p.getD "").toList = true := by
    rintro (_ | v) hp
    · simp [slashesEscaped]
    · exact (h _ hp v rfl).2
  simp only [SnippetDefinition.patterns, List.forall_mem_cons] at hescaped
  obtain ⟨hguard, htrigger, hend, hendGuard, -⟩ := hescaped
  rw [splitPatterns_line]
  simp only [SnippetDefinition.patterns, List.map_cons, List.map_nil, joinWith, List.append_assoc, List.cons_append,
    List.nil_append]
  rw [splitAtSlashes_append hguard, splitAtSlashes_append htrigger, splitAtSlashes_append hend,
    splitAtSlashes_append hendGuard]
  simp [splitAtSlashes]

theorem patternAt_written {patterns : List (Option String)} (h : ∀ p ∈ patterns, ∀ v ∈ p, v.toList ≠ []) (i : Nat) :
    patternAt (patterns.map fun p => (p.getD "").toList) i = patterns[i]?.join := by
  unfold patternAt
  rw [List.getElem?_map]
  cases hp : patterns[i]? with
  | none => rfl
  | some p =>
    cases p with
    | none => rfl
    | some v =>
      have hne := h (some v) (List.mem_of_getElem? hp) v rfl
      simp [Option.filter, hne]

theorem setFields_patterns (h : ∀ p ∈ d.patterns, ∀ v ∈ p, v.toList ≠ [] ∧ slashesEscaped v.toList = true)
    (name tabTrigger : Option String) :
    setFields { name, tabTrigger } (patternFields d) =
      { name, tabTrigger, guard := d.guard, trigger := d.trigger, endTrigger := d.endTrigger,
        endGuard := d.endGuard } := by
  unfold patternFields
  split
  · have hat := patternAt_written fun p hp v hv => (h p hp v hv).1
    simp only [setFields, List.foldl_cons, List.foldl_nil, setField, String.ofList_toList, String.toList_ofList,
      splitPatterns_joinWith h, hat]
    rfl
  · rename_i hnone
    simp only [SnippetDefinition.patterns, List.any_cons, List.any_nil, Bool.or_false, Bool.or_eq_true,
      Option.isSome_iff_ne_none, not_or, not_not] at hnone
    obtain ⟨hguard, htrigger, hend, hendGuard⟩ := hnone
    rw [hguard, htrigger, hend, hendGuard]
    rfl

theorem setField_of_unknown (d : SnippetDefinition) {key : String} (h : key ∉ knownKeys) (value : String) :
    setField d key.toList value.toList = { d with extra := d.extra.insert key value } := by
  unfold setField
  rw [String.ofList_toList, String.ofList_toList]
  split <;> first | rfl | exact absurd (by simp [knownKeys]) h

theorem setFields_unknown : ∀ {fs : List (String × String)} (d : SnippetDefinition), (∀ f ∈ fs, f.1 ∉ knownKeys) →
    setFields d fs = { d with extra := d.extra.insertMany fs }
  | [], _, _ => rfl
  | f :: fs, d, h => by
    obtain ⟨hf, hfs⟩ := List.forall_mem_cons.mp h
    rw [setFields, List.foldl_cons, setField_of_unknown d hf]
    exact setFields_unknown _ hfs

theorem setFields_scope (scope : Option String) {d : SnippetDefinition} (h : d.scope = none) :
    setFields d (scope.map ("scope", ·)).toList = { d with scope } := by
  cases scope with
  | none =>
    cases d
    cases h
    rfl
  | some scope => simp [setFields, setField]

theorem setFields_fields (h : d.Writable) : setFields {} (fields d) = { d with content := "" } := by
  have hextra : Dict.empty.insertMany d.extra.entries = d.extra := Dict.ofList_entries lt_asymm h.ordered
  have hunknown : ∀ f ∈ d.extra.entries, f.1 ∉ knownKeys := fun f hf => (h.keys f.1 (List.mem_map_of_mem hf)).2
  unfold fields
  rw [setFields_append, setFields_append, setFields_append, setFields_names, setFields_patterns h.patterns,
    setFields_scope d.scope rfl, setFields_unknown _ hunknown]
  dsimp only
  rw [hextra]

/-! ## Reading records -/

theorem addLine_fieldRow {f : String × String} (hf : IsField f) (r : Reading) :
    r.addLine (fieldRow f) = { r.close with current := setField r.close.current f.1.toList f.2.toList } := by
  obtain ⟨hne, hhead, hspace, -⟩ := hf.key
  have hcut : Text.cutOnce ' ' (fieldRow f) = some (f.1.toList, f.2.toList) := Text.cutOnce_append hspace _
  have hfield : r.close.addField (fieldRow f) =
      { r.close with current := setField r.close.current f.1.toList f.2.toList } := by
    simp [Reading.addField, hcut, hne]
  obtain ⟨c, key, hkey⟩ := List.exists_cons_of_ne_nil hne
  have hc : c ∉ ['#', '\x7b', '\t'] := hhead c (by simp [hkey])
  simp only [List.mem_cons, List.not_mem_nil, or_false, not_or] at hc
  rw [← hfield]
  unfold fieldRow
  rw [hkey, List.cons_append]
  unfold Reading.addLine
  split
  · exact absurd (List.cons.inj ‹_›).1 hc.2.2
  · exact absurd ‹_› (List.cons_ne_nil _ _)
  · exact absurd (List.cons.inj ‹_›).1 hc.1
  · exact absurd (List.cons.inj ‹_›).1 hc.2.1
  · rfl

theorem close_of_no_body {r : Reading} (h : r.body = none) : r.close = r := by
  simp [Reading.close, h]

theorem body_close (r : Reading) : r.close.body = none := by
  unfold Reading.close
  split
  · assumption
  · rfl

theorem foldl_fields : ∀ {fs : List (String × String)} {r : Reading}, (∀ f ∈ fs, IsField f) → r.body = none →
    (fs.map fieldRow).foldl Reading.addLine r = { r with current := setFields r.current fs }
  | [], _, _, _ => rfl
  | f :: fs, r, h, hr => by
    obtain ⟨hf, hfs⟩ := List.forall_mem_cons.mp h
    rw [List.map_cons, List.foldl_cons, addLine_fieldRow hf, close_of_no_body hr]
    exact foldl_fields hfs hr

/-- The lines of a body follow each other. -/
theorem foldl_body : ∀ (lines read : List (List Char)) (r : Reading),
    (lines.map ('\t' :: ·)).foldl Reading.addLine { r with body := some { lines := read } } =
      { r with body := some { lines := lines.reverse ++ read } }
  | [], _, _ => rfl
  | line :: lines, read, r => by
    rw [List.map_cons, List.foldl_cons, List.reverse_cons, List.append_assoc]
    exact foldl_body lines (line :: read) r

/-- A body is the content of the record that it ends. -/
theorem close_foldl_body {r : Reading} (hr : r.body = none) {lines : List (List Char)} (h : lines ≠ []) :
    ((lines.map ('\t' :: ·)).foldl Reading.addLine r).close =
      { done := { r.current with content := String.ofList (joinWith ['\n'] lines) } :: r.done } := by
  obtain ⟨line, rest, rfl⟩ := List.exists_cons_of_ne_nil h
  have hstart : r.addLine ('\t' :: line) = { r with body := some { lines := [line] } } := by
    simp [Reading.addLine, Reading.addBodyLine, hr]
  rw [List.map_cons, List.foldl_cons, hstart, foldl_body rest [line] r]
  simp [Reading.close]

/-- A record that follows others is read as its definition. -/
theorem close_foldl_rows (h : d.Writable) {r : Reading} {done : List SnippetDefinition} (hr : r.close = { done }) :
    ((rows d).foldl Reading.addLine r).close = { done := d :: done } := by
  have hfields : ((fields d).map fieldRow).foldl Reading.addLine r = { done, current := { d with content := "" } } := by
    obtain ⟨f, fs, hfs⟩ := List.exists_cons_of_ne_nil (fields_ne_nil h)
    have hall : ∀ f' ∈ f :: fs, IsField f' := fun f' hf' => isField_of_mem h (hfs ▸ hf')
    have hset := setFields_fields h
    -- The first field closes the record in front of it.
    have hfirst : r.addLine (fieldRow f) = r.close.addLine (fieldRow f) := by
      rw [addLine_fieldRow (hall f List.mem_cons_self), addLine_fieldRow (hall f List.mem_cons_self),
        close_of_no_body (body_close r)]
    rw [hfs] at hset ⊢
    rw [List.map_cons, List.foldl_cons, hfirst, ← List.foldl_cons, ← List.map_cons, foldl_fields hall (body_close r), hr]
    dsimp only
    rw [hset]
  have hcontent : String.ofList (joinWith ['\n'] (cutAt '\n' d.content.toList)) = d.content := by
    rw [Text.joinWith_cutAt, String.ofList_toList]
  unfold rows
  rw [List.foldl_append, hfields, close_foldl_body rfl (Text.cutAt_ne_nil _ _), hcontent]

/-! ## Reading files -/

theorem close_addLine_nil (r : Reading) : (r.addLine []).close = r.close := by
  obtain ⟨done, current, body⟩ := r
  cases body <;> rfl

theorem close_foldl_fileRows {ds : List SnippetDefinition} (h : ∀ d ∈ ds, d.Writable) : ∀ {r : Reading}
    {done : List SnippetDefinition}, r.close = { done } →
    ((fileRows ds).foldl Reading.addLine r).close = { done := ds.reverse ++ done } := by
  fun_induction fileRows ds with
  | case1 => exact fun hr => hr
  | case2 d => exact fun hr => close_foldl_rows (h d List.mem_cons_self) hr
  | case3 d e ds ih =>
    intro r done hr
    obtain ⟨hd, hrest⟩ := List.forall_mem_cons.mp h
    have hblank := (close_addLine_nil _).trans (close_foldl_rows hd hr)
    rw [List.foldl_append, List.foldl_cons, ih hrest hblank]
    simp

theorem rows_fit (h : d.Writable) : ∀ row ∈ rows d, EndsLine row := by
  intro row hrow
  unfold rows at hrow
  rcases List.mem_append.mp hrow with hrow | hrow
  · obtain ⟨f, hf, rfl⟩ := List.mem_map.mp hrow
    obtain ⟨⟨-, -, -, hkey⟩, hline, hreturn⟩ := isField_of_mem h hf
    refine ⟨by simp [fieldRow, hkey, hline], ?_⟩
    unfold fieldRow
    rw [List.getLast?_append]
    cases hv : f.2.toList.getLast? with
    | none => simp [List.getLast?_cons, hv]
    | some c => simpa [List.getLast?_cons, hv] using hreturn
  · obtain ⟨line, hline, rfl⟩ := List.mem_map.mp hrow
    have hreturn := h.content line hline
    have hcut : '\n' ∉ line := Text.not_mem_of_mem_cutAt hline
    refine ⟨by simp [hcut], ?_⟩
    cases hl : line.getLast? with
    | none => simp [List.getLast?_cons, hl]
    | some c => simpa [List.getLast?_cons, hl] using hreturn

theorem fileRows_fit {ds : List SnippetDefinition} (h : ∀ d ∈ ds, d.Writable) : ∀ row ∈ fileRows ds, EndsLine row := by
  fun_induction fileRows ds with
  | case1 => simp
  | case2 d => exact rows_fit (h d List.mem_cons_self)
  | case3 d e ds ih =>
    obtain ⟨hd, hrest⟩ := List.forall_mem_cons.mp h
    intro row hrow
    rcases List.mem_append.mp hrow with hrow | hrow
    · exact rows_fit hd row hrow
    · rcases List.mem_cons.mp hrow with rfl | hrow
      · exact ⟨List.not_mem_nil, by simp⟩
      · exact ih hrest row hrow

/-- A file reads as the definitions from which it was written. -/
theorem read_write {ds : List SnippetDefinition} (h : ∀ d ∈ ds, d.Writable) : read (write ds) = ds := by
  have hfit := fileRows_fit h
  have hlines : (cutAt '\n' (write ds).toList).map (Text.dropTrailing (· == '\r')) = fileRows ds ++ [[]] := by
    rw [write_eq, String.toList_ofList, Text.cutAt_ended fun row hrow => (hfit row hrow).1, List.map_append]
    congr 1
    conv => rhs; rw [← List.map_id (fileRows ds)]
    refine List.map_congr_left fun row hrow => Text.dropTrailing_eq_self fun c hc => ?_
    have hne : c ≠ '\r' := fun he => (hfit row hrow).2 (he ▸ hc)
    simpa using hne
  unfold read
  rw [hlines]
  dsimp only
  rw [List.foldl_append, List.foldl_cons, List.foldl_nil, close_addLine_nil,
    close_foldl_fileRows h (show Reading.close {} = { done := [] } from rfl)]
  simp

/-- One name that tells the trigger and one that does not, patterns with slashes, and contents with blank lines, tabs
and line ends at their end. -/
theorem read_write_two :
    let loop : SnippetDefinition :=
      { name := some "for loop", tabTrigger := some "for", content := "for x:\n\n\ty\n\n", guard := some "a\\/b",
        endTrigger := some "\\\\", extra := Dict.ofList [("tags", "x y"), ("order", "")] }
    let blank : SnippetDefinition := { name := some "", tabTrigger := some "x\ty", scope := some " html" }
    loop.Writable ∧ blank.Writable ∧
      write [loop, blank] =
        "snippet for loop\nregex /a\\/b//\\\\//\norder \ntags x y\n\tfor x:\n\t\n\t\ty\n\t\n\t\n" ++
          "\nname \ntabTrigger x\ty\nscope  html\n\t\n" ∧
      read (write [loop, blank]) = [loop, blank] := by
  intro loop blank
  have hloop : loop.Writable := by
    refine ⟨.inl (by simp [loop]), ?_, ?_, ?_, ?_, ?_⟩ <;> decide +kernel
  have hblank : blank.Writable := by
    refine ⟨.inl (by simp [blank]), ?_, ?_, ?_, ?_, ?_⟩ <;> decide +kernel
  refine ⟨hloop, hblank, by decide +kernel, read_write ?_⟩
  simp [hloop, hblank]

end SnippetFile

end Scribe
