import Scribe.Pattern.Basic
import Scribe.Proofs.Snippet.Records

/-!
# Patterns in one line

The patterns of a definition are written into one line with a slash after each. The line does not say which
slashes are those, so a pattern is read back only if its own slashes have backslashes.
-/

namespace Scribe

namespace Text

theorem dropTrailing_append_cons {p : Char → Bool} {c : Char} (hc : p c = false) (before after : List Char) :
    dropTrailing p (before ++ c :: after) = before ++ c :: dropTrailing p after := by
  have hrev : (before ++ c :: after).reverse = after.reverse ++ c :: before.reverse := by simp
  unfold dropTrailing
  rw [hrev, List.dropWhile_append]
  split
  · rename_i hall
    have hnil : after.reverse.dropWhile p = [] := by simpa using hall
    simp [hnil, hc]
  · simp

theorem mem_of_mem_dropTrailing {p : Char → Bool} {c : Char} {text : List Char} (h : c ∈ dropTrailing p text) :
    c ∈ text := by
  unfold dropTrailing at h
  rw [List.mem_reverse] at h
  exact List.mem_reverse.mp ((List.dropWhile_sublist p).subset h)

theorem getLast?_dropTrailing {p : Char → Bool} {c : Char} {text : List Char}
    (h : (dropTrailing p text).getLast? = some c) : p c = false := by
  unfold dropTrailing at h
  rw [List.getLast?_reverse] at h
  simpa [h] using List.head?_dropWhile_not p text.reverse

end Text

namespace SnippetFile

/-! ## Splitting -/

theorem getD_head_of_current (c : Char) (current text : List Char) :
    ∃ more, ((splitAtSlashes (c :: current) text)[0]?).getD [] = (c :: current).reverse ++ more := by
  generalize hcur : c :: current = cur
  have hne : cur ≠ [] := hcur ▸ List.cons_ne_nil c current
  clear hcur
  fun_induction splitAtSlashes cur text with
  | case1 cur hempty => exact absurd (by simpa using hempty) hne
  | case2 cur hempty => exact ⟨[], by simp⟩
  | case3 cur c' rest ih =>
    obtain ⟨more, hmore⟩ := ih (List.cons_ne_nil _ _)
    exact ⟨'\\' :: c' :: more, by simpa using hmore⟩
  | case4 cur c' rest hc => exact ⟨[], by simp⟩
  | case5 cur c' rest _ hc ih =>
    obtain ⟨more, hmore⟩ := ih (List.cons_ne_nil _ _)
    exact ⟨c' :: more, by simpa using hmore⟩

/-- The piece in front of a slash is told from the line only if each slash of its own is escaped. -/
theorem slashesEscaped_of_head {piece rest : List Char} (current : List Char)
    (h : ((splitAtSlashes current (piece ++ '/' :: rest))[0]?).getD [] = current.reverse ++ piece) :
    slashesEscaped piece = true := by
  fun_induction slashesEscaped piece generalizing current with
  | case1 => rfl
  | case2 =>
    obtain ⟨more, hmore⟩ := getD_head_of_current '/' ('\\' :: current) rest
    have hlen := congrArg List.length (hmore.symm.trans h)
    simp only [List.length_append, List.length_reverse, List.length_cons, List.length_nil] at hlen
    omega
  | case3 c piece ih =>
    refine ih (c :: '\\' :: current) ?_
    simpa [splitAtSlashes] using h
  | case4 c piece hlone hpair ih =>
    have hc : c ≠ '\\' := by
      rintro rfl
      cases piece with
      | nil => exact hlone rfl rfl
      | cons c' rest => exact hpair c' rest rfl rfl
    rw [List.cons_append, splitAtSlashes] at h
    · by_cases hslash : c = '/'
      · have hlen := congrArg List.length h
        simp [hslash] at hlen
      · rw [if_neg hslash] at h
        simp [hslash, ih (c :: current) (by simpa using h)]
    · simp [hc]

/-- Pieces with a slash after each are told apart exactly if their own slashes are escaped. -/
theorem split_eq_iff (pieces : List (List Char)) :
    (∀ i < pieces.length, (splitAtSlashes [] (pieces.flatMap (· ++ ['/'])))[i]?.getD [] = pieces[i]?.getD []) ↔
      ∀ piece ∈ pieces, slashesEscaped piece = true := by
  induction pieces with
  | nil => simp
  | cons piece pieces ih =>
    have htext : (piece :: pieces).flatMap (· ++ ['/']) = piece ++ '/' :: pieces.flatMap (· ++ ['/']) := by simp
    rw [htext, List.forall_mem_cons]
    constructor
    · intro h
      have hpiece : slashesEscaped piece = true := slashesEscaped_of_head [] (by simpa using h 0 (by simp))
      refine ⟨hpiece, ih.mp fun i hi => ?_⟩
      have hnext := h (i + 1) (by simpa using hi)
      rw [splitAtSlashes_append hpiece] at hnext
      simpa using hnext
    · rintro ⟨hpiece, hpieces⟩ i hi
      rw [splitAtSlashes_append hpiece]
      cases i with
      | zero => simp
      | succ i => simpa using ih.mpr hpieces i (by simpa using hi)

theorem patternAt_eq (patterns : List (List Char)) (i : Nat) :
    patternAt patterns i =
      if patterns[i]?.getD [] = [] then none else some (String.ofList (patterns[i]?.getD [])) := by
  unfold patternAt
  cases patterns[i]? with
  | none => rfl
  | some piece => by_cases hpiece : piece = [] <;> simp [Option.filter, hpiece]

theorem patternAt_eq_iff {patterns : List (List Char)} {i : Nat} {p : Option String} :
    patternAt patterns i = p ↔ patterns[i]?.getD [] = (p.getD "").toList ∧ ∀ v ∈ p, v.toList ≠ [] := by
  rw [patternAt_eq]
  generalize patterns[i]?.getD [] = piece
  cases p with
  | none => simp
  | some v =>
    have hv : String.ofList piece = v ↔ piece = v.toList := by rw [← String.toList_inj, String.toList_ofList]
    by_cases hpiece : piece = []
    · simp only [hpiece, if_true, Option.getD_some, Option.mem_some_iff, forall_eq']
      constructor
      · intro h
        cases h
      · rintro ⟨hv, hne⟩
        exact absurd hv.symm hne
    · simp only [hpiece, if_false, Option.some.injEq, hv, Option.getD_some, Option.mem_some_iff, forall_eq']
      exact ⟨fun h => ⟨h, h ▸ hpiece⟩, fun h => h.1⟩

/-! ## Reading -/

/-- The keys that tell patterns. -/
def patternKeys : List String := ["regex", "trigger", "guard", "endTrigger", "endGuard"]

end SnippetFile

/-- Each value is a single line, and what is extra can stand in a line and tells no pattern. -/
structure SnippetDefinition.Lined (d : SnippetDefinition) : Prop where
  values : ∀ v ∈ d.values, '\n' ∉ v.toList
  keys : ∀ key ∈ d.extra.keys, SnippetFile.IsKey key.toList ∧ key ∉ SnippetFile.patternKeys

namespace SnippetFile

open Text (cutAt joinWith dropTrailing)

variable {d : SnippetDefinition}

/-- A field as its line tells it: what stands at the end of a line loses its carriage returns. -/
def told (f : String × String) : String × String := (f.1, String.ofList (dropTrailing (· == '\r') f.2.toList))

theorem dropTrailing_fieldRow (f : String × String) :
    dropTrailing (· == '\r') (fieldRow f) = fieldRow (told f) := by
  simp [fieldRow, told, Text.dropTrailing_append_cons]

theorem not_mem_value (h : d.Lined) {f : String × String} (hf : f ∈ fields d) : '\n' ∉ f.2.toList := by
  rcases mem_fields hf with ⟨-, hvalue⟩ | hf | hf
  · exact h.values f.2 (mem_values (hvalue.imp_right (Or.imp_right .inl)))
  · rw [mem_patternFields hf, String.toList_ofList]
    refine not_mem_patternLine fun p hp v hv => ?_
    obtain rfl := Option.mem_def.mp hv
    exact h.values v (mem_values (.inr (.inr (.inr (.inr hp)))))
  · exact h.values f.2 (mem_values (.inr (.inr (.inr (.inl (List.mem_map_of_mem hf))))))

theorem isField_told (h : d.Lined) {f : String × String} (hf : f ∈ fields d) : IsField (told f) := by
  have hkey : IsKey f.1.toList := isKey_of_mem (fun key hkey => (h.keys key hkey).1) hf
  refine ⟨hkey, ?_⟩
  rw [told, String.toList_ofList]
  refine ⟨fun hmem => not_mem_value h hf (Text.mem_of_mem_dropTrailing hmem), fun hlast => ?_⟩
  have hne := Text.getLast?_dropTrailing hlast
  simp at hne

theorem patterns_setField {key : String} (h : key ∉ patternKeys) (d : SnippetDefinition) (value : List Char) :
    (setField d key.toList value).patterns = d.patterns := by
  unfold setField
  rw [String.ofList_toList]
  split <;> first | rfl | exact absurd (by simp [patternKeys]) h

theorem patterns_setFields {fs : List (String × String)} (h : ∀ f ∈ fs, f.1 ∉ patternKeys) (d : SnippetDefinition) :
    (setFields d fs).patterns = d.patterns := by
  induction fs generalizing d with
  | nil => rfl
  | cons f fs ih =>
    obtain ⟨hf, hfs⟩ := List.forall_mem_cons.mp h
    rw [setFields, List.foldl_cons]
    exact (ih hfs _).trans (patterns_setField hf d _)

theorem patterns_setField_regex (d : SnippetDefinition) (value : List Char) :
    (setField d "regex".toList value).patterns = (List.range 4).map (patternAt (splitPatterns value)) := by
  unfold setField
  rw [String.ofList_toList]
  rfl

/-- Only the line of patterns tells patterns. -/
theorem patterns_told (h : ∀ key ∈ d.extra.keys, key ∉ patternKeys) :
    (setFields {} ((fields d).map told)).patterns =
      (setFields (setFields {} ((nameFields d).map told)) ((patternFields d).map told)).patterns := by
  unfold fields
  rw [List.append_assoc, List.map_append, List.map_append, setFields_append, setFields_append]
  refine patterns_setFields (List.forall_mem_map.mpr fun f hf => ?_) _
  rcases List.mem_append.mp hf with hf | hf
  · simp only [Option.mem_toList, Option.map_eq_some_iff] at hf
    obtain ⟨v, -, rfl⟩ := hf
    simp [told, patternKeys]
  · exact h f.1 (List.mem_map_of_mem hf)

theorem patterns_setFields_names (d : SnippetDefinition) :
    (setFields {} ((nameFields d).map told)).patterns = [none, none, none, none] := by
  refine patterns_setFields (List.forall_mem_map.mpr fun f hf => ?_) {}
  have hkey := (mem_nameFields hf).1
  simp only [List.mem_cons, List.not_mem_nil, or_false] at hkey
  rcases hkey with hkey | hkey | hkey <;> simp [told, patternKeys, hkey]

theorem patternLine_eq (d : SnippetDefinition) :
    joinWith ['/'] (d.patterns.map fun p => (p.getD "").toList) ++ ['/'] =
      (d.patterns.map fun p => (p.getD "").toList).flatMap (· ++ ['/']) := by
  simp [SnippetDefinition.patterns, joinWith]

theorem told_patternFields : (patternFields d).map told = patternFields d := by
  unfold patternFields
  split
  · have hlast : dropTrailing (· == '\r')
        ('/' :: joinWith ['/'] (d.patterns.map fun p => (p.getD "").toList) ++ ['/']) =
          '/' :: joinWith ['/'] (d.patterns.map fun p => (p.getD "").toList) ++ ['/'] :=
      Text.dropTrailing_eq_self fun c hc => by
        rw [List.getLast?_concat] at hc
        obtain rfl : '/' = c := by simpa using hc
        decide
    simp only [told, List.map_cons, List.map_nil, String.toList_ofList, hlast]
  · rfl

theorem slashesEscaped_getD_iff (p : Option String) :
    slashesEscaped (p.getD "").toList = true ↔ ∀ v ∈ p, slashesEscaped v.toList = true := by
  cases p <;> simp [slashesEscaped]

/-- Patterns with a slash after each are read as they are exactly if none is empty and their slashes are escaped. -/
theorem map_patternAt_iff (patterns : List (Option String)) :
    (List.range patterns.length).map
        (patternAt (splitAtSlashes [] ((patterns.map fun p => (p.getD "").toList).flatMap (· ++ ['/'])))) = patterns ↔
      ∀ p ∈ patterns, ∀ v ∈ p, v.toList ≠ [] ∧ slashesEscaped v.toList = true := by
  have hsplit := split_eq_iff (patterns.map fun p => (p.getD "").toList)
  simp only [List.length_map, List.forall_mem_map, slashesEscaped_getD_iff] at hsplit
  generalize splitAtSlashes [] ((patterns.map fun p => (p.getD "").toList).flatMap (· ++ ['/'])) = pieces at hsplit ⊢
  have heach : (List.range patterns.length).map (patternAt pieces) = patterns ↔
      ∀ (i : Nat) (hi : i < patterns.length), patternAt pieces i = patterns[i] := by
    constructor
    · intro h i hi
      have hat := congrArg (·[i]?) h
      simpa [hi] using hat
    · intro h
      exact List.ext_getElem (by simp) fun i _ hi => by simpa using h i hi
  rw [heach]
  simp only [patternAt_eq_iff]
  constructor
  · intro h p hp v hv
    have hescaped := hsplit.mp fun i hi => by simpa [hi] using (h i hi).1
    obtain ⟨i, hi, rfl⟩ := List.getElem_of_mem hp
    exact ⟨(h i hi).2 v hv, hescaped _ hp v hv⟩
  · intro h i hi
    have hpiece := hsplit.mpr (fun p hp v hv => (h p hp v hv).2) i hi
    exact ⟨by simpa [hi] using hpiece, fun v hv => (h _ (List.getElem_mem hi) v hv).1⟩

/-- The line of patterns tells them exactly if none is empty and each slash in them is escaped. -/
theorem patterns_told_iff (h : ∀ key ∈ d.extra.keys, key ∉ patternKeys) :
    (setFields {} ((fields d).map told)).patterns = d.patterns ↔
      ∀ p ∈ d.patterns, ∀ v ∈ p, v.toList ≠ [] ∧ slashesEscaped v.toList = true := by
  have hnames := patterns_setFields_names d
  rw [patterns_told h, told_patternFields]
  unfold patternFields
  split
  · rw [setFields, List.foldl_cons, List.foldl_nil, patterns_setField_regex, String.toList_ofList, splitPatterns_line,
      patternLine_eq]
    exact map_patternAt_iff d.patterns
  · rename_i hnone
    have hall : ∀ p ∈ d.patterns, p = none := by simpa using hnone
    have hpatterns : d.patterns = [none, none, none, none] := List.eq_replicate_of_mem hall
    rw [setFields, List.foldl_nil, hnames, hpatterns]
    simp

theorem not_mem_rows (h : d.Lined) : ∀ row ∈ rows d, '\n' ∉ row := by
  intro row hrow
  rcases List.mem_append.mp hrow with hrow | hrow
  · obtain ⟨f, hf, rfl⟩ := List.mem_map.mp hrow
    have hkey := isKey_of_mem (fun key hkey => (h.keys key hkey).1) hf
    simp [fieldRow, hkey.2.2.2, not_mem_value h hf]
  · obtain ⟨line, hline, rfl⟩ := List.mem_map.mp hrow
    have hcut : '\n' ∉ line := Text.not_mem_of_mem_cutAt hline
    simp [hcut]

/-- The patterns of a definition are read from its record as they were written exactly if none is empty and each slash
in them is escaped. -/
theorem patterns_read_iff (h : d.Lined) :
    (read (write [d])).map SnippetDefinition.patterns = [d.patterns] ↔
      ∀ p ∈ d.patterns, ∀ v ∈ p, v.toList ≠ [] ∧ slashesEscaped v.toList = true := by
  have hlines : (cutAt '\n' (write [d]).toList).map (dropTrailing (· == '\r')) =
      ((fields d).map told).map fieldRow ++
        ((cutAt '\n' d.content.toList).map (dropTrailing (· == '\r'))).map ('\t' :: ·) ++ [[]] := by
    have hrows : fileRows [d] = rows d := rfl
    rw [write_eq, String.toList_ofList, hrows, Text.cutAt_ended (not_mem_rows h)]
    simp only [rows, List.map_append, List.map_map, List.map_cons, List.map_nil]
    congr 2
    · exact List.map_congr_left fun f _ => dropTrailing_fieldRow f
    · exact List.map_congr_left fun line _ => Text.dropTrailing_append_cons (by decide) [] line
  have hread : (read (write [d])).map SnippetDefinition.patterns =
      [(setFields {} ((fields d).map told)).patterns] := by
    unfold read
    rw [hlines]
    dsimp only
    rw [List.foldl_append, List.foldl_cons, List.foldl_nil, close_addLine_nil, List.foldl_append,
      foldl_fields (List.forall_mem_map.mpr fun f hf => isField_told h hf) rfl,
      close_foldl_body rfl (by simpa using Text.cutAt_ne_nil _ _)]
    rfl
  rw [hread, List.cons.injEq, eq_self_iff_true, and_true, patterns_told_iff fun key hkey => (h.keys key hkey).2]

/-- Slashes and backslashes that are escaped, beside a pattern that is missing. -/
theorem patterns_read_iff_escaped :
    let tag : SnippetDefinition :=
      { name := some "close", guard := some "<", trigger := some "<\\/\\\\", endGuard := some "[^\\/]\r", scope := some "html\r" }
    tag.Lined ∧ (∀ p ∈ tag.patterns, ∀ v ∈ p, (Pattern.compile v).isOk = true) ∧
      write [tag] = "name close\nregex /</<\\/\\\\//[^\\/]\r/\nscope html\r\n\t\n" ∧
      (read (write [tag])).map SnippetDefinition.patterns = [tag.patterns] := by
  intro tag
  have hlined : tag.Lined := ⟨by decide +kernel, by decide +kernel⟩
  refine ⟨hlined, by decide +kernel, by decide +kernel, (patterns_read_iff hlined).mpr ?_⟩
  decide +kernel

/-- A bare slash in a pattern is taken for the end of it. -/
theorem bare_slash_divides :
    let tag : SnippetDefinition := { name := some "close", trigger := some "</div>" }
    tag.Lined ∧ (∀ p ∈ tag.patterns, ∀ v ∈ p, (Pattern.compile v).isOk = true) ∧
      write [tag] = "name close\nregex //</div>///\n\t\n" ∧
      (read (write [tag])).map SnippetDefinition.patterns = [[none, some "<", some "div>", none]] ∧
      (read (write [tag])).map SnippetDefinition.patterns ≠ [tag.patterns] := by
  refine ⟨⟨by decide +kernel, by decide +kernel⟩, by decide +kernel, by decide +kernel, by decide +kernel,
    by decide +kernel⟩

end SnippetFile

end Scribe
