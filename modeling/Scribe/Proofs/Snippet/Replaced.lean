import Scribe.Proofs.Highlight.Coverage
import Scribe.Snippet.Transform

/-!
# What a transform replaces

A transform searches its value from one match to the next and puts a text in the place of each; all else stays. The
changes of case that one text leaves in force are those that the next one begins with.
-/

namespace Scribe

/-- Where a search goes on after a match: at its end, and one character further if it is empty. -/
def Match.resume (m : Match) : Nat := if m.whole.start < m.whole.stop then m.whole.stop else m.whole.start + 1

namespace Transform

/-- The matches from `pos` on, one found after the other: all of them, or the first one alone. -/
inductive Finds (p : Pattern) (value : Array Char) (all : Bool) : Nat → List Match → Prop
  | none {pos : Nat} : p.find? value pos = none → Finds p value all pos []
  | alone {pos : Nat} {m : Match} : all = false → p.find? value pos = some m → Finds p value all pos [m]
  | more {pos : Nat} {m : Match} {ms : List Match} : all = true → p.find? value pos = some m →
    Finds p value all m.resume ms → Finds p value all pos (m :: ms)

/-- The value from `pos` on, with a text in the place of each span. -/
def replaced (value : Array Char) (pos : Nat) : List (Span × List Char) → List Char
  | [] => (Text.slice value ⟨pos, value.size⟩).toList
  | (span, text) :: rest => (Text.slice value ⟨pos, span.start⟩).toList ++ text ++ replaced value span.stop rest

/-- What stands for each match. The first text begins with the case state `s`. -/
def renderings (t : Transform) (lookup : String → String) (value : Array Char) (s : CaseState) :
    List Match → List (Span × List Char)
  | [] => []
  | m :: ms =>
    let (out, s) := FormatToken.renderAll ⟨m.spans.map (Text.sliceOr value), lookup⟩ s t.format
    (m.whole, out) :: renderings t lookup value s ms

/-- No search answers with a match in front of the place where it began. -/
def SearchesFrom (p : Pattern) (value : Array Char) : Prop :=
  ∀ (pos : Nat) (m : Match), p.find? value pos = some m → pos ≤ m.whole.start

variable {t : Transform} {p : Pattern} {value : Array Char} {all : Bool} {lookup : String → String}

theorem le_resume (m : Match) : m.whole.start ≤ m.resume ∧ m.whole.stop ≤ m.resume ∧ m.whole.start < m.resume := by
  unfold Match.resume
  split <;> omega

theorem searchesFrom_of_keepsBehind (hp : p.tree.keepsBehind = false) : SearchesFrom p value :=
  fun _ _ hm => Pattern.le_start_of_find? hp hm

/-! ## Where the matches lie -/

theorem Finds.le_start (hp : SearchesFrom p value) {pos : Nat} {ms : List Match} (h : Finds p value all pos ms) :
    ∀ m ∈ ms, pos ≤ m.whole.start ∧ m.whole.In value := by
  induction h with
  | none _ => intro m hm; cases hm
  | alone _ hfind =>
    intro m hm
    obtain rfl := List.mem_singleton.mp hm
    exact ⟨hp _ _ hfind, Pattern.find?_bounds hfind⟩
  | @more pos first ms _ hfind _ ih =>
    intro m hm
    have hfirst := hp _ _ hfind
    rcases List.mem_cons.mp hm with rfl | hm
    · exact ⟨hfirst, Pattern.find?_bounds hfind⟩
    · obtain ⟨hle, hin⟩ := ih m hm
      exact ⟨Nat.le_trans hfirst (Nat.le_trans (le_resume first).1 hle), hin⟩

theorem Finds.disjoint (hp : SearchesFrom p value) {pos : Nat} {ms : List Match} (h : Finds p value all pos ms) :
    ms.Pairwise fun m n => m.whole.start < n.whole.start ∧ m.whole.stop ≤ n.whole.start := by
  induction h with
  | none _ => exact .nil
  | alone _ _ => exact List.pairwise_singleton _ _
  | @more pos first ms _ _ hrest ih =>
    refine List.pairwise_cons.mpr ⟨?_, ih⟩
    intro m hm
    obtain ⟨-, hstop, hstart⟩ := le_resume first
    have hle := (hrest.le_start hp m hm).1
    exact ⟨Nat.lt_of_lt_of_le hstart hle, Nat.le_trans hstop hle⟩

/-- A search with all matches ends, since each one begins further on than the one before. -/
theorem Finds.none_beyond {pos : Nat} (h : value.size < pos) : Finds p value all pos [] :=
  .none (if_neg (Nat.not_le_of_lt h))

/-! ## Texts in the place of spans -/

theorem slice_append_rest (value : Array Char) {a b : Nat} (hab : a ≤ b) :
    (Text.slice value ⟨a, b⟩).toList ++ (Text.slice value ⟨b, value.size⟩).toList =
      (Text.slice value ⟨a, value.size⟩).toList := by
  by_cases hb : b ≤ value.size
  · exact Text.slice_append_slice value hab hb
  · have hsize : value.toList.length ≤ b := by simpa using Nat.le_of_not_le hb
    simp only [Text.toList_slice]
    rw [List.take_of_length_le hsize, List.take_of_length_le (by simp), List.drop_of_length_le hsize, List.append_nil]

/-- What lies in front of the first span is kept. -/
theorem replaced_eq_append {a b : Nat} (hab : a ≤ b) {parts : List (Span × List Char)}
    (hfirst : ∀ part ∈ parts.head?, b ≤ part.1.start) :
    replaced value a parts = (Text.slice value ⟨a, b⟩).toList ++ replaced value b parts := by
  cases parts with
  | nil => exact (slice_append_rest value hab).symm
  | cons part rest =>
    simp only [replaced]
    rw [← Text.slice_append_slice value hab (hfirst part rfl)]
    simp only [List.append_assoc]

/-- Between the end of a match and the place where the next search begins nothing is replaced. -/
theorem Finds.replaced_resume (hp : SearchesFrom p value) {m : Match} {ms : List Match}
    (h : Finds p value all m.resume ms) {parts : List (Span × List Char)}
    (hparts : parts.map (·.1) = ms.map (·.whole)) :
    replaced value m.whole.stop parts =
      (Text.slice value ⟨m.whole.stop, m.resume⟩).toList ++ replaced value m.resume parts := by
  apply replaced_eq_append (le_resume m).2.1
  intro part hpart
  have hmem : part.1 ∈ ms.map (·.whole) := hparts ▸ List.mem_map_of_mem (List.mem_of_mem_head? hpart)
  obtain ⟨n, hn, hwhole⟩ := List.mem_map.mp hmem
  exact hwhole ▸ (h.le_start hp n hn).1

/-- With its own text in the place of each match the value is what it was. -/
theorem Finds.restored (hp : SearchesFrom p value) {pos : Nat} {ms : List Match} (h : Finds p value all pos ms) :
    replaced value pos (ms.map fun m => (m.whole, (Text.slice value m.whole).toList)) =
      (Text.slice value ⟨pos, value.size⟩).toList := by
  have hsplit : ∀ {pos : Nat} {m : Match}, p.find? value pos = some m →
      (Text.slice value ⟨pos, m.whole.start⟩).toList ++ (Text.slice value m.whole).toList ++
        (Text.slice value ⟨m.whole.stop, value.size⟩).toList = (Text.slice value ⟨pos, value.size⟩).toList := by
    intro pos m hfind
    obtain ⟨hle, hin⟩ := Pattern.find?_bounds hfind
    rw [Text.slice_append_slice value (hp _ _ hfind) hle,
      Text.slice_append_slice value (Nat.le_trans (hp _ _ hfind) hle) hin]
  induction h with
  | none _ => rfl
  | alone _ hfind => exact hsplit hfind
  | @more pos m ms _ hfind hrest ih =>
    rw [← hsplit hfind]
    simp only [List.map_cons, replaced]
    rw [hrest.replaced_resume hp (by simp), ih, slice_append_rest value (le_resume m).2.1]

theorem map_fst_renderings (t : Transform) (lookup : String → String) (value : Array Char) :
    ∀ (ms : List Match) (s : CaseState), (t.renderings lookup value s ms).map (·.1) = ms.map (·.whole) := by
  intro ms
  induction ms with
  | nil => exact fun _ => rfl
  | cons m ms ih =>
    intro s
    simp only [renderings, List.map_cons, ih]

/-! ## What is written -/

/-- One round: up to the search behind the match nothing but the match is replaced. The character on which an empty
match sits is kept. -/
theorem rewriteFrom_succ {pos : Nat} {m : Match} (hfind : p.find? value pos = some m) (lookup : String → String)
    (rounds : Nat) (s : CaseState) :
    let rendered := FormatToken.renderAll ⟨m.spans.map (Text.sliceOr value), lookup⟩ s t.format
    t.rewriteFrom p lookup value (rounds + 1) pos s =
      (Text.slice value ⟨pos, m.whole.start⟩).toList ++ rendered.1 ++
        ((Text.slice value ⟨m.whole.stop, m.resume⟩).toList ++
          if value.size < m.resume ∨ t.isGlobal = false then (Text.slice value ⟨m.resume, value.size⟩).toList
          else t.rewriteFrom p lookup value rounds m.resume rendered.2) := by
  intro rendered
  obtain ⟨hle, hsize⟩ := Pattern.find?_bounds hfind
  by_cases hlt : m.whole.start < m.whole.stop
  · have hresume : m.resume = m.whole.stop := if_pos hlt
    have hback : ¬ m.whole.stop ≤ m.whole.start := Nat.not_le_of_lt hlt
    have hin : ¬ value.size < m.whole.stop := Nat.not_lt_of_le hsize
    cases hglobal : t.isGlobal <;>
      simp [rewriteFrom, hfind, hlt, hresume, hback, hin, hglobal, Text.slice, rendered]
  · have hresume : m.resume = m.whole.start + 1 := if_neg hlt
    have hstop : m.whole.stop = m.whole.start := by omega
    cases hc : value[m.whole.start]? with
    | some c =>
      obtain ⟨hin, rfl⟩ := Array.getElem?_eq_some_iff.mp hc
      have hend : ¬ value.size ≤ m.whole.start := Nat.not_le_of_lt hin
      have hbeyond : ¬ value.size < m.whole.start + 1 := by omega
      have hone : (value.toList.drop m.whole.start).take 1 = [value[m.whole.start]] := by
        rw [List.drop_eq_getElem_cons (by simpa using hin)]
        simp
      cases hglobal : t.isGlobal <;>
        simp [rewriteFrom, hfind, hresume, hstop, hc, hend, hbeyond, hone, hglobal, Text.slice, rendered]
    | none =>
      have hend : value.size ≤ m.whole.start := Array.getElem?_eq_none_iff.mp hc
      have hbeyond : value.size < m.whole.start + 1 := by omega
      have hnone : value.toList.drop m.whole.start = [] := List.drop_of_length_le (by simpa using hend)
      simp [rewriteFrom, hfind, hresume, hstop, hend, hbeyond, Nat.le_of_lt hbeyond, hnone, Text.slice, rendered]

/-- The rounds are enough: the run ends where the search does. -/
theorem exists_finds (hp : SearchesFrom p value) (lookup : String → String) : ∀ (rounds pos : Nat) (s : CaseState),
    pos ≤ value.size → value.size < rounds + pos →
    ∃ ms, Finds p value t.isGlobal pos ms ∧
      t.rewriteFrom p lookup value rounds pos s = replaced value pos (t.renderings lookup value s ms) := by
  intro rounds
  induction rounds with
  | zero => intro pos s hpos hrounds; omega
  | succ rounds ih =>
    intro pos s hpos hrounds
    cases hfind : p.find? value pos with
    | none =>
      refine ⟨[], .none hfind, ?_⟩
      simp [rewriteFrom, hfind, renderings, replaced, Text.slice]
    | some m =>
      have hstart := hp _ _ hfind
      obtain ⟨-, hstop, hresume⟩ := le_resume m
      rw [rewriteFrom_succ hfind]
      by_cases hlast : value.size < m.resume ∨ t.isGlobal = false
      · rw [if_pos hlast, slice_append_rest value hstop]
        refine ⟨[m], ?_, rfl⟩
        cases hglobal : t.isGlobal with
        | false => exact .alone rfl hfind
        | true => exact .more rfl hfind (.none_beyond (by simpa [hglobal] using hlast))
      · rw [if_neg hlast]
        obtain ⟨hle, hglobal⟩ := not_or.mp hlast
        have hglobal : t.isGlobal = true := by simpa using hglobal
        obtain ⟨ms, hms, hrest⟩ := ih m.resume
          (FormatToken.renderAll ⟨m.spans.map (Text.sliceOr value), lookup⟩ s t.format).2 (by omega) (by omega)
        refine ⟨m :: ms, .more hglobal hfind hms, ?_⟩
        rw [hrest, ← hms.replaced_resume hp (map_fst_renderings t lookup value ms _)]
        rfl

/-! ## The whole match alone -/

theorem renderings_whole {name : String} (hname : Text.number64? name.toList = some 0) (hformat : t.format = [.ref name])
    (lookup : String → String) (value : Array Char) (ms : List Match) :
    t.renderings lookup value {} ms = ms.map fun m => (m.whole, (Text.slice value m.whole).toList) := by
  induction ms with
  | nil => rfl
  | cons m ms ih =>
    have hrender : FormatToken.renderAll ⟨m.spans.map (Text.sliceOr value), lookup⟩ {} t.format =
        ((Text.slice value m.whole).toList, {}) := by
      rw [hformat]
      simp [FormatToken.renderAll, FormatToken.render, FormatScope.value, hname, Match.spans, Text.sliceOr,
        CaseState.write, CaseState.inRunning]
    simp only [renderings, hrender, List.map_cons, ih]

/-- A transform finds matches that lie apart, in their order, and what it makes of the value is the value with what the
format renders in the place of each match. A guard that is wrong finds nothing, and the match itself as a format changes
nothing. -/
theorem apply_replaces {t : Transform} {value : String}
    (hsearch : ∀ p ∈ t.pattern?, SearchesFrom p (Text.chars value)) (lookup : String → String) :
    (∀ p, t.pattern? = some p → ∃ ms, Finds p (Text.chars value) t.isGlobal 0 ms ∧
      ms.Pairwise (fun m n => m.whole.start < n.whole.start ∧ m.whole.stop ≤ n.whole.start) ∧
      (∀ m ∈ ms, m.whole.In (Text.chars value)) ∧
      value.toList = replaced (Text.chars value) 0
        (ms.map fun m => (m.whole, (Text.slice (Text.chars value) m.whole).toList)) ∧
      (t.apply lookup value).toList =
        replaced (Text.chars value) 0 (t.renderings lookup (Text.chars value) {} ms)) ∧
    (t.pattern? = none → t.apply lookup value = value) ∧
    (∀ name, Text.number64? name.toList = some 0 → t.format = [.ref name] → t.apply lookup value = value) := by
  have hvalue : (Text.slice (Text.chars value) ⟨0, (Text.chars value).size⟩).toList = value.toList := by
    simp [Text.toList_slice, Text.chars]
  have hsome : ∀ p, t.pattern? = some p → ∃ ms, Finds p (Text.chars value) t.isGlobal 0 ms ∧
      (t.apply lookup value).toList =
        replaced (Text.chars value) 0 (t.renderings lookup (Text.chars value) {} ms) := by
    intro p hp
    obtain ⟨ms, hms, hrun⟩ := exists_finds (t := t) (hsearch p hp) lookup ((Text.chars value).size + 2) 0 {}
      (Nat.zero_le _) (by omega)
    refine ⟨ms, hms, ?_⟩
    rw [← hrun, apply, hp]
    exact String.toList_ofList
  have hnone : t.pattern? = none → t.apply lookup value = value := by
    intro hp
    rw [apply, hp]
  refine ⟨?_, hnone, ?_⟩
  · intro p hp
    obtain ⟨ms, hms, hrun⟩ := hsome p hp
    have hrestored := hms.restored (hsearch p hp)
    exact ⟨ms, hms, hms.disjoint (hsearch p hp), fun m hm => (hms.le_start (hsearch p hp) m hm).2,
      (hrestored.trans hvalue).symm, hrun⟩
  · intro name hname hformat
    cases hp : t.pattern? with
    | none => exact hnone hp
    | some p =>
      obtain ⟨ms, hms, hrun⟩ := hsome p hp
      rw [renderings_whole hname hformat, hms.restored (hsearch p hp), hvalue] at hrun
      exact String.toList_inj.mp hrun

/-- Empty matches behind a word and at the end, and a capital that waits for the next word. -/
theorem apply_replaces_words :
    let t : Transform := ⟨"[a-zé]*", [.ref "0", .case .upperNext], "g"⟩
    let value := "ab éd"
    (∀ p ∈ t.pattern?, SearchesFrom p (Text.chars value)) ∧
      (∃ p ms, t.pattern? = some p ∧ Finds p (Text.chars value) true 0 ms ∧
        (t.apply id value).toList = replaced (Text.chars value) 0 (t.renderings id (Text.chars value) {} ms)) ∧
      t.apply id value = "ab Éd" := by
  intro t value
  have hkeeps : ∀ p ∈ t.pattern?, p.tree.keepsBehind = false := by decide +kernel
  have hsearch : ∀ p ∈ t.pattern?, SearchesFrom p (Text.chars value) :=
    fun p hp => searchesFrom_of_keepsBehind (hkeeps p hp)
  obtain ⟨p, hp⟩ : ∃ p, t.pattern? = some p := Option.isSome_iff_exists.mp (by decide +kernel)
  have hglobal : t.isGlobal = true := by decide +kernel
  obtain ⟨ms, hms, -, -, -, hrun⟩ := (apply_replaces hsearch id).1 p hp
  rw [hglobal] at hms
  exact ⟨hsearch, ⟨p, ms, hp, hms, hrun⟩, by decide +kernel⟩

end Transform

end Scribe
