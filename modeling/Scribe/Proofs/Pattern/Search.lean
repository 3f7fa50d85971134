import Scribe.Proofs.Pattern.Bounds

/-!
# What a search finds

A search tries one place after the other and reports the match at the first one where the pattern matches.
The place where it began is seen by one anchor only.
-/

namespace Scribe

/-- Whether the tree asks where the search began. -/
def Tree.hasSearchStart : Tree → Bool
  | .anchor a => a == .searchStart
  | .group _ t | .atomic t | .ahead _ t | .behind _ t | .repetition t _ _ _ => hasSearchStart t
  | .seq s t | .alt s t | .ifGroup _ s t => hasSearchStart s || hasSearchStart t
  | _ => false

namespace Pattern

/-- A match that is about to begin at `place`. -/
def Progress.fresh (groupCount place : Nat) : Progress := ⟨place, place, Array.replicate (groupCount + 1) none⟩

def Progress.report (s : Progress) : Match := { whole := ⟨min s.start s.pos, s.pos⟩, groups := s.groups.toList.drop 1 }

def matchAt (p : Pattern) (input : Input) (place : Nat) : Option Progress :=
  run input p.tree (.fresh p.groupCount place) some

variable {p : Pattern} {input : Input} {text : Array Char} {start place : Nat} {r : Progress} {m : Match}

/-! ## The first place -/

theorem searchFrom_zero : searchFrom input p.tree p.groupCount start 0 = p.matchAt input start := rfl

theorem searchFrom_succ (n : Nat) : searchFrom input p.tree p.groupCount start (n + 1) =
    orElse (p.matchAt input start) fun _ => searchFrom input p.tree p.groupCount (start + 1) n := rfl

theorem searchFrom_eq_none_iff {n : Nat} : searchFrom input p.tree p.groupCount start n = none ↔
    ∀ place, start ≤ place → place ≤ start + n → p.matchAt input place = none := by
  induction n generalizing start with
  | zero =>
    rw [searchFrom_zero]
    constructor
    · intro h place h₁ h₂
      rwa [Nat.le_antisymm h₂ h₁]
    · exact fun h => h start (Nat.le_refl _) (Nat.le_refl _)
  | succ n ih =>
    rw [searchFrom_succ]
    constructor
    · intro h place h₁ h₂
      cases hstart : p.matchAt input start with
      | some r => rw [hstart] at h; cases h
      | none =>
        rw [hstart] at h
        rcases Nat.eq_or_lt_of_le h₁ with rfl | h₁
        · exact hstart
        · exact ih.mp h place h₁ (by omega)
    · intro h
      rw [h start (Nat.le_refl _) (Nat.le_add_right _ _)]
      exact ih.mpr fun place h₁ h₂ => h place (by omega) (by omega)

theorem searchFrom_eq_some_iff {n : Nat} : searchFrom input p.tree p.groupCount start n = some r ↔
    ∃ place, start ≤ place ∧ place ≤ start + n ∧ p.matchAt input place = some r ∧
      ∀ q, start ≤ q → q < place → p.matchAt input q = none := by
  induction n generalizing start with
  | zero =>
    rw [searchFrom_zero]
    constructor
    · exact fun h => ⟨start, Nat.le_refl _, Nat.le_refl _, h, fun q _ _ => by omega⟩
    · rintro ⟨place, h₁, h₂, h, -⟩
      rwa [Nat.le_antisymm h₂ h₁] at h
  | succ n ih =>
    rw [searchFrom_succ]
    cases hstart : p.matchAt input start with
    | some r₀ =>
      constructor
      · intro h
        cases h
        exact ⟨start, Nat.le_refl _, Nat.le_add_right _ _, hstart, fun q _ _ => by omega⟩
      · rintro ⟨place, h₁, -, h, hfirst⟩
        rcases Nat.eq_or_lt_of_le h₁ with rfl | h₁
        · exact hstart.symm.trans h
        · exact nomatch (hfirst start (Nat.le_refl _) h₁).symm.trans hstart
    | none =>
      refine ih.trans ?_
      constructor
      · rintro ⟨place, h₁, h₂, h, hfirst⟩
        refine ⟨place, by omega, by omega, h, fun q hq hq' => ?_⟩
        rcases Nat.eq_or_lt_of_le hq with rfl | hq
        · exact hstart
        · exact hfirst q hq hq'
      · rintro ⟨place, h₁, h₂, h, hfirst⟩
        rcases Nat.eq_or_lt_of_le h₁ with rfl | h₁
        · exact nomatch hstart.symm.trans h
        · exact ⟨place, h₁, by omega, h, fun q hq => hfirst q (by omega)⟩

theorem find?_eq_none_iff : p.find? text start = none ↔
    ∀ place, start ≤ place → place ≤ text.size → p.matchAt ⟨text, start⟩ place = none := by
  unfold find?
  split
  · rename_i hle
    rw [Option.map_eq_none_iff, searchFrom_eq_none_iff, Nat.add_sub_cancel' hle]
  · exact iff_of_true rfl fun place h₁ h₂ => by omega

theorem isSome_find?_iff : (p.find? text start).isSome = true ↔
    ∃ place, start ≤ place ∧ place ≤ text.size ∧ (p.matchAt ⟨text, start⟩ place).isSome = true := by
  rw [← Option.ne_none_iff_isSome, ne_eq, find?_eq_none_iff]
  simp only [Classical.not_forall, ← ne_eq, Option.ne_none_iff_isSome, exists_prop]

theorem find?_eq_some_iff : p.find? text start = some m ↔
    ∃ place r, start ≤ place ∧ place ≤ text.size ∧ p.matchAt ⟨text, start⟩ place = some r ∧
      (∀ q, start ≤ q → q < place → p.matchAt ⟨text, start⟩ q = none) ∧ r.report = m := by
  unfold find?
  split
  · rename_i hle
    simp only [Option.map_eq_some_iff, searchFrom_eq_some_iff, Nat.add_sub_cancel' hle]
    constructor
    · rintro ⟨r, ⟨place, h₁, h₂, h, hfirst⟩, hm⟩
      exact ⟨place, r, h₁, h₂, h, hfirst, hm⟩
    · rintro ⟨place, r, h₁, h₂, h, hfirst, hm⟩
      exact ⟨r, ⟨place, h₁, h₂, h, hfirst⟩, hm⟩
  · exact iff_of_false (fun h => nomatch h) fun ⟨place, r, h₁, h₂, _⟩ => by omega

/-- Without `keep` a match is reported to start where it began. -/
theorem start_report (hp : p.tree.hasKeep = false) (hplace : place ≤ input.text.size)
    (h : p.matchAt input place = some r) : r.report.whole.start = place := by
  have hr := some_advances (run_advances input p.tree (fun _ : True => hp) False.elim) (s := .fresh p.groupCount place)
    hplace h
  have hstart : r.start = place := hr.start trivial
  have hpos : place ≤ r.pos := hr.forward
  show min r.start r.pos = place
  rw [hstart, Nat.min_eq_left hpos]

/-! ## Where the search began -/

section
variable (text) (o o' : Nat)

theorem literalEnd_origin (cs : List Char) (pos : Nat) :
    Input.literalEnd ⟨text, o⟩ pos cs = Input.literalEnd ⟨text, o'⟩ pos cs := by
  induction cs generalizing pos with
  | nil => rfl
  | cons c cs ih => simp only [Input.literalEnd, ih]

theorem foldedEnd_origin (folded : List Char) (pos : Nat) (pending : List Char) :
    Input.foldedEnd ⟨text, o⟩ pos pending folded = Input.foldedEnd ⟨text, o'⟩ pos pending folded := by
  induction folded generalizing pos pending with
  | nil => rfl
  | cons f folded ih =>
    cases pending with
    | nil => simp only [Input.foldedEnd, ih]
    | cons g pending => simp only [Input.foldedEnd, ih]

theorem countRun_origin (p : Char → Bool) (limit pos : Nat) :
    Input.countRun ⟨text, o⟩ p pos limit = Input.countRun ⟨text, o'⟩ p pos limit := by
  induction limit generalizing pos with
  | zero => rfl
  | succ limit ih => simp only [Input.countRun, ih]

/-- A tree that does not ask where the search began matches as in any other search. -/
theorem run_eq_of_origin {t : Tree} (h : t.hasSearchStart = false) :
    run ⟨text, o⟩ t = run ⟨text, o'⟩ t := by
  induction t with
  | empty | set | backref | keep => rfl
  | literal cs caseless =>
    funext s k
    simp only [run, literalEnd_origin text o o', foldedEnd_origin text o o']
  | anchor a =>
    have hanchor : Input.anchorHolds ⟨text, o⟩ a = Input.anchorHolds ⟨text, o'⟩ a := by
      cases a with
      | searchStart => cases h
      | _ => rfl
    funext s k
    simp only [run, hanchor]
  | group i t ih | atomic t ih | ahead negated t ih | behind negated t ih =>
    funext s k
    simp only [run, ih h]
  | repetition t least most greedy ih =>
    funext s k
    simp only [run, ih h, runChars, countRun_origin text o o']
  | seq t u ih₁ ih₂ | alt t u ih₁ ih₂ | ifGroup gs t u ih₁ ih₂ =>
    obtain ⟨h₁, h₂⟩ := Bool.or_eq_false_iff.mp h
    funext s k
    simp only [run, ih₁ h₁, ih₂ h₂]

end

/-- What has been found is found again by a search from its own start. -/
theorem find?_start (hkeep : p.tree.hasKeep = false) (hstart : p.tree.hasSearchStart = false)
    (h : p.find? text start = some m) : p.find? text m.whole.start = some m := by
  obtain ⟨place, r, -, hle, hr, -, rfl⟩ := find?_eq_some_iff.mp h
  rw [start_report hkeep hle hr]
  refine find?_eq_some_iff.mpr ⟨place, r, Nat.le_refl _, hle, ?_, fun q _ _ => by omega, rfl⟩
  exact (congrFun (congrFun (run_eq_of_origin text place start hstart) _) _).trans hr

end Pattern

end Scribe
