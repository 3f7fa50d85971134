import Scribe.Proofs.Pattern.Search

/-!
# Anchored matches

Where every way through a tree goes by an anchor, a match has a place at which that anchor holds. On a single line an
anchor for an end of the line holds at one place only, so that such a match begins or ends with the text.
-/

namespace Scribe

/-- Whether every way through the tree goes by one of these anchors. -/
def Tree.goesBy (p : Anchor → Bool) : Tree → Bool
  | .anchor a => p a
  | .group _ t | .atomic t => goesBy p t
  | .repetition t least _ _ => 0 < least && goesBy p t
  | .seq s t => goesBy p s || goesBy p t
  | .alt s t | .ifGroup _ s t => goesBy p s && goesBy p t
  | _ => false

/-- Whether the anchor holds at the start of a line. -/
def Anchor.isStart : Anchor → Bool
  | .lineStart | .textStart => true
  | _ => false

/-- Whether the anchor holds at the end of a line. -/
def Anchor.isEnd : Anchor → Bool
  | .lineEnd | .textEnd | .lastLineEnd => true
  | _ => false

namespace Pattern

variable {input : Input} {p : Anchor → Bool}

/-- On the way from one place to another one of the anchors holds. -/
def Input.HoldsBetween (input : Input) (p : Anchor → Bool) (s t : Progress) : Prop :=
  ∃ a pos, p a = true ∧ input.anchorHolds a pos = true ∧ s.pos ≤ pos ∧ pos ≤ t.pos

theorem Input.HoldsBetween.mono {s t s' t' : Progress} (h : input.HoldsBetween p s t) (hs : s'.pos ≤ s.pos)
    (ht : t.pos ≤ t'.pos) : input.HoldsBetween p s' t' := by
  obtain ⟨a, pos, ha, hholds, hle, hge⟩ := h
  exact ⟨a, pos, ha, hholds, Nat.le_trans hs hle, Nat.le_trans hge ht⟩

/-- What matches goes by one of the anchors. -/
def GoesBy (input : Input) (p : Anchor → Bool) (body : Progress → After → Option Progress) : Prop :=
  ∀ s k r, s.pos ≤ input.text.size → body s k = some r →
    ∃ t, s.pos ≤ t.pos ∧ t.pos ≤ input.text.size ∧ input.HoldsBetween p s t ∧ k t = some r

theorem forward_run (input : Input) (tree : Tree) : Advances input False False (run input tree) :=
  run_advances input tree False.elim False.elim

theorem forward_of_run (tree : Tree) {s : Progress} {k : After} {r : Progress} (hs : s.pos ≤ input.text.size)
    (h : run input tree s k = some r) : ∃ t, s.pos ≤ t.pos ∧ t.pos ≤ input.text.size ∧ k t = some r := by
  obtain ⟨t, ht, hk⟩ := forward_run input tree s k r hs h
  exact ⟨t, ht.forward, ht.inside, hk⟩

theorem goesBy_times {body : Tree} (hb : GoesBy input p (run input body)) (n : Nat) :
    GoesBy input p (times (run input body) (n + 1)) := by
  intro s k r hs h
  obtain ⟨t, hle, hin, hholds, hk⟩ := hb _ _ _ hs h
  obtain ⟨u, hu, hk⟩ := times_advances (forward_run input body) n _ _ _ hin hk
  exact ⟨u, Nat.le_trans hle hu.forward, hu.inside, hholds.mono (Nat.le_refl _) hu.forward, hk⟩

theorem oneChar?_of_goesBy {tree : Tree} (h : tree.goesBy p = true) : oneChar? tree = none := by
  cases tree <;> first | rfl | cases h

theorem goesBy_run (input : Input) : ∀ {tree : Tree}, tree.goesBy p = true → GoesBy input p (run input tree) := by
  intro tree
  induction tree with
  | empty | literal | set | backref | keep | ahead | behind => intro h; cases h
  | anchor a =>
    intro hp s k r hs h
    simp only [run] at h
    split at h
    · rename_i hholds
      exact ⟨s, Nat.le_refl _, hs, ⟨a, s.pos, hp, hholds, Nat.le_refl _, Nat.le_refl _⟩, h⟩
    · cases h
  | group index body ih =>
    intro hp s k r hs h
    obtain ⟨t, hle, hin, hholds, hk⟩ := ih hp _ _ _ hs h
    exact ⟨{ t with groups := t.groups.setIfInBounds index (some ⟨s.pos, t.pos⟩) }, hle, hin, hholds, hk⟩
  | atomic body ih =>
    intro hp s k r hs h
    simp only [run] at h
    split at h
    · rename_i t ht
      obtain ⟨u, hle, hin, hholds, hu⟩ := ih hp _ _ _ hs ht
      cases hu
      exact ⟨t, hle, hin, hholds, h⟩
    · cases h
  | repetition body least most greedy ih =>
    intro hp s k r hs h
    obtain ⟨hleast, hrounds⟩ := Bool.and_eq_true_iff.mp hp
    obtain ⟨n, rfl⟩ : ∃ n, least = n + 1 := ⟨least - 1, by have := of_decide_eq_true hleast; omega⟩
    simp only [run, oneChar?_of_goesBy hrounds] at h
    obtain ⟨t, hle, hin, hholds, hk⟩ := goesBy_times (ih hrounds) n _ _ _ hs h
    -- The rounds that are not needed only go on.
    have hmore : ∃ u, Reaches input False False t u ∧ k u = some r := by
      split at hk
      · exact upTo_advances (forward_run input body) _ _ _ _ _ hin hk
      · exact anyTimes_advances (forward_run input body) _ _ _ _ _ hin hk
    obtain ⟨u, hu, hk⟩ := hmore
    exact ⟨u, Nat.le_trans hle hu.forward, hu.inside, hholds.mono (Nat.le_refl _) hu.forward, hk⟩
  | seq first second ih₁ ih₂ =>
    intro hp s k r hs h
    rcases Bool.or_eq_true_iff.mp hp with hp | hp
    · obtain ⟨t, hle, hin, hholds, hk⟩ := ih₁ hp _ _ _ hs h
      obtain ⟨u, hle', hin', hk⟩ := forward_of_run second hin hk
      exact ⟨u, Nat.le_trans hle hle', hin', hholds.mono (Nat.le_refl _) hle', hk⟩
    · obtain ⟨t, hle, hin, hk⟩ := forward_of_run first hs h
      obtain ⟨u, hle', hin', hholds, hk⟩ := ih₂ hp _ _ _ hin hk
      exact ⟨u, Nat.le_trans hle hle', hin', hholds.mono hle (Nat.le_refl _), hk⟩
  | alt first second ih₁ ih₂ =>
    intro hp s k r hs h
    obtain ⟨hp₁, hp₂⟩ := Bool.and_eq_true_iff.mp hp
    rcases orElse_eq_some h with h | h
    · exact ih₁ hp₁ _ _ _ hs h
    · exact ih₂ hp₂ _ _ _ hs h
  | ifGroup groups yes no ih₁ ih₂ =>
    intro hp s k r hs h
    obtain ⟨hp₁, hp₂⟩ := Bool.and_eq_true_iff.mp hp
    simp only [run] at h
    split at h
    · exact ih₁ hp₁ _ _ _ hs h
    · exact ih₂ hp₂ _ _ _ hs h

/-! ## On a single line -/

section
variable {q : Pattern} {text : String} (hline : '\n' ∉ text.toList)
include hline

theorem isNewlineAt_chars (origin i : Nat) : Input.isNewlineAt ⟨Text.chars text, origin⟩ i = false := by
  rw [Bool.eq_false_iff]
  intro h
  have hi : text.toList[i]? = some '\n' := by simpa [Input.isNewlineAt, Text.chars] using h
  exact hline (List.mem_of_getElem? hi)

theorem pos_of_isEnd {origin pos : Nat} {a : Anchor} (ha : a.isEnd)
    (h : Input.anchorHolds ⟨Text.chars text, origin⟩ a pos) : pos = (Text.chars text).size := by
  have hnewline := isNewlineAt_chars hline origin
  cases a with
  | lineEnd | textEnd | lastLineEnd => simpa [Input.anchorHolds, hnewline] using h
  | lineStart | textStart | searchStart | wordBoundary | noWordBoundary => cases ha

theorem pos_of_isStart {origin pos : Nat} {a : Anchor} (ha : a.isStart)
    (h : Input.anchorHolds ⟨Text.chars text, origin⟩ a pos) : pos = 0 := by
  have hnewline := isNewlineAt_chars hline origin
  cases a with
  | lineStart | textStart => simpa [Input.anchorHolds, hnewline] using h
  | lineEnd | textEnd | lastLineEnd | searchStart | wordBoundary | noWordBoundary => cases ha

theorem stop_of_goesBy {start : Nat} {m : Match} (hq : q.tree.goesBy Anchor.isEnd)
    (h : q.find? (Text.chars text) start = some m) : m.whole.stop = (Text.chars text).size := by
  obtain ⟨place, r, -, hplace, hrun, -, rfl⟩ := find?_eq_some_iff.mp h
  obtain ⟨t, -, hin, ⟨a, at_, ha, hholds, -, hle⟩, ht⟩ :=
    goesBy_run ⟨Text.chars text, start⟩ hq (.fresh q.groupCount place) _ _ hplace hrun
  cases ht
  rw [pos_of_isEnd hline ha hholds] at hle
  exact Nat.le_antisymm hin hle

theorem start_of_goesBy {start : Nat} {m : Match} (hq : q.tree.goesBy Anchor.isStart) (hkeep : q.tree.hasKeep = false)
    (h : q.find? (Text.chars text) start = some m) : m.whole.start = 0 := by
  obtain ⟨place, r, -, hplace, hrun, -, rfl⟩ := find?_eq_some_iff.mp h
  obtain ⟨t, -, -, ⟨a, at_, ha, hholds, hle, -⟩, -⟩ :=
    goesBy_run ⟨Text.chars text, start⟩ hq (.fresh q.groupCount place) _ _ hplace hrun
  rw [start_report hkeep hplace hrun]
  exact Nat.le_zero.mp (pos_of_isStart hline ha hholds ▸ hle)

end

end Pattern

end Scribe
