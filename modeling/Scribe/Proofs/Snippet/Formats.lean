import Scribe.Snippet.Transform

/-!
# Formats that use only groups

A format whose references are all to groups of the match writes the same whatever the variables are.
-/

namespace Scribe

/-- Whether a reference is to a group of the match. -/
def refersToGroup (name : String) : Bool := (Text.number64? name.toList).isSome

mutual

def FormatToken.usesGroups : FormatToken → Bool
  | .text _ | .case _ => true
  | .ref name | .function name _ => refersToGroup name
  | .branch name ifSet ifEmpty =>
    refersToGroup name && FormatToken.allUseGroups ifSet && FormatToken.allUseGroups ifEmpty

def FormatToken.allUseGroups : List FormatToken → Bool
  | [] => true
  | t :: rest => t.usesGroups && FormatToken.allUseGroups rest

end

/-- Whether a transform uses only groups. -/
def Transform.usesGroups (t : Transform) : Bool := FormatToken.allUseGroups t.format

theorem FormatScope.value_eq {name : String} (h : refersToGroup name = true) (groups : List String)
    (lookup lookup' : String → String) : value ⟨groups, lookup⟩ name = value ⟨groups, lookup'⟩ name := by
  unfold value
  unfold refersToGroup at h
  cases hn : Text.number64? name.toList with
  | some n => rfl
  | none =>
    rw [hn] at h
    cases h

section
variable (groups : List String) (lookup lookup' : String → String)

mutual

theorem FormatToken.render_eq : ∀ (t : FormatToken) (s : CaseState), t.usesGroups = true →
    t.render ⟨groups, lookup⟩ s = t.render ⟨groups, lookup'⟩ s
  | .text _, _, _ => by simp only [render]
  | .case _, _, _ => by simp only [render]
  | .ref name, s, h => by
    simp only [usesGroups] at h
    simp only [render, FormatScope.value_eq h groups lookup lookup']
  | .function name f, s, h => by
    simp only [usesGroups] at h
    simp only [render, FormatScope.value_eq h groups lookup lookup']
  | .branch name ifSet ifEmpty, s, h => by
    simp only [usesGroups, Bool.and_eq_true] at h
    simp only [render, FormatScope.value_eq h.1.1 groups lookup lookup']
    split
    · exact FormatToken.renderAll_eq ifEmpty s h.2
    · exact FormatToken.renderAll_eq ifSet s h.1.2

theorem FormatToken.renderAll_eq : ∀ (ts : List FormatToken) (s : CaseState), allUseGroups ts = true →
    renderAll ⟨groups, lookup⟩ s ts = renderAll ⟨groups, lookup'⟩ s ts
  | [], _, _ => by simp only [renderAll]
  | t :: rest, s, h => by
    simp only [allUseGroups, Bool.and_eq_true] at h
    simp only [renderAll]
    rw [FormatToken.render_eq t s h.1, FormatToken.renderAll_eq rest _ h.2]

end

end

namespace Transform

theorem rewriteFrom_eq {t : Transform} (h : t.usesGroups = true) (p : Pattern) (lookup lookup' : String → String)
    (value : Array Char) : ∀ (rounds pos : Nat) (s : CaseState),
    t.rewriteFrom p lookup value rounds pos s = t.rewriteFrom p lookup' value rounds pos s := by
  intro rounds
  induction rounds with
  | zero => exact fun _ _ => rfl
  | succ rounds ih =>
    intro pos s
    unfold rewriteFrom
    cases p.find? value pos with
    | none => rfl
    | some m =>
      dsimp only
      rw [FormatToken.renderAll_eq _ lookup lookup' t.format s h]
      simp only [ih]

/-- What such a transform makes of a value does not depend on the variables. -/
theorem apply_eq {t : Transform} (h : t.usesGroups = true) (lookup lookup' : String → String) (value : String) :
    t.apply lookup value = t.apply lookup' value := by
  unfold apply
  cases t.pattern? with
  | none => rfl
  | some p =>
    dsimp only
    rw [rewriteFrom_eq h p lookup lookup']

end Transform

end Scribe
