import Scribe.Proofs.Snippet.Layout

/-!
# Occurrences in a filled snippet

Each occurrence stands between two tokens of its marker. One that is closed before another one is opened ends in the
text before the other one begins.
-/

namespace Scribe

namespace Expansion

/-- The occurrence of the one marker is closed before that of the other one is opened. -/
def Precedes (tokens : List SnippetToken) (m m' : Nat) : Prop :=
  ∃ front behind, tokens = front ++ behind ∧ m ∉ markers behind ∧ m' ∉ markers front

theorem written_append (xs ys : List SnippetToken) : written (xs ++ ys) = written xs ++ written ys :=
  List.flatMap_append

@[simp] theorem written_tabstop (t : TabstopMark) (rest : List SnippetToken) :
    written (.tabstop t :: rest) = written rest := by
  simp [written, SnippetToken.text?]

@[simp] theorem written_text (s : String) (rest : List SnippetToken) :
    written (.text s :: rest) = s.toList ++ written rest := by
  simp [written, SnippetToken.text?]

section
variable {before after : List Char} {opened : List Nat} {tokens : List SnippetToken} {fields : List Field} {f g : Field}

/-- The two tokens of a field, and what stands before, between and behind them. -/
theorem Laid.split (h : Laid before opened tokens after fields) : ∀ f ∈ fields, ∃ front inner behind t,
    tokens = front ++ .tabstop t :: inner ++ .tabstop t :: behind ∧ t.marker = f.marker ∧
      f.before = before ++ written front ∧ f.upto = f.before ++ written inner := by
  induction h with
  | nil => intro f hf; cases hf
  | @text before after opened s rest fields _ ih =>
    intro f hf
    obtain ⟨front, inner, behind, t, rfl, hm, hb, hu⟩ := ih f hf
    refine ⟨.text s :: front, inner, behind, t, rfl, hm, ?_, hu⟩
    rw [hb, written_text, List.append_assoc]
  | @field before mid after opened t inner rest fields more _ hi hr ihi ihr =>
    intro f hf
    rcases List.mem_cons.mp hf with rfl | hf
    · exact ⟨[], inner, rest, t, rfl, rfl, (List.append_nil _).symm, hi.after_eq⟩
    · rcases List.mem_append.mp hf with hf | hf
      · obtain ⟨front', inner', behind', t', rfl, hm, hb, hu⟩ := ihi f hf
        exact ⟨.tabstop t :: front', inner', behind' ++ .tabstop t :: rest, t', by simp, hm, by simpa using hb, hu⟩
      · obtain ⟨front', inner', behind', t', rfl, hm, hb, hu⟩ := ihr f hf
        refine ⟨.tabstop t :: inner ++ .tabstop t :: front', inner', behind', t', by simp, hm, ?_, hu⟩
        rw [hb, hi.after_eq]
        simp [written_append]

theorem Laid.upto_prefix (h : Laid before opened tokens after fields) (hf : f ∈ fields) (hg : g ∈ fields)
    (hp : Precedes tokens f.marker g.marker) : f.upto <+: g.before := by
  obtain ⟨front, behind, rfl, hnf, hng⟩ := hp
  -- What is written up to the end of the one, up to the cut, and up to the other.
  have hleft : f.upto <+: before ++ written front := by
    obtain ⟨xs, inner, ys, t, he, hm, hb, hu⟩ := h.split f hf
    rcases List.append_eq_append_iff.mp he.symm with ⟨rest, rfl, -⟩ | ⟨rest, -, rfl⟩
    · rw [hu, hb]
      simp [written_append, List.prefix_append]
    · exact absurd (by simp [hm]) hnf
  have hright : before ++ written front <+: g.before := by
    obtain ⟨xs, inner, ys, t, he, hm, hb, -⟩ := h.split g hg
    rw [List.append_assoc] at he
    rcases List.append_eq_append_iff.mp he with ⟨rest, rfl, -⟩ | ⟨rest, rfl, hrest⟩
    · rw [hb]
      simp [written_append, List.prefix_append]
    · cases rest with
      | nil => simp [hb]
      | cons x rest =>
        obtain ⟨rfl, -⟩ := List.cons.inj hrest
        exact absurd (by simp [hm]) hng
  exact hleft.trans hright

end

end Expansion

end Scribe
