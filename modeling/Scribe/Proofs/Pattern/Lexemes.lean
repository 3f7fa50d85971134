import Scribe.Pattern.Union
import Scribe.Proofs.Pattern.Classes

/-!
# Lexemes in another place

A lexeme is read alike wherever its characters stand and nothing else begins in front of where the reader
stops looking. Only a number after a backslash also depends on how many groups there are.
-/

namespace Scribe

/-- Whether the tree holds no group and refers to none. -/
def Tree.isPlain : Tree → Bool
  | .backref _ _ | .group _ _ | .ifGroup _ _ _ => false
  | .atomic t | .ahead _ t | .behind _ t | .repetition t _ _ _ => isPlain t
  | .seq s t | .alt s t => isPlain s && isPlain t
  | _ => true

namespace Pattern

variable {n used : Nat} {cs ds : List Char} {x : Lexeme}

/-! ## Quantifiers -/

theorem scanUpper_shares (h : Shares n cs ds) (low k : Nat) : scanUpper low k ds = scanUpper low k cs := by
  have hd := h.drop_scanNumber
  simp only [scanUpper, scanNumber_shares h]
  split
  · rfl
  · split
    · rfl
    · split
      · rename_i heq
        obtain ⟨t, ht, -⟩ := (heq ▸ hd.symm).cons_of_plain (by decide)
        rw [ht]
        rfl
      · rename_i hne
        split
        · rename_i heq
          exact absurd heq (hd.symm.ne_cons (by decide) hne _)
        · rfl

theorem scanInterval_shares (h : Shares n cs ds) : scanInterval ds = scanInterval cs := by
  have hd := h.drop_scanNumber
  simp only [scanInterval, scanNumber_shares h]
  split
  · rfl
  · split
    · rename_i heq
      obtain ⟨t, ht, hd⟩ := (heq ▸ hd.symm).cons_of_plain (by decide)
      rw [ht]
      exact scanUpper_shares hd.symm _ _
    · rename_i heq
      obtain ⟨t, ht, -⟩ := (heq ▸ hd.symm).cons_of_plain (by decide)
      rw [ht]
      rfl
    · rename_i hcomma hbrace
      split
      · rename_i heq
        exact absurd heq (hd.symm.ne_cons (by decide) hcomma _)
      · rename_i heq
        exact absurd heq (hd.symm.ne_cons (by decide) hbrace _)
      · rfl

theorem applyMark_shares (h : Shares n cs ds) (q : Quantifier) (isFixed isInterval : Bool) :
    applyMark q isFixed isInterval ds = applyMark q isFixed isInterval cs := by
  unfold applyMark
  split
  · obtain ⟨t, rfl, -⟩ := h.symm.cons_of_plain (by decide)
    rfl
  · obtain ⟨t, rfl, -⟩ := h.symm.cons_of_plain (by decide)
    rfl
  · rename_i hlazy hmore
    split
    · exact absurd rfl (h.symm.ne_cons (by decide) hlazy _)
    · exact absurd rfl (h.symm.ne_cons (by decide) hmore _)
    · rfl

theorem scanBrace_shares : Keeps scanBrace := by
  intro n used cs ds x h hs hu
  unfold scanBrace at hs ⊢
  rw [scanInterval_shares h]
  obtain ⟨interval, hi, hs⟩ := bind_eq_ok.mp hs
  refine bind_eq_ok.mpr ⟨interval, hi, ?_⟩
  split at hs
  · exact hs
  · rename_i q isFixed k
    have hk : k ≤ used := by
      cases hs
      exact Nat.le_add_right _ _
    dsimp only at hs ⊢
    rw [applyMark_shares (h.drop (Nat.le_trans hk hu))]
    exact hs

/-! ## Groups -/

theorem lt_of_scanFlags {start : Nat} {flags flags' : Flags} {value grouped : Bool}
    (hs : scanFlags flags value start cs = .ok (flags', grouped, used)) : start < used := by
  fun_induction scanFlags flags value start cs with
  | case1 | case8 => cases hs
  | case2 | case3 => cases hs; exact Nat.lt_succ_self _
  | case4 _ _ _ _ ih | case5 _ _ _ _ ih | case6 _ _ _ _ ih | case7 _ _ _ _ ih => exact Nat.lt_of_succ_lt (ih hs)

theorem scanFlags_shares {start : Nat} {flags flags' : Flags} {value grouped : Bool}
    (h : Shares (used - start) cs ds) (hs : scanFlags flags value start cs = .ok (flags', grouped, used)) :
    scanFlags flags value start ds = .ok (flags', grouped, used) := by
  have hlt := lt_of_scanFlags hs
  fun_induction scanFlags flags value start cs generalizing ds with
  | case1 | case8 => cases hs
  | case2 | case3 =>
    obtain ⟨ds, rfl, -⟩ := h.cons_of_pos (by omega)
    exact hs
  | case4 _ _ _ _ ih | case5 _ _ _ _ ih | case6 _ _ _ _ ih | case7 _ _ _ _ ih =>
    obtain ⟨ds, rfl, h₁⟩ := h.cons_of_pos (by omega)
    exact ih (by rwa [Nat.sub_sub] at h₁) hs (lt_of_scanFlags hs)

theorem lt_of_scanComment {start : Nat} (hs : scanComment start cs = .ok used) : start < used := by
  fun_induction scanComment start cs with
  | case1 => cases hs
  | case2 _ _ _ ih => have := ih hs; omega
  | case3 => cases hs; exact Nat.lt_succ_self _
  | case4 _ _ _ _ _ ih => exact Nat.lt_of_succ_lt (ih hs)

theorem scanComment_shares {start : Nat} (h : Shares (used - start) cs ds) (hs : scanComment start cs = .ok used) :
    scanComment start ds = .ok used := by
  have hlt := lt_of_scanComment hs
  fun_induction scanComment start cs generalizing ds with
  | case1 => cases hs
  | case2 start c rest ih =>
    have hlt' := lt_of_scanComment hs
    obtain ⟨ds, rfl, h₁⟩ := h.cons_of_pos (by omega)
    obtain ⟨ds, rfl, h₂⟩ := h₁.cons_of_pos (by omega)
    exact ih (by rwa [Nat.sub_sub, Nat.sub_sub] at h₂) hs hlt'
  | case3 =>
    obtain ⟨ds, rfl, -⟩ := h.cons_of_pos (by omega)
    exact hs
  | case4 start c rest hc hd ih =>
    obtain ⟨ds, rfl, h₁⟩ := h.cons_of_pos (by omega)
    have hne : c ≠ '\\' := by
      rintro rfl
      cases rest with
      | nil => cases hs
      | cons d rest => exact hc d rest rfl rfl
    rw [scanComment.eq_4 _ _ _ (fun _ _ h => absurd h hne) hd]
    exact ih (by rwa [Nat.sub_sub] at h₁) hs (lt_of_scanComment hs)

theorem scanNamed_shares (close : Char) : Keeps (scanNamed close) :=
  fun _ _ _ _ _ h hs hu => (scanName_shares close false).map h hs (fun _ _ => (Nat.add_zero _).symm) hu

theorem scanCondition_shares : Keeps scanCondition := by
  intro n used cs ds x h hs hu
  unfold scanCondition at hs
  split at hs
  · obtain ⟨ds, rfl, h₁⟩ := h.cons_of_plain (by decide)
    exact (scanName_shares _ _).map h₁ hs (fun _ _ => rfl) (by omega)
  · obtain ⟨ds, rfl, h₁⟩ := h.cons_of_plain (by decide)
    exact (scanName_shares _ _).map h₁ hs (fun _ _ => rfl) (by omega)
  · rename_i hangle hquote
    rw [scanCondition.eq_3 ds (h.ne_cons (by decide) hangle) (h.ne_cons (by decide) hquote)]
    exact (scanName_shares _ _).map h hs (fun _ _ => (Nat.add_zero _).symm) hu

theorem scanAngle_shares (flags : Flags) : Keeps (scanAngle flags) := by
  intro n used cs ds x h hs hu
  unfold scanAngle at hs
  split at hs
  · cases hs
  · obtain ⟨ds, rfl, -⟩ := h.cons_of_plain (by decide)
    exact hs
  · obtain ⟨ds, rfl, -⟩ := h.cons_of_plain (by decide)
    exact hs
  · rename_i hnil hahead hnot
    have hnamed := scanNamed_shares _ h hs hu
    rw [scanAngle.eq_4 _ ds ?_ (h.ne_cons (by decide) hahead) (h.ne_cons (by decide) hnot)]
    · exact hnamed
    · rintro rfl
      cases hnamed

theorem scanOption_shares (flags : Flags) : Keeps (scanOption flags) := by
  intro n used cs ds x h hs hu
  unfold scanOption at hs
  split at hs
  · cases hs
    obtain ⟨ds, rfl, -⟩ := h.cons_of_pos hu
    rfl
  · cases hs
    obtain ⟨ds, rfl, -⟩ := h.cons_of_pos hu
    rfl
  · cases hs
    obtain ⟨ds, rfl, -⟩ := h.cons_of_pos hu
    rfl
  · cases hs
    obtain ⟨ds, rfl, -⟩ := h.cons_of_pos hu
    rfl
  · obtain ⟨k, hk, heq⟩ := map_eq_ok.mp hs
    cases heq
    obtain ⟨ds, rfl, h₁⟩ := h.cons_of_plain (by decide)
    exact map_eq_ok.mpr ⟨_, scanComment_shares (h₁.mono (by omega)) hk, rfl⟩
  · obtain ⟨ds, rfl, h₁⟩ := h.cons_of_plain (by decide)
    exact (scanAngle_shares flags).map h₁ hs (fun _ _ => rfl) (by omega)
  · obtain ⟨ds, rfl, h₁⟩ := h.cons_of_plain (by decide)
    exact (scanNamed_shares _).map h₁ hs (fun _ _ => rfl) (by omega)
  · obtain ⟨ds, rfl, h₁⟩ := h.cons_of_plain (by decide)
    exact scanCondition_shares.map h₁ hs (fun _ _ => rfl) (by omega)
  · cases hs
  · rename_i h₁ h₂ h₃ h₄ h₅ h₆ h₇ h₈ h₉
    obtain ⟨⟨flags', grouped, k⟩, hflags, heq⟩ := map_eq_ok.mp hs
    cases heq
    have hscan := scanFlags_shares (h.mono hu) hflags
    have hpos := lt_of_scanFlags hflags
    obtain ⟨c, cs, ds, rfl, rfl, -⟩ := (h.mono (m := 1) (by omega)).exists_cons
    have hne {d : Char} (hd : ∀ t, c :: cs = d :: t → False) : ∀ t, c :: ds = d :: t → False :=
      fun _ heq => hd cs (by cases heq; rfl)
    rw [scanOption.eq_10 _ _ (hne h₁) (hne h₂) (hne h₃) (hne h₄) (hne h₅) (hne h₆) (hne h₇) (hne h₈) (hne h₉)]
    exact map_eq_ok.mpr ⟨_, hscan, rfl⟩

theorem scanOpening_shares (flags : Flags) : Keeps (scanOpening flags) := by
  intro n used cs ds x h hs hu
  unfold scanOpening at hs
  split at hs
  · obtain ⟨ds, rfl, h₁⟩ := h.cons_of_plain (by decide)
    exact (scanOption_shares flags).map h₁ hs (fun _ _ => rfl) (by omega)
  · rename_i hne
    rw [scanOpening.eq_2 _ ds (h.ne_cons (by decide) hne)]
    exact hs

/-! ## Escapes -/

theorem scanNameReference_shares : Keeps scanNameReference := by
  intro n used cs ds x h hs hu
  unfold scanNameReference at hs
  split at hs
  · obtain ⟨ds, rfl, h₁⟩ := h.cons_of_plain (by decide)
    exact (scanName_shares _ _).map h₁ hs (fun _ _ => rfl) (by omega)
  · obtain ⟨ds, rfl, h₁⟩ := h.cons_of_plain (by decide)
    exact (scanName_shares _ _).map h₁ hs (fun _ _ => rfl) (by omega)
  · rename_i hangle hquote
    rw [scanNameReference.eq_3 ds (h.ne_cons (by decide) hangle) (h.ne_cons (by decide) hquote)]
    exact hs

theorem scanCall_shares : Keeps scanCall := by
  intro n used cs ds x h hs _
  unfold scanCall at hs
  split at hs
  · obtain ⟨_, _, hs⟩ := bind_eq_ok.mp hs
    cases hs
  · rename_i hne
    rw [scanCall.eq_2 ds (h.ne_cons (by decide) hne)]
    exact hs

theorem scanBackslash_shares {groupCount : Nat} (h : Shares n cs ds)
    (hs : scanBackslash groupCount cs = .ok (x, used)) (hu : used ≤ n)
    (hd : ∀ c ∈ cs.head?, PatternUnion.isNonzeroDigit c = false) (groupCount' : Nat) :
    scanBackslash groupCount' ds = .ok (x, used) := by
  unfold scanBackslash at hs
  split at hs
  · cases hs
  · rename_i c rest
    split at hs
    · rename_i t ht
      cases hs
      obtain ⟨ds, rfl, -⟩ := h.cons_of_pos hu
      simp only [scanBackslash, ht]
    · rename_i ht
      split at hs
      · obtain ⟨ds, rfl, h₁⟩ := h.cons_of_plain (by decide)
        exact scanNameReference_shares.map h₁ hs (fun _ _ => rfl) (by omega)
      · obtain ⟨ds, rfl, h₁⟩ := h.cons_of_plain (by decide)
        exact scanCall_shares.map h₁ hs (fun _ _ => rfl) (by omega)
      · have hoctal := (scanOctal_shares 3).map h hs (fun _ _ => (Nat.add_zero _).symm) hu
        obtain ⟨ds, rfl, -⟩ := h.cons_of_plain (by decide)
        exact hoctal
      · rename_i hk hg h0
        have hdigit : c.isDigit = false := by
          have := hd c rfl
          simp only [PatternUnion.isNonzeroDigit, Bool.and_eq_false_iff, bne_eq_false_iff_eq] at this
          exact this.resolve_right h0
        rw [hdigit] at hs
        obtain ⟨⟨y, k⟩, hy, hs⟩ := bind_eq_ok.mp hs
        obtain ⟨z, hz, hs⟩ := bind_eq_ok.mp hs
        cases hs
        obtain ⟨ds, rfl, h₁⟩ := h.cons_of_pos (by omega)
        rw [scanBackslash.eq_5 _ _ _ hk hg h0]
        simp only [ht, hdigit]
        exact bind_eq_ok.mpr ⟨_, scanEscape_shares c h₁ hy (by omega), bind_eq_ok.mpr ⟨_, hz, rfl⟩⟩

/-! ## All lexemes -/

theorem scanPlain_shares {flags : Flags} {c : Char} (h : Shares (scanPlain flags c cs).2 cs ds) :
    scanPlain flags c ds = scanPlain flags c cs := by
  unfold scanPlain at h ⊢
  split
  · rfl
  · rename_i hblank
    split
    · rename_i hcomment
      rw [if_neg hblank, if_pos hcomment] at h
      rw [h.takeWhile_eq_of_lt (Nat.lt_succ_self _)]
    · rfl

/-- What a lexeme is does not depend on the groups, unless it is a number after a backslash. -/
theorem scan_shares {flags : Flags} {groupCount : Nat} {c : Char} (h : Shares used cs ds)
    (hs : scan flags groupCount c cs = .ok (x, used))
    (hd : c = '\\' → ∀ d ∈ cs.head?, PatternUnion.isNonzeroDigit d = false) (groupCount' : Nat) :
    scan flags groupCount' c ds = .ok (x, used) := by
  unfold scan at hs ⊢
  split at hs
  · exact scanBackslash_shares h hs (Nat.le_refl _) (hd rfl) groupCount'
  · exact scanOpening_shares _ h hs (Nat.le_refl _)
  · exact hs
  · exact hs
  · obtain ⟨⟨content, negated, k⟩, hread, heq⟩ := map_eq_ok.mp hs
    cases heq
    exact map_eq_ok.mpr ⟨_, readClass_shares hread h, rfl⟩
  · exact hs
  · exact hs
  · exact hs
  · rw [← hs, scanQuantifier, scanQuantifier, applyMark_shares h]
  · rw [← hs, scanQuantifier, scanQuantifier, applyMark_shares h]
  · rw [← hs, scanQuantifier, scanQuantifier, applyMark_shares h]
  · exact scanBrace_shares h hs (Nat.le_refl _)
  · rw [← hs]
    refine congrArg Except.ok (scanPlain_shares ?_)
    rw [Except.ok.inj hs]
    exact h

/-! ## What lexemes hold -/

/-- Whether the lexeme is no number after a backslash, and a tree in it is plain. -/
def Lexeme.isPlain : Lexeme → Bool
  | .number _ => false
  | .tree t => t.isPlain
  | _ => true

section
variable {k groupCount : Nat} {flags : Flags} {c : Char}

theorem isPlain_scanNamed {close : Char} (hs : scanNamed close cs = .ok (x, used)) : x.isPlain := by
  obtain ⟨⟨_, _⟩, -, heq⟩ := map_eq_ok.mp hs
  cases heq
  rfl

theorem isPlain_scanCondition (hs : scanCondition cs = .ok (x, used)) : x.isPlain := by
  unfold scanCondition at hs
  split at hs <;>
  · obtain ⟨⟨_, _⟩, -, heq⟩ := map_eq_ok.mp hs
    cases heq
    rfl

theorem isPlain_scanAngle (hs : scanAngle flags cs = .ok (x, used)) : x.isPlain := by
  unfold scanAngle at hs
  split at hs
  · cases hs
  · cases hs; rfl
  · cases hs; rfl
  · exact isPlain_scanNamed hs

theorem isPlain_scanOption (hs : scanOption flags cs = .ok (x, used)) : x.isPlain := by
  unfold scanOption at hs
  split at hs
  · cases hs; rfl
  · cases hs; rfl
  · cases hs; rfl
  · cases hs; rfl
  · obtain ⟨_, -, heq⟩ := map_eq_ok.mp hs
    cases heq
    rfl
  · obtain ⟨⟨_, _⟩, hy, heq⟩ := map_eq_ok.mp hs
    cases heq
    exact isPlain_scanAngle hy
  · obtain ⟨⟨_, _⟩, hy, heq⟩ := map_eq_ok.mp hs
    cases heq
    exact isPlain_scanNamed hy
  · obtain ⟨⟨_, _⟩, hy, heq⟩ := map_eq_ok.mp hs
    cases heq
    exact isPlain_scanCondition hy
  · cases hs
  · obtain ⟨⟨_, _, _⟩, -, heq⟩ := map_eq_ok.mp hs
    cases heq
    rfl

theorem isPlain_scanOpening (hs : scanOpening flags cs = .ok (x, used)) : x.isPlain := by
  unfold scanOpening at hs
  split at hs
  · obtain ⟨⟨_, _⟩, hy, heq⟩ := map_eq_ok.mp hs
    cases heq
    exact isPlain_scanOption hy
  · cases hs
    rfl

theorem isPlain_scanNameReference (hs : scanNameReference cs = .ok (x, used)) : x.isPlain := by
  unfold scanNameReference at hs
  split at hs
  · obtain ⟨⟨_, _⟩, -, heq⟩ := map_eq_ok.mp hs
    cases heq
    rfl
  · obtain ⟨⟨_, _⟩, -, heq⟩ := map_eq_ok.mp hs
    cases heq
    rfl
  · cases hs
    rfl

theorem isPlain_scanCall (hs : scanCall cs = .ok (x, used)) : x.isPlain := by
  unfold scanCall at hs
  split at hs
  · obtain ⟨_, -, hs⟩ := bind_eq_ok.mp hs
    cases hs
  · cases hs
    rfl

theorem isPlain_lexeme {e : Escaped} (hs : e.lexeme = .ok x) : x.isPlain := by
  unfold Escaped.lexeme at hs
  split at hs
  · split at hs
    · cases hs; rfl
    · split at hs
      · cases hs; rfl
      · cases hs
  · cases hs; rfl
  · cases hs; rfl

theorem isPlain_treeEscape? {t : Tree} (hs : treeEscape? c = some t) : t.isPlain := by
  unfold treeEscape? at hs
  split at hs
  · cases hs; rfl
  · cases hs; rfl
  · cases hs; rfl
  · cases hs; rfl
  · obtain ⟨a, -, rfl⟩ := Option.map_eq_some_iff.mp hs
    rfl

theorem isPlain_altAll : ∀ {ts : List Tree}, (∀ t ∈ ts, t.isPlain) → (Tree.altAll ts).isPlain
  | [], _ => rfl
  | [t], h => h t (.head _)
  | t :: u :: ts, h => by
    rw [Tree.altAll.eq_3 _ _ (List.cons_ne_nil u ts), Tree.isPlain, Bool.and_eq_true]
    exact ⟨h t (.head _), isPlain_altAll fun v hv => h v (.tail _ hv)⟩

theorem isPlain_classTree (content : CharSet) (negated caseless : Bool) :
    (classTree content negated caseless).isPlain := by
  unfold classTree
  split
  · rfl
  · split
    · rfl
    · refine isPlain_altAll fun t ht => ?_
      rcases List.mem_cons.mp ht with rfl | ht
      · rfl
      · obtain ⟨_, -, rfl⟩ := List.mem_map.mp ht
        rfl

theorem isPlain_scanReference (hs : scanReference groupCount c cs = .ok (x, used)) :
    x.isPlain ∨ x = .number (scanNumber (c :: cs)).1 ∧ used = (scanNumber (c :: cs)).2 := by
  unfold scanReference at hs
  generalize scanNumber (c :: cs) = number at hs ⊢
  dsimp only at hs
  split at hs
  · cases hs
    exact .inr ⟨rfl, rfl⟩
  · split at hs
    · cases hs
      exact .inl rfl
    · obtain ⟨⟨_, _⟩, -, heq⟩ := map_eq_ok.mp hs
      cases heq
      exact .inl rfl

theorem isPlain_scanBackslash (hs : scanBackslash groupCount cs = .ok (x, used)) :
    x.isPlain ∨ (∃ d ∈ cs.head?, PatternUnion.isNonzeroDigit d = true) ∧
      x = .number (scanNumber cs).1 ∧ used = (scanNumber cs).2 := by
  unfold scanBackslash at hs
  split at hs
  · cases hs
  · rename_i c rest
    split at hs
    · rename_i ht
      cases hs
      exact .inl (isPlain_treeEscape? ht)
    · split at hs
      · obtain ⟨⟨_, _⟩, hy, heq⟩ := map_eq_ok.mp hs
        cases heq
        exact .inl (isPlain_scanNameReference hy)
      · obtain ⟨⟨_, _⟩, hy, heq⟩ := map_eq_ok.mp hs
        cases heq
        exact .inl (isPlain_scanCall hy)
      · obtain ⟨⟨_, _⟩, -, heq⟩ := map_eq_ok.mp hs
        cases heq
        exact .inl rfl
      · rename_i h0
        split at hs
        · rename_i hdigit
          refine (isPlain_scanReference hs).imp_right fun h => ⟨⟨c, rfl, ?_⟩, h⟩
          rw [PatternUnion.isNonzeroDigit, hdigit, Bool.true_and]
          exact bne_iff_ne.mpr h0
        · obtain ⟨⟨_, _⟩, -, hs⟩ := bind_eq_ok.mp hs
          obtain ⟨_, hx, hs⟩ := bind_eq_ok.mp hs
          cases hs
          exact .inl (isPlain_lexeme hx)

/-- All lexemes are plain but for numbers after backslashes that do not start with a zero. -/
theorem isPlain_scan (hs : scan flags groupCount c cs = .ok (x, used)) :
    x.isPlain ∨ c = '\\' ∧ (∃ d ∈ cs.head?, PatternUnion.isNonzeroDigit d = true) ∧
      x = .number (scanNumber cs).1 ∧ used = (scanNumber cs).2 := by
  unfold scan at hs
  split at hs
  · exact (isPlain_scanBackslash hs).imp_right fun h => ⟨rfl, h⟩
  · exact .inl (isPlain_scanOpening hs)
  · cases hs; exact .inl rfl
  · cases hs; exact .inl rfl
  · obtain ⟨⟨_, _, _⟩, -, heq⟩ := map_eq_ok.mp hs
    cases heq
    exact .inl (isPlain_classTree ..)
  · cases hs; exact .inl rfl
  · cases hs; exact .inl rfl
  · cases hs; exact .inl rfl
  · cases hs; exact .inl rfl
  · cases hs; exact .inl rfl
  · cases hs; exact .inl rfl
  · obtain ⟨_, -, hs⟩ := bind_eq_ok.mp hs
    split at hs <;>
    · cases hs
      exact .inl rfl
  · unfold scanPlain at hs
    split at hs
    · cases hs; exact .inl rfl
    · split at hs <;>
      · cases hs
        exact .inl rfl

end

/-! ## References by number -/

section
variable {groupCount : Nat} {flags : Flags} {c : Char}

theorem exists_toDigits {m : Nat} (hm : 0 < m) : ∃ d t, Nat.toDigits 10 m = d :: t ∧ d ≠ '0' := by
  induction m using Nat.strongRecOn with
  | _ m ih =>
    by_cases h : m < 10
    · exact ⟨m.digitChar, [], Nat.toDigits_of_lt_base h, fun h => by rw [Nat.digitChar_eq_zero] at h; omega⟩
    · obtain ⟨d, t, ht, hd⟩ := ih (m / 10) (by omega) (by omega)
      exact ⟨d, t ++ [(m % 10).digitChar],
        by rw [Nat.toDigits_of_base_le (by decide) (Nat.le_of_not_lt h), ht]; rfl, hd⟩

theorem scanNumber_toDigits (m : Nat) (hds : ∀ d ∈ ds.head?, d.isDigit = false) :
    scanNumber (Nat.toDigits 10 m ++ ds) = (m, (Nat.toDigits 10 m).length) := by
  have htake : (Nat.toDigits 10 m ++ ds).takeWhile Char.isDigit = Nat.toDigits 10 m := by
    have hstop : ds.takeWhile Char.isDigit = [] := by
      cases ds with
      | nil => rfl
      | cons d ds => exact List.takeWhile_cons_of_neg (by simp [hds d rfl])
    rw [List.takeWhile_append_of_pos fun d hd => Nat.isDigit_of_mem_toDigits (by decide) (by decide) hd,
      hstop, List.append_nil]
  have hvalue : (Nat.toDigits 10 m).foldl (fun n d => 10 * n + (d.toNat - 48)) 0 = m := by
    have := Nat.ofDigitChars_toDigits (b := 10) (n := m) (by decide) (by decide)
    rwa [Nat.ofDigitChars_eq_foldl] at this
  simp only [scanNumber, htake, hvalue]

theorem treeEscape?_of_isDigit (hc : c.isDigit = true) : treeEscape? c = none := by
  unfold treeEscape?
  split
  · cases hc
  · cases hc
  · cases hc
  · cases hc
  · rw [Option.map_eq_none_iff]
    unfold anchorEscape?
    split
    · cases hc
    · cases hc
    · cases hc
    · cases hc
    · cases hc
    · cases hc
    · rfl

theorem scan_toDigits {m : Nat} (hm : 0 < m) (hlimit : m ≤ 1000) (hopen : m ≤ groupCount ∨ m ≤ 9)
    (hds : ∀ d ∈ ds.head?, d.isDigit = false) :
    scan flags groupCount '\\' (Nat.toDigits 10 m ++ ds) = .ok (.number m, (Nat.toDigits 10 m).length) := by
  have hnumber := scanNumber_toDigits m hds
  obtain ⟨d, t, ht, h0⟩ := exists_toDigits hm
  have hdigit : d.isDigit = true :=
    Nat.isDigit_of_mem_toDigits (by decide) (by decide) (ht ▸ List.mem_cons_self : d ∈ Nat.toDigits 10 m)
  rw [ht, List.cons_append] at hnumber ⊢
  have hk : d ≠ 'k' := fun h => by subst h; cases hdigit
  have hg : d ≠ 'g' := fun h => by subst h; cases hdigit
  rw [scan, scanBackslash.eq_5 _ _ _ hk hg h0, treeEscape?_of_isDigit hdigit]
  simp only [hdigit, if_true, scanReference, hnumber]
  exact if_pos ⟨hlimit, hopen⟩

theorem pos_of_scanOctal {most : Nat} {d : Char} (hc : (digitValue? 8 c).isSome) (hmost : 0 < most)
    (hs : scanOctal most (c :: cs) = .ok (d, used)) : 0 < used := by
  simp only [scanOctal] at hs
  split at hs
  · cases hs
  · obtain ⟨⟨_, more⟩, -, heq⟩ := map_eq_ok.mp hs
    cases heq
    refine Nat.add_pos_left ?_ more
    simp only [scanDigits, List.takeWhile_cons_of_pos (p := fun d => (digitValue? 8 d).isSome) hc,
      List.length_take, List.length_cons]
    omega

theorem isSome_digitValue? (hc : c.isDigit = true) (h8 : c ≠ '8') (h9 : c ≠ '9') : (digitValue? 8 c).isSome := by
  have hle : c.toNat ≤ 57 := by
    have h : (48 ≤ c.val && c.val ≤ 57) = true := hc
    exact of_decide_eq_true (Bool.and_eq_true_iff.mp h).2
  have h8' : c.toNat ≠ 56 := fun h => h8 (Char.toNat_inj.mp h)
  have h9' : c.toNat ≠ 57 := fun h => h9 (Char.toNat_inj.mp h)
  have hlt : c.toNat - 48 < 8 := by omega
  simp only [digitValue?, hc, if_true, hlt, Option.isSome_some]

theorem pos_of_scanReference (hc : c.isDigit = true) (hs : scanReference groupCount c cs = .ok (x, used)) :
    0 < used := by
  have hnumber : 0 < (scanNumber (c :: cs)).2 := by
    simp only [scanNumber, List.takeWhile_cons_of_pos hc]
    exact Nat.succ_pos _
  unfold scanReference at hs
  generalize scanNumber (c :: cs) = number at hs hnumber
  dsimp only at hs
  split at hs
  · cases hs
    exact hnumber
  · split at hs
    · cases hs
      exact Nat.one_pos
    · rename_i h89
      obtain ⟨⟨d, k⟩, hd, heq⟩ := map_eq_ok.mp hs
      cases heq
      exact pos_of_scanOctal (isSome_digitValue? hc (fun h => h89 (.inl h)) fun h => h89 (.inr h)) (by decide) hd

theorem pos_of_scanBackslash (hs : scanBackslash groupCount cs = .ok (x, used)) : 0 < used := by
  unfold scanBackslash at hs
  split at hs
  · cases hs
  · split at hs
    · cases hs
      exact Nat.one_pos
    · split at hs
      · obtain ⟨⟨_, _⟩, -, heq⟩ := map_eq_ok.mp hs
        cases heq
        exact Nat.succ_pos _
      · obtain ⟨⟨_, _⟩, -, heq⟩ := map_eq_ok.mp hs
        cases heq
        exact Nat.succ_pos _
      · obtain ⟨⟨_, _⟩, hd, heq⟩ := map_eq_ok.mp hs
        cases heq
        exact pos_of_scanOctal (by decide) (by decide) hd
      · split at hs
        · exact pos_of_scanReference ‹_› hs
        · obtain ⟨⟨_, _⟩, -, hs⟩ := bind_eq_ok.mp hs
          obtain ⟨_, -, hs⟩ := bind_eq_ok.mp hs
          cases hs
          exact Nat.succ_pos _

end

end Pattern

end Scribe
