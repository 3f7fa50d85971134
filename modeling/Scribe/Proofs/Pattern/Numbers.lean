import Scribe.Proofs.Pattern.Lexemes

/-!
# Moving numbers

The numbers after backslashes are moved character by character. A text without any stays as it is. Those in
comments are moved too, and a comment stays one comment thereby, since no line end and no parenthesis gets lost.
-/

namespace Scribe.Pattern

open PatternUnion

/-- A backslash and a digit other than zero, which is a reference to a group if there are enough of them. -/
def mayRefer : List Char → Bool
  | '\\' :: c :: _ => isNonzeroDigit c
  | _ => false

def hasNumber : List Char → Bool
  | [] => false
  | c :: rest => mayRefer (c :: rest) || hasNumber rest

theorem mayRefer_append {s t : List Char} (h : mayRefer (s ++ t) = false) : mayRefer s = false := by
  unfold mayRefer
  split
  · exact h
  · rfl

theorem hasNumber_append : ∀ {s t : List Char}, hasNumber (s ++ t) = false → hasNumber s = false ∧ hasNumber t = false
  | [], _, h => ⟨rfl, h⟩
  | c :: s, t, h => by
    obtain ⟨hc, hrest⟩ := Bool.or_eq_false_iff.mp h
    obtain ⟨hs, ht⟩ := hasNumber_append hrest
    exact ⟨Bool.or_eq_false_iff.mpr ⟨mayRefer_append (s := c :: s) hc, hs⟩, ht⟩

theorem moveRefs_of_hasNumber {w : Nat} {inClass : Bool} {cs : List Char} (h : hasNumber cs = false) :
    moveRefs w inClass false cs = cs := by
  generalize hskip : false = skipping
  fun_induction moveRefs w inClass skipping cs with
  | case1 => rfl
  | case2 _ _ d rest hd =>
    have hc : isNonzeroDigit d = false := (Bool.or_eq_false_iff.mp h).1
    rw [hc, Bool.and_false] at hd
    cases hd
  | case3 _ _ d rest _ ih =>
    rw [ih (Bool.or_eq_false_iff.mp (Bool.or_eq_false_iff.mp h).2).2 rfl]
  | case4 _ _ _ _ _ hdigit => simp [← hskip] at hdigit
  | case5 _ _ c rest _ _ _ ih => rw [ih (Bool.or_eq_false_iff.mp h).2 rfl]

/-- Moving the numbers of a text leaves it as it is up to a backslash. -/
theorem shares_moveRefs (w : Nat) (inClass : Bool) {t rest rest' : List Char} (h : Shares 0 rest rest') :
    Shares 0 (t ++ rest) (moveRefs w inClass false t ++ rest') := by
  generalize hskip : false = skipping
  fun_induction moveRefs w inClass skipping t with
  | case1 => exact h
  | case2 => exact .part (fun _ h => by cases h; rfl) (fun _ h => by cases h; rfl)
  | case3 _ _ d rest _ ih => exact .cons _ (.cons _ (ih rfl))
  | case4 _ _ _ _ _ hdigit => simp [← hskip] at hdigit
  | case5 _ _ c rest _ _ _ ih => exact .cons _ (ih rfl)

theorem isDigit_of_isNonzeroDigit {c : Char} (h : isNonzeroDigit c = true) : c.isDigit = true :=
  (Bool.and_eq_true_iff.mp h).1

theorem isDigit_of_mem_toDigits {n : Nat} {c : Char} (h : c ∈ Nat.toDigits 10 n) : c.isDigit = true :=
  Nat.isDigit_of_mem_toDigits (by decide) (by decide) h

/-! ## Comments -/

def isComment (extended : Bool) : List Char → Bool
  | '(' :: '?' :: '#' :: _ => true
  | '#' :: _ => extended
  | _ => false

section
variable {w used : Nat} {c : Char} {cs t rest : List Char}

theorem scanComment_of_ne (h₁ : c ≠ '\\') (h₂ : c ≠ ')') : scanComment used (c :: cs) = scanComment (used + 1) cs :=
  scanComment.eq_4 _ _ _ (fun _ _ h => absurd h h₁) h₂

theorem scanComment_digits : ∀ {t : List Char} {used : Nat}, (∀ c ∈ t, c.isDigit = true) →
    scanComment used (t ++ cs) = scanComment (used + t.length) cs
  | [], _, _ => rfl
  | c :: t, used, h => by
    have hc := h c (.head _)
    rw [List.cons_append, scanComment_of_ne (by rintro rfl; cases hc) (by rintro rfl; cases hc),
      scanComment_digits fun d hd => h d (.tail _ hd), List.length_cons, Nat.add_right_comm, Nat.add_assoc]

/-- A comment that ends with the text `t` ends with it too where the numbers are moved. -/
theorem scanComment_moveRefs (hw : 0 < w) (inClass skipping : Bool) (rest' : List Char) (start : Nat)
    (h : scanComment used (t ++ rest) = .ok (used + t.length)) :
    scanComment start (moveRefs w inClass skipping t ++ rest') = .ok (start + (moveRefs w inClass skipping t).length) := by
  fun_induction moveRefs w inClass skipping t generalizing used start with
  | case1 => exact absurd (lt_of_scanComment h) (Nat.lt_irrefl _)
  | case2 inClass _ d t hd ih =>
    have hbody : scanComment (used + 2) (t ++ rest) = .ok (used + 2 + t.length) := by
      rw [Nat.add_assoc, Nat.add_comm 2]
      exact h
    obtain ⟨e, es, hdigits, -⟩ := exists_toDigits (m := leadingNumber (d :: t) + w) (by omega)
    have hes : ∀ c ∈ es, c.isDigit = true := fun c hc => isDigit_of_mem_toDigits (hdigits ▸ List.mem_cons_of_mem e hc)
    rw [hdigits, List.append_assoc, List.cons_append, List.cons_append, scanComment, scanComment_digits hes, ih _ hbody]
    simp only [List.length_cons, List.length_append]
    congr 1
    omega
  | case3 _ _ d t _ ih =>
    have hbody : scanComment (used + 2) (t ++ rest) = .ok (used + 2 + t.length) := by
      rw [Nat.add_assoc, Nat.add_comm 2]
      exact h
    rw [List.cons_append, List.cons_append, scanComment, ih _ hbody]
    simp only [List.length_cons]
    congr 1
    omega
  | case4 _ _ c t _ hdigit ih =>
    have hc : c.isDigit = true := (Bool.and_eq_true_iff.mp hdigit).2
    rw [List.cons_append, scanComment_of_ne (by rintro rfl; cases hc) (by rintro rfl; cases hc)] at h
    exact ih _ (by rw [h, List.length_cons, Nat.add_right_comm, Nat.add_assoc])
  | case5 _ _ c t hpair _ inClass =>
    rename_i ih
    by_cases hclose : c = ')'
    · subst hclose
      have hlength : used + 1 = used + (t.length + 1) := Except.ok.inj h
      obtain rfl : t = [] := List.eq_nil_of_length_eq_zero (by omega)
      rfl
    · have hback : c ≠ '\\' := by
        rintro rfl
        cases t with
        | cons d t => exact hpair d t rfl rfl
        | nil =>
          cases rest with
          | nil => cases h
          | cons d rest =>
            have hlt : used + 2 < used + 1 := lt_of_scanComment h
            omega
      rw [List.cons_append, scanComment_of_ne hback hclose] at h
      have hbody := ih (start + 1) (h.trans (by rw [List.length_cons, Nat.add_right_comm, Nat.add_assoc]))
      rw [List.cons_append, scanComment_of_ne hback hclose]
      exact hbody.trans (by rw [List.length_cons, Nat.add_right_comm, Nat.add_assoc])

/-- One line together with its end. -/
def isLine : List Char → Bool
  | [] => false
  | c :: t => if c = '\n' then t.isEmpty else isLine t

theorem isLine_of_ne (h : c ≠ '\n') : isLine (c :: t) = isLine t := if_neg h

theorem isLine_iff : isLine t ↔ ((t ++ rest).takeWhile (· != '\n')).length + 1 = t.length := by
  induction t with
  | nil => simp [isLine]
  | cons c t ih =>
    by_cases hc : c = '\n'
    · subst hc
      simp [isLine]
    · have hc' : (c != '\n') = true := bne_iff_ne.mpr hc
      rw [isLine_of_ne hc, ih, List.cons_append, List.takeWhile_cons, if_pos hc', List.length_cons, List.length_cons,
        Nat.succ_inj]

theorem ne_of_isDigit (h : c.isDigit = true) : c ≠ '\n' := by
  rintro rfl
  cases h

theorem isLine_digits : ∀ {t : List Char}, (∀ c ∈ t, c.isDigit = true) → isLine (t ++ cs) = isLine cs
  | [], _ => rfl
  | c :: t, h => by
    rw [List.cons_append, isLine_of_ne (ne_of_isDigit (h c (.head _))), isLine_digits fun d hd => h d (.tail _ hd)]

theorem isLine_moveRefs (inClass skipping : Bool) (h : isLine t) : isLine (moveRefs w inClass skipping t) := by
  fun_induction moveRefs w inClass skipping t with
  | case1 => exact h
  | case2 inClass _ d t hd ih =>
    have hdigit : d.isDigit = true := isDigit_of_isNonzeroDigit (Bool.and_eq_true_iff.mp hd).2
    rw [isLine_of_ne (by decide), isLine_of_ne (ne_of_isDigit hdigit)] at h
    rw [List.cons_append, isLine_of_ne (by decide), isLine_digits fun c hc => isDigit_of_mem_toDigits hc]
    exact ih h
  | case3 inClass _ d t _ ih =>
    rw [isLine_of_ne (by decide)] at h ⊢
    by_cases hd : d = '\n'
    · subst hd
      obtain rfl : t = [] := List.isEmpty_iff.mp h
      rfl
    · rw [isLine_of_ne hd] at h ⊢
      exact ih h
  | case4 _ _ c t _ hdigit ih =>
    rw [isLine_of_ne (ne_of_isDigit (Bool.and_eq_true_iff.mp hdigit).2)] at h
    exact ih h
  | case5 _ _ c t =>
    rename_i ih
    by_cases hc : c = '\n'
    · subst hc
      obtain rfl : t = [] := List.isEmpty_iff.mp h
      rfl
    · rw [isLine_of_ne hc] at h ⊢
      exact ih h

theorem scan_comment {flags : Flags} {groupCount : Nat} {x : Lexeme} (hw : 0 < w)
    (hc : isComment flags.extended (c :: t)) (hs : scan flags groupCount c (t ++ rest) = .ok (x, t.length))
    (rest' : List Char) (groupCount' : Nat) :
    x = .skip ∧ ∃ t', moveRefs w false false (c :: t) = c :: t' ∧
      scan flags groupCount' c (t' ++ rest') = .ok (.skip, t'.length) := by
  unfold isComment at hc
  split at hc
  · rename_i body heq
    cases heq
    obtain ⟨⟨_, k⟩, hn, heq⟩ := map_eq_ok.mp hs
    obtain ⟨_, hk, hn⟩ := map_eq_ok.mp hn
    cases hn
    obtain ⟨rfl, hk'⟩ := Prod.mk.inj heq
    have hk' : k = 1 + body.length := by
      simp only [List.length_cons] at hk'
      omega
    have hbody : scanComment 1 (body ++ rest) = .ok (1 + body.length) := hk' ▸ hk
    have hmoved := scanComment_moveRefs hw false false rest' 1 hbody
    refine ⟨rfl, '?' :: '#' :: moveRefs w false false body, rfl, ?_⟩
    refine map_eq_ok.mpr ⟨_, map_eq_ok.mpr ⟨_, hmoved, rfl⟩, ?_⟩
    simp only [List.length_cons]
    congr 2
    omega
  · rename_i heq
    cases heq
    have hplain (cs : List Char) : scanPlain flags '#' cs = (.skip, (cs.takeWhile (· != '\n')).length + 1) := by
      simp [scanPlain, hc]
    obtain ⟨rfl, hlength⟩ := Prod.mk.inj ((hplain _).symm.trans (Except.ok.inj hs))
    have hline := isLine_moveRefs (w := w) false false (isLine_iff.mpr hlength)
    refine ⟨rfl, moveRefs w false false t, rfl, ?_⟩
    exact congrArg Except.ok ((hplain _).trans (by rw [isLine_iff.mp hline]))
  · cases hc

end

end Scribe.Pattern
