import Scribe.Proofs.Snippet.Transforms

/-!
# What a lexeme sees

A lexeme may look beyond its end, but what begins with a `$` behind it never changes it: a lexeme that does not
reach the `$` is the same without what begins there.
-/

namespace Scribe

namespace Lexeme

/-! ## What a lexeme is spelled like -/

/-- The characters that the lexeme takes. -/
def Body.spelled : Body → List Char
  | .escape c => ['\\', c]
  | .close => ['\x7d']
  | .reference name => '$' :: name
  | .opening name => '$' :: '\x7b' :: name
  | .plain c => [c]

def Format.spelled : Format → List Char
  | .colon => [':']
  | .escape c => ['\\', c]
  | .finish flags => '/' :: (flags ++ ['\x7d'])
  | .reference name => '$' :: name
  | .opening name => '$' :: '\x7b' :: name
  | .close => ['\x7d']
  | .plain c => [c]

theorem reference?_begins {cs name : List Char} (h : reference? cs = some name) : name <+: cs := by
  unfold reference? at h
  dsimp only at h
  split at h
  · cases h
    exact List.takeWhile_prefix _
  · split at h
    · cases h
    · cases h
      exact List.takeWhile_prefix _

theorem spelled_body (c : Char) (rest : List Char) :
    (body c rest).1.spelled <+: c :: rest ∧ (body c rest).1.spelled.length = (body c rest).2 + 1 := by
  fun_cases body c rest with
  | case5 rest name hname => simpa [Body.spelled] using reference?_begins hname
  | case7 rest name => simpa [Body.spelled] using List.takeWhile_prefix _
  | _ => simp [Body.spelled]

theorem spelled_format (c : Char) (rest : List Char) :
    (format c rest).1.spelled <+: c :: rest ∧ (format c rest).1.spelled.length = (format c rest).2 + 1 := by
  fun_cases format c rest with
  | case5 rest flags more hmore =>
    have hrest : rest = flags ++ '\x7d' :: more := by
      rw [← hmore]
      exact (List.prefix_iff_eq_append.mp (List.takeWhile_prefix _)).symm
    simp [Format.spelled, hrest]
  | case7 rest name hname => simpa [Format.spelled] using reference?_begins hname
  | case9 rest name => simpa [Format.spelled] using List.takeWhile_prefix _
  | _ => simp [Format.spelled]

/-! ## A dollar behind -/

theorem takeWhile_append_stop {p : Char → Bool} {stop : Char} (hstop : p stop = false) (u : List Char) :
    ∀ cs : List Char, (cs ++ stop :: u).takeWhile p = cs.takeWhile p
  | [] => by simp [hstop]
  | c :: cs => by
    rw [List.cons_append, List.takeWhile_cons, List.takeWhile_cons, takeWhile_append_stop hstop u cs]

theorem isDecimal_dollar : Unicode.isDecimal '$' = false := rfl

theorem isWord_dollar : Unicode.isWord '$' = false := rfl

theorem isNameChar_dollar : isNameChar '$' = false := rfl

theorem reference?_append (cs u : List Char) : reference? (cs ++ '$' :: u) = reference? cs := by
  unfold reference?
  rw [takeWhile_append_stop isDecimal_dollar, takeWhile_append_stop isWord_dollar]

variable {u : List Char}

/-! ## Inside of a body or a format -/

theorem body_append {c : Char} {rest : List Char} (h : (body c (rest ++ '$' :: u)).2 ≤ rest.length) :
    body c (rest ++ '$' :: u) = body c rest := by
  unfold body at h ⊢
  split
  · cases rest with
    | nil => simp at h
    | cons d rest => rfl
  · rfl
  · rw [reference?_append]
    cases reference? rest with
    | some name => rfl
    | none =>
      cases rest with
      | nil => rfl
      | cons d rest =>
        by_cases hd : d = '\x7b'
        · subst hd
          simp only [List.cons_append, takeWhile_append_stop isNameChar_dollar]
        · simp [hd]
  · rfl

theorem format_append {c : Char} {rest : List Char} (h : (format c (rest ++ '$' :: u)).2 ≤ rest.length) :
    format c (rest ++ '$' :: u) = format c rest := by
  unfold format at h ⊢
  split
  · rfl
  · cases rest with
    | nil => simp at h
    | cons d rest => rfl
  · dsimp only
    rw [takeWhile_append_stop isWord_dollar, List.drop_append_of_le_length (List.takeWhile_sublist _).length_le]
    cases rest.drop (rest.takeWhile Unicode.isWord).length with
    | nil => rfl
    | cons d more =>
      by_cases hd : d = '\x7d'
      · subst hd
        rfl
      · simp [hd]
  · rw [reference?_append]
    cases reference? rest with
    | some name => rfl
    | none =>
      cases rest with
      | nil => rfl
      | cons d rest =>
        by_cases hd : d = '\x7b'
        · subst hd
          simp only [List.cons_append, takeWhile_append_stop isWord_dollar]
        · simp [hd]
  · rfl
  · rfl

/-! ## Up to a stop -/

/-- How many characters stand in front of the first stop that no backslash escapes. A backslash cannot stand before
a line end. -/
def lengthUntil (stops : Char → Bool) : List Char → Nat
  | [] => 0
  | '\\' :: d :: rest => if d = '\n' then 0 else lengthUntil stops rest + 2
  | c :: rest => if stops c || c == '\\' then 0 else lengthUntil stops rest + 1

section
variable {stops : Char → Bool}

theorem lengthUntil_escaped {d : Char} (hd : d ≠ '\n') (rest : List Char) :
    lengthUntil stops ('\\' :: d :: rest) = lengthUntil stops rest + 2 := by
  simp [lengthUntil, hd]

theorem lengthUntil_plain {c : Char} (hc : stops c = false) (hb : c ≠ '\\') (rest : List Char) :
    lengthUntil stops (c :: rest) = lengthUntil stops rest + 1 := by
  simp [lengthUntil, hc, hb]

theorem lengthUntil_stop {c : Char} (hc : stops c = true) (hb : c ≠ '\\') (rest : List Char) :
    lengthUntil stops (c :: rest) = 0 := by
  simp [lengthUntil, hc, hb]

theorem lengthUntil_le (cs : List Char) : lengthUntil stops cs ≤ cs.length := by
  fun_induction lengthUntil stops cs with
  | case1 => simp
  | case2 => simp
  | case3 d rest hd ih => simp; omega
  | case4 => simp
  | case5 c rest hne hc ih => simp; omega

/-- What is passed over behind a name ends with a colon or in front of a brace. -/
def endsSkip (c : Char) : Bool := c == ':' || c == '\x7d'

theorem skipLength_eq (cs : List Char) :
    skipLength cs = lengthUntil endsSkip cs + if (cs.drop (lengthUntil endsSkip cs)).head? = some ':' then 1 else 0 := by
  fun_induction skipLength cs with
  | case1 => rfl
  | case2 => simp [lengthUntil]
  | case3 d rest hd ih =>
    rw [ih, lengthUntil_escaped hd]
    simp only [List.drop_succ_cons]
    omega
  | case4 => simp [lengthUntil, endsSkip]
  | case5 c rest _ hc hstop => rcases (by simpa using hstop) with rfl | rfl <;> simp [lengthUntil, endsSkip]
  | case6 c rest _ hc hstop ih =>
    simp only [Bool.or_eq_true, decide_eq_true_eq, not_or] at hstop
    rw [ih, lengthUntil_plain (by simp [endsSkip, hc, hstop.1]) hstop.2]
    simp only [List.drop_succ_cons]
    omega

theorem quotedUntil?_eq {stop : Char} (hstop : stop ≠ '\\') (cs : List Char) :
    quotedUntil? stop cs =
      if (cs.drop (lengthUntil (· == stop) cs)).head? = some stop then some (cs.take (lengthUntil (· == stop) cs))
      else none := by
  fun_induction quotedUntil? stop cs with
  | case1 => rfl
  | case2 => simp [lengthUntil, hstop.symm]
  | case3 d rest hd ih =>
    rw [ih, lengthUntil_escaped hd]
    simp only [List.drop_succ_cons, List.take_succ_cons]
    split <;> rfl
  | case4 => simp [lengthUntil]
  | case5 => simp [lengthUntil, hstop.symm]
  | case6 c rest _ hc hb ih =>
    rw [ih, lengthUntil_plain (by simpa using hc) hb]
    simp only [List.drop_succ_cons, List.take_succ_cons]
    split <;> rfl

/-- What is not reached by the run up to a stop does not change it. -/
theorem lengthUntil_append (hdollar : stops '$' = false) (u cs : List Char)
    (h : lengthUntil stops (cs ++ '$' :: u) ≤ cs.length) :
    lengthUntil stops (cs ++ '$' :: u) = lengthUntil stops cs ∧ lengthUntil stops cs < cs.length := by
  fun_induction lengthUntil stops cs with
  | case1 => simp [lengthUntil_plain hdollar (show '$' ≠ '\\' by decide)] at h
  | case2 => simp [lengthUntil]
  | case3 d rest hd ih =>
    rw [List.cons_append, List.cons_append, lengthUntil_escaped hd] at h ⊢
    have := ih (by simpa using h)
    simp
    omega
  | case4 c rest hne hc =>
    by_cases hb : c = '\\'
    · subst hb
      cases rest with
      | nil => simp [lengthUntil_escaped (show '$' ≠ '\n' by decide)] at h
      | cons d rest => exact (hne d rest rfl rfl).elim
    · simp [lengthUntil_stop (show stops c = true by simpa [hb] using hc) hb]
  | case5 c rest hne hc ih =>
    simp only [Bool.or_eq_true, beq_iff_eq, not_or, Bool.not_eq_true] at hc
    rw [List.cons_append, lengthUntil_plain hc.1 hc.2] at h ⊢
    have := ih (by simpa using h)
    simp
    omega

/-- Where a stop is found, it is found whatever follows. -/
theorem lengthUntil_append_of_stop {c : Char} (hc : stops c = true) (hb : c ≠ '\\') (more cs : List Char)
    (h : (cs.drop (lengthUntil stops cs)).head? = some c) : lengthUntil stops (cs ++ more) = lengthUntil stops cs := by
  fun_induction lengthUntil stops cs with
  | case1 => cases h
  | case2 => simp [lengthUntil]
  | case3 d rest hd ih =>
    rw [List.cons_append, List.cons_append, lengthUntil_escaped hd, ih (by simpa using h)]
  | case4 d rest hne hd =>
    obtain rfl : d = c := by simpa using h
    exact lengthUntil_stop hc hb _
  | case5 d rest hne hd ih =>
    simp only [Bool.or_eq_true, beq_iff_eq, not_or, Bool.not_eq_true] at hd
    rw [List.cons_append, lengthUntil_plain hd.1 hd.2, ih (by simpa using h)]

end

theorem head?_drop_append {cs : List Char} {n : Nat} (h : n < cs.length) (more : List Char) :
    ((cs ++ more).drop n).head? = (cs.drop n).head? := by
  rw [List.head?_drop, List.head?_drop, List.getElem?_append_left h]

theorem skipLength_append (u cs : List Char) (h : skipLength (cs ++ '$' :: u) ≤ cs.length) :
    skipLength (cs ++ '$' :: u) = skipLength cs := by
  rw [skipLength_eq] at h
  have hdollar : endsSkip '$' = false := rfl
  obtain ⟨he, hlt⟩ := lengthUntil_append hdollar u cs (by omega)
  rw [skipLength_eq, skipLength_eq, he, head?_drop_append hlt]

theorem quotedUntil?_append {stop : Char} (hstop : stop ≠ '\\') (hdollar : stop ≠ '$') {cs : List Char}
    (h : ∀ inside, quotedUntil? stop (cs ++ '$' :: u) = some inside → inside.length < cs.length) :
    quotedUntil? stop (cs ++ '$' :: u) = quotedUntil? stop cs := by
  by_cases hle : lengthUntil (· == stop) (cs ++ '$' :: u) ≤ cs.length
  · obtain ⟨he, hlt⟩ := lengthUntil_append (by simpa using hdollar.symm) u cs hle
    rw [quotedUntil?_eq hstop, quotedUntil?_eq hstop, he, head?_drop_append hlt, List.take_append_of_le_length hlt.le]
  · -- Neither text has a stop: one found in front of the `$` would end the run there.
    have hlong : quotedUntil? stop (cs ++ '$' :: u) = none := by
      refine Option.eq_none_iff_forall_ne_some.mpr fun inside hsome => ?_
      have hlt := h inside hsome
      rw [quotedUntil?_eq hstop] at hsome
      split at hsome
      · cases hsome
        rw [List.length_take, Nat.min_eq_left (lengthUntil_le _)] at hlt
        omega
      · cases hsome
    rw [hlong, quotedUntil?_eq hstop, if_neg]
    intro hhead
    have hsame := lengthUntil_append_of_stop (by simp) hstop ('$' :: u) cs hhead
    exact hle (hsame ▸ lengthUntil_le cs)

theorem skipLength_dollar_pos (u : List Char) : 0 < skipLength ('$' :: u) := by
  simp [skipLength]

theorem afterName_append {cs : List Char} (h : (afterName (cs ++ '$' :: u)).2 ≤ cs.length) :
    afterName (cs ++ '$' :: u) = afterName cs := by
  cases cs with
  | nil => exact absurd h (Nat.not_le.mpr (skipLength_dollar_pos u))
  | cons c rest =>
    by_cases hbar : c = '|'
    · subst hbar
      simp only [afterName, List.cons_append] at h ⊢
      have hq : quotedUntil? '|' (rest ++ '$' :: u) = quotedUntil? '|' rest := by
        refine quotedUntil?_append (by decide) (by decide) fun inside hsome => ?_
        simp only [hsome, List.length_cons] at h
        omega
      rw [hq] at h ⊢
      cases hinside : quotedUntil? '|' rest with
      | some inside => rfl
      | none =>
        simp only [hinside] at h
        exact congrArg (Prod.mk AfterName.skip) (skipLength_append u ('|' :: rest) h)
    by_cases hslash : c = '/'
    · subst hslash
      simp only [afterName, List.cons_append] at h ⊢
      have hq : quotedUntil? '/' (rest ++ '$' :: u) = quotedUntil? '/' rest := by
        refine quotedUntil?_append (by decide) (by decide) fun inside hsome => ?_
        cases inside with
        | nil =>
          cases rest with
          | nil => simp [quotedUntil?] at hsome
          | cons d rest => simp
        | cons d inside =>
          simp only [hsome, List.length_cons] at h ⊢
          omega
      rw [hq] at h ⊢
      have hskip (hle : skipLength ('/' :: (rest ++ '$' :: u)) ≤ rest.length + 1) :
          skipLength ('/' :: (rest ++ '$' :: u)) = skipLength ('/' :: rest) := skipLength_append u ('/' :: rest) hle
      generalize quotedUntil? '/' rest = inside? at h
      rcases inside? with - | - | -
      · exact congrArg (Prod.mk AfterName.skip) (hskip h)
      · exact congrArg (Prod.mk AfterName.skip) (hskip h)
      · rfl
    · have hskip (more : List Char) : afterName (c :: more) = (.skip, skipLength (c :: more)) := by
        simp [afterName, hbar, hslash]
      rw [List.cons_append, hskip] at h ⊢
      rw [hskip]
      exact congrArg (Prod.mk AfterName.skip) (skipLength_append u (c :: rest) h)

theorem afterReference_append {cs : List Char} (h : (afterReference (cs ++ '$' :: u)).2 ≤ cs.length) :
    afterReference (cs ++ '$' :: u) = afterReference cs := by
  cases cs with
  | nil => exact absurd h (Nat.not_le.mpr (skipLength_dollar_pos u))
  | cons c rest =>
    by_cases hcolon : c = ':'
    · subst hcolon
      cases rest with
      | nil => rfl
      | cons d rest =>
        by_cases hslash : d = '/'
        · subst hslash
          simp only [afterReference, List.cons_append, takeWhile_append_stop isWord_dollar]
          rw [List.drop_append_of_le_length (List.takeWhile_sublist _).length_le]
          cases rest.drop (rest.takeWhile Unicode.isWord).length with
          | nil => rfl
          | cons e more =>
            by_cases he : e = '\x7d'
            · subst he
              rfl
            · simp [he]
        · by_cases hplus : d = '+'
          · simp [afterReference, hplus]
          by_cases hquestion : d = '?'
          · simp [afterReference, hquestion]
          by_cases hminus : d = '-'
          · simp [afterReference, hminus]
          · simp [afterReference, hslash, hplus, hquestion, hminus]
    · have hskip (more : List Char) : afterReference (c :: more) = (.skip, skipLength (c :: more)) := by
        simp [afterReference, hcolon]
      rw [List.cons_append, hskip] at h ⊢
      rw [hskip]
      exact congrArg (Prod.mk AfterReference.skip) (skipLength_append u (c :: rest) h)

end Lexeme

end Scribe
