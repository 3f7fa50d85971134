import Scribe.Pattern.Lexeme

/-!
# How far a reader looks

A reader of lexemes takes some of the coming characters and looks at a few more. What it takes and answers
stays the same in another text that has the same characters there and, behind them, is the same up to a
backslash, a closing parenthesis or the end: past these no reader looks.
-/

namespace Scribe.Pattern

def stops (c : Char) : Bool := c = '\\' || c = ')'

/-- Two texts with at least `n` characters in common, which part only where both have come to a place that
no reader looks past. -/
inductive Shares : Nat → List Char → List Char → Prop
  | part {cs ds : List Char} (hc : ∀ c ∈ cs.head?, stops c) (hd : ∀ d ∈ ds.head?, stops d) : Shares 0 cs ds
  | cons {n : Nat} {cs ds : List Char} (c : Char) (h : Shares (n - 1) cs ds) : Shares n (c :: cs) (c :: ds)

namespace Shares

variable {n m : Nat} {c : Char} {cs ds : List Char}

theorem symm (h : Shares n cs ds) : Shares n ds cs := by
  induction h with
  | part hc hd => exact .part hd hc
  | cons c _ ih => exact .cons c ih

theorem mono (h : Shares n cs ds) (hm : m ≤ n) : Shares m cs ds := by
  induction h generalizing m with
  | part hc hd => obtain rfl := Nat.le_zero.mp hm; exact .part hc hd
  | cons c _ ih => exact .cons c (ih (Nat.sub_le_sub_right hm 1))

theorem append (t : List Char) (h : Shares n cs ds) : Shares (t.length + n) (t ++ cs) (t ++ ds) := by
  induction t with
  | nil => exact h.mono (by simp)
  | cons c t ih => exact .cons c (ih.mono (by simp only [List.length_cons]; omega))

theorem exists_cons (h : Shares (n + 1) cs ds) :
    ∃ c cs' ds', cs = c :: cs' ∧ ds = c :: ds' ∧ Shares n cs' ds' := by
  cases h with
  | cons c h => exact ⟨c, _, _, rfl, rfl, h⟩

theorem cons_of_pos (h : Shares n (c :: cs) ds) (hn : 0 < n) : ∃ ds', ds = c :: ds' ∧ Shares (n - 1) cs ds' := by
  cases h with
  | part => exact absurd hn (Nat.lt_irrefl 0)
  | cons _ h => exact ⟨_, rfl, h⟩

theorem cons_of_plain (h : Shares n (c :: cs) ds) (hc : stops c = false) :
    ∃ ds', ds = c :: ds' ∧ Shares (n - 1) cs ds' := by
  cases h with
  | part h _ => exact absurd (h c rfl) (by simp [hc])
  | cons _ h => exact ⟨_, rfl, h⟩

theorem ne_cons (h : Shares n cs ds) (hc : stops c = false) (hne : ∀ t, cs ≠ c :: t) : ∀ t, ds ≠ c :: t := by
  rintro t rfl
  obtain ⟨_, rfl, _⟩ := h.symm.cons_of_plain hc
  exact hne _ rfl

theorem drop (h : Shares n cs ds) (hm : m ≤ n) : Shares (n - m) (cs.drop m) (ds.drop m) := by
  induction m generalizing n cs ds with
  | zero => exact h
  | succ m ih =>
    obtain ⟨n, rfl⟩ : ∃ k, n = k + 1 := ⟨n - 1, by omega⟩
    obtain ⟨c, cs, ds, rfl, rfl, ht⟩ := h.exists_cons
    rw [Nat.add_sub_add_right]
    exact ih ht (Nat.le_of_succ_le_succ hm)

section
variable {p : Char → Bool}

theorem takeWhile_eq (h : Shares n cs ds) (hp : ∀ c, stops c → p c = false) :
    ds.takeWhile p = cs.takeWhile p := by
  induction h with
  | @part cs ds hc hd =>
    have hnil (t : List Char) (ht : ∀ c ∈ t.head?, stops c) : t.takeWhile p = [] := by
      cases t with
      | nil => rfl
      | cons c t => rw [List.takeWhile_cons_of_neg]; simp [hp c (ht c rfl)]
    rw [hnil cs hc, hnil ds hd]
  | cons c _ ih => simp only [List.takeWhile_cons, ih]

theorem drop_of_takeWhile (h : Shares n cs ds) (hp : ∀ c, stops c → p c = false)
    (hm : m ≤ (cs.takeWhile p).length) : Shares (n - m) (cs.drop m) (ds.drop m) := by
  induction m generalizing n cs ds with
  | zero => exact h
  | succ m ih =>
    cases cs with
    | nil => simp at hm
    | cons c cs =>
      rw [List.takeWhile_cons] at hm
      split at hm
      · rename_i hc
        have hs : stops c = false := Bool.eq_false_iff.mpr fun hs => by simp [hp c hs] at hc
        obtain ⟨ds, rfl, ht⟩ := h.cons_of_plain hs
        rw [Nat.add_comm m 1, ← Nat.sub_sub, Nat.add_comm 1 m]
        exact ih ht (Nat.le_of_succ_le_succ hm)
      · simp at hm

theorem takeWhile_eq_of_lt (h : Shares n cs ds) (hn : (cs.takeWhile p).length < n) :
    ds.takeWhile p = cs.takeWhile p := by
  induction h with
  | part => exact absurd hn (Nat.not_lt_zero _)
  | cons c _ ih =>
    by_cases hc : p c
    · rw [List.takeWhile_cons_of_pos hc] at hn ⊢
      rw [List.takeWhile_cons_of_pos hc, ih (by simp only [List.length_cons] at hn; omega)]
    · rw [List.takeWhile_cons_of_neg hc, List.takeWhile_cons_of_neg hc]

end

theorem take_eq (h : Shares n cs ds) : ds.take n = cs.take n := by
  induction h with
  | part => rfl
  | @cons n cs ds c _ ih =>
    cases n with
    | zero => rfl
    | succ n => simpa using ih

theorem length_le (h : Shares n cs ds) : n ≤ cs.length := by
  induction h with
  | part => exact Nat.zero_le _
  | cons c _ ih => simp only [List.length_cons]; omega

end Shares

/-! ## Results of readers -/

section
variable {ε α β : Type}

theorem map_eq_ok {x : Except ε α} {f : α → β} {y : β} : x.map f = .ok y ↔ ∃ a, x = .ok a ∧ f a = y := by
  cases x <;> simp [Except.map]

theorem map_eq_error {x : Except ε α} {f : α → β} {e : ε} : x.map f = .error e ↔ x = .error e := by
  cases x <;> simp [Except.map]

theorem bind_eq_ok {x : Except ε α} {f : α → Except ε β} {y : β} :
    (x >>= f) = .ok y ↔ ∃ a, x = .ok a ∧ f a = .ok y := by
  cases x <;> simp [bind, Except.bind]

theorem eq_ok_of_mem_toOption {x : Except ε α} {a : α} (h : a ∈ x.toOption) : x = .ok a := by
  cases x with
  | error => cases h
  | ok => cases h; rfl

/-- The reader answers the same for every text that shares with the given one what it takes of it. -/
def Keeps (f : List Char → Except PatternError (α × Nat)) : Prop :=
  ∀ ⦃n used : Nat⦄ ⦃cs ds : List Char⦄ ⦃x : α⦄, Shares n cs ds → f cs = .ok (x, used) → used ≤ n → f ds = .ok (x, used)

/-- A reader may pass on what another one answers behind `k` more characters. -/
theorem Keeps.map {f : List Char → Except PatternError (α × Nat)} {g : α × Nat → β × Nat} {n used k : Nat}
    {cs ds : List Char} {y : β} (hf : Keeps f) (h : Shares n cs ds) (hs : (f cs).map g = .ok (y, used))
    (hg : ∀ x m, (g (x, m)).2 = m + k) (hu : used ≤ n + k) : (f ds).map g = .ok (y, used) := by
  obtain ⟨⟨x, m⟩, hx, heq⟩ := map_eq_ok.mp hs
  have hm : used = m + k := (congrArg Prod.snd heq).symm.trans (hg x m)
  exact map_eq_ok.mpr ⟨_, hf h hx (by omega), heq⟩

end

/-! ## Digits and bytes -/

variable {n used : Nat} {cs ds : List Char}

theorem digitValue?_of_stops (base : Nat) {c : Char} (hc : stops c) :
    (digitValue? base c).isSome = false := by
  have hn : digitValue? base c = none := by
    simp only [stops, Bool.or_eq_true, decide_eq_true_eq] at hc
    rcases hc with rfl | rfl <;> exact if_neg (Nat.lt_irrefl base)
  rw [hn, Option.isSome_none]

theorem isDigit_of_stops {c : Char} (hc : stops c) : c.isDigit = false := by
  simp only [stops, Bool.or_eq_true, decide_eq_true_eq] at hc
  rcases hc with rfl | rfl <;> decide

theorem scanDigits_shares (h : Shares n cs ds) (base most : Nat) :
    scanDigits base most ds = scanDigits base most cs := by
  simp only [scanDigits, h.takeWhile_eq fun _ => digitValue?_of_stops base]

theorem scanNumber_shares (h : Shares n cs ds) : scanNumber ds = scanNumber cs := by
  simp only [scanNumber, h.takeWhile_eq fun _ => isDigit_of_stops]

theorem Shares.drop_scanDigits (h : Shares n cs ds) (base most : Nat) :
    Shares (n - (scanDigits base most cs).2) (cs.drop (scanDigits base most cs).2)
      (ds.drop (scanDigits base most cs).2) :=
  h.drop_of_takeWhile (fun _ => digitValue?_of_stops base) (List.length_take_le' ..)

theorem Shares.drop_scanNumber (h : Shares n cs ds) :
    Shares (n - (scanNumber cs).2) (cs.drop (scanNumber cs).2) (ds.drop (scanNumber cs).2) :=
  h.drop_of_takeWhile (fun _ => isDigit_of_stops) (Nat.le_refl _)

theorem scanBytes_shares (k : Nat) : Keeps (scanBytes k) := by
  induction k with
  | zero => exact fun _ _ _ _ _ _ hs _ => hs
  | succ k ih =>
    intro n used cs ds bytes h hs hu
    unfold scanBytes at hs
    split at hs
    · rename_i heq; cases heq
    · rename_i k' cs heq
      obtain rfl : k = k' := Nat.succ.inj heq
      have hused : 2 ≤ used := by
        obtain ⟨_, _, heq⟩ := map_eq_ok.mp hs
        have := congrArg Prod.snd heq
        dsimp only at this
        omega
      obtain ⟨ds, rfl, h₁⟩ := h.cons_of_pos (by omega)
      obtain ⟨ds, rfl, h₂⟩ := h₁.cons_of_pos (by omega)
      have hd := h₂.drop_scanDigits 16 2
      rw [scanBytes, scanDigits_shares h₂]
      generalize scanDigits 16 2 cs = byte at hs hd ⊢
      obtain ⟨⟨bytes', more⟩, hmore, heq⟩ := map_eq_ok.mp hs
      cases heq
      exact map_eq_ok.mpr ⟨_, ih hd hmore (by omega), rfl⟩
    · cases hs

theorem readEncoded_shares (lead : Nat) : Keeps (readEncoded lead) := by
  intro n used cs ds c h hs hu
  by_cases hl : lead < 0x80
  · simpa only [readEncoded, hl, if_true] using hs
  · simp only [readEncoded, hl, if_false] at hs ⊢
    obtain ⟨⟨bytes, more⟩, hb, hs⟩ := bind_eq_ok.mp hs
    have hm : more = used := by
      split at hs
      · cases hs
      · split at hs
        · cases hs; rfl
        · cases hs
    rw [scanBytes_shares _ h hb (hm ▸ hu)]
    exact hs

theorem scanOctal_shares (most : Nat) : Keeps (scanOctal most) := by
  intro n used cs ds c h hs hu
  have hd := h.drop_scanDigits 8 most
  rw [scanOctal] at hs ⊢
  rw [scanDigits_shares h]
  generalize scanDigits 8 most cs = byte at hs hd ⊢
  dsimp only at hs ⊢
  split at hs
  · cases hs
  · rename_i hb
    obtain ⟨⟨d, more⟩, hread, heq⟩ := map_eq_ok.mp hs
    cases heq
    rw [if_neg hb]
    exact map_eq_ok.mpr ⟨_, readEncoded_shares _ hd hread (by omega), rfl⟩

/-! ## Escapes -/

variable {x : Escaped}

theorem scanProperty_shares (negated : Bool) : Keeps (scanProperty negated) := by
  intro n used cs ds x h hs hu
  simp only [scanProperty] at hs
  split at hs
  · rename_i kind hk
    split at hs
    · cases hs
      have hl := h.symm.length_le
      simp only [scanProperty, h.takeWhile_eq_of_lt hu, hk]
      exact if_pos (by omega)
    · cases hs
  · cases hs

theorem scanPropertyEscape_shares (letter : Char) : Keeps (scanPropertyEscape letter) := by
  intro n used cs ds x h hs hu
  unfold scanPropertyEscape at hs
  split at hs
  · obtain ⟨ds, rfl, h₁⟩ := h.cons_of_plain (by decide)
    obtain ⟨ds, rfl, h₂⟩ := h₁.cons_of_plain (by decide)
    exact (scanProperty_shares _).map h₂ hs (fun _ _ => rfl) (by omega)
  · rename_i rest hne
    obtain ⟨ds, rfl, h₁⟩ := h.cons_of_plain (by decide)
    rw [scanPropertyEscape.eq_2 letter ds (h₁.ne_cons (by decide) hne)]
    exact (scanProperty_shares _).map h₁ hs (fun _ _ => rfl) (by omega)
  · rename_i hne hne₂
    have hne' := h.ne_cons (by decide) hne₂
    rw [scanPropertyEscape.eq_3 letter ds (fun t => hne' _) hne']
    exact hs

theorem closeHex_shares {code k : Nat} (h : Shares n cs ds) : closeHex code k ds = closeHex code k cs := by
  have hstops (t : List Char) (ht : ∀ c ∈ t.head?, stops c) : closeHex code k t = .ok (.code 'x'.toNat, 0) := by
    cases t with
    | nil => rfl
    | cons c t =>
      have hc := ht c rfl
      unfold closeHex
      split
      · rename_i heq
        cases heq
        exact absurd hc (by decide)
      · rename_i heq
        cases heq
        rw [digitValue?_of_stops 16 hc, Bool.and_false]
        rfl
      · rfl
  cases h with
  | part hc hd => rw [hstops cs hc, hstops ds hd]
  | @cons _ cs ds c _ =>
    by_cases hc : c = '\x7d'
    · subst hc; rfl
    · rw [closeHex.eq_2 _ _ c _ hc, closeHex.eq_2 _ _ c _ hc]

theorem scanHex_shares : Keeps scanHex := by
  intro n used cs ds x h hs hu
  unfold scanHex at hs
  split at hs
  · obtain ⟨ds, rfl, h₁⟩ := h.cons_of_plain (by decide)
    have hd := h₁.drop_scanDigits 16 8
    rw [scanHex, scanDigits_shares h₁]
    generalize scanDigits 16 8 _ = code at hs hd ⊢
    exact (closeHex_shares hd).trans hs
  · rename_i hne
    have hne' := h.ne_cons (c := '\x7b') (by decide) hne
    have hd := h.drop_scanDigits 16 2
    unfold scanHex
    split
    · exact absurd rfl (hne' _)
    · rw [scanDigits_shares h]
      generalize scanDigits 16 2 cs = byte at hs hd ⊢
      obtain ⟨⟨d, more⟩, hread, heq⟩ := map_eq_ok.mp hs
      cases heq
      exact map_eq_ok.mpr ⟨_, readEncoded_shares _ hd hread (by omega), rfl⟩

theorem scanUnicode_shares (h : Shares n cs ds) : scanUnicode ds = scanUnicode cs := by
  rw [scanUnicode, scanUnicode, scanDigits_shares h]

theorem scanControl_shares : Keeps scanControl := by
  intro n used cs ds code h hs hu
  fun_induction scanControl cs generalizing n used ds code with
  | case1 | case3 => cases hs
  | case2 rest =>
    obtain ⟨ds, rfl, -⟩ := h.cons_of_plain (by decide)
    exact hs
  | case4 rest ih =>
    obtain ⟨⟨code', more⟩, hmore, heq⟩ := map_eq_ok.mp hs
    cases heq
    obtain ⟨ds, rfl, h₁⟩ := h.cons_of_pos (by omega)
    obtain ⟨ds, rfl, h₂⟩ := h₁.cons_of_pos (by omega)
    exact map_eq_ok.mpr ⟨_, ih h₂ hmore (by omega), rfl⟩
  | case5 rest =>
    cases hs
    obtain ⟨ds, rfl, h₁⟩ := h.cons_of_pos (by omega)
    obtain ⟨ds, rfl, h₂⟩ := h₁.cons_of_pos (by omega)
    rfl
  | case6 c rest hc hb =>
    cases hs
    obtain ⟨ds, rfl, h₁⟩ := h.cons_of_pos (by omega)
    obtain ⟨ds, rfl, h₂⟩ := h₁.cons_of_pos (by omega)
    exact scanControl.eq_6 _ _ hc hb
  | case7 c rest hq hend hc hb hescape =>
    cases hs
    obtain ⟨ds, rfl, -⟩ := h.cons_of_pos hu
    -- a backslash has been dealt with above
    have hne : c ≠ '\\' := by
      rintro rfl
      cases rest with
      | nil => exact hend rfl rfl
      | cons d rest => exact hescape d rest rfl rfl
    exact scanControl.eq_7 _ _ hq (fun h => absurd h hne) (fun _ h => absurd h hne)
      (fun _ h => absurd h hne) (fun _ _ h => absurd h hne)

theorem scanEscape_shares (c : Char) : Keeps (scanEscape c) := by
  intro n used cs ds x h hs hu
  unfold scanEscape at hs ⊢
  split at hs
  · exact hs
  · split at hs
    · exact hs
    · split at hs
      · exact scanPropertyEscape_shares _ h hs hu
      · exact scanPropertyEscape_shares _ h hs hu
      · exact scanHex_shares h hs hu
      · rw [← hs]; exact scanUnicode_shares h
      · exact scanControl_shares.map h hs (fun _ _ => (Nat.add_zero _).symm) hu
      · exact hs

/-! ## Names -/

theorem leadingName_shares {close : Char} (h : Shares n cs ds) (hn : (leadingName close cs).length < n) :
    leadingName close ds = leadingName close cs := by
  cases h with
  | part => exact absurd hn (Nat.not_lt_zero _)
  | cons c h =>
    simp only [leadingName] at hn ⊢
    split at hn
    · rename_i hc
      rw [if_pos hc, if_pos hc]
    · rename_i hc
      rw [if_neg hc, if_neg hc, h.takeWhile_eq_of_lt (by simp only [List.length_cons] at hn; omega)]

theorem scanName_shares (close : Char) (mayBeNumber : Bool) : Keeps (scanName close mayBeNumber) := by
  intro n used cs ds name h hs hu
  obtain ⟨_, hcheck, hs⟩ := bind_eq_ok.mp hs
  split at hs
  · rename_i hclose
    cases hs
    obtain ⟨c, cs', ds', hcs, hds, -⟩ : ∃ c cs' ds', cs.drop (leadingName close cs).length = c :: cs' ∧
        ds.drop (leadingName close cs).length = c :: ds' ∧ Shares 0 cs' ds' :=
      ((h.drop (Nat.le_of_succ_le hu)).mono (by omega)).exists_cons
    rw [hcs] at hclose
    simp only [scanName, leadingName_shares h hu, hcheck, hds]
    exact if_pos hclose
  · cases hs

end Scribe.Pattern
