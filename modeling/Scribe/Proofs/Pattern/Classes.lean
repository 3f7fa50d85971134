import Mathlib.Data.List.Find
import Scribe.Proofs.Pattern.Shared

/-!
# How far the reader of classes looks

The reader of classes looks ahead for a bracket that closes the class it is in. That bracket stands among
the characters that it takes in the end, so that nothing behind them matters.
-/

namespace Scribe.Pattern

/-- Two texts with the same characters up to a bracket that closes a class, as one sees it who passes over
each backslash together with the character after it. -/
inductive ClosesAlike : List Char → List Char → Prop
  | close {cs ds : List Char} : ClosesAlike (']' :: cs) (']' :: ds)
  | escape {cs ds : List Char} (c : Char) (h : ClosesAlike cs ds) : ClosesAlike ('\\' :: c :: cs) ('\\' :: c :: ds)
  | other {cs ds : List Char} {c : Char} (hc : c ≠ '\\') (h : ClosesAlike cs ds) : ClosesAlike (c :: cs) (c :: ds)

namespace ClosesAlike

variable {cs ds : List Char}

theorem head?_eq (h : ClosesAlike cs ds) : ds.head? = cs.head? := by
  cases h <;> rfl

theorem tail {c : Char} (h : ClosesAlike (c :: cs) (c :: ds)) (hc : c ≠ '\\') (hb : c ≠ ']') : ClosesAlike cs ds := by
  cases h with
  | close => exact absurd rfl hb
  | escape => exact absurd rfl hc
  | other _ h => exact h

theorem exists_append (h : ClosesAlike cs ds) :
    ∃ t cs' ds', cs = t ++ ']' :: cs' ∧ ds = t ++ ']' :: ds' := by
  induction h with
  | close => exact ⟨[], _, _, rfl, rfl⟩
  | escape c _ ih =>
    obtain ⟨t, cs', ds', rfl, rfl⟩ := ih
    exact ⟨'\\' :: c :: t, _, _, rfl, rfl⟩
  | @other _ _ c _ _ ih =>
    obtain ⟨t, cs', ds', rfl, rfl⟩ := ih
    exact ⟨c :: t, _, _, rfl, rfl⟩

theorem of_drop {m : Nat} (h : Shares m cs ds) (hc : ∀ c ∈ cs.take m, c ≠ '\\')
    (hd : ClosesAlike (cs.drop m) (ds.drop m)) : ClosesAlike cs ds := by
  induction m generalizing cs ds with
  | zero => exact hd
  | succ m ih =>
    obtain ⟨c, cs, ds, rfl, rfl, ht⟩ := h.exists_cons
    exact .other (hc c (.head _)) (ih ht (fun d hd => hc d (.tail _ hd)) hd)

end ClosesAlike

/-! ## Looking ahead in a class -/

section
variable {cs ds : List Char}

theorem bracketNameCloses_cons {c : Char} (hc : c ≠ '\\') (cs : List Char) :
    bracketNameCloses (c :: cs) =
      ((c == ':' && cs.head? == some ']') || (c != ']' && bracketNameCloses cs)) := by
  rw [bracketNameCloses.eq_def]
  split
  · rename_i heq; cases heq
  · rename_i heq; cases heq; rfl
  · rename_i heq; cases heq; rfl
  · rename_i heq; cases heq; exact absurd rfl hc
  · rename_i hname hclose _ heq
    cases heq
    have h₁ : (c == ':' && cs.head? == some ']') = false := by
      simp only [Bool.and_eq_false_iff, beq_eq_false_iff_ne]
      refine Classical.or_iff_not_imp_left.mpr fun h h' => ?_
      obtain ⟨t, rfl⟩ := List.head?_eq_some_iff.mp h'
      exact hname t (Classical.not_not.mp h) rfl
    have h₂ : (c != ']') = true := bne_iff_ne.mpr hclose
    rw [h₁, h₂, Bool.false_or, Bool.true_and]

theorem bracketNameCloses_eq (h : ClosesAlike cs ds) : bracketNameCloses ds = bracketNameCloses cs := by
  induction h with
  | close => rfl
  | escape c _ ih => simpa only [bracketNameCloses] using ih
  | other hc h ih => rw [bracketNameCloses_cons hc, bracketNameCloses_cons hc, h.head?_eq, ih]

theorem startsWith_append_close : ∀ (t u cs ds : List Char), ']' ∉ t.dropLast →
    Text.startsWith (u ++ ']' :: ds) t = Text.startsWith (u ++ ']' :: cs) t
  | [], _, _, _, _ => rfl
  | [c], [], cs, ds, _ => by
    simp only [Text.startsWith, Text.dropStart?, List.nil_append]
    split <;> rfl
  | c :: d :: t, [], cs, ds, h => by
    have hc : c ≠ ']' := fun hc => h (by simp [hc])
    simp [Text.startsWith, Text.dropStart?, hc]
  | c :: t, d :: u, cs, ds, h => by
    have ht : ']' ∉ t.dropLast := by
      cases t with
      | nil => simp
      | cons e t => exact fun hm => h (List.mem_cons_of_mem _ hm)
    simp only [Text.startsWith, Text.dropStart?, List.cons_append]
    split
    · exact startsWith_append_close t u cs ds ht
    · rfl

theorem startsWith_eq (h : ClosesAlike cs ds) {t : List Char} (ht : ']' ∉ t.dropLast) :
    Text.startsWith ds t = Text.startsWith cs t := by
  obtain ⟨u, cs', ds', rfl, rfl⟩ := h.exists_append
  exact startsWith_append_close t u cs' ds' ht

theorem startsWith_iff {t : List Char} : Text.startsWith cs t ↔ t <+: cs := by
  induction t generalizing cs with
  | nil => simp [Text.startsWith, Text.dropStart?]
  | cons c t ih =>
    cases cs with
    | nil => simp [Text.startsWith, Text.dropStart?]
    | cons d cs =>
      simp only [Text.startsWith, Text.dropStart?, List.cons_prefix_cons] at ih ⊢
      split
      · rename_i hc; simp [hc, ih]
      · rename_i hc; simp [hc]

theorem not_mem_bracketName {name : String} {kind : CharKind} (h : (name, kind) ∈ CharKind.bracketNames) :
    ']' ∉ name.toList ∧ '\\' ∉ name.toList := by
  have hall : CharKind.bracketNames.all fun p => !p.1.toList.contains ']' && !p.1.toList.contains '\\' := by
    decide +kernel
  simpa using List.all_eq_true.mp hall _ h

end

/-! ## Characters that cannot hide a bracket -/

/-- Whoever passes over escapes in pairs comes to the end of the first `m` characters, and not into the
middle of an escape that begins there. -/
def Passes (cs : List Char) (m : Nat) : Prop :=
  ∀ ⦃ds : List Char⦄, Shares m cs ds → ClosesAlike (cs.drop m) (ds.drop m) → ClosesAlike cs ds

namespace Passes

variable {cs : List Char} {m k : Nat}

theorem zero (cs : List Char) : Passes cs 0 := fun _ _ h => h

theorem add (h : Passes cs m) (h' : Passes (cs.drop m) k) : Passes cs (m + k) := by
  intro ds hs hd
  refine h (hs.mono (Nat.le_add_right _ _)) (h' ?_ ?_)
  · have := hs.drop (Nat.le_add_right m k)
    rwa [Nat.add_sub_cancel_left] at this
  · rwa [List.drop_drop, List.drop_drop]

theorem of_ne (h : ∀ c ∈ cs.take m, c ≠ '\\') : Passes cs m := fun _ hs hd => .of_drop hs h hd

theorem cons {c : Char} (hc : c ≠ '\\') (h : Passes cs m) : Passes (c :: cs) (m + 1) := by
  rw [Nat.add_comm]
  exact (of_ne (m := 1) (by simpa using hc)).add h

theorem escape (c : Char) (h : Passes cs m) : Passes ('\\' :: c :: cs) (m + 2) := by
  intro ds hs hd
  obtain ⟨ds, rfl, h₁⟩ := hs.cons_of_pos (by omega)
  obtain ⟨ds, rfl, h₂⟩ := h₁.cons_of_pos (by omega)
  exact .escape c (h h₂ hd)

theorem backslash {c : Char} (h : Passes (c :: cs) m) (hc : stops c = false) (hb : c ≠ ']') :
    Passes ('\\' :: c :: cs) (m + 1) := by
  intro ds hs hd
  obtain ⟨ds, rfl, h₁⟩ := hs.cons_of_pos (by omega)
  obtain ⟨ds, rfl, -⟩ := h₁.cons_of_plain hc
  have hne : c ≠ '\\' := fun h => by rw [h] at hc; cases hc
  exact .escape c ((h h₁ hd).tail hne hb)

theorem of_takeWhile {p : Char → Bool} (hp : p '\\' = false) (hm : m ≤ (cs.takeWhile p).length) : Passes cs m := by
  induction m generalizing cs with
  | zero => exact zero cs
  | succ m ih =>
    cases cs with
    | nil => cases hm
    | cons c cs =>
      by_cases hc : p c
      · rw [List.takeWhile_cons_of_pos hc] at hm
        exact (ih (Nat.le_of_succ_le_succ hm)).cons fun h => by rw [h, hp] at hc; cases hc
      · rw [List.takeWhile_cons_of_neg hc] at hm
        cases hm

end Passes

section
variable {cs : List Char} {used : Nat}

theorem passes_scanDigits (base most : Nat) (cs : List Char) : Passes cs (scanDigits base most cs).2 :=
  .of_takeWhile (digitValue?_of_stops base (c := '\\') rfl) (List.length_take_le' ..)

theorem passes_scanBytes : ∀ {k used : Nat} {cs : List Char} {bytes : List Nat},
    scanBytes k cs = .ok (bytes, used) → Passes cs used
  | 0, _, _, _, hs => by cases hs; exact .zero _
  | k + 1, used, cs, bytes, hs => by
    unfold scanBytes at hs
    split at hs
    · rename_i heq; cases heq
    · rename_i k' cs heq
      obtain rfl : k = k' := Nat.succ.inj heq
      obtain ⟨⟨bytes', more⟩, hmore, heq⟩ := map_eq_ok.mp hs
      cases heq
      have h := ((passes_scanDigits 16 2 cs).add (passes_scanBytes hmore)).escape 'x'
      rwa [Nat.add_right_comm] at h
    · cases hs

theorem passes_readEncoded {lead : Nat} {c : Char} (hs : readEncoded lead cs = .ok (c, used)) :
    Passes cs used := by
  by_cases hl : lead < 0x80
  · simp only [readEncoded, hl, if_true] at hs
    cases hs
    exact .zero cs
  · simp only [readEncoded, hl, if_false] at hs
    obtain ⟨⟨bytes, more⟩, hb, hs⟩ := bind_eq_ok.mp hs
    split at hs
    · cases hs
    · split at hs
      · cases hs
        exact passes_scanBytes hb
      · cases hs

theorem passes_scanOctal {most : Nat} {c : Char} (hs : scanOctal most cs = .ok (c, used)) : Passes cs used := by
  simp only [scanOctal] at hs
  split at hs
  · cases hs
  · obtain ⟨⟨d, more⟩, hread, heq⟩ := map_eq_ok.mp hs
    cases heq
    exact (passes_scanDigits 8 most cs).add (passes_readEncoded hread)

variable {x : Escaped}

theorem exists_drop_takeWhile {p : Char → Bool} : ∀ {cs : List Char}, (cs.takeWhile p).length < cs.length →
    ∃ c t, cs.drop (cs.takeWhile p).length = c :: t ∧ p c = false
  | [], h => absurd h (Nat.lt_irrefl 0)
  | c :: cs, h => by
    by_cases hc : p c
    · rw [List.takeWhile_cons_of_pos hc] at h ⊢
      exact exists_drop_takeWhile (Nat.lt_of_succ_lt_succ h)
    · rw [List.takeWhile_cons_of_neg hc]
      exact ⟨c, cs, rfl, Bool.eq_false_iff.mpr hc⟩

theorem not_mem_of_propertyName {name : List Char} {kind : CharKind}
    (h : CharKind.propertyNames.lookup (propertyName name) = some kind) : '\\' ∉ name := by
  have hall : CharKind.propertyNames.all fun p => !p.1.toList.contains '\\' := by decide +kernel
  have hmem : (propertyName name, kind) ∈ CharKind.propertyNames := by
    obtain ⟨l₁, l₂, hl, -⟩ := List.lookup_eq_some_iff.mp h
    rw [hl]
    exact List.mem_append_right _ (.head _)
  intro hb
  have hin : '\\' ∈ (propertyName name).toList := by
    rw [propertyName, String.toList_ofList]
    exact List.mem_map.mpr ⟨'\\', List.mem_filter.mpr ⟨hb, by decide⟩, by decide⟩
  have hnot := List.all_eq_true.mp hall _ hmem
  simp [hin] at hnot

theorem passes_scanProperty {negated : Bool} (hs : scanProperty negated cs = .ok (x, used)) :
    Passes cs used := by
  simp only [scanProperty] at hs
  split at hs
  · rename_i kind hk
    split at hs
    · rename_i hl
      cases hs
      have htake := List.prefix_iff_eq_take.mp (List.takeWhile_prefix (l := cs) (· != '\x7d'))
      refine (Passes.of_ne fun c hc hb => ?_).add ?_
      · rw [← htake, hb] at hc
        exact not_mem_of_propertyName hk hc
      · obtain ⟨d, t, hd, hp⟩ := exists_drop_takeWhile hl
        rw [hd]
        exact (Passes.zero t).cons fun hb => by rw [hb] at hp; cases hp
    · cases hs
  · cases hs

theorem passes_scanPropertyEscape {letter : Char} (hs : scanPropertyEscape letter cs = .ok (x, used)) :
    Passes cs used := by
  unfold scanPropertyEscape at hs
  split at hs
  · obtain ⟨⟨y, more⟩, hy, heq⟩ := map_eq_ok.mp hs
    cases heq
    exact ((passes_scanProperty hy).cons (by decide)).cons (by decide)
  · obtain ⟨⟨y, more⟩, hy, heq⟩ := map_eq_ok.mp hs
    cases heq
    exact (passes_scanProperty hy).cons (by decide)
  · cases hs
    exact .zero cs

theorem passes_scanHex (hs : scanHex cs = .ok (x, used)) : Passes cs used := by
  unfold scanHex at hs
  split at hs
  · rename_i cs
    have hdigits := passes_scanDigits 16 8 cs
    generalize scanDigits 16 8 cs = code at hs hdigits
    dsimp only at hs
    unfold closeHex at hs
    split at hs
    · rename_i hclose
      split at hs
      · cases hs; exact .zero _
      · cases hs
        exact (hdigits.add (hclose ▸ (Passes.zero _).cons (by decide))).cons (by decide)
    · split at hs
      · cases hs
      · cases hs; exact .zero _
    · cases hs; exact .zero _
  · obtain ⟨⟨d, more⟩, hread, heq⟩ := map_eq_ok.mp hs
    cases heq
    exact (passes_scanDigits 16 2 cs).add (passes_readEncoded hread)

theorem passes_scanControl : ∀ {cs : List Char} {code used : Nat}, scanControl cs = .ok (code, used) →
    Passes cs used := by
  intro cs
  fun_induction scanControl cs with
  | case1 | case3 => intro _ _ hs; cases hs
  | case2 rest =>
    intro code used hs
    cases hs
    exact (Passes.zero rest).cons (by decide)
  | case4 rest ih =>
    intro code used hs
    obtain ⟨⟨code', more⟩, hmore, heq⟩ := map_eq_ok.mp hs
    cases heq
    exact (ih hmore).escape 'c'
  | case5 rest =>
    intro code used hs
    cases hs
    exact (Passes.zero rest).escape 'b'
  | case6 c rest hc hb =>
    intro code used hs
    cases hs
    exact (Passes.zero rest).escape c
  | case7 c rest hq hend hc hb hescape =>
    intro code used hs
    cases hs
    refine (Passes.zero rest).cons ?_
    rintro rfl
    cases rest with
    | nil => exact hend rfl rfl
    | cons d rest => exact hescape d rest rfl rfl

theorem passes_scanEscape {c : Char} (hs : scanEscape c cs = .ok (x, used)) : Passes cs used := by
  unfold scanEscape at hs
  split at hs
  · cases hs; exact .zero cs
  · split at hs
    · cases hs; exact .zero cs
    · split at hs
      · exact passes_scanPropertyEscape hs
      · exact passes_scanPropertyEscape hs
      · exact passes_scanHex hs
      · simp only [scanUnicode] at hs
        split at hs
        · cases hs
        · cases hs
          exact passes_scanDigits 16 4 cs
      · obtain ⟨⟨code, more⟩, hcode, heq⟩ := map_eq_ok.mp hs
        cases heq
        exact passes_scanControl hcode
      · cases hs; exact .zero cs

/-! ## The steps of the reader of classes -/

theorem plain_of_digitValue? {base : Nat} {c : Char} (h : (digitValue? base c).isSome) : stops c = false :=
  Bool.eq_false_iff.mpr fun hc => by simp [digitValue?_of_stops base hc] at h

theorem passes_scanClassEscape (hs : scanClassEscape cs = .ok (x, used)) : Passes ('\\' :: cs) (used + 1) := by
  unfold scanClassEscape at hs
  split at hs
  · cases hs
  · cases hs
    exact (Passes.zero _).escape 'b'
  · rename_i c rest _
    split at hs
    · rename_i hc
      obtain ⟨⟨d, more⟩, hoctal, heq⟩ := map_eq_ok.mp hs
      cases heq
      exact (passes_scanOctal hoctal).backslash (plain_of_digitValue? hc) fun h => by subst h; cases hc
    · obtain ⟨⟨y, more⟩, hy, heq⟩ := map_eq_ok.mp hs
      cases heq
      exact (passes_scanEscape hy).escape c

theorem scanClassEscape_shares : Keeps scanClassEscape := by
  intro n used cs ds x h hs hu
  unfold scanClassEscape at hs
  split at hs
  · cases hs
  · cases hs
    obtain ⟨ds, rfl, -⟩ := h.cons_of_plain (by decide)
    rfl
  · rename_i c rest hne
    split at hs
    · rename_i hc
      have hoctal := (scanOctal_shares _).map h hs (fun _ _ => (Nat.add_zero _).symm) hu
      obtain ⟨ds, rfl, -⟩ := h.cons_of_plain (plain_of_digitValue? hc)
      rw [scanClassEscape.eq_3 _ _ hne, if_pos hc]
      exact hoctal
    · rename_i hc
      have hpos : 0 < used := by
        obtain ⟨⟨_, _⟩, -, heq⟩ := map_eq_ok.mp hs
        cases heq
        exact Nat.succ_pos _
      obtain ⟨ds, rfl, h₁⟩ := h.cons_of_pos (by omega)
      rw [scanClassEscape.eq_3 _ _ hne, if_neg hc]
      exact (scanEscape_shares c).map h₁ hs (fun _ _ => rfl) (by omega)

end

section
variable {cs ds : List Char} {used : Nat}

theorem passes_startClass {negated : Bool} {f : OpenClass} (hs : startClass negated cs = .ok (f, used)) :
    Passes cs used := by
  unfold startClass at hs
  split at hs
  · split at hs
    · cases hs
      exact (Passes.zero _).cons (by decide)
    · cases hs
  · cases hs
    exact .zero cs

theorem startClass_shares {negated : Bool} {f : OpenClass} (hs : startClass negated cs = .ok (f, used))
    (h : Shares used cs ds) (hd : ClosesAlike (cs.drop used) (ds.drop used)) :
    startClass negated ds = .ok (f, used) := by
  unfold startClass at hs
  split at hs
  · split at hs
    · cases hs
      obtain ⟨ds, rfl, -⟩ := h.cons_of_plain (by decide)
      obtain ⟨t, cs', ds', -, hds⟩ := hd.exists_append
      have hmem : ds.contains ']' := by
        rw [show ds = t ++ ']' :: ds' from hds]
        simp
      exact if_pos hmem
    · cases hs
  · rename_i hne
    cases hs
    refine startClass.eq_2 _ _ fun t ht => ?_
    obtain ⟨t', rfl⟩ := List.head?_eq_some_iff.mp (hd.head?_eq.symm.trans (by rw [ht]; rfl))
    exact hne _ rfl

theorem passes_openClass {f : OpenClass} (hs : openClass cs = .ok (f, used)) : Passes cs used := by
  unfold openClass at hs
  split at hs
  · obtain ⟨⟨f', more⟩, hstart, heq⟩ := map_eq_ok.mp hs
    cases heq
    exact (passes_startClass hstart).cons (by decide)
  · exact passes_startClass hs

theorem openClass_shares {f : OpenClass} (hs : openClass cs = .ok (f, used))
    (h : Shares used cs ds) (hd : ClosesAlike (cs.drop used) (ds.drop used)) :
    openClass ds = .ok (f, used) := by
  unfold openClass at hs
  split at hs
  · obtain ⟨⟨f', more⟩, hstart, heq⟩ := map_eq_ok.mp hs
    cases heq
    obtain ⟨ds, rfl, h₁⟩ := h.cons_of_plain (by decide)
    exact map_eq_ok.mpr ⟨_, startClass_shares hstart h₁ hd, rfl⟩
  · rename_i hne
    rw [openClass.eq_2 _ (h.ne_cons (by decide) hne)]
    exact startClass_shares hs h hd

theorem length_le_of_prefix_close : ∀ {u t : List Char}, u <+: t ++ ']' :: cs → ']' ∉ u → u.length ≤ t.length
  | [], _, _, _ => Nat.zero_le _
  | c :: u, [], h, hu => by
    rw [List.nil_append, List.cons_prefix_cons] at h
    exact absurd (h.1 ▸ List.mem_cons_self) hu
  | c :: u, d :: t, h, hu => by
    rw [List.cons_append, List.cons_prefix_cons] at h
    exact Nat.succ_le_succ (length_le_of_prefix_close h.2 fun hm => hu (.tail _ hm))

theorem dropWhile_append_close {p : Char → Bool} (hp : p ']' = false) (t : List Char) :
    (t ++ ']' :: cs).dropWhile p = t.dropWhile p ++ ']' :: cs := by
  induction t with
  | nil => exact List.dropWhile_cons_of_neg (by simp [hp])
  | cons c t ih =>
    rw [List.cons_append, List.dropWhile_cons, List.dropWhile_cons, ih]
    split <;> rfl

theorem scanBracketName_eq (h : ClosesAlike cs ds) (negated : Bool) (lead : Nat) :
    scanBracketName negated lead ds = scanBracketName negated lead cs := by
  have hfind : (CharKind.bracketNames.find? fun p => Text.startsWith ds p.1.toList) =
      CharKind.bracketNames.find? fun p => Text.startsWith cs p.1.toList :=
    List.find?_congr fun p hp =>
      startsWith_eq h fun hm => (not_mem_bracketName hp).1 (List.dropLast_subset _ hm)
  obtain ⟨t, cs', ds', rfl, rfl⟩ := h.exists_append
  simp only [scanBracketName, hfind]
  cases hname : CharKind.bracketNames.find? fun p => Text.startsWith (t ++ ']' :: cs') p.1.toList with
  | some p =>
    obtain ⟨name, kind⟩ := p
    have hstart : Text.startsWith (t ++ ']' :: cs') name.toList = true := by
      simpa only using List.find?_some hname
    have hpre := startsWith_iff.mp hstart
    have hl := length_le_of_prefix_close hpre (not_mem_bracketName (List.mem_of_find?_eq_some hname)).1
    rw [String.length_toList] at hl
    simp only [List.drop_append_of_le_length hl, startsWith_append_close [':', ']'] _ cs' ds' (by decide)]
  | none =>
    simp only [dropWhile_append_close (p := fun c => c != ':' && c != ']') (by decide),
      startsWith_append_close [':', ']'] _ cs' ds' (by decide)]

theorem scanColon_eq (h : ClosesAlike cs ds) : scanColon ds = scanColon cs := by
  cases h with
  | @close cs ds => exact scanBracketName_eq (@ClosesAlike.close cs ds) false 1
  | escape c h => exact scanBracketName_eq (.escape c h) false 1
  | @other cs ds c hc h =>
    by_cases hcaret : c = '^'
    · subst hcaret
      exact scanBracketName_eq h true 2
    · rw [scanColon.eq_2 _ fun _ heq => hcaret (List.cons.inj heq).1,
        scanColon.eq_2 _ fun _ heq => hcaret (List.cons.inj heq).1]
      exact scanBracketName_eq (.other hc h) false 1

theorem scanBracket_eq (h : ClosesAlike cs ds) : scanBracket ds = scanBracket cs := by
  cases h with
  | close => rfl
  | escape => rfl
  | @other cs ds c hc h =>
    by_cases hcolon : c = ':'
    · subst hcolon
      rw [scanBracket, scanBracket, bracketNameCloses_eq h, scanColon_eq h]
    · rw [scanBracket.eq_2 _ fun _ heq => hcolon (List.cons.inj heq).1,
        scanBracket.eq_2 _ fun _ heq => hcolon (List.cons.inj heq).1]

/-- A name is read up to the bracket behind its second colon. -/
theorem passes_scanBracketName {negated : Bool} {lead : Nat} {s : CharSet}
    (hs : scanBracketName negated lead cs = .ok (.name s used)) : lead ≤ used ∧ Passes cs (used - lead) := by
  simp only [scanBracketName] at hs
  split at hs
  · rename_i name kind hname
    split at hs
    · rename_i hclose
      cases hs
      have hstart : Text.startsWith cs name.toList = true := by simpa only using List.find?_some hname
      obtain ⟨t, rfl⟩ := startsWith_iff.mp hstart
      rw [← String.length_toList, List.drop_left] at hclose
      obtain ⟨t, rfl⟩ := startsWith_iff.mp hclose
      refine ⟨by omega, ?_⟩
      have hmem := (not_mem_bracketName (List.mem_of_find?_eq_some hname)).2
      have hname : Passes (name.toList ++ ([':', ']'] ++ t)) name.toList.length :=
        .of_ne fun c hc hb => hmem (by rwa [List.take_left, hb] at hc)
      have h := hname.add (k := 2) (by
        rw [List.drop_left]
        exact ((Passes.zero t).cons (by decide)).cons (by decide))
      rwa [String.length_toList, show name.length + 2 = lead + name.length + 2 - lead by omega] at h
    · cases hs
  · split at hs <;> cases hs

theorem passes_scanBracket {s : CharSet} (hs : scanBracket cs = .ok (.name s used)) : Passes cs used := by
  unfold scanBracket at hs
  split at hs
  · split at hs
    · unfold scanColon at hs
      split at hs
      · obtain ⟨hl, h⟩ := passes_scanBracketName hs
        rw [show used = used - 2 + 1 + 1 by omega]
        exact (h.cons (by decide)).cons (by decide)
      · obtain ⟨hl, h⟩ := passes_scanBracketName hs
        rw [show used = used - 1 + 1 by omega]
        exact h.cons (by decide)
    · cases hs
  · cases hs

/-! ## Whole classes -/

variable {f f' : OpenClass} {outer outer' : List OpenClass} {c : Char}

theorem classStep_done {content : CharSet} {negated : Bool}
    (hs : classStep f outer c cs = .ok (.done content negated)) : c = ']' ∧ outer = [] := by
  unfold classStep at hs
  split at hs
  · split at hs
    · exact ⟨rfl, rfl⟩
    · cases hs
  · obtain ⟨_, -, hs⟩ := bind_eq_ok.mp hs
    obtain ⟨_, -, hs⟩ := bind_eq_ok.mp hs
    cases hs
  · obtain ⟨_, -, hs⟩ := bind_eq_ok.mp hs
    cases hs
  · obtain ⟨_, -, hs⟩ := bind_eq_ok.mp hs
    split at hs <;>
    · obtain ⟨_, -, hs⟩ := bind_eq_ok.mp hs
      cases hs
  · split at hs
    · cases hs
    · obtain ⟨_, -, hs⟩ := bind_eq_ok.mp hs
      cases hs
  · obtain ⟨_, -, hs⟩ := bind_eq_ok.mp hs
    cases hs

theorem passes_classStep (hs : classStep f outer c cs = .ok (.more f' outer' used)) :
    Passes (c :: cs) (used + 1) := by
  unfold classStep at hs
  split at hs
  · split at hs
    · cases hs
    · cases hs
      exact (Passes.zero cs).cons (by decide)
  · obtain ⟨⟨x, more⟩, hx, hs⟩ := bind_eq_ok.mp hs
    obtain ⟨g, -, hs⟩ := bind_eq_ok.mp hs
    cases hs
    exact passes_scanClassEscape hx
  · obtain ⟨g, -, hs⟩ := bind_eq_ok.mp hs
    cases hs
    exact (Passes.zero cs).cons (by decide)
  · obtain ⟨b, hb, hs⟩ := bind_eq_ok.mp hs
    split at hs
    · obtain ⟨g, -, hs⟩ := bind_eq_ok.mp hs
      cases hs
      exact (passes_scanBracket hb).cons (by decide)
    · obtain ⟨g, -, hs⟩ := bind_eq_ok.mp hs
      cases hs
      exact (Passes.zero cs).cons (by decide)
    · obtain ⟨⟨g, more⟩, hopen, hs⟩ := bind_eq_ok.mp hs
      cases hs
      exact (passes_openClass hopen).cons (by decide)
  · split at hs
    · cases hs
      obtain ⟨t, rfl⟩ := List.head?_eq_some_iff.mp (beq_iff_eq.mp ‹_›)
      exact ((Passes.zero t).cons (by decide)).cons (by decide)
    · obtain ⟨g, -, hs⟩ := bind_eq_ok.mp hs
      cases hs
      exact (Passes.zero cs).cons (by decide)
  · rename_i hne _ _ _
    obtain ⟨g, -, hs⟩ := bind_eq_ok.mp hs
    cases hs
    exact (Passes.zero cs).cons hne

theorem classStep_shares (hs : classStep f outer c cs = .ok (.more f' outer' used)) (h : Shares used cs ds)
    (hd : ClosesAlike (cs.drop used) (ds.drop used)) :
    classStep f outer c ds = .ok (.more f' outer' used) := by
  unfold classStep at hs ⊢
  split at hs
  · exact hs
  · obtain ⟨⟨x, more⟩, hx, hs⟩ := bind_eq_ok.mp hs
    obtain ⟨g, hg, hs⟩ := bind_eq_ok.mp hs
    cases hs
    exact bind_eq_ok.mpr ⟨_, scanClassEscape_shares h hx (Nat.le_refl _), bind_eq_ok.mpr ⟨_, hg, rfl⟩⟩
  · obtain ⟨g, hg, hs⟩ := bind_eq_ok.mp hs
    cases hs
    refine bind_eq_ok.mpr ⟨_, ?_, rfl⟩
    simp only [List.drop_zero] at hd
    rwa [hd.head?_eq, startsWith_eq hd (t := ['&', '&']) (by decide)]
  · obtain ⟨b, hb, hs⟩ := bind_eq_ok.mp hs
    have hb' (hp : Passes cs used) : scanBracket ds = .ok b := by rw [scanBracket_eq (hp h hd), hb]
    split at hs
    · obtain ⟨g, hg, hs⟩ := bind_eq_ok.mp hs
      cases hs
      exact bind_eq_ok.mpr ⟨_, hb' (passes_scanBracket hb), bind_eq_ok.mpr ⟨_, hg, rfl⟩⟩
    · obtain ⟨g, hg, hs⟩ := bind_eq_ok.mp hs
      cases hs
      exact bind_eq_ok.mpr ⟨_, hb' (.zero cs), bind_eq_ok.mpr ⟨_, hg, rfl⟩⟩
    · obtain ⟨⟨g, more⟩, hopen, hs⟩ := bind_eq_ok.mp hs
      cases hs
      exact bind_eq_ok.mpr ⟨_, hb' (passes_openClass hopen),
        bind_eq_ok.mpr ⟨_, openClass_shares hopen h hd, rfl⟩⟩
  · have hhead : ds.head? = cs.head? := by
      split at hs
      · cases hs
        obtain ⟨c, cs, ds, rfl, rfl, -⟩ := h.exists_cons
        rfl
      · obtain ⟨_, -, hs⟩ := bind_eq_ok.mp hs
        cases hs
        exact hd.head?_eq
    rwa [hhead]
  · exact hs

theorem lt_of_readClassFrom {content : CharSet} {negated : Bool} {skip start total : Nat}
    (hs : readClassFrom f outer skip start cs = .ok (content, negated, total)) : start + skip < total := by
  induction cs generalizing f outer skip start with
  | nil => cases hs
  | cons c cs ih =>
    simp only [readClassFrom] at hs
    split at hs
    · split at hs
      · cases hs
      · cases hs; omega
      · have := ih hs; omega
    · have := ih hs; omega

theorem readClassFrom_shares {content : CharSet} {negated : Bool} {skip start total : Nat}
    (hs : readClassFrom f outer skip start cs = .ok (content, negated, total))
    (h : Shares (total - start) cs ds) :
    readClassFrom f outer skip start ds = .ok (content, negated, total) ∧
      ClosesAlike (cs.drop skip) (ds.drop skip) := by
  induction cs generalizing ds f outer skip start with
  | nil => cases hs
  | cons c cs ih =>
    have hlt := lt_of_readClassFrom hs
    obtain ⟨ds, rfl, h₁⟩ := h.cons_of_pos (by omega)
    rw [Nat.sub_sub] at h₁
    unfold readClassFrom at hs ⊢
    split at hs
    · rename_i hskip
      rw [if_pos hskip, hskip]
      split at hs
      · cases hs
      · rename_i hstep
        obtain ⟨rfl, rfl⟩ := classStep_done hstep
        rw [show classStep f [] ']' ds = classStep f [] ']' cs from rfl, hstep]
        exact ⟨hs, .close⟩
      · rename_i f' outer' used hstep
        have hlt' := lt_of_readClassFrom hs
        obtain ⟨hread, hclose⟩ := ih hs h₁
        have hshare := h₁.mono (m := used) (by omega)
        rw [classStep_shares hstep hshare hclose]
        exact ⟨hread, passes_classStep hstep (.cons c hshare) hclose⟩
    · rename_i hskip
      obtain ⟨hread, hclose⟩ := ih hs h₁
      rw [if_neg hskip]
      obtain ⟨skip, rfl⟩ := Nat.exists_eq_succ_of_ne_zero hskip
      exact ⟨hread, hclose⟩

theorem readClass_shares {content : CharSet} {negated : Bool}
    (hs : readClass cs = .ok (content, negated, used)) (h : Shares used cs ds) :
    readClass ds = .ok (content, negated, used) := by
  obtain ⟨⟨f, start⟩, hopen, hs⟩ := bind_eq_ok.mp hs
  obtain ⟨hread, hclose⟩ := readClassFrom_shares hs h
  have hlt := lt_of_readClassFrom hs
  exact bind_eq_ok.mpr ⟨_, openClass_shares hopen (h.mono (by omega)) hclose, hread⟩

end

end Scribe.Pattern
