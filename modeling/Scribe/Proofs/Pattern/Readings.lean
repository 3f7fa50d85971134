import Scribe.Proofs.Pattern.Numbers

/-!
# Patterns lexeme by lexeme

A pattern that can be read is the text of its lexemes in a row. Moved behind other groups it keeps this text
but for the numbers in references and comments, and it is read as the same lexemes there.
-/

namespace Scribe.Pattern

/-- Whether the lexeme names a group by its absolute number. -/
def Lexeme.isAbsolute : Lexeme → Bool
  | .name written | .condition written => written.head?.any Char.isDigit
  | _ => false

/-- A lexeme with its characters, and how many groups there are in front of it. -/
structure Reading where
  groupCount : Nat
  /-- Whether blanks and comments are skipped here. -/
  extended : Bool
  lexeme : Lexeme
  text : List Char
  /-- How many characters it takes after the first; more than there are, if it is a comment that the end
  of the pattern cuts off. -/
  used : Nat
  deriving DecidableEq

/-- The readings of a pattern, as far as it can be read. `skip` characters belong to the one before. -/
def readings (r : Reader) (skip : Nat) : List Char → List Reading
  | [] => []
  | c :: rest =>
    if skip = 0 then
      match scan r.flags r.groupCount c rest with
      | .error _ => []
      | .ok (x, used) =>
        match r.take x with
        | .error _ => []
        | .ok s => ⟨r.groupCount, r.flags.extended, x, c :: rest.take used, used⟩ :: readings s used rest
    else readings r (skip - 1) rest

namespace Reading

/-- The text of the reading when `w` groups stand in front of the pattern. In comments all numbers after
backslashes may change. -/
def moved (w : Nat) (x : Reading) : List Char :=
  if isComment x.extended x.text then PatternUnion.moveRefs w false false x.text
  else match x.lexeme with
  | .number n => '\\' :: Nat.toDigits 10 (n + w)
  | _ => x.text

/-- Whether the reading means the same with `w` groups in front of the pattern. A number has to be a
reference there too; a group must not be named by its absolute number, nor a character by an octal number
that groups in front could turn into a reference. -/
def movable (w : Nat) (x : Reading) : Bool :=
  x.text.length = x.used + 1 &&
    match x.lexeme with
    | .number n => n + w ≤ 1000 && (n ≤ x.groupCount || n + w ≤ 9)
    | y => !mayRefer x.text && !y.isAbsolute

end Reading

/-- One reader comes from the other by these readings, which make up the text. -/
inductive Reads : Reader → List Char → List Reading → Reader → Prop
  | nil {r : Reader} : Reads r [] [] r
  | cons {r s u : Reader} {c : Char} {t rest : List Char} {x : Lexeme} {xs : List Reading}
      (hscan : scan r.flags r.groupCount c (t ++ rest) = .ok (x, t.length)) (htake : r.take x = .ok s)
      (h : Reads s rest xs u) :
      Reads r (c :: (t ++ rest)) (⟨r.groupCount, r.flags.extended, x, c :: t, t.length⟩ :: xs) u

section
variable {r s u : Reader} {c : Char} {skip used : Nat} {cs rest : List Char} {x : Lexeme}

theorem step_eq_ok (h : r.step c rest = .ok (s, used)) :
    ∃ x, scan r.flags r.groupCount c rest = .ok (x, used) ∧ r.take x = .ok s := by
  obtain ⟨⟨x, k⟩, hscan, h⟩ := bind_eq_ok.mp h
  obtain ⟨s', htake, h⟩ := bind_eq_ok.mp h
  cases h
  exact ⟨x, hscan, htake⟩

theorem step_of_scan (hscan : scan r.flags r.groupCount c rest = .ok (x, used)) (htake : r.take x = .ok s) :
    r.step c rest = .ok (s, used) :=
  bind_eq_ok.mpr ⟨_, hscan, bind_eq_ok.mpr ⟨_, htake, rfl⟩⟩

theorem readFrom_append (r : Reader) : ∀ (t rest : List Char), readFrom r t.length (t ++ rest) = readFrom r 0 rest
  | [], _ => rfl
  | _ :: t, rest => readFrom_append r t rest

theorem readFrom_of_scan {t : List Char} (hscan : scan r.flags r.groupCount c (t ++ rest) = .ok (x, t.length))
    (htake : r.take x = .ok s) : readFrom r 0 (c :: (t ++ rest)) = readFrom s 0 rest := by
  rw [readFrom, if_pos rfl, step_of_scan hscan htake]
  exact readFrom_append s t rest

/-- A pattern that can be read is made up of its readings, unless a comment is cut off. -/
theorem reads_readings (h : readFrom r skip cs = .ok u)
    (hx : ∀ x ∈ readings r skip cs, x.text.length = x.used + 1) :
    Reads r (cs.drop skip) (readings r skip cs) u := by
  induction cs generalizing r skip with
  | nil =>
    cases h
    rw [List.drop_nil]
    exact .nil
  | cons c rest ih =>
    unfold readFrom at h
    unfold readings at hx ⊢
    split at h
    · rename_i hskip
      subst hskip
      rw [if_pos rfl] at hx ⊢
      split at h
      · cases h
      · rename_i s used hstep
        obtain ⟨x, hscan, htake⟩ := step_eq_ok hstep
        simp only [hscan, htake] at hx ⊢
        have hused : (rest.take used).length = used := by
          have := hx _ (.head _)
          simpa using this
        have htext : rest.take used ++ rest.drop used = rest := List.take_append_drop used rest
        have hrest := ih h fun y hy => hx y (.tail _ hy)
        have := Reads.cons (t := rest.take used) (c := c) (by rw [htext, hused]; exact hscan) htake hrest
        rwa [htext, hused] at this
    · rename_i hskip
      rw [if_neg hskip] at hx ⊢
      obtain ⟨k, rfl⟩ := Nat.exists_eq_succ_of_ne_zero hskip
      exact ih h hx

theorem groupCount_take (h : r.take x = .ok s) : r.groupCount ≤ s.groupCount := by
  cases x with
  | skip | char | tree | number | opening | bar => cases h; exact Nat.le_refl _
  | name =>
    obtain ⟨_, -, h⟩ := bind_eq_ok.mp h
    cases h
    exact Nat.le_refl _
  | condition =>
    obtain ⟨_, -, h⟩ := bind_eq_ok.mp h
    cases h
    exact Nat.le_refl _
  | capture => cases h; exact Nat.le_succ _
  | close =>
    obtain ⟨_, -, h⟩ := bind_eq_ok.mp h
    cases h
    exact Nat.le_refl _
  | quantifier q =>
    replace h : r.quantify q = .ok s := h
    unfold Reader.quantify at h
    split at h
    · split at h
      · cases h
      · cases h; exact Nat.le_refl _
    · split at h
      · cases h
      · cases h; exact Nat.le_refl _
      · cases h; exact Nat.le_refl _

def Reader.NamesGroups (r : Reader) : Prop := ∀ p ∈ r.names, p.2 ≤ r.groupCount

theorem namesGroups_take (h : r.take x = .ok s) (hr : r.NamesGroups) : s.NamesGroups := by
  cases x with
  | skip | char | tree | number | opening | bar => cases h; exact hr
  | name =>
    obtain ⟨_, -, h⟩ := bind_eq_ok.mp h
    cases h
    exact hr
  | condition =>
    obtain ⟨_, -, h⟩ := bind_eq_ok.mp h
    cases h
    exact hr
  | capture name? =>
    cases h
    intro p hp
    rcases List.mem_append.mp hp with hp | hp
    · obtain ⟨name, -, rfl⟩ := Option.map_eq_some_iff.mp (Option.mem_toList.mp hp)
      exact Nat.le_refl _
    · exact Nat.le_succ_of_le (hr p hp)
  | close =>
    obtain ⟨_, -, h⟩ := bind_eq_ok.mp h
    cases h
    exact hr
  | quantifier q =>
    replace h : r.quantify q = .ok s := h
    unfold Reader.quantify at h
    split at h
    · split at h
      · cases h
      · cases h; exact hr
    · split at h
      · cases h
      · cases h; exact hr
      · cases h; exact hr

theorem Reads.namesGroups {xs : List Reading} (h : Reads r cs xs u) (hr : r.NamesGroups) : u.NamesGroups := by
  induction h with
  | nil => exact hr
  | cons _ htake _ ih => exact ih (namesGroups_take htake hr)

theorem Reads.groupCount_le {xs : List Reading} (h : Reads r cs xs u) : r.groupCount ≤ u.groupCount := by
  induction h with
  | nil => exact Nat.le_refl _
  | cons _ htake _ ih => exact Nat.le_trans (groupCount_take htake) ih

/-- Without a further group there is no further name. -/
theorem names_take (h : r.take x = .ok s) (hcount : s.groupCount = r.groupCount) : s.names = r.names := by
  cases x with
  | skip | char | tree | number | opening | bar => cases h; rfl
  | name =>
    obtain ⟨_, -, h⟩ := bind_eq_ok.mp h
    cases h
    rfl
  | condition =>
    obtain ⟨_, -, h⟩ := bind_eq_ok.mp h
    cases h
    rfl
  | capture => cases h; exact absurd hcount (Nat.succ_ne_self _)
  | close =>
    obtain ⟨_, -, h⟩ := bind_eq_ok.mp h
    cases h
    rfl
  | quantifier q =>
    replace h : r.quantify q = .ok s := h
    unfold Reader.quantify at h
    split at h
    · split at h
      · cases h
      · cases h; rfl
    · split at h
      · cases h
      · cases h; rfl
      · cases h; rfl

theorem Reads.names_eq {xs : List Reading} (h : Reads r cs xs u) (hcount : u.groupCount = r.groupCount) :
    u.names = r.names := by
  induction h with
  | nil => rfl
  | cons _ htake hrest ih =>
    have hle := groupCount_take htake
    have hle' := hrest.groupCount_le
    exact (ih (by omega)).trans (names_take htake (by omega))

end

/-! ## Behind other groups -/

def Lexeme.moved (w : Nat) : Lexeme → Lexeme
  | .number n => .number (n + w)
  | x => x

theorem Lexeme.moved_of_isPlain {x : Lexeme} (h : x.isPlain) (w : Nat) : x.moved w = x := by
  cases x <;> first | rfl | cases h

namespace Reading

variable {w : Nat} {x : Reading}

theorem moved_of_isComment (h : isComment x.extended x.text) : x.moved w = PatternUnion.moveRefs w false false x.text :=
  if_pos h

theorem moved_of_isPlain (hc : ¬isComment x.extended x.text) (h : x.lexeme.isPlain) : x.moved w = x.text := by
  unfold moved
  rw [if_neg hc]
  split
  · rename_i heq
    rw [heq] at h
    cases h
  · rfl

theorem movable_iff_of_isPlain (h : x.lexeme.isPlain) :
    x.movable w ↔ x.text.length = x.used + 1 ∧ mayRefer x.text = false ∧ x.lexeme.isAbsolute = false := by
  unfold movable
  split
  · rename_i heq
    rw [heq] at h
    cases h
  · simp

theorem movable_number {n : Nat} (h : x.lexeme = .number n) (hm : x.movable w) :
    n + w ≤ 1000 ∧ (n ≤ x.groupCount ∨ n + w ≤ 9) := by
  simp only [movable, h, Bool.and_eq_true, Bool.or_eq_true, decide_eq_true_eq] at hm
  exact hm.2

end Reading

section
variable {r u : Reader} {cs : List Char} {xs : List Reading} {w : Nat}

/-- The readings of a pattern, moved behind `w` groups, share with the pattern what a reader looks at. -/
theorem Reads.shares (h : Reads r cs xs u) {tail : List Char} (htail : ∀ c ∈ tail.head?, stops c) :
    Shares 0 cs (xs.flatMap (·.moved w) ++ tail) := by
  induction h with
  | nil => exact .part (fun _ h => nomatch h) htail
  | @cons r s u c t rest x xs hscan htake h ih =>
    rw [List.flatMap_cons, List.append_assoc]
    by_cases hcomment : isComment r.flags.extended (c :: t)
    · rw [Reading.moved_of_isComment hcomment]
      exact shares_moveRefs (t := c :: t) w false ih
    · rcases isPlain_scan hscan with hplain | ⟨rfl, -, rfl, -⟩
      · rw [Reading.moved_of_isPlain hcomment hplain]
        exact (ih.append (c :: t)).mono (Nat.zero_le _)
      · exact .part (fun _ h => by cases h; rfl) (fun _ h => by cases h; rfl)

theorem Reads.moved_eq (h : Reads r cs xs u) (hn : hasNumber cs = false)
    (habs : ∀ x ∈ xs, x.lexeme.isAbsolute = false) :
    xs.flatMap (·.moved w) = cs ∧ ∀ x ∈ xs, x.movable w := by
  induction h with
  | nil => exact ⟨rfl, fun _ h => nomatch h⟩
  | @cons r s u c t rest x xs hscan htake h ih =>
    obtain ⟨hnt, hnrest⟩ := hasNumber_append (s := c :: t) hn
    obtain ⟨habs, habs'⟩ := List.forall_mem_cons.mp habs
    obtain ⟨htext, hall⟩ := ih hnrest habs'
    have hrefer : mayRefer (c :: t) = false := (Bool.or_eq_false_iff.mp hnt).1
    rcases isPlain_scan hscan with hplain | ⟨rfl, ⟨d, hd, hdigit⟩, -, -⟩
    · have hmoved : Reading.moved w ⟨r.groupCount, r.flags.extended, x, c :: t, t.length⟩ = c :: t := by
        by_cases hcomment : isComment r.flags.extended (c :: t)
        · exact (Reading.moved_of_isComment hcomment).trans (moveRefs_of_hasNumber hnt)
        · exact Reading.moved_of_isPlain hcomment hplain
      refine ⟨by rw [List.flatMap_cons, hmoved, htext]; rfl, List.forall_mem_cons.mpr ⟨?_, hall⟩⟩
      exact (Reading.movable_iff_of_isPlain hplain).mpr ⟨rfl, hrefer, habs⟩
    · obtain ⟨e, t, rfl⟩ := List.exists_cons_of_length_pos (pos_of_scanBackslash hscan)
      cases hd
      exact nomatch hdigit.symm.trans hrefer

theorem takeWhile_eq_nil_of_length {p : Char → Bool} : ∀ {t rest : List Char},
    ((t ++ rest).takeWhile p).length = t.length → rest.takeWhile p = []
  | [], _, h => List.eq_nil_of_length_eq_zero h
  | c :: t, rest, h => by
    rw [List.cons_append, List.takeWhile_cons] at h
    split at h
    · exact takeWhile_eq_nil_of_length (Nat.succ.inj h)
    · cases h

/-- A reading is read as the same lexeme where `w` groups stand in front of the pattern. -/
theorem scan_moved {flags : Flags} {groupCount : Nat} {c : Char} {t rest rest' : List Char} {x : Lexeme}
    (hw : 0 < w) (hscan : scan flags groupCount c (t ++ rest) = .ok (x, t.length))
    (hm : Reading.movable w ⟨groupCount, flags.extended, x, c :: t, t.length⟩) (h : Shares 0 rest rest') :
    ∃ c' t', Reading.moved w ⟨groupCount, flags.extended, x, c :: t, t.length⟩ = c' :: t' ∧
      scan flags (groupCount + w) c' (t' ++ rest') = .ok (x.moved w, t'.length) := by
  by_cases hcomment : isComment flags.extended (c :: t)
  · obtain ⟨rfl, t', htext, hscan'⟩ := scan_comment hw hcomment hscan rest' (groupCount + w)
    exact ⟨c, t', (Reading.moved_of_isComment hcomment).trans htext, hscan'⟩
  rcases isPlain_scan hscan with hplain | ⟨rfl, -, rfl, hused⟩
  · obtain ⟨-, hrefer, -⟩ := (Reading.movable_iff_of_isPlain hplain).mp hm
    refine ⟨c, t, Reading.moved_of_isPlain hcomment hplain, ?_⟩
    rw [Lexeme.moved_of_isPlain hplain]
    refine scan_shares (h.append t) hscan ?_ _
    rintro rfl d hd
    have hpos := pos_of_scanBackslash hscan
    obtain ⟨e, t, rfl⟩ := List.exists_cons_of_length_pos hpos
    cases hd
    exact hrefer
  · -- the digits are written anew, and what follows them is no digit
    obtain ⟨hlimit, hopen⟩ := Reading.movable_number rfl hm
    refine ⟨'\\', _, rfl, ?_⟩
    dsimp only at hopen
    have hnil := (h.takeWhile_eq fun _ => isDigit_of_stops).trans (takeWhile_eq_nil_of_length hused.symm)
    refine scan_toDigits (by omega) hlimit (by omega) fun d hd => ?_
    obtain ⟨rest', rfl⟩ := List.head?_eq_some_iff.mp hd
    rw [List.takeWhile_cons] at hnil
    split at hnil
    · cases hnil
    · exact Bool.eq_false_iff.mpr ‹_›

end

end Scribe.Pattern
