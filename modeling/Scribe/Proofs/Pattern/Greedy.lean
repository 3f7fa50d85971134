import Scribe.Pattern.Match
import Mathlib.Data.List.TakeWhile

/-!
# Greedy runs

Some trees have one way at most to go on, and it depends on the coming characters only. A greedy run has many, but the
longest one decides, unless what follows fails behind it and not behind a shorter one.
-/

namespace Scribe

namespace Pattern

/-- The characters from this place on. -/
def Input.rest (input : Input) (pos : Nat) : List Char := input.text.toList.drop pos

def Progress.move (s : Progress) (n : Nat) : Progress := { s with pos := s.pos + n }

/-- Whether the next character is of a kind. -/
def nextIs (p : Char → Bool) (cs : List Char) : Bool := cs.head?.any p

/-- A text that has to come first, and what follows it. -/
def behind? (text : List Char) (length? : List Char → Option Nat) (cs : List Char) : Option Nat :=
  if text <+: cs then (length? (cs.drop text.length)).map (· + text.length) else none

/-- There is one way at most, and it takes as many of the coming characters as `length?` says. -/
def OneWay (input : Input) (length? : List Char → Option Nat) (body : Progress → After → Option Progress) : Prop :=
  ∀ s k, body s k = (length? (input.rest s.pos)).bind fun n => k (s.move n)

variable {input : Input} {s : Progress} {k : After}

@[simp] theorem Progress.move_zero : s.move 0 = s := rfl

@[simp] theorem Progress.move_move (m n : Nat) : (s.move m).move n = s.move (m + n) := by
  simp [Progress.move, Nat.add_assoc]

@[simp] theorem Input.rest_move (n : Nat) : input.rest (s.move n).pos = (input.rest s.pos).drop n := by
  simp [Input.rest, Progress.move]

theorem Input.getElem?_text (pos : Nat) : input.text[pos]? = (input.rest pos).head? := by
  simp [Input.rest]

theorem Input.length_rest (pos : Nat) : (input.rest pos).length = input.text.size - pos := by
  simp [Input.rest]

theorem Input.tail_rest (pos : Nat) : (input.rest pos).tail = input.rest (pos + 1) := by
  simp [Input.rest]

section
variable {text cs : List Char} {c d : Char} {f : List Char → Option Nat} {n : Nat}

@[simp] theorem behind?_nil : behind? [] f cs = f cs := by
  simp [behind?]

@[simp] theorem behind?_end : behind? (c :: text) f [] = none := by
  simp [behind?]

@[simp] theorem behind?_cons : behind? (c :: text) f (c :: cs) = (behind? text f cs).map (· + 1) := by
  by_cases h : text <+: cs
  · simp [behind?, List.cons_prefix_cons, h, Function.comp_def, Nat.add_assoc]
  · simp [behind?, List.cons_prefix_cons, h]

theorem behind?_of_ne (h : d ≠ c) : behind? (c :: text) f (d :: cs) = none := by
  simp [behind?, List.cons_prefix_cons, h.symm]

theorem behind?_eq_none (h : ∀ rest, cs = c :: rest → False) : behind? (c :: text) f cs = none := by
  match cs with
  | [] => exact behind?_end
  | d :: cs => exact behind?_of_ne fun hd => h cs (hd ▸ rfl)

theorem bind_behind? : ((behind? text fun _ => some 0) cs).bind (fun m => (f (cs.drop m)).map (m + ·)) =
    behind? text f cs := by
  by_cases h : text <+: cs
  · simp [behind?, h, Nat.add_comm]
  · simp [behind?, h]

theorem le_of_behind? (h : behind? text f cs = some n) : text.length ≤ n := by
  unfold behind? at h
  split at h
  · obtain ⟨m, -, rfl⟩ := Option.map_eq_some_iff.mp h
    exact Nat.le_add_left _ _
  · cases h

end

/-! ## One way -/

theorem literalEnd_eq (text : List Char) (pos : Nat) :
    input.literalEnd pos text = if text <+: input.rest pos then some (pos + text.length) else none := by
  induction text generalizing pos with
  | nil => simp [Input.literalEnd]
  | cons c text ih =>
    rw [Input.literalEnd, ih, Input.getElem?_text, ← Input.tail_rest]
    cases hrest : input.rest pos with
    | nil => simp
    | cons d rest =>
      have hsum : pos + 1 + text.length = pos + (text.length + 1) := by omega
      by_cases hd : d = c
      · subst hd
        simp [List.cons_prefix_cons, hsum]
      · simp [List.cons_prefix_cons, hd, Ne.symm hd]

theorem oneWay_literal (text : List Char) :
    OneWay input (behind? text fun _ => some 0) (run input (.literal text false)) := by
  intro s k
  simp only [run, literalEnd_eq, Bool.false_eq_true, if_false]
  by_cases h : text <+: input.rest s.pos
  · simp [behind?, h, Progress.move]
  · simp [behind?, h]

theorem oneWay_char (c : Char) :
    OneWay input (fun cs => if cs.head? = some c then some 1 else none) (run input (.literal [c] false)) := by
  intro s k
  rw [oneWay_literal]
  cases input.rest s.pos with
  | nil => rfl
  | cons d rest =>
    by_cases hd : d = c
    · simp [hd]
    · simp [behind?_of_ne hd, hd]

theorem oneWay_set (set : CharSet) :
    OneWay input (fun cs => if nextIs set.holds cs then some 1 else none) (run input (.set set)) := by
  intro s k
  simp only [run, Input.getElem?_text, nextIs]
  cases input.rest s.pos with
  | nil => rfl
  | cons c rest => cases hc : set.holds c <;> simp [hc, Progress.move]

namespace OneWay

variable {f g : List Char → Option Nat} {t u : Tree}

theorem congr {body : Progress → After → Option Progress} (h : OneWay input f body) (hfg : ∀ cs, f cs = g cs) :
    OneWay input g body := fun s k => by rw [h s k, hfg]

theorem seq (ht : OneWay input f (run input t)) (hu : OneWay input g (run input u)) :
    OneWay input (fun cs => (f cs).bind fun m => (g (cs.drop m)).map (m + ·)) (run input (.seq t u)) := by
  intro s k
  simp only [run]
  rw [ht]
  cases f (input.rest s.pos) with
  | none => rfl
  | some m =>
    simp only [Option.bind_some]
    rw [hu, Input.rest_move]
    cases g ((input.rest s.pos).drop m) <;> simp

theorem behind (hu : OneWay input g (run input u)) (text : List Char) :
    OneWay input (behind? text g) (run input (.seq (.literal text false) u)) :=
  ((oneWay_literal text).seq hu).congr fun _ => bind_behind?

/-- Alternatives that exclude each other. -/
theorem alt (ht : OneWay input f (run input t)) (hu : OneWay input g (run input u))
    (hfg : ∀ cs, f cs ≠ none → g cs = none) : OneWay input (fun cs => (f cs).or (g cs)) (run input (.alt t u)) := by
  intro s k
  simp only [run]
  rw [ht, hu]
  have hsame := hfg (input.rest s.pos)
  cases hf : f (input.rest s.pos) with
  | none => rfl
  | some m =>
    rw [hsame (by simp [hf])]
    cases hk : k (s.move m) <;> simp [orElse, hk]

end OneWay

/-! ## Runs of one kind -/

theorem countRun_eq (p : Char → Bool) (limit pos : Nat) :
    input.countRun p pos limit = (((input.rest pos).take limit).takeWhile p).length := by
  induction limit generalizing pos with
  | zero => rfl
  | succ limit ih =>
    rw [Input.countRun, Input.getElem?_text, ih, ← Input.tail_rest]
    cases input.rest pos with
    | nil => rfl
    | cons c rest => cases hc : p c <;> simp [hc]

/-- The longest length decides if no shorter one can do what it cannot. -/
theorem longestFirst_eq {least n : Nat} (h : k (s.move (least + n)) = none → ∀ i < n, k (s.move (least + i)) = none) :
    longestFirst s k least n = k (s.move (least + n)) := by
  induction n with
  | zero => rfl
  | succ n ih =>
    rw [longestFirst, Nat.add_assoc]
    show orElse (k (s.move (least + (n + 1)))) _ = _
    cases hk : k (s.move (least + (n + 1))) with
    | some r => rfl
    | none =>
      have hshort := h hk
      exact (ih fun _ i hi => hshort i (Nat.lt_succ_of_lt hi)).trans (hshort n (Nat.lt_succ_self n))

/-- How many of the characters a run of up to `most` takes. -/
def runLength (p : Char → Bool) (most : Option Nat) (cs : List Char) : Nat :=
  ((cs.take (most.getD cs.length)).takeWhile p).length

theorem runLength_none (p : Char → Bool) (cs : List Char) : runLength p none cs = (cs.takeWhile p).length := by
  simp [runLength]

theorem runLength_one (p : Char → Bool) (cs : List Char) :
    runLength p (some 1) cs = if nextIs p cs then 1 else 0 := by
  cases cs with
  | nil => rfl
  | cons c cs => cases hc : p c <;> simp [runLength, nextIs, hc]

theorem runChars_eq {p : Char → Bool} {least : Nat} {most : Option Nat}
    (h : k (s.move (runLength p most (input.rest s.pos))) = none →
      ∀ i < runLength p most (input.rest s.pos), k (s.move i) = none) :
    runChars input p least most true s k =
      if runLength p most (input.rest s.pos) < least then none
      else k (s.move (runLength p most (input.rest s.pos))) := by
  have hcount : input.countRun p s.pos (min (input.text.size - s.pos) (most.getD (input.text.size - s.pos))) =
      runLength p most (input.rest s.pos) := by
    rw [countRun_eq, runLength, ← Input.length_rest, Nat.min_comm, ← List.take_eq_take_min]
  unfold runChars
  dsimp only
  rw [hcount]
  generalize runLength p most (input.rest s.pos) = count at h
  by_cases hlt : count < least
  · rw [if_pos hlt, if_pos hlt]
  · rw [if_neg hlt, if_neg hlt, if_pos rfl]
    have hsplit : least + (count - least) = count := Nat.add_sub_cancel' (Nat.le_of_not_lt hlt)
    rw [longestFirst_eq, hsplit]
    rw [hsplit]
    exact fun hk i hi => h hk _ (by omega)

/-- The longest way decides if nothing can follow where `more` of it may come, or if something follows everywhere. -/
def LongestWay (input : Input) (more : List Char → Bool) (length? : List Char → Option Nat)
    (body : Progress → After → Option Progress) : Prop :=
  ∀ s k, (∀ t, more (input.rest t.pos) = true → k t = none) ∨ (∀ t, k t ≠ none) →
    body s k = (length? (input.rest s.pos)).bind fun n => k (s.move n)

theorem longestWay_set (set : CharSet) (least : Nat) :
    LongestWay input (nextIs set.holds)
      (fun cs => if (cs.takeWhile set.holds).length < least then none else some (cs.takeWhile set.holds).length)
      (run input (.repetition (.set set) least none true)) := by
  intro s k h
  have hrun : run input (.repetition (.set set) least none true) s k = runChars input set.holds least none true s k :=
    rfl
  rw [hrun, runChars_eq, runLength_none]
  · dsimp only
    split <;> rfl
  · intro hk i hi
    rcases h with h | h
    · refine h _ ?_
      rw [runLength_none] at hi
      rw [Input.rest_move, nextIs, List.head?_drop, List.prefix_iff_getElem?.mp (List.takeWhile_prefix _) i hi]
      have hset : set.holds ((input.rest s.pos).takeWhile set.holds)[i] := List.mem_takeWhile_imp (List.getElem_mem hi)
      exact hset
    · exact absurd hk (h _)

/-! ## Repeated pieces -/

/-- `total` adds up what the pieces take that come one after the other. -/
structure AddsUp (piece? : List Char → Option Nat) (total : List Char → Nat) : Prop where
  bounds : ∀ {cs n}, piece? cs = some n → 0 < n ∧ n ≤ cs.length
  ends : ∀ {cs}, piece? cs = none → total cs = 0
  goes : ∀ {cs n}, piece? cs = some n → total cs = n + total (cs.drop n)

section
variable {f : List Char → Option Nat} {g : List Char → Nat} {t : Tree}

theorem length_rest_lt (s : Progress) : (input.rest s.pos).length < input.text.size - s.pos + 1 := by
  rw [Input.length_rest]
  exact Nat.lt_succ_self _

theorem anyTimes_eq (ht : OneWay input f (run input t)) (hg : AddsUp f g)
    (hk : (∀ t, (f (input.rest t.pos)).isSome = true → k t = none) ∨ (∀ t, k t ≠ none)) :
    ∀ (room : Nat) (s : Progress), (input.rest s.pos).length < room →
      anyTimes (run input t) true room s k = k (s.move (g (input.rest s.pos)))
  | 0, _, h => absurd h (Nat.not_lt_zero _)
  | room + 1, s, h => by
    rw [anyTimes]
    dsimp only
    rw [if_pos rfl, ht]
    cases hlength : f (input.rest s.pos) with
    | none => simp [orElse, hg.ends hlength]
    | some n =>
      obtain ⟨hpos, hle⟩ := hg.bounds hlength
      have hmoved : (s.move n).pos ≠ s.pos := by
        show s.pos + n ≠ s.pos
        omega
      have hroom : (input.rest (s.move n).pos).length < room := by
        rw [Input.rest_move, List.length_drop]
        omega
      have ih := anyTimes_eq ht hg hk room (s.move n) hroom
      rw [Option.bind_some, if_neg hmoved, ih, Input.rest_move, Progress.move_move, ← hg.goes hlength]
      -- Ending here is no way out: another piece stands here, or the longest way does not fail.
      rcases hk with hk | hk
      · rw [hk s (by simp [hlength])]
        cases k (s.move (g (input.rest s.pos))) <;> rfl
      · cases hlong : k (s.move (g (input.rest s.pos))) with
        | none => exact absurd hlong (hk _)
        | some r => rfl

/-- Pieces of which each goes one way. -/
theorem longestWay_pieces (ht : OneWay input f (run input t)) (hchar : oneChar? t = none) (hg : AddsUp f g) :
    LongestWay input (fun cs => (f cs).isSome) (fun cs => some (g cs)) (run input (.repetition t 0 none true)) := by
  intro s k hk
  simp only [run, hchar, times]
  exact anyTimes_eq ht hg hk _ s (length_rest_lt s)

/-- The same with one piece at least. -/
theorem longestWay_pieces_one (ht : OneWay input f (run input t)) (hchar : oneChar? t = none) (hg : AddsUp f g) :
    LongestWay input (fun cs => (f cs).isSome) (fun cs => if g cs = 0 then none else some (g cs))
      (run input (.repetition t 1 none true)) := by
  intro s k hk
  simp only [run, hchar, times]
  rw [ht]
  cases hlength : f (input.rest s.pos) with
  | none => simp [hg.ends hlength]
  | some n =>
    have hpos := (hg.bounds hlength).1
    have hsome : g (input.rest s.pos) ≠ 0 := by
      rw [hg.goes hlength]
      omega
    rw [Option.bind_some, anyTimes_eq ht hg hk _ _ (length_rest_lt _), Input.rest_move, Progress.move_move,
      ← hg.goes hlength, if_neg hsome]
    rfl

end

/-! ## The first way -/

/-- The first way by which the tree matches takes as many characters as `length?` says. -/
def FirstWay (input : Input) (length? : List Char → Option Nat) (t : Tree) : Prop :=
  ∀ s, (run input t s some).map Progress.pos = (length? (input.rest s.pos)).map (s.pos + ·)

section
variable {f g : List Char → Option Nat} {more : List Char → Bool} {t u : Tree}

theorem FirstWay.congr (h : FirstWay input f t) (hfg : ∀ cs, f cs = g cs) : FirstWay input g t :=
  fun s => by rw [h s, hfg]

theorem FirstWay.alt (ht : FirstWay input f t) (hu : FirstWay input g u) :
    FirstWay input (fun cs => (f cs).or (g cs)) (.alt t u) := by
  intro s
  simp only [run]
  have hts := ht s
  have hus := hu s
  cases hrun : run input t s some with
  | none =>
    rw [hrun] at hts
    rw [Option.map_eq_none_iff.mp hts.symm]
    exact hus
  | some r =>
    rw [hrun] at hts
    obtain ⟨n, hn, hr⟩ := Option.map_eq_some_iff.mp hts.symm
    rw [hn]
    exact congrArg some hr.symm

/-- What may come once, and is left out else. -/
theorem firstWay_optional {p : Char → Bool} (ht : oneChar? t = some p) :
    FirstWay input (fun cs => some (if nextIs p cs then 1 else 0)) (.repetition t 0 (some 1) true) := by
  intro s
  have hrun : run input (.repetition t 0 (some 1) true) s some = runChars input p 0 (some 1) true s some := by
    simp only [run, ht]
  have hnever (v : Progress) : some v ≠ none := Option.some_ne_none v
  rw [hrun, runChars_eq fun hk => absurd hk (hnever _), if_neg (Nat.not_lt_zero _), runLength_one]
  rfl

theorem OneWay.firstWay (h : OneWay input f (run input t)) : FirstWay input f t := by
  intro s
  rw [h s]
  cases f (input.rest s.pos) <;> rfl

theorem OneWay.firstWay_seq (ht : OneWay input f (run input t)) (hu : FirstWay input g u) :
    FirstWay input (fun cs => (f cs).bind fun m => (g (cs.drop m)).map (m + ·)) (.seq t u) := by
  intro s
  simp only [run]
  rw [ht]
  cases f (input.rest s.pos) with
  | none => rfl
  | some m =>
    have hmoved := hu (s.move m)
    rw [Input.rest_move] at hmoved
    rw [Option.bind_some, Option.bind_some, hmoved, Option.map_map]
    exact congrArg (Option.map · _) (funext fun n => Nat.add_assoc _ _ _)

theorem FirstWay.behind (hu : FirstWay input g u) (text : List Char) :
    FirstWay input (behind? text g) (.seq (.literal text false) u) :=
  ((oneWay_literal text).firstWay_seq hu).congr fun _ => bind_behind?

namespace LongestWay

theorem firstWay (h : LongestWay input more f (run input t)) : FirstWay input f t := by
  intro s
  rw [h s some (.inr fun _ hk => nomatch hk)]
  cases f (input.rest s.pos) <;> rfl

/-- A longest way, and behind it what cannot fail. -/
theorem firstWay_seq {rest : List Char → Nat} (ht : LongestWay input more f (run input t))
    (hu : FirstWay input (fun cs => some (rest cs)) u) :
    FirstWay input (fun cs => (f cs).map fun n => n + rest (cs.drop n)) (.seq t u) := by
  intro s
  simp only [run]
  have hnever (v : Progress) : run input u v some ≠ none := fun hv => by simpa [hv] using hu v
  rw [ht s _ (.inr hnever)]
  cases f (input.rest s.pos) with
  | none => rfl
  | some n =>
    have hmoved := hu (s.move n)
    rw [Input.rest_move] at hmoved
    rw [Option.bind_some, hmoved]
    exact congrArg some (Nat.add_assoc _ _ _)

/-- A longest way, and behind it a character that cannot be part of it, whatever becomes of the groups in between. -/
theorem pos_stop {body : Progress → After → Option Progress} (h : LongestWay input more f body) {stop : Char}
    (hstop : ∀ cs, more (stop :: cs) = false) (w : Progress → Progress) (hw : ∀ v, (w v).pos = v.pos) (s : Progress) :
    (body s fun v => run input (.literal [stop] false) (w v) some).map Progress.pos =
      ((f (input.rest s.pos)).bind fun n => if ((input.rest s.pos).drop n).head? = some stop then some (n + 1) else none).map
        (s.pos + ·) := by
  have hfollow (v : Progress) : run input (.literal [stop] false) (w v) some =
      if (input.rest v.pos).head? = some stop then some ((w v).move 1) else none := by
    rw [oneWay_char, hw]
    dsimp only
    split <;> rfl
  simp only [hfollow]
  have hfail (v : Progress) (hmore : more (input.rest v.pos) = true) : (input.rest v.pos).head? ≠ some stop := by
    intro hhead
    obtain ⟨cs, hcs⟩ := List.head?_eq_some_iff.mp hhead
    rw [hcs, hstop] at hmore
    cases hmore
  rw [h s _ (.inl fun v hmore => if_neg (hfail v hmore))]
  cases f (input.rest s.pos) with
  | none => rfl
  | some n =>
    rw [Option.bind_some, Option.bind_some, Input.rest_move]
    split
    · exact congrArg some ((congrArg (· + 1) (hw _)).trans (Nat.add_assoc _ _ _))
    · rfl

theorem firstWay_stop (h : LongestWay input more f (run input t)) {stop : Char}
    (hstop : ∀ cs, more (stop :: cs) = false) :
    FirstWay input (fun cs => (f cs).bind fun n => if (cs.drop n).head? = some stop then some (n + 1) else none)
      (.seq t (.literal [stop] false)) :=
  fun s => h.pos_stop hstop id (fun _ => rfl) s

theorem firstWay_group_stop (h : LongestWay input more f (run input t)) {stop : Char}
    (hstop : ∀ cs, more (stop :: cs) = false) (i : Nat) :
    FirstWay input (fun cs => (f cs).bind fun n => if (cs.drop n).head? = some stop then some (n + 1) else none)
      (.seq (.group i t) (.literal [stop] false)) :=
  fun s =>
    h.pos_stop hstop (fun v => { v with groups := v.groups.setIfInBounds i (some ⟨s.pos, v.pos⟩) }) (fun _ => rfl) s

end LongestWay

end

end Pattern

end Scribe
