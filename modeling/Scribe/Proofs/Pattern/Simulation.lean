import Mathlib.Data.Option.Basic
import Scribe.Proofs.Pattern.Moved

/-!
# Matches with other groups

A tree with other numbers goes the same way through a text as the tree itself, if the groups that either refers to hold the
same stretches: at each step the two matches stand at the same place. This is so for a tree that is moved behind other groups:
the groups of the one match are those of the other, moved.
-/

namespace Scribe.Pattern

variable {w n : Nat}

/-- The second match has come as far as the first; its groups are moved by `w`, and those up to `w` have not
taken part. -/
structure Progress.Moved (w n : Nat) (s s' : Progress) : Prop where
  pos : s'.pos = s.pos
  start : s'.start = s.start
  size : s.groups.size = n + 1
  room : n + w < s'.groups.size
  groups : ∀ i, s'.groups[i + w]?.join = s.groups[i]?.join
  before : ∀ i ≤ w, s'.groups[i]?.join = none

abbrev Alike (R : Progress → Progress → Prop) : Option Progress → Option Progress → Prop := Option.Rel R

/-- Corresponding matches are gone on with alike. -/
def AfterAlike (Q R : Progress → Progress → Prop) (k k' : After) : Prop :=
  ∀ ⦃s s' : Progress⦄, Q s s' → Alike R (k s) (k' s')

/-- Corresponding matches go the same ways through the two bodies. -/
def BodyAlike (Q : Progress → Progress → Prop) (body body' : Progress → After → Option Progress) : Prop :=
  ∀ ⦃R : Progress → Progress → Prop⦄ ⦃s s' : Progress⦄ ⦃k k' : After⦄, Q s s' →
    AfterAlike Q R k k' → Alike R (body s k) (body' s' k')

theorem AfterAlike.some {Q : Progress → Progress → Prop} : AfterAlike Q Q some some := fun _ _ h => .some h

/-- Corresponding matches stand at the same place, find the same in corresponding references, and correspond after every step. -/
structure Respects (number : Nat → Nat → Prop) (refer : List Nat → List Nat → Prop) (Q : Progress → Progress → Prop) :
    Prop where
  pos {s s' : Progress} : Q s s' → s'.pos = s.pos
  setPos {s s' : Progress} : Q s s' → ∀ pos : Nat, Q { s with pos } { s' with pos }
  keep {s s' : Progress} : Q s s' → Q { s with start := s.pos } { s' with start := s'.pos }
  setGroup {s s' : Progress} {i j : Nat} : Q s s' → number i j → ∀ span : Span,
    Q { s with groups := s.groups.setIfInBounds i (some span) } { s' with groups := s'.groups.setIfInBounds j (some span) }
  any_eq {s s' : Progress} {gs gs' : List Nat} : Q s s' → refer gs gs' →
    (gs'.any fun i => (s'.groups[i]?.join).isSome) = gs.any fun i => (s.groups[i]?.join).isSome
  findSome?_eq {s s' : Progress} {gs gs' : List Nat} : Q s s' → refer gs gs' → ∀ f : Span → Option Nat,
    (gs'.findSome? fun i => s'.groups[i]?.join.bind f) = gs.findSome? fun i => s.groups[i]?.join.bind f

namespace Progress.Moved

variable {s s' : Progress}

theorem setPos (h : s.Moved w n s') (pos : Nat) : Progress.Moved w n { s with pos } { s' with pos } :=
  { h with pos := rfl }

theorem keep (h : s.Moved w n s') : Progress.Moved w n { s with start := s.pos } { s' with start := s'.pos } :=
  { h with start := h.pos }

theorem setGroup {i : Nat} (h : s.Moved w n s') (hi : 0 < i) (hn : i ≤ n) (span : Span) :
    Progress.Moved w n { s with groups := s.groups.setIfInBounds i (some span) }
      { s' with groups := s'.groups.setIfInBounds (i + w) (some span) } where
  pos := h.pos
  start := h.start
  size := by rw [Array.size_setIfInBounds, h.size]
  room := by rw [Array.size_setIfInBounds]; exact h.room
  groups j := by
    have hsize := h.size
    have hroom := h.room
    simp only [Array.getElem?_setIfInBounds]
    by_cases hj : i = j
    · subst hj
      rw [if_pos rfl, if_pos rfl, if_pos (by omega), if_pos (by omega)]
    · rw [if_neg hj, if_neg (by omega), h.groups j]
  before j hj := by
    simp only [Array.getElem?_setIfInBounds]
    rw [if_neg (by omega), h.before j hj]

theorem any_eq {gs gs' : List Nat} (h : s.Moved w n s') (hg : GroupsMoved w gs gs') :
    (gs'.any fun i => (s'.groups[i]?.join).isSome) = gs.any fun i => (s.groups[i]?.join).isSome := by
  obtain ⟨es, hes, rfl⟩ := hg
  have hnone : (es.any fun i => (s'.groups[i]?.join).isSome) = false := by
    rw [List.any_eq_false]
    intro e he
    rw [h.before e (hes e he)]
    exact Bool.false_ne_true
  rw [List.any_append, hnone, Bool.or_false, List.any_map]
  exact congrArg gs.any (funext fun i => by rw [Function.comp_apply, h.groups i])

theorem findSome?_eq {gs gs' : List Nat} (h : s.Moved w n s') (hg : GroupsMoved w gs gs') (f : Span → Option Nat) :
    (gs'.findSome? fun i => s'.groups[i]?.join.bind f) = gs.findSome? fun i => s.groups[i]?.join.bind f := by
  obtain ⟨es, hes, rfl⟩ := hg
  have hnone : (es.findSome? fun i => s'.groups[i]?.join.bind f) = none := by
    rw [List.findSome?_eq_none_iff]
    intro e he
    rw [h.before e (hes e he)]
    rfl
  rw [List.findSome?_append, hnone, Option.or_none, List.findSome?_map]
  exact congrArg (List.findSome? · gs) (funext fun i => by rw [Function.comp_apply, h.groups i])

theorem respects : Respects (fun i j => 0 < i ∧ i ≤ n ∧ j = i + w) (GroupsMoved w) (Progress.Moved w n) where
  pos := pos
  setPos := setPos
  keep := keep
  setGroup h hi span := by
    obtain ⟨hpos, hn, rfl⟩ := hi
    exact h.setGroup hpos hn span
  any_eq := any_eq
  findSome?_eq := findSome?_eq

end Progress.Moved

section
variable {number : Nat → Nat → Prop} {refer : List Nat → List Nat → Prop} {Q R : Progress → Progress → Prop}
  {s s' : Progress} {k k' : After} {body body' : Progress → After → Option Progress} {input : Input}

theorem Alike.orElse {a a' : Option Progress} {b b' : Unit → Option Progress} (h : Alike R a a')
    (h' : Alike R (b ()) (b' ())) : Alike R (orElse a b) (orElse a' b') := by
  cases h with
  | some h => exact .some h
  | none => exact h'

section
variable (hQ : Respects number refer Q)
include hQ

theorem longestFirst_alike (h : Q s s') (hk : AfterAlike Q R k k') (least : Nat) :
    ∀ m, Alike R (longestFirst s k least m) (longestFirst s' k' least m)
  | 0 => by
    rw [longestFirst, longestFirst, hQ.pos h]
    exact hk (hQ.setPos h _)
  | m + 1 => by
    rw [longestFirst, longestFirst, hQ.pos h]
    exact .orElse (hk (hQ.setPos h _)) (longestFirst_alike h hk least m)

theorem shortestFirst_alike (h : Q s s') (hk : AfterAlike Q R k k') :
    ∀ m length, Alike R (shortestFirst s k length m) (shortestFirst s' k' length m)
  | 0, length => by
    rw [shortestFirst, shortestFirst, hQ.pos h]
    exact hk (hQ.setPos h _)
  | m + 1, length => by
    rw [shortestFirst, shortestFirst, hQ.pos h]
    exact .orElse (hk (hQ.setPos h _)) (shortestFirst_alike h hk m _)

theorem runChars_alike (p : Char → Bool) (least : Nat) (most : Option Nat) (greedy : Bool) :
    BodyAlike Q (runChars input p least most greedy) (runChars input p least most greedy) := by
  intro R s s' k k' h hk
  simp only [runChars, hQ.pos h]
  split
  · exact .none
  · split
    · exact longestFirst_alike hQ h hk _ _
    · exact shortestFirst_alike hQ h hk _ _

omit hQ in
theorem times_alike (hb : BodyAlike Q body body') : ∀ m, BodyAlike Q (times body m) (times body' m)
  | 0, _, _, _, _, _, h, hk => hk h
  | m + 1, _, _, _, _, _, h, hk => hb h fun _ _ ht => times_alike hb m ht hk

omit hQ in
theorem upTo_alike (hb : BodyAlike Q body body') (greedy : Bool) :
    ∀ m, BodyAlike Q (upTo body greedy m) (upTo body' greedy m)
  | 0, _, _, _, _, _, h, hk => hk h
  | m + 1, R, s, s', k, k', h, hk => by
    have again : Alike R (body s fun t => upTo body greedy m t k) (body' s' fun t => upTo body' greedy m t k') :=
      hb h fun _ _ ht => upTo_alike hb greedy m ht hk
    unfold upTo
    split
    · exact .orElse again (hk h)
    · exact .orElse (hk h) again

theorem anyTimes_alike (hb : BodyAlike Q body body') (greedy : Bool) :
    ∀ m, BodyAlike Q (anyTimes body greedy m) (anyTimes body' greedy m)
  | 0, _, _, _, _, _, h, hk => hk h
  | m + 1, R, s, s', k, k', h, hk => by
    have again : Alike R (body s fun t => if t.pos = s.pos then k t else anyTimes body greedy m t k)
        (body' s' fun t => if t.pos = s'.pos then k' t else anyTimes body' greedy m t k') := by
      refine hb h fun t t' ht => ?_
      simp only [hQ.pos ht, hQ.pos h]
      split
      · exact hk ht
      · exact anyTimes_alike hb greedy m ht hk
    unfold anyTimes
    dsimp only
    split
    · exact .orElse again (hk h)
    · exact .orElse (hk h) again

theorem behindFrom_alike (hb : BodyAlike Q body body') (h : Q s s') :
    ∀ m start, Alike Q (behindFrom body s start m) (behindFrom body' s' start m) := by
  have hend (start : Nat) : Alike Q
      (body { s with pos := start } fun t => if t.pos = s.pos then some t else none)
      (body' { s' with pos := start } fun t => if t.pos = s'.pos then some t else none) := by
    refine hb (hQ.setPos h start) fun t t' ht => ?_
    simp only [hQ.pos ht, hQ.pos h]
    split
    · exact .some ht
    · exact .none
  intro m
  induction m with
  | zero => exact hend
  | succ m ih => exact fun start => .orElse (hend start) (ih (start - 1))

theorem lookBehind_alike (hb : BodyAlike Q body body') (h : Q s s') (width : Nat × Option Nat) :
    Alike Q (lookBehind body width s) (lookBehind body' width s') := by
  simp only [lookBehind, hQ.pos h]
  split
  · exact .none
  · split
    · exact .none
    · exact behindFrom_alike hQ hb h _ _

/-- A tree with other numbers matches as the tree itself does. -/
theorem run_alike (input : Input) {t t' : Tree} (ht : t.Like number refer t') :
    BodyAlike Q (run input t) (run input t') := by
  induction ht with
  | empty => exact fun _ _ _ _ _ h hk => hk h
  | literal text caseless =>
    intro R s s' k k' h hk
    simp only [run, hQ.pos h]
    split
    · exact hk (hQ.setPos h _)
    · exact .none
  | set set =>
    intro R s s' k k' h hk
    simp only [run, hQ.pos h]
    split
    · split
      · exact hk (hQ.setPos h _)
      · exact .none
    · exact .none
  | anchor a =>
    intro R s s' k k' h hk
    simp only [run, hQ.pos h]
    split
    · exact hk h
    · exact .none
  | @backref gs gs' caseless hg =>
    intro R s s' k k' h hk
    have hstop := hQ.findSome?_eq h hg (input.copyEnd caseless s.pos)
    simp only [run, hQ.pos h]
    rw [hstop]
    split
    · exact hk (hQ.setPos h _)
    · exact .none
  | @group t t' i j hi _ ih =>
    intro R s s' k k' h hk
    simp only [run]
    refine ih h fun u u' hu => ?_
    have hspan : (⟨s'.pos, u'.pos⟩ : Span) = ⟨s.pos, u.pos⟩ := by rw [hQ.pos h, hQ.pos hu]
    rw [hspan]
    exact hk (hQ.setGroup hu hi _)
  | atomic _ ih =>
    intro R s s' k k' h hk
    have hbody := ih h AfterAlike.some
    simp only [run]
    generalize run input _ s some = a, run input _ s' some = a' at hbody ⊢
    cases hbody with
    | some hu => exact hk hu
    | none => exact .none
  | ahead negated _ ih =>
    intro R s s' k k' h hk
    have hbody := ih h AfterAlike.some
    simp only [run]
    generalize run input _ s some = a, run input _ s' some = a' at hbody ⊢
    cases hbody with
    | some hu =>
      dsimp only
      split
      · exact .none
      · rw [hQ.pos h]
        exact hk (hQ.setPos hu _)
    | none =>
      dsimp only
      split
      · exact hk h
      · exact .none
  | @behind t t' negated ht ih =>
    intro R s s' k k' h hk
    -- the same starts are tried, since the width does not depend on the numbers
    have hbody := lookBehind_alike hQ ih h t.width
    simp only [run, ht.width_eq]
    generalize lookBehind _ _ s = a, lookBehind _ _ s' = a' at hbody ⊢
    cases hbody with
    | some hu =>
      dsimp only
      split
      · exact .none
      · rw [hQ.pos h]
        exact hk (hQ.setPos hu _)
    | none =>
      dsimp only
      split
      · exact hk h
      · exact .none
  | repetition least most greedy ht ih =>
    intro R s s' k k' h hk
    simp only [run, ht.oneChar?_eq]
    split
    · exact runChars_alike hQ _ _ _ _ h hk
    · refine times_alike ih least h fun u u' hu => ?_
      split
      · exact upTo_alike ih greedy _ hu hk
      · rw [hQ.pos hu]
        exact anyTimes_alike hQ ih greedy _ hu hk
  | seq _ _ ih₁ ih₂ => exact fun _ _ _ _ _ h hk => ih₁ h fun _ _ hu => ih₂ hu hk
  | alt _ _ ih₁ ih₂ => exact fun _ _ _ _ _ h hk => .orElse (ih₁ h hk) (ih₂ h hk)
  | keep => exact fun _ _ _ _ _ h hk => hk (hQ.keep h)
  | ifGroup hg _ _ ih₁ ih₂ =>
    intro R s s' k k' h hk
    simp only [run, hQ.any_eq h hg]
    split
    · exact ih₁ h hk
    · exact ih₂ h hk

end

end

end Scribe.Pattern
