import Mathlib.Data.List.Forall2
import Scribe.Proofs.Pattern.Readings

/-!
# Trees behind other groups

Where `w` groups stand in front of a pattern, its groups and the references to them are numbered from there
on. A name that patterns in front use too refers to their groups as well, after the pattern's own ones.
-/

namespace Scribe

/-- The groups that a reference names, moved by `w`; further ones lie in front of those. -/
def GroupsMoved (w : Nat) (gs gs' : List Nat) : Prop := ∃ es, (∀ e ∈ es, e ≤ w) ∧ gs' = gs.map (· + w) ++ es

namespace Tree

/-- The second tree is the first but for the numbers: `number` relates those of the groups, `refer` the references. -/
inductive Like (number : Nat → Nat → Prop) (refer : List Nat → List Nat → Prop) : Tree → Tree → Prop
  | empty : Like number refer .empty .empty
  | literal (text : List Char) (caseless : Bool) : Like number refer (.literal text caseless) (.literal text caseless)
  | set (s : CharSet) : Like number refer (.set s) (.set s)
  | anchor (a : Anchor) : Like number refer (.anchor a) (.anchor a)
  | backref {gs gs' : List Nat} (caseless : Bool) (hg : refer gs gs') :
      Like number refer (.backref gs caseless) (.backref gs' caseless)
  | group {t t' : Tree} {i j : Nat} (hi : number i j) (h : Like number refer t t') :
      Like number refer (.group i t) (.group j t')
  | atomic {t t' : Tree} (h : Like number refer t t') : Like number refer (.atomic t) (.atomic t')
  | ahead {t t' : Tree} (negated : Bool) (h : Like number refer t t') :
      Like number refer (.ahead negated t) (.ahead negated t')
  | behind {t t' : Tree} (negated : Bool) (h : Like number refer t t') :
      Like number refer (.behind negated t) (.behind negated t')
  | repetition {t t' : Tree} (least : Nat) (most : Option Nat) (greedy : Bool) (h : Like number refer t t') :
      Like number refer (.repetition t least most greedy) (.repetition t' least most greedy)
  | seq {t t' u u' : Tree} (h₁ : Like number refer t t') (h₂ : Like number refer u u') :
      Like number refer (.seq t u) (.seq t' u')
  | alt {t t' u u' : Tree} (h₁ : Like number refer t t') (h₂ : Like number refer u u') :
      Like number refer (.alt t u) (.alt t' u')
  | keep : Like number refer .keep .keep
  | ifGroup {t t' u u' : Tree} {gs gs' : List Nat} (hg : refer gs gs') (h₁ : Like number refer t t')
      (h₂ : Like number refer u u') : Like number refer (.ifGroup gs t u) (.ifGroup gs' t' u')

/-- The second tree is the first with its groups, which are numbered from 1 to `n`, moved by `w`. -/
abbrev Moved (w n : Nat) : Tree → Tree → Prop := Like (fun i j => 0 < i ∧ i ≤ n ∧ j = i + w) (GroupsMoved w)

namespace Like

variable {number : Nat → Nat → Prop} {refer : List Nat → List Nat → Prop} {t t' : Tree}

theorem of_isPlain : ∀ {t : Tree}, t.isPlain → Like number refer t t := by
  intro t h
  induction t with
  | empty => exact .empty
  | literal text caseless => exact .literal text caseless
  | set s => exact .set s
  | anchor a => exact .anchor a
  | backref | group | ifGroup => cases h
  | atomic t ih => exact .atomic (ih h)
  | ahead negated t ih => exact .ahead negated (ih h)
  | behind negated t ih => exact .behind negated (ih h)
  | repetition t least most greedy ih => exact .repetition least most greedy (ih h)
  | seq t u ih₁ ih₂ =>
    obtain ⟨h₁, h₂⟩ := Bool.and_eq_true_iff.mp h
    exact .seq (ih₁ h₁) (ih₂ h₂)
  | alt t u ih₁ ih₂ =>
    obtain ⟨h₁, h₂⟩ := Bool.and_eq_true_iff.mp h
    exact .alt (ih₁ h₁) (ih₂ h₂)
  | keep => exact .keep

theorem hasGroup_eq (h : Like number refer t t') : t'.hasGroup = t.hasGroup := by
  induction h with
  | empty | literal | set | anchor | backref | keep | group => rfl
  | atomic _ ih | ahead _ _ ih | behind _ _ ih | repetition _ _ _ _ ih => exact ih
  | seq _ _ ih₁ ih₂ | alt _ _ ih₁ ih₂ | ifGroup _ _ _ ih₁ ih₂ => simp only [hasGroup, ih₁, ih₂]

theorem width_eq (h : Like number refer t t') : t'.width = t.width := by
  induction h with
  | empty | literal | set | anchor | backref | keep | ahead | behind => rfl
  | group _ _ ih | atomic _ ih => exact ih
  | repetition least most greedy _ ih => simp only [width, ih]
  | seq _ _ ih₁ ih₂ | alt _ _ ih₁ ih₂ | ifGroup _ _ _ ih₁ ih₂ => simp only [width, ih₁, ih₂]

theorem oneChar?_eq (h : Like number refer t t') : Pattern.oneChar? t' = Pattern.oneChar? t := by
  cases h <;> rfl

theorem seqAll {ts ts' : List Tree} (h : List.Forall₂ (Like number refer) ts ts') :
    Like number refer (Tree.seqAll ts) (Tree.seqAll ts') := by
  induction h with
  | nil => exact .empty
  | cons h hs ih =>
    cases hs with
    | nil => exact h
    | cons h' hs => exact .seq h ih

theorem altAll {ts ts' : List Tree} (h : List.Forall₂ (Like number refer) ts ts') :
    Like number refer (Tree.altAll ts) (Tree.altAll ts') := by
  induction h with
  | nil => exact .empty
  | cons h hs ih =>
    cases hs with
    | nil => exact h
    | cons h' hs => exact .alt h ih

end Like

end Tree

namespace Pattern

variable {w n : Nat}

/-! ## Open groups -/

inductive Piece.Moved (w n : Nat) : Piece → Piece → Prop
  | run (reversed : List Char) (caseless : Bool) : Piece.Moved w n (.run reversed caseless) (.run reversed caseless)
  | tree {t t' : Tree} (h : t.Moved w n t') : Piece.Moved w n (.tree t) (.tree t')

theorem Piece.Moved.toTree {p p' : Piece} (h : p.Moved w n p') : p.toTree.Moved w n p'.toTree := by
  cases h with
  | run reversed caseless => exact .literal _ _
  | tree h => exact h

inductive GroupKind.Moved (w n : Nat) : GroupKind → GroupKind → Prop
  | frame (frame : Frame) : GroupKind.Moved w n (.frame frame) (.frame frame)
  | capture {i : Nat} (hi : 0 < i) (hn : i ≤ n) : GroupKind.Moved w n (.capture i) (.capture (i + w))
  | condition {gs gs' : List Nat} (hg : GroupsMoved w gs gs') : GroupKind.Moved w n (.condition gs) (.condition gs')

theorem GroupKind.Moved.options_iff {k k' : GroupKind} (h : k.Moved w n k') :
    k' = .frame .options ↔ k = .frame .options := by
  cases h <;> simp

theorem OpenGroup.pushChar_kind (g : OpenGroup) (c : Char) (caseless : Bool) : (g.pushChar c caseless).kind = g.kind := by
  unfold OpenGroup.pushChar
  split
  · split <;> rfl
  · rfl

theorem OpenGroup.pushChar_outerFlags (g : OpenGroup) (c : Char) (caseless : Bool) :
    (g.pushChar c caseless).outerFlags = g.outerFlags := by
  unfold OpenGroup.pushChar
  split
  · split <;> rfl
  · rfl

structure OpenGroup.Moved (w n : Nat) (g g' : OpenGroup) : Prop where
  branches : List.Forall₂ (Tree.Moved w n) g.branches g'.branches
  pieces : List.Forall₂ (Piece.Moved w n) g.pieces g'.pieces

namespace OpenGroup.Moved

variable {g g' : OpenGroup}

theorem branch (h : g.Moved w n g') : g.branch.Moved w n g'.branch := by
  refine .seqAll ?_
  rw [List.forall₂_map_left_iff, List.forall₂_map_right_iff]
  exact (List.forall₂_reverse_iff.mpr h.pieces).imp fun _ _ => Piece.Moved.toTree

theorem alternatives (h : g.Moved w n g') : List.Forall₂ (Tree.Moved w n) g.alternatives g'.alternatives :=
  List.forall₂_reverse_iff.mpr (.cons h.branch h.branches)

theorem endBranch (h : g.Moved w n g') : g.endBranch.Moved w n g'.endBranch :=
  ⟨.cons h.branch h.branches, .nil⟩

theorem push {t t' : Tree} (h : g.Moved w n g') (ht : t.Moved w n t') : (g.push t).Moved w n (g'.push t') :=
  ⟨h.branches, .cons (.tree ht) h.pieces⟩

theorem pushChar (h : g.Moved w n g') (c : Char) (caseless : Bool) :
    (g.pushChar c caseless).Moved w n (g'.pushChar c caseless) := by
  have hp := h.pieces
  unfold OpenGroup.pushChar
  generalize g.pieces = ps, g'.pieces = ps' at hp
  cases hp with
  | nil => exact ⟨h.branches, .cons (.run _ _) .nil⟩
  | cons hp hps =>
    cases hp with
    | run reversed b =>
      dsimp only
      split
      · exact ⟨h.branches, .cons (.run _ _) hps⟩
      · exact ⟨h.branches, .cons (.run _ _) (.cons (.run _ _) hps)⟩
    | tree ht => exact ⟨h.branches, .cons (.run _ _) (.cons (.tree ht) hps)⟩

theorem close {t : Tree} (h : g.Moved w n g') (hk : g.kind.Moved w n g'.kind) (hc : g.close = .ok t) :
    ∃ t', g'.close = .ok t' ∧ t.Moved w n t' := by
  have hbody := Tree.Like.altAll h.alternatives
  have halts := h.alternatives
  unfold OpenGroup.close at hc ⊢
  generalize g.kind = k, g'.kind = k' at hk hc
  cases hk with
  | frame frame =>
    cases frame with
    | plain | options =>
      cases hc
      exact ⟨_, rfl, hbody⟩
    | atomic =>
      cases hc
      exact ⟨_, rfl, .atomic hbody⟩
    | ahead negated =>
      cases hc
      exact ⟨_, rfl, .ahead negated hbody⟩
    | behind negated =>
      dsimp only at hc ⊢
      rw [hbody.hasGroup_eq]
      split at hc
      · cases hc
      · rename_i hgroup
        cases hc
        exact ⟨_, if_neg hgroup, .behind negated hbody⟩
  | capture hi hn =>
    cases hc
    exact ⟨_, rfl, .group ⟨hi, hn, rfl⟩ hbody⟩
  | condition hg =>
    dsimp only at hc ⊢
    generalize g.alternatives = ts, g'.alternatives = ts' at halts hc
    split at hc
    · cases hc
      cases halts with
      | cons h₁ hnil =>
        cases hnil
        exact ⟨_, rfl, .ifGroup hg h₁ .empty⟩
    · cases hc
      cases halts with
      | cons h₁ hrest =>
        cases hrest with
        | cons h₂ hnil =>
          cases hnil
          exact ⟨_, rfl, .ifGroup hg h₁ h₂⟩
    · cases hc

end OpenGroup.Moved

theorem Quantifier.moved_apply (q : Quantifier) {t t' : Tree} (h : t.Moved w n t') :
    (q.apply t).Moved w n (q.apply t') := by
  unfold Quantifier.apply
  dsimp only
  split
  · exact .atomic (.repetition _ _ _ h)
  · exact .repetition _ _ _ h

/-! ## Open groups around one another -/

/-- The second stack of open groups is the first, moved, upon a `base` with others `below`: there the whole
pattern stands in a group. -/
inductive StackMoved (w n : Nat) (base : OpenGroup) (below : List OpenGroup) :
    OpenGroup → List OpenGroup → OpenGroup → List OpenGroup → Prop
  | bottom {g g' : OpenGroup} (hk : g.kind = .frame .plain) (hb : g'.kind = base.kind)
      (ho : g'.outerFlags = base.outerFlags) (h : g.Moved w n g') : StackMoved w n base below g [] g' below
  | within {g g' h h' : OpenGroup} {outer outer' : List OpenGroup} (hk : g.kind.Moved w n g'.kind)
      (ho : g'.outerFlags = g.outerFlags) (hg : g.Moved w n g') (hs : StackMoved w n base below h outer h' outer') :
      StackMoved w n base below g (h :: outer) g' (h' :: outer')

namespace StackMoved

variable {base g g' h h' : OpenGroup} {below outer outer' outer₂ : List OpenGroup}

theorem replace (hs : StackMoved w n base below g outer g' outer') (hk : h.kind = g.kind) (hk' : h'.kind = g'.kind)
    (ho : h.outerFlags = g.outerFlags) (ho' : h'.outerFlags = g'.outerFlags) (hh : h.Moved w n h') :
    StackMoved w n base below h outer h' outer' := by
  cases hs with
  | bottom hk₁ hb ho₁ _ => exact .bottom (hk.trans hk₁) (hk'.trans hb) (ho'.trans ho₁) hh
  | within hk₁ ho₁ _ hs => exact .within (by rwa [hk, hk']) (by rw [ho', ho₁, ho]) hh hs

theorem moved (hs : StackMoved w n base below g outer g' outer') : g.Moved w n g' := by
  cases hs with
  | bottom _ _ _ h => exact h
  | within _ _ h _ => exact h

theorem push {t t' : Tree} (hs : StackMoved w n base below g outer g' outer') (ht : t.Moved w n t') :
    StackMoved w n base below (g.push t) outer (g'.push t') outer' :=
  hs.replace rfl rfl rfl rfl (hs.moved.push ht)

theorem closeFrom {flags : Flags} (hs : StackMoved w n base below g outer g' outer')
    (hc : Reader.closeFrom g outer = .ok (flags, h, outer₂)) :
    ∃ h' outer₂', Reader.closeFrom g' outer' = .ok (flags, h', outer₂') ∧
      StackMoved w n base below h outer₂ h' outer₂' := by
  induction outer generalizing g g' outer' with
  | nil => cases hc
  | cons k outer ih =>
    cases hs with
    | @within _ _ _ k' _ outer' hk ho hg hs =>
      obtain ⟨t, ht, hc⟩ := bind_eq_ok.mp hc
      obtain ⟨t', ht', hmoved⟩ := hg.close hk ht
      have hopt : g'.kind = .frame .options ↔ g.kind = .frame .options := hk.options_iff
      have hpush := hs.push hmoved
      simp only [Reader.closeFrom, ht', hopt, ho, bind, Except.bind]
      split at hc
      · rename_i h
        obtain ⟨h', outer₂', hclose, hs'⟩ := ih hpush hc
        exact ⟨h', outer₂', (if_pos h).trans hclose, hs'⟩
      · rename_i h
        cases hc
        exact ⟨_, _, if_neg h, hpush⟩

/-- Where the pattern ends, the groups that may stay open there are closed in the moved one too, together
with the group that the pattern stands in. -/
theorem finishFrom {t : Tree} {b : OpenGroup} {wrap : Tree → Tree}
    (hs : StackMoved w n base (b :: below) g outer g' outer') (hbase : base.kind ≠ .frame .options)
    (hwrap : ∀ k : OpenGroup, k.kind = base.kind → k.close = .ok (wrap (Tree.altAll k.alternatives)))
    (hf : Reader.finishFrom g outer = .ok t) :
    ∃ t', t.Moved w n t' ∧ Reader.closeFrom g' outer' = .ok (base.outerFlags, b.push (wrap t'), below) := by
  induction outer generalizing g g' outer' with
  | nil =>
    cases hs with
    | bottom hk hb ho h =>
      have hbody := Tree.Like.altAll h.alternatives
      simp only [Reader.finishFrom, OpenGroup.close, hk] at hf
      cases hf
      refine ⟨_, hbody, ?_⟩
      simp only [Reader.closeFrom, hwrap g' hb, bind, Except.bind, ho]
      exact if_neg (hb ▸ hbase)
  | cons k outer ih =>
    cases hs with
    | @within _ _ _ k' _ outer' hk ho hg hs =>
      simp only [Reader.finishFrom] at hf
      split at hf
      · rename_i h
        obtain ⟨u, hu, hf⟩ := bind_eq_ok.mp hf
        obtain ⟨u', hu', hmoved⟩ := hg.close hk hu
        obtain ⟨t', ht', hclose⟩ := ih (hs.push hmoved) hf
        refine ⟨t', ht', ?_⟩
        simp only [Reader.closeFrom, hu', bind, Except.bind]
        exact (if_pos (hk.options_iff.mpr h)).trans hclose
      · cases hf

end StackMoved

/-! ## Readers -/

/-- The second reader has read the same as the first, behind `w` groups and inside of the group `base`.
The names given `before` refer to groups in front. -/
structure Reader.Moved (w n : Nat) (base : OpenGroup) (below : List OpenGroup) (before : List (String × Nat))
    (r r' : Reader) : Prop where
  flags : r'.flags = r.flags
  stack : StackMoved w n base below r.inner r.outer r'.inner r'.outer
  groupCount : r'.groupCount = r.groupCount + w
  names : r'.names = r.names.map (fun p => (p.1, p.2 + w)) ++ before
  inFront : ∀ p ∈ before, p.2 ≤ w
  largestRef : r'.largestRef ≤ r.largestRef + w

namespace Reader.Moved

variable {base : OpenGroup} {below : List OpenGroup} {before : List (String × Nat)} {r r' s : Reader}

theorem resolve {name : List Char} {gs : List Nat} (h : Reader.Moved w n base below before r r')
    (hname : name.head?.any Char.isDigit = false) (hr : r.resolve name = .ok gs) :
    ∃ gs', r'.resolve name = .ok gs' ∧ GroupsMoved w gs gs' := by
  unfold Reader.resolve at hr
  split at hr
  · rename_i digits
    dsimp only at hr
    split at hr
    · cases hr
    · rename_i hback
      cases hr
      simp only [Bool.or_eq_true, decide_eq_true_eq, not_or, Nat.not_le] at hback
      refine ⟨[r.groupCount + 1 - (scanNumber digits).1 + w], ?_, [], by simp, rfl⟩
      simp only [Reader.resolve, h.groupCount]
      rw [if_neg (by simp only [Bool.or_eq_true, decide_eq_true_eq]; omega)]
      congr 2
      omega
  · rename_i digits
    cases hr
    refine ⟨[r.groupCount + (scanNumber digits).1 + w], ?_, [], by simp, rfl⟩
    simp only [Reader.resolve, h.groupCount, Nat.add_right_comm]
  · rename_i c rest hminus hplus
    have hc : c.isDigit = false := hname
    rw [hc] at hr
    -- the pattern's own names come first, so those given in front can only add groups
    have hnames : r'.names.filter (·.1 == String.ofList (c :: rest)) =
        (r.names.filter (·.1 == String.ofList (c :: rest))).map (fun p => (p.1, p.2 + w)) ++
          before.filter (·.1 == String.ofList (c :: rest)) := by
      rw [h.names, List.filter_append, List.filter_map]
      rfl
    dsimp only at hr
    split at hr
    · contradiction
    · split at hr
      · cases hr
      · rename_i hfound
        cases hr
        have hne : r'.names.filter (·.1 == String.ofList (c :: rest)) ≠ [] := by
          rw [hnames]
          exact fun h => hfound (List.map_eq_nil_iff.mp (List.append_eq_nil_iff.mp h).1)
        refine ⟨(r'.names.filter (·.1 == String.ofList (c :: rest))).map (·.2), ?_,
          (before.filter (·.1 == String.ofList (c :: rest))).map (·.2), fun e he => ?_, ?_⟩
        · rw [Reader.resolve.eq_3 _ _ _ hminus hplus, hc]
          dsimp only
          split
          · contradiction
          · split
            · contradiction
            · rfl
        · obtain ⟨p, hp, rfl⟩ := List.mem_map.mp he
          exact h.inFront p (List.mem_filter.mp hp).1
        · rw [hnames, List.map_append, List.map_map, List.map_map]
          rfl
  · cases hr

theorem push {t t' : Tree} (h : Reader.Moved w n base below before r r') (ht : t.Moved w n t') :
    Reader.Moved w n base below before (r.push t) (r'.push t') :=
  { h with stack := h.stack.push ht }

theorem foldl_max_le : ∀ {gs : List Nat} {a b : Nat}, b ≤ a + w →
    (gs.map (· + w)).foldl max b ≤ gs.foldl max a + w
  | [], _, _, h => h
  | g :: gs, a, b, h => by
    rw [List.map_cons, List.foldl_cons, List.foldl_cons]
    exact foldl_max_le (by omega)

theorem foldl_max_le_of_le : ∀ {es : List Nat} {a b : Nat}, (∀ e ∈ es, e ≤ w) → b ≤ a + w → es.foldl max b ≤ a + w
  | [], _, _, _, h => h
  | e :: es, a, b, he, h => by
    have := he e (.head _)
    rw [List.foldl_cons]
    exact foldl_max_le_of_le (fun d hd => he d (List.mem_cons_of_mem e hd)) (by omega)

theorem refer {gs gs' : List Nat} (h : Reader.Moved w n base below before r r') (hg : GroupsMoved w gs gs') :
    Reader.Moved w n base below before (r.refer gs) (r'.refer gs') := by
  obtain ⟨es, hes, rfl⟩ := hg
  refine { h with largestRef := ?_ }
  simp only [Reader.refer, List.foldl_append]
  exact foldl_max_le_of_le hes (foldl_max_le h.largestRef)

theorem openGroup {k k' : GroupKind} (h : Reader.Moved w n base below before r r') (hk : k.Moved w n k')
    (flags : Flags) :
    Reader.Moved w n base below before (r.openGroup k flags) (r'.openGroup k' flags) :=
  { h with
    flags := rfl
    stack := .within hk h.flags ⟨.nil, .nil⟩ h.stack }

theorem quantify {q : Quantifier} (h : Reader.Moved w n base below before r r') (hq : r.quantify q = .ok s) :
    ∃ s', r'.quantify q = .ok s' ∧ Reader.Moved w n base below before s s' := by
  obtain ⟨hb, hp⟩ := h.stack.moved
  unfold Reader.quantify at hq ⊢
  have hstack {ps ps' : List Piece} (h' : List.Forall₂ (Piece.Moved w n) ps ps') :
      Reader.Moved w n base below before { r with inner := { r.inner with pieces := ps } }
        { r' with inner := { r'.inner with pieces := ps' } } :=
    { h with stack := h.stack.replace rfl rfl rfl rfl ⟨hb, h'⟩ }
  -- the pieces correspond one by one, so the quantifier takes the same one in both
  generalize r.inner.pieces = ps at hp hq
  generalize r'.inner.pieces = ps' at hp ⊢
  split at hq
  · rename_i hone
    rw [if_pos hone]
    cases hp with
    | nil => cases hq
    | cons => cases hq; exact ⟨r', rfl, h⟩
  · rename_i hone
    rw [if_neg hone]
    split at hq
    · cases hq
    · cases hp with
      | cons hrun hps =>
        cases hrun
        cases hq
        exact ⟨_, rfl, hstack (.cons (.tree (q.moved_apply (.literal ..))) (.cons (.run ..) hps))⟩
    · rename_i hrun
      cases hq
      cases hp with
      | cons hpiece hps =>
        cases hpiece with
        | run reversed caseless =>
          rcases reversed with _ | ⟨c, _ | ⟨d, more⟩⟩
          · exact ⟨_, rfl, hstack (.cons (.tree (q.moved_apply (.literal ..))) hps)⟩
          · exact ⟨_, rfl, hstack (.cons (.tree (q.moved_apply (.literal ..))) hps)⟩
          · exact absurd rfl (hrun c d more caseless)
        | tree ht => exact ⟨_, rfl, hstack (.cons (.tree (q.moved_apply ht)) hps)⟩

theorem take {x : Lexeme} (h : Reader.Moved w n base below before r r') (hx : x.isPlain ∨ ∃ k, x = .number k)
    (habs : x.isAbsolute = false) (hn : s.groupCount ≤ n) (ht : r.take x = .ok s) :
    ∃ s', r'.take (x.moved w) = .ok s' ∧ Reader.Moved w n base below before s s' := by
  cases x with
  | skip =>
    cases ht
    exact ⟨r', rfl, h⟩
  | char c =>
    cases ht
    refine ⟨_, rfl, { h with stack := ?_ }⟩
    simp only [Reader.pushChar, h.flags]
    exact h.stack.replace (OpenGroup.pushChar_kind ..) (OpenGroup.pushChar_kind ..)
      (OpenGroup.pushChar_outerFlags ..) (OpenGroup.pushChar_outerFlags ..) (h.stack.moved.pushChar ..)
  | tree t =>
    cases ht
    have ht : t.isPlain := hx.resolve_right fun ⟨_, h⟩ => nomatch h
    exact ⟨_, rfl, h.push (.of_isPlain ht)⟩
  | number k =>
    cases ht
    refine ⟨_, rfl, ?_⟩
    have hk : GroupsMoved w [k] [k + w] := ⟨[], by simp, rfl⟩
    rw [Reader.pushBackref, Reader.pushBackref, h.flags]
    exact (h.refer hk).push (.backref _ hk)
  | name name =>
    obtain ⟨gs, hgs, ht⟩ := bind_eq_ok.mp ht
    cases ht
    obtain ⟨gs', hgs', hmoved⟩ := h.resolve habs hgs
    refine ⟨_, bind_eq_ok.mpr ⟨gs', hgs', rfl⟩, ?_⟩
    rw [Reader.pushBackref, Reader.pushBackref, h.flags]
    exact (h.refer hmoved).push (.backref _ hmoved)
  | opening frame flags =>
    cases ht
    exact ⟨_, rfl, h.openGroup (.frame frame) flags⟩
  | capture name? =>
    cases ht
    have hindex : r'.groupCount + 1 = r.groupCount + 1 + w := by rw [h.groupCount, Nat.add_right_comm]
    refine ⟨_, rfl, h.flags, ?_, hindex, ?_, h.inFront, h.largestRef⟩
    · simp only [Reader.openCapture, hindex, h.flags]
      exact (h.openGroup (.capture (Nat.succ_pos _) hn) r.flags).stack
    · cases name? <;> simp [Reader.openCapture, h.names, hindex]
  | condition name =>
    obtain ⟨gs, hgs, ht⟩ := bind_eq_ok.mp ht
    cases ht
    obtain ⟨gs', hgs', hmoved⟩ := h.resolve habs hgs
    refine ⟨_, bind_eq_ok.mpr ⟨gs', hgs', rfl⟩, ?_⟩
    rw [h.flags]
    exact (h.refer hmoved).openGroup (.condition hmoved) _
  | close =>
    obtain ⟨⟨flags, inner, outer⟩, hclose, ht⟩ := bind_eq_ok.mp ht
    cases ht
    obtain ⟨inner', outer', hclose', hs⟩ := h.stack.closeFrom hclose
    exact ⟨_, bind_eq_ok.mpr ⟨_, hclose', rfl⟩, { h with flags := rfl, stack := hs }⟩
  | bar =>
    cases ht
    exact ⟨_, rfl, { h with stack := h.stack.replace rfl rfl rfl rfl h.stack.moved.endBranch }⟩
  | quantifier q => exact h.quantify ht

/-- The readings of a pattern, moved behind `w` groups, are read as those of the pattern, up to the
parenthesis that closes the group around them. -/
theorem readFrom_moved {cs : List Char} {xs : List Reading} {u : Reader} (hr : Reads r cs xs u) (hw : 0 < w)
    (hn : u.groupCount ≤ n) (hm : ∀ x ∈ xs, x.movable w) (h : Reader.Moved w n base below before r r')
    (tail : List Char) (htail : ∀ c ∈ tail.head?, stops c) :
    ∃ u', readFrom r' 0 (xs.flatMap (·.moved w) ++ tail) = readFrom u' 0 tail ∧
      Reader.Moved w n base below before u u' := by
  induction hr generalizing r' with
  | nil => exact ⟨r', rfl, h⟩
  | @cons r s u c t rest x xs hscan htake hrest ih =>
    have hshares := hrest.shares (w := w) htail
    have hmx := hm _ (.head _)
    obtain ⟨c', t', htext, hscan'⟩ := scan_moved hw hscan hmx hshares
    have hplain : x.isPlain ∨ ∃ k, x = .number k := by
      rcases isPlain_scan hscan with hx | ⟨-, -, hx, -⟩
      · exact .inl hx
      · exact .inr ⟨_, hx⟩
    have habs : x.isAbsolute = false := by
      rcases hplain with hx | ⟨k, rfl⟩
      · exact ((Reading.movable_iff_of_isPlain hx).mp hmx).2.2
      · rfl
    obtain ⟨s', htake', hs'⟩ := h.take hplain habs (Nat.le_trans hrest.groupCount_le hn) htake
    obtain ⟨u', hread, hu'⟩ := ih hn (fun y hy => hm y (.tail _ hy)) hs'
    refine ⟨u', ?_, hu'⟩
    rw [List.flatMap_cons, htext, List.append_assoc, List.cons_append]
    rw [← h.groupCount, ← h.flags] at hscan'
    rw [readFrom_of_scan hscan' htake', hread]

end Reader.Moved

end Pattern

end Scribe
