import Scribe.Proofs.Pattern.Anchored
import Scribe.Proofs.Pattern.Moved

/-!
# Patterns beside anchors

A pattern that can be read by itself is read alike in a group and behind an anchor. What the reader holds then differs
at the bottom of its open groups only: others lie below, and pieces stand in front of the first branch there.
-/

namespace Scribe

open Pattern (stops)

theorem Tree.goesBy_seqAll {p : Anchor → Bool} {t : Tree} (ht : t.goesBy p = true) : ∀ {ts : List Tree}, t ∈ ts →
    (Tree.seqAll ts).goesBy p = true
  | [u], h => by rwa [← List.mem_singleton.mp h]
  | u :: v :: ts, h => by
    refine Bool.or_eq_true_iff.mpr ?_
    rcases List.mem_cons.mp h with rfl | h
    · exact .inl ht
    · exact .inr (goesBy_seqAll ht h)

namespace Pattern

/-! ## Lexemes in a longer text -/

section
variable {flags : Flags} {groupCount used : Nat} {c : Char} {cs ds : List Char} {x : Lexeme}

theorem scanReference_shares (h : Shares used (c :: cs) (c :: ds))
    (hs : scanReference groupCount c cs = .ok (x, used)) : scanReference groupCount c ds = .ok (x, used) := by
  unfold scanReference at hs ⊢
  rw [scanNumber_shares h]
  generalize scanNumber (c :: cs) = number at hs ⊢
  dsimp only at hs ⊢
  split at hs
  · rename_i hnumber
    rwa [if_pos hnumber]
  · rename_i hnumber
    rw [if_neg hnumber]
    split at hs
    · rename_i hdigit
      rwa [if_pos hdigit]
    · rename_i hdigit
      rw [if_neg hdigit]
      exact (scanOctal_shares 3).map h hs (fun _ _ => (Nat.add_zero _).symm) (Nat.le_refl _)

theorem scanBackslash_of_isDigit (hdigit : c.isDigit = true) (h0 : c ≠ '0') (rest : List Char) :
    scanBackslash groupCount (c :: rest) = scanReference groupCount c rest := by
  have hk : c ≠ 'k' := fun h => by subst h; cases hdigit
  have hg : c ≠ 'g' := fun h => by subst h; cases hdigit
  rw [scanBackslash.eq_5 _ _ _ hk hg h0, treeEscape?_of_isDigit hdigit]
  simp only [hdigit, if_true]

/-- With as many groups in front, a lexeme is read alike, a number after a backslash too. -/
theorem scan_shares_same (h : Shares used cs ds) (hs : scan flags groupCount c cs = .ok (x, used)) :
    scan flags groupCount c ds = .ok (x, used) := by
  by_cases hd : c = '\\' ∧ ∃ d ∈ cs.head?, PatternUnion.isNonzeroDigit d = true
  · obtain ⟨rfl, d, hd, hnonzero⟩ := hd
    obtain ⟨rest, rfl⟩ := List.head?_eq_some_iff.mp hd
    replace hs : scanBackslash groupCount (d :: rest) = .ok (x, used) := hs
    obtain ⟨ds, rfl, -⟩ := h.cons_of_pos (pos_of_scanBackslash hs)
    obtain ⟨hdigit, h0⟩ := Bool.and_eq_true_iff.mp hnonzero
    rw [scanBackslash_of_isDigit hdigit (by simpa using h0)] at hs
    exact (scanBackslash_of_isDigit hdigit (by simpa using h0) ds).trans (scanReference_shares h hs)
  · refine scan_shares h hs ?_ groupCount
    intro hc d hmem
    rw [Bool.eq_false_iff]
    exact fun hnonzero => hd ⟨hc, d, hmem, hnonzero⟩

end

/-! ## Open groups -/

/-- The pieces with one more character. -/
def pushedChar (c : Char) (caseless : Bool) : List Piece → List Piece
  | .run reversed b :: rest =>
    if b = caseless then .run (c :: reversed) b :: rest else .run [c] caseless :: .run reversed b :: rest
  | pieces => .run [c] caseless :: pieces

theorem OpenGroup.pieces_pushChar (g : OpenGroup) (c : Char) (caseless : Bool) :
    (g.pushChar c caseless).pieces = pushedChar c caseless g.pieces := by
  unfold OpenGroup.pushChar pushedChar
  cases hp : g.pieces with
  | nil => rfl
  | cons p rest =>
    cases p with
    | run reversed b =>
      dsimp only
      split <;> rfl
    | tree t => rfl

theorem OpenGroup.pushChar_branches (g : OpenGroup) (c : Char) (caseless : Bool) :
    (g.pushChar c caseless).branches = g.branches := by
  unfold OpenGroup.pushChar
  split
  · split <;> rfl
  · rfl

/-- The outermost group of a pattern, and the same one where it has these pieces in front of its first branch. -/
structure Bottom (extra : List Piece) (g g' : OpenGroup) : Prop where
  kind : g.kind = .frame .plain
  kind' : g'.kind = .frame .plain
  flags : g'.outerFlags = {}
  branches : g'.branches.isEmpty = g.branches.isEmpty
  pieces : g'.pieces = g.pieces ++ if g.branches.isEmpty then extra else []
  same : extra = [] → g'.branches = g.branches

namespace Bottom

variable {extra : List Piece} {g g' : OpenGroup}

theorem push (h : Bottom extra g g') (t : Tree) : Bottom extra (g.push t) (g'.push t) :=
  ⟨h.kind, h.kind', h.flags, h.branches, congrArg (Piece.tree t :: ·) h.pieces, h.same⟩

theorem alternatives_eq (h : Bottom [] g g') : g'.alternatives = g.alternatives := by
  have hpieces : g'.pieces = g.pieces := by simpa using h.pieces
  rw [OpenGroup.alternatives, OpenGroup.alternatives, OpenGroup.branch, OpenGroup.branch, hpieces, h.same rfl]

theorem endBranch (h : Bottom extra g g') : Bottom extra g.endBranch g'.endBranch where
  kind := h.kind
  kind' := h.kind'
  flags := h.flags
  branches := rfl
  pieces := rfl
  same he := by
    subst he
    exact List.reverse_injective h.alternatives_eq

/-- No run of characters goes on in the pieces in front. -/
theorem pushChar (hextra : ∀ p ∈ extra.head?, ∃ t, p = .tree t) (h : Bottom extra g g') (c : Char) (caseless : Bool) :
    Bottom extra (g.pushChar c caseless) (g'.pushChar c caseless) where
  kind := (OpenGroup.pushChar_kind ..).trans h.kind
  kind' := (OpenGroup.pushChar_kind ..).trans h.kind'
  flags := (OpenGroup.pushChar_outerFlags ..).trans h.flags
  branches := by rw [OpenGroup.pushChar_branches, OpenGroup.pushChar_branches, h.branches]
  same he := by rw [OpenGroup.pushChar_branches, OpenGroup.pushChar_branches, h.same he]
  pieces := by
    rw [OpenGroup.pushChar_branches, OpenGroup.pieces_pushChar, OpenGroup.pieces_pushChar, h.pieces]
    have hfront : ∀ p ∈ (if g.branches.isEmpty then extra else []).head?, ∃ t, p = .tree t := by
      split
      · exact hextra
      · exact fun p hp => nomatch hp
    generalize (if g.branches.isEmpty then extra else []) = front at hfront
    cases g.pieces with
    | nil =>
      cases front with
      | nil => rfl
      | cons p front =>
        obtain ⟨t, rfl⟩ := hfront p rfl
        rfl
    | cons p pieces =>
      cases p with
      | run reversed b =>
        simp only [List.cons_append, pushedChar]
        split <;> rfl
      | tree t => rfl

end Bottom

/-- The second stack of open groups is the first, with others below and with these pieces in front. -/
inductive Upon (extra : List Piece) (below : List OpenGroup) :
    OpenGroup → List OpenGroup → OpenGroup → List OpenGroup → Prop
  | bottom {g g' : OpenGroup} (h : Bottom extra g g') : Upon extra below g [] g' below
  | within {g h h' : OpenGroup} {outer outer' : List OpenGroup} (hs : Upon extra below h outer h' outer') :
      Upon extra below g (h :: outer) g (h' :: outer')

namespace Upon

variable {extra : List Piece} {below : List OpenGroup} {g g' h h' b : OpenGroup} {outer outer' outer₂ ws : List OpenGroup}

theorem map {f : OpenGroup → OpenGroup} (hf : ∀ {k k' : OpenGroup}, Bottom extra k k' → Bottom extra (f k) (f k'))
    (hs : Upon extra below g outer g' outer') : Upon extra below (f g) outer (f g') outer' := by
  cases hs with
  | bottom hb => exact .bottom (hf hb)
  | within hs => exact .within hs

theorem closeFrom {flags : Flags} (hs : Upon extra below g outer g' outer')
    (hc : Reader.closeFrom g outer = .ok (flags, h, outer₂)) :
    ∃ h' outer₂', Reader.closeFrom g' outer' = .ok (flags, h', outer₂') ∧ Upon extra below h outer₂ h' outer₂' := by
  induction outer generalizing g g' outer' with
  | nil => cases hc
  | cons k outer ih =>
    cases hs with
    | @within _ _ k' _ outer' hs =>
      obtain ⟨t, ht, hc⟩ := bind_eq_ok.mp hc
      have hpush := hs.map fun hb => hb.push t
      simp only [Reader.closeFrom, ht, bind, Except.bind]
      split at hc
      · rename_i hopt
        rw [if_pos hopt]
        exact ih hpush hc
      · rename_i hopt
        rw [if_neg hopt]
        cases hc
        exact ⟨_, _, rfl, hpush⟩

/-- What may stay open at the end of the pattern is closed along with a group around the pattern. -/
theorem closeFrom_of_finishFrom {t : Tree} (hs : Upon extra (b :: ws) g outer g' outer')
    (hf : Reader.finishFrom g outer = .ok t) : ∃ t', Reader.closeFrom g' outer' = .ok ({}, b.push t', ws) ∧
      (extra = [] → t' = t) := by
  induction outer generalizing g g' outer' with
  | nil =>
    cases hs with
    | bottom hb =>
      refine ⟨Tree.altAll g'.alternatives, ?_, ?_⟩
      · simp only [Reader.closeFrom, OpenGroup.close, hb.kind', hb.flags, bind, Except.bind]
        rfl
      · rintro rfl
        simp only [Reader.finishFrom, OpenGroup.close, hb.kind] at hf
        cases hf
        rw [hb.alternatives_eq]
  | cons k outer ih =>
    cases hs with
    | @within _ _ k' _ outer' hs =>
      simp only [Reader.finishFrom] at hf
      split at hf
      · rename_i hopt
        obtain ⟨u, hu, hf⟩ := bind_eq_ok.mp hf
        obtain ⟨t', hclose, hsame⟩ := ih (hs.map fun hb => hb.push u) hf
        refine ⟨t', ?_, hsame⟩
        simp only [Reader.closeFrom, hu, bind, Except.bind]
        rw [if_pos hopt]
        exact hclose
      · cases hf

/-- The pieces in front of the only branch of a pattern take part in its tree. -/
theorem finishFrom {t : Tree} (hs : Upon extra [] g outer g' outer') (hf : Reader.finishFrom g outer = .ok t) :
    ∃ t', Reader.finishFrom g' outer' = .ok t' ∧
      ∀ (p : Anchor → Bool) (a : Tree), .tree a ∈ extra → a.goesBy p = true →
        (∀ k ∈ g :: outer, k.branches.isEmpty = true) → t'.goesBy p = true := by
  induction outer generalizing g g' outer' with
  | nil =>
    cases hs with
    | bottom hb =>
      refine ⟨Tree.altAll g'.alternatives, by simp only [Reader.finishFrom, OpenGroup.close, hb.kind'], ?_⟩
      intro p a ha hgoes hone
      have hempty := hone g List.mem_cons_self
      have hbranches : g'.branches = [] := List.isEmpty_iff.mp (hb.branches.trans hempty)
      have halts : Tree.altAll g'.alternatives = g'.branch := by
        simp only [OpenGroup.alternatives, hbranches, List.reverse_singleton]
        rfl
      rw [halts]
      refine Tree.goesBy_seqAll hgoes ?_
      rw [hb.pieces, if_pos hempty]
      exact List.mem_map.mpr ⟨.tree a, List.mem_reverse.mpr (List.mem_append_right _ ha), rfl⟩
  | cons k outer ih =>
    cases hs with
    | @within _ _ k' _ outer' hs =>
      simp only [Reader.finishFrom] at hf ⊢
      split at hf
      · rename_i hopt
        obtain ⟨u, hu, hf⟩ := bind_eq_ok.mp hf
        obtain ⟨t', hclose, hgoes⟩ := ih (hs.map fun hb => hb.push u) hf
        refine ⟨t', ?_, fun p a ha hgo hone => hgoes p a ha hgo ?_⟩
        · rw [if_pos hopt]
          exact bind_eq_ok.mpr ⟨u, hu, hclose⟩
        · exact fun j hj => by
            rcases List.mem_cons.mp hj with rfl | hj
            · exact hone k (List.mem_cons_of_mem _ List.mem_cons_self)
            · exact hone j (List.mem_cons_of_mem _ (List.mem_cons_of_mem _ hj))
      · cases hf

end Upon

/-- The groups that are open are those that the end of the pattern closes. -/
def Closable (g : OpenGroup) : List OpenGroup → Prop
  | [] => g.kind = .frame .plain
  | h :: outer => g.kind = .frame .options ∧ Closable h outer

theorem Closable.push {g : OpenGroup} {outer : List OpenGroup} (h : Closable g outer) (t : Tree) :
    Closable (g.push t) outer := by
  cases outer with
  | nil => exact h
  | cons k outer => exact h

theorem Upon.closable {extra : List Piece} {below outer outer' : List OpenGroup} {g g' : OpenGroup} {t : Tree}
    (hs : Upon extra below g outer g' outer') (hf : Reader.finishFrom g outer = .ok t) : Closable g outer := by
  induction outer generalizing g g' outer' with
  | nil =>
    cases hs with
    | bottom hb => exact hb.kind
  | cons k outer ih =>
    cases hs with
    | @within _ _ k' _ outer' hs =>
      simp only [Reader.finishFrom] at hf
      split at hf
      · rename_i hopt
        obtain ⟨u, hu, hf⟩ := bind_eq_ok.mp hf
        have hpush := ih (hs.map fun hb => hb.push u) hf
        refine ⟨hopt, ?_⟩
        cases outer with
        | nil => exact hpush
        | cons _ _ => exact hpush
      · cases hf

theorem OpenGroup.goesBy_branch_push {g : OpenGroup} {p : Anchor → Bool} {a : Tree} (ha : a.goesBy p = true)
    (hone : g.branches.isEmpty = true) : (Tree.altAll (g.push a).alternatives).goesBy p = true := by
  have halts : (g.push a).alternatives = [(g.push a).branch] := by
    have hbranches : (g.push a).branches = [] := List.isEmpty_iff.mp hone
    simp [OpenGroup.alternatives, hbranches]
  rw [halts]
  exact Tree.goesBy_seqAll ha (List.mem_map.mpr ⟨.tree a, by simp [OpenGroup.push], rfl⟩)

/-- What is read last takes part in the tree of a pattern without bars. -/
theorem Closable.finishFrom_push {p : Anchor → Bool} : ∀ {outer : List OpenGroup} {g : OpenGroup} {a : Tree},
    Closable g outer → (∀ k ∈ g :: outer, k.branches.isEmpty = true) → a.goesBy p = true →
    ∃ t, Reader.finishFrom (g.push a) outer = .ok t ∧ t.goesBy p = true
  | [], g, a, hc, hone, ha => by
    have hkind : (g.push a).kind = .frame .plain := hc
    refine ⟨Tree.altAll (g.push a).alternatives, ?_, OpenGroup.goesBy_branch_push ha (hone g List.mem_cons_self)⟩
    simp only [Reader.finishFrom, OpenGroup.close, hkind]
  | k :: outer, g, a, ⟨hkind, hc⟩, hone, ha => by
    have hkind : (g.push a).kind = .frame .options := hkind
    have hbranch := OpenGroup.goesBy_branch_push ha (hone g List.mem_cons_self)
    obtain ⟨t, hfinish, ht⟩ := hc.finishFrom_push (fun j hj => hone j (List.mem_cons_of_mem g hj)) hbranch
    refine ⟨t, ?_, ht⟩
    simp only [Reader.finishFrom, OpenGroup.close, hkind, if_true, bind, Except.bind]
    exact hfinish

/-! ## Readers -/

/-- The pieces with a quantifier behind them. -/
def quantified (q : Quantifier) (pieces : List Piece) : Except PatternError (List Piece) :=
  if q.least = 1 ∧ q.most = some 1 then
    if pieces.isEmpty then .error .nothingToRepeat else .ok pieces
  else match pieces with
  | [] => .error .nothingToRepeat
  | .run (c :: d :: more) caseless :: rest =>
    .ok (.tree (q.apply (.literal [c] caseless)) :: .run (d :: more) caseless :: rest)
  | piece :: rest => .ok (.tree (q.apply piece.toTree) :: rest)

theorem quantify_eq (r : Reader) (q : Quantifier) : r.quantify q =
    (quantified q r.inner.pieces).map fun pieces => { r with inner := { r.inner with pieces } } := by
  obtain ⟨flags, ⟨kind, outerFlags, branches, pieces⟩, outer, groupCount, names, largestRef⟩ := r
  unfold Reader.quantify quantified
  split
  · split <;> rfl
  · rcases pieces with _ | ⟨⟨_ | ⟨c, _ | ⟨d, more⟩⟩, caseless⟩ | t, rest⟩ <;> rfl

theorem quantified_append {q : Quantifier} {pieces after : List Piece} (front : List Piece)
    (h : quantified q pieces = .ok after) : quantified q (pieces ++ front) = .ok (after ++ front) := by
  unfold quantified at h ⊢
  split at h
  · rename_i hone
    rw [if_pos hone]
    cases pieces with
    | nil => cases h
    | cons p pieces => cases h; rfl
  · rename_i hone
    rw [if_neg hone]
    rcases pieces with _ | ⟨⟨_ | ⟨c, _ | ⟨d, more⟩⟩, caseless⟩ | t, rest⟩ <;> cases h <;> rfl

/-- The second reader has read the same as the first, upon other groups and behind these pieces. -/
structure Reader.Upon (extra : List Piece) (below : List OpenGroup) (r r' : Reader) : Prop where
  flags : r'.flags = r.flags
  stack : Pattern.Upon extra below r.inner r.outer r'.inner r'.outer
  groupCount : r'.groupCount = r.groupCount
  names : r'.names = r.names
  largestRef : r'.largestRef = r.largestRef

namespace Reader.Upon

variable {extra : List Piece} {below : List OpenGroup} {r r' s : Reader}

theorem resolve (h : Reader.Upon extra below r r') (name : List Char) : r'.resolve name = r.resolve name := by
  unfold Reader.resolve
  rw [h.groupCount, h.names]

theorem push (h : Reader.Upon extra below r r') (t : Tree) : Reader.Upon extra below (r.push t) (r'.push t) :=
  { h with stack := h.stack.map fun hb => hb.push t }

theorem refer (h : Reader.Upon extra below r r') (groups : List Nat) :
    Reader.Upon extra below (r.refer groups) (r'.refer groups) :=
  { h with largestRef := by simp only [Reader.refer, h.largestRef] }

theorem openGroup (h : Reader.Upon extra below r r') (kind : GroupKind) (flags : Flags) :
    Reader.Upon extra below (r.openGroup kind flags) (r'.openGroup kind flags) :=
  { h with
    flags := rfl
    stack := by
      simp only [Reader.openGroup, h.flags]
      exact .within h.stack }

/-- The quantifier finds the piece that it takes in front of all others. -/
theorem quantify {q : Quantifier} (h : Reader.Upon extra below r r') (hq : r.quantify q = .ok s) :
    ∃ s', r'.quantify q = .ok s' ∧ Reader.Upon extra below s s' := by
  rw [quantify_eq] at hq
  obtain ⟨pieces, hpieces, hs⟩ := map_eq_ok.mp hq
  subst hs
  have hstack := h.stack
  obtain ⟨flags, inner, outer, groupCount, names, largestRef⟩ := r'
  obtain ⟨flags', inner', outer', groupCount', names', largestRef'⟩ := r
  cases hstack with
  | within hs =>
    refine ⟨_, (quantify_eq _ q).trans (map_eq_ok.mpr ⟨pieces, hpieces, rfl⟩), ?_⟩
    exact { h with stack := .within hs }
  | bottom hb =>
    obtain ⟨hk, hk', hf, hbr, hp, hsame⟩ := hb
    have happend := quantified_append (if inner'.branches.isEmpty then extra else []) hpieces
    dsimp only at hp
    rw [← hp] at happend
    refine ⟨_, (quantify_eq _ q).trans (map_eq_ok.mpr ⟨_, happend, rfl⟩), ?_⟩
    exact { h with stack := .bottom ⟨hk, hk', hf, hbr, rfl, hsame⟩ }

theorem take {x : Lexeme} (hextra : ∀ p ∈ extra.head?, ∃ t, p = .tree t) (h : Reader.Upon extra below r r')
    (ht : r.take x = .ok s) : ∃ s', r'.take x = .ok s' ∧ Reader.Upon extra below s s' := by
  cases x with
  | skip =>
    cases ht
    exact ⟨r', rfl, h⟩
  | char c =>
    cases ht
    refine ⟨_, rfl, { h with stack := ?_ }⟩
    simp only [Reader.pushChar, h.flags]
    exact h.stack.map fun hb => hb.pushChar hextra c _
  | tree t =>
    cases ht
    exact ⟨_, rfl, h.push t⟩
  | number k =>
    cases ht
    refine ⟨_, rfl, ?_⟩
    rw [Reader.pushBackref, Reader.pushBackref, h.flags]
    exact (h.refer [k]).push _
  | name name =>
    obtain ⟨gs, hgs, ht⟩ := bind_eq_ok.mp ht
    cases ht
    refine ⟨_, bind_eq_ok.mpr ⟨gs, (h.resolve name).trans hgs, rfl⟩, ?_⟩
    rw [Reader.pushBackref, Reader.pushBackref, h.flags]
    exact (h.refer gs).push _
  | opening frame flags =>
    cases ht
    exact ⟨_, rfl, h.openGroup (.frame frame) flags⟩
  | capture name? =>
    cases ht
    refine ⟨_, rfl, h.flags, ?_, congrArg (· + 1) h.groupCount, ?_, h.largestRef⟩
    · simp only [Reader.openCapture, h.flags, h.groupCount]
      exact (h.openGroup (.capture (r.groupCount + 1)) r.flags).stack
    · simp only [Reader.openCapture, h.names, h.groupCount]
  | condition name =>
    obtain ⟨gs, hgs, ht⟩ := bind_eq_ok.mp ht
    cases ht
    refine ⟨_, bind_eq_ok.mpr ⟨gs, (h.resolve name).trans hgs, rfl⟩, ?_⟩
    rw [h.flags]
    exact (h.refer gs).openGroup (.condition gs) _
  | close =>
    obtain ⟨⟨flags, inner, outer⟩, hclose, ht⟩ := bind_eq_ok.mp ht
    cases ht
    obtain ⟨inner', outer', hclose', hs⟩ := h.stack.closeFrom hclose
    exact ⟨_, bind_eq_ok.mpr ⟨_, hclose', rfl⟩, { h with flags := rfl, stack := hs }⟩
  | bar =>
    cases ht
    exact ⟨_, rfl, { h with stack := h.stack.map Bottom.endBranch }⟩
  | quantifier q => exact h.quantify ht

/-- A text shares with a longer one what a reader looks at, if nothing is looked at behind it. -/
theorem shares_append (cs : List Char) {tail : List Char} (htail : ∀ c ∈ tail.head?, stops c) :
    Shares 0 cs (cs ++ tail) := by
  have hend : Shares 0 [] tail := .part (fun _ h => nomatch h) htail
  have h := hend.append cs
  rw [List.append_nil] at h
  exact h.mono (Nat.zero_le _)

theorem readFrom {cs : List Char} {xs : List Reading} {u : Reader} (hextra : ∀ p ∈ extra.head?, ∃ t, p = .tree t)
    (hr : Reads r cs xs u) (h : Reader.Upon extra below r r') (tail : List Char) (htail : ∀ c ∈ tail.head?, stops c) :
    ∃ u', Pattern.readFrom r' 0 (cs ++ tail) = Pattern.readFrom u' 0 tail ∧ Reader.Upon extra below u u' := by
  induction hr generalizing r' with
  | nil => exact ⟨r', rfl, h⟩
  | @cons r s u c t rest x xs hscan htake hrest ih =>
    have hscan' := scan_shares_same ((shares_append rest htail).append t) hscan
    rw [← h.flags, ← h.groupCount] at hscan'
    obtain ⟨s', htake', hs'⟩ := h.take hextra htake
    obtain ⟨u', hread, hu'⟩ := ih hs'
    refine ⟨u', ?_, hu'⟩
    rw [List.cons_append, List.append_assoc, readFrom_of_scan hscan' htake', hread]

end Reader.Upon

/-- What a pattern is made up of is read alike in front of a text that no lexeme looks into. -/
theorem Reads.readFrom {r u : Reader} {cs : List Char} {xs : List Reading} (h : Reads r cs xs u) (tail : List Char)
    (htail : ∀ c ∈ tail.head?, stops c) : readFrom r 0 (cs ++ tail) = Pattern.readFrom u 0 tail := by
  induction h with
  | nil => rfl
  | @cons r s u c t rest x xs hscan htake hrest ih =>
    have hscan' := scan_shares_same ((Reader.Upon.shares_append rest htail).append t) hscan
    rw [List.cons_append, List.append_assoc, readFrom_of_scan hscan' htake, ih]

/-- In front of a parenthesis at its end a pattern is read alike without this. -/
theorem Reads.split_close {r u : Reader} {cs : List Char} {xs : List Reading} {y : Reading}
    (h : Reads r cs (xs ++ [y]) u) (hy : y.text = [')']) :
    ∃ w s, cs = w ++ [')'] ∧ Reads r w xs s ∧ s.take .close = .ok u := by
  generalize hxs : xs ++ [y] = ys at h
  induction h generalizing xs with
  | nil => exact absurd hxs (List.append_ne_nil_of_right_ne_nil xs (List.cons_ne_nil _ _))
  | @cons r s u c t rest x ys hscan htake hrest ih =>
    cases xs with
    | nil =>
      obtain ⟨rfl, rfl⟩ := List.cons.inj hxs
      obtain ⟨rfl, rfl⟩ := List.cons.inj hy
      cases hrest
      cases hscan
      exact ⟨[], r, rfl, .nil, htake⟩
    | cons x' xs =>
      obtain ⟨rfl, htail⟩ := List.cons.inj hxs
      obtain ⟨w, s', rfl, hreads, htake'⟩ := ih htail
      -- The texts part at the parenthesis, which no lexeme in front of it looks past.
      have hpart : Shares 0 [')'] [] := .part (fun _ h => by cases h; rfl) (by simp)
      have hshares := ((hpart.append w).mono (Nat.zero_le _)).append t
      rw [List.append_nil] at hshares
      exact ⟨c :: (t ++ w), s', by simp, .cons (scan_shares_same hshares hscan) htake hreads, htake'⟩

/-! ## Whole patterns -/

theorem finish_eq_ok {r : Reader} {t : Tree} :
    r.finish = .ok t ↔ Reader.finishFrom r.inner r.outer = .ok t ∧ r.largestRef ≤ r.groupCount := by
  constructor
  · intro h
    obtain ⟨t', ht', h⟩ := bind_eq_ok.mp h
    dsimp only at h
    split at h
    · cases h
    · cases h
      exact ⟨ht', by omega⟩
  · rintro ⟨ht, href⟩
    refine bind_eq_ok.mpr ⟨t, ht, ?_⟩
    dsimp only
    rw [if_neg (by omega)]
    rfl

theorem compile_eq_ok {cs : List Char} {p : Pattern} : compile (String.ofList cs) = .ok p ↔
    ∃ r t, readFrom (Reader.initial {}) 0 cs = .ok r ∧ r.finish = .ok t ∧
      p = { source := String.ofList cs, tree := t, groupCount := r.groupCount } := by
  constructor
  · intro h
    obtain ⟨⟨t, count⟩, hread, hp⟩ := bind_eq_ok.mp h
    rw [String.toList_ofList] at hread
    obtain ⟨r, hr, hread⟩ := bind_eq_ok.mp hread
    obtain ⟨t', ht', hread⟩ := bind_eq_ok.mp hread
    cases hread
    cases hp
    exact ⟨r, t, hr, ht', rfl⟩
  · rintro ⟨r, t, hr, ht, rfl⟩
    refine bind_eq_ok.mpr ⟨(t, r.groupCount), ?_, rfl⟩
    rw [String.toList_ofList]
    exact bind_eq_ok.mpr ⟨r, hr, bind_eq_ok.mpr ⟨t, ht, rfl⟩⟩

/-- The pattern can be read by itself, and no comment is cut off by its end. -/
structure Stands (cs : List Char) (xs : List Reading) (u : Reader) (t : Tree) : Prop where
  reads : Reads (Reader.initial {}) cs xs u
  finish : u.finish = .ok t

theorem exists_stands {cs : List Char} {p : Pattern} (hp : compile (String.ofList cs) = .ok p)
    (hx : ∀ x ∈ readings (Reader.initial {}) 0 cs, x.text.length = x.used + 1) :
    ∃ u, readFrom (Reader.initial {}) 0 cs = .ok u ∧
      Stands cs (readings (Reader.initial {}) 0 cs) u p.tree := by
  obtain ⟨u, t, hread, hfinish, rfl⟩ := compile_eq_ok.mp hp
  exact ⟨u, hread, reads_readings hread hx, hfinish⟩

/-- The reader in front of a pattern, behind these pieces. -/
def Reader.behind (ps : List Piece) : Reader :=
  { Reader.initial {} with inner := { (Reader.initial {}).inner with pieces := ps } }

/-- A reader outside of all groups, behind these pieces and `w` groups. -/
structure Reader.At (ps : List Piece) (w : Nat) (r : Reader) : Prop where
  flags : r.flags = {}
  inner : r.inner = (Reader.behind ps).inner
  outer : r.outer = []
  groupCount : r.groupCount = w
  names : ∀ p ∈ r.names, p.2 ≤ w
  unnamed : w = 0 → r.names = []
  largestRef : r.largestRef ≤ w

namespace Reader.At

variable {ps : List Piece} {w : Nat} {r : Reader}

theorem initial : (Reader.initial {}).At [] 0 := ⟨rfl, rfl, rfl, rfl, by simp [Reader.initial], fun _ => rfl, Nat.le_refl _⟩

theorem push (h : r.At ps w) (t : Tree) : (r.push t).At (.tree t :: ps) w :=
  { h with inner := by rw [Reader.push, h.inner]; rfl }

theorem readFrom_open (h : r.At ps w) (cs : List Char) :
    readFrom r 0 ('(' :: '?' :: ':' :: cs) = readFrom (r.openGroup (.frame .plain) {}) 0 cs := by
  have hscan : scan r.flags r.groupCount '(' (['?', ':'] ++ cs) = .ok (.opening .plain {}, ['?', ':'].length) := by
    rw [h.flags]
    rfl
  exact readFrom_of_scan hscan rfl

/-- The pattern that ends here is its pieces in a row. -/
theorem compile (cs : List Char) (h : r.At ps w) (hread : readFrom (Reader.initial {}) 0 cs = .ok r) :
    compile (String.ofList cs) =
      .ok { source := String.ofList cs, tree := Tree.seqAll (ps.reverse.map Piece.toTree), groupCount := w } := by
  refine compile_eq_ok.mpr ⟨r, _, hread, finish_eq_ok.mpr ⟨?_, h.groupCount ▸ h.largestRef⟩, by rw [h.groupCount]⟩
  rw [h.inner, h.outer]
  rfl

end Reader.At

namespace Stands

variable {cs : List Char} {xs : List Reading} {u : Reader} {t : Tree} (h : Stands cs xs u t)
include h

theorem names_le : ∀ p ∈ u.names, p.2 ≤ u.groupCount := h.reads.namesGroups (by simp [Reader.NamesGroups, Reader.initial])

/-- In a group the pattern becomes one piece. -/
theorem readFrom_group {ps : List Piece} {r : Reader} (hr : r.At ps 0) (tail : List Char) :
    ∃ r', readFrom r 0 (['(', '?', ':'] ++ cs ++ [')'] ++ tail) = readFrom r' 0 tail ∧
      r'.At (.tree t :: ps) u.groupCount := by
  obtain ⟨hfrom, href⟩ := finish_eq_ok.mp h.finish
  let r₁ := r.openGroup (.frame .plain) {}
  have houter : r₁.outer = [r.inner] := congrArg (r.inner :: ·) hr.outer
  have hstart : Reader.Upon [] [r.inner] (Reader.initial {}) r₁ := by
    refine ⟨rfl, ?_, hr.groupCount, hr.unnamed rfl, Nat.le_zero.mp hr.largestRef⟩
    rw [houter]
    exact .bottom ⟨rfl, rfl, hr.flags, rfl, rfl, fun _ => rfl⟩
  obtain ⟨u', hread, hu⟩ := hstart.readFrom (by simp) h.reads (')' :: tail) fun c hc => by cases hc; rfl
  obtain ⟨t', hclose, hsame⟩ := hu.stack.closeFrom_of_finishFrom hfrom
  obtain rfl : t' = t := hsame rfl
  refine ⟨{ u' with flags := {}, inner := r.inner.push t', outer := [] }, ?_, ?_⟩
  · have htext : ['(', '?', ':'] ++ cs ++ [')'] ++ tail = '(' :: '?' :: ':' :: (cs ++ ')' :: tail) := by simp
    have htake : u'.take .close = .ok { u' with flags := {}, inner := r.inner.push t', outer := [] } :=
      bind_eq_ok.mpr ⟨_, hclose, rfl⟩
    rw [htext, hr.readFrom_open]
    refine hread.trans ?_
    exact readFrom_of_scan (t := []) rfl htake
  · have hnames := hu.names
    refine ⟨rfl, by rw [hr.inner]; rfl, rfl, hu.groupCount, fun p hp => h.names_le p (hnames ▸ hp), fun hcount => ?_, ?_⟩
    · exact hnames.trans (h.reads.names_eq hcount)
    · exact hu.largestRef.trans_le href

/-- The end of a line is asked for behind the whole group. -/
theorem compile_group_end : ∃ p, compile (String.ofList (['(', '?', ':'] ++ cs ++ [')'] ++ ['$'])) = .ok p ∧
    p.tree.goesBy Anchor.isEnd = true := by
  obtain ⟨r, hread, hr⟩ := h.readFrom_group .initial ['$']
  exact ⟨_, (hr.push (.anchor .lineEnd)).compile _ hread, Bool.or_eq_true_iff.mpr (.inr rfl)⟩

/-- The start of a line is asked for in front of the whole group. -/
theorem compile_group_start : ∃ p, compile (String.ofList ('^' :: (['(', '?', ':'] ++ cs ++ [')']))) = .ok p ∧
    p.tree.goesBy Anchor.isStart = true := by
  obtain ⟨r, hread, hr⟩ := h.readFrom_group (Reader.At.initial.push (.anchor .lineStart)) []
  rw [List.append_nil] at hread
  exact ⟨_, hr.compile ('^' :: _) hread, Bool.or_eq_true_iff.mpr (.inl rfl)⟩

variable (hone : ∀ g ∈ u.inner :: u.outer, g.branches.isEmpty = true)
include hone

/-- Without a bar of its own the pattern needs no group behind an anchor. -/
theorem compile_start : ∃ p, compile (String.ofList ('^' :: cs)) = .ok p ∧ p.tree.goesBy Anchor.isStart = true := by
  obtain ⟨hfrom, href⟩ := finish_eq_ok.mp h.finish
  have hstart : Reader.Upon [.tree (.anchor .lineStart)] [] (Reader.initial {})
      (Reader.behind [.tree (.anchor .lineStart)]) :=
    ⟨rfl, .bottom ⟨rfl, rfl, rfl, rfl, rfl, fun _ => rfl⟩, rfl, rfl, rfl⟩
  obtain ⟨u', hread, hu⟩ := hstart.readFrom (by simp) h.reads [] (fun c hc => nomatch hc)
  rw [List.append_nil] at hread
  obtain ⟨t', hfinish, hgoes⟩ := hu.stack.finishFrom hfrom
  refine ⟨_, compile_eq_ok.mpr ⟨u', t', hread, finish_eq_ok.mpr ⟨hfinish, ?_⟩, rfl⟩, ?_⟩
  · rw [hu.largestRef, hu.groupCount]
    exact href
  · exact hgoes Anchor.isStart (.anchor .lineStart) List.mem_cons_self rfl hone

/-- Behind a parenthesis of its own the pattern needs no group in front of an anchor. -/
theorem compile_end (hlast : xs.getLast?.any (·.text = [')']) = true) :
    ∃ p, compile (String.ofList (cs ++ ['$'])) = .ok p ∧ p.tree.goesBy Anchor.isEnd = true := by
  obtain ⟨hfrom, href⟩ := finish_eq_ok.mp h.finish
  obtain ⟨y, hy, hclose⟩ : ∃ y, xs.getLast? = some y ∧ y.text = [')'] := by
    cases hx : xs.getLast? with
    | none => rw [hx] at hlast; cases hlast
    | some y => rw [hx] at hlast; exact ⟨y, rfl, of_decide_eq_true hlast⟩
  obtain ⟨ys, rfl⟩ := List.getLast?_eq_some_iff.mp hy
  obtain ⟨w, s, rfl, hreads, htake⟩ := h.reads.split_close hclose
  have hself : Reader.Upon [] [] (Reader.initial {}) (Reader.initial {}) :=
    ⟨rfl, .bottom ⟨rfl, rfl, rfl, rfl, rfl, fun _ => rfl⟩, rfl, rfl, rfl⟩
  obtain ⟨u', -, hu⟩ := hself.readFrom (by simp) h.reads [] (fun c hc => nomatch hc)
  have hend : Tree.goesBy Anchor.isEnd (.anchor .lineEnd) = true := rfl
  obtain ⟨t', hfinish, hgoes⟩ := (hu.stack.closable hfrom).finishFrom_push hone hend
  refine ⟨_, compile_eq_ok.mpr ⟨u.push (.anchor .lineEnd), t', ?_, finish_eq_ok.mpr ⟨hfinish, href⟩, rfl⟩, hgoes⟩
  rw [List.append_assoc, List.singleton_append, hreads.readFrom _ fun c hc => by cases hc; rfl]
  exact (readFrom_of_scan (t := []) rfl htake).trans rfl

end Stands

end Pattern

end Scribe
