import Scribe.Proofs.Pattern.Beside
import Scribe.Proofs.Snippet.Adjacent

/-!
# Patterns that are read apart

A guard and a trigger are written one behind the other, put in groups unless they look grouped, and an anchor beside them
unless there is one. The two are read apart if the whole matches where each of them, read by itself, matches behind the
other. This is so for a pattern that is put in a group, or that ends with one and has no bar outside of groups, as long as
the numbers of the groups in front of it do not matter.
-/

namespace Scribe

def Tree.refersWithin (n : Nat) (t : Tree) : Bool := t.references.all fun gs => gs.all fun g => 0 < g && g ≤ n

theorem Pattern.SameUpTo.self {n : Nat} {t : Tree} (h : t.refersWithin n = true) : Pattern.SameUpTo n t t := by
  refine Tree.Like.self (fun _ _ _ => rfl) fun gs hgs => ⟨rfl, fun g hg => ?_⟩
  simpa using List.all_eq_true.mp (List.all_eq_true.mp h gs hgs) g hg

namespace Trigger

open Text (startsWith endsWith)
open Pattern (standsAlone closesLast isClosedBranch isNumberless Reader Piece readFrom run stopIf Progress Input)

/-! ## Patterns that are read apart -/

/-- The pattern is put in a group, or it ends with one and has no bar outside of groups. -/
def isUnit (source : List Char) : Bool :=
  standsAlone source && (!looksGrouped source || (isClosedBranch source && closesLast source))

/-- The two patterns are read in a row as each of them is read by itself. Behind groups the second one has other numbers, so
it must not use them. -/
def readsBeside (front back : List Char) : Bool :=
  isUnit front && isUnit back &&
    (Pattern.compile (String.ofList front)).toOption.any fun p =>
      (Pattern.compile (String.ofList back)).toOption.any fun q =>
        p.tree.refersWithin p.groupCount &&
          if p.groupCount = 0 then !p.tree.hasGroup && q.tree.refersWithin q.groupCount
          else !looksGrouped back && isNumberless back && q.tree.references.isEmpty

/-- What the pattern matches is reported from where it begins. -/
def reportsWhole (source : List Char) : Bool :=
  (Pattern.compile (String.ofList source)).toOption.any (!·.tree.hasKeep)

section
variable {cs : List Char} {p : Pattern} {r : Reader} {ps : List Piece} {w : Nat}

theorem exists_stands_of_compile (h : standsAlone cs = true) (hp : Pattern.compile (String.ofList cs) = .ok p) :
    ∃ u, readFrom (Reader.initial {}) 0 cs = .ok u ∧ u.groupCount = p.groupCount ∧
      Pattern.Stands cs (Pattern.readings (Reader.initial {}) 0 cs) u p.tree := by
  obtain ⟨u, t, hread, hstands⟩ := Pattern.exists_stands_of_standsAlone h
  obtain ⟨u', t', hread', hfinish, rfl⟩ := Pattern.compile_eq_ok.mp hp
  cases hread.symm.trans hread'
  cases hstands.finish.symm.trans hfinish
  exact ⟨u, hread, rfl, hstands⟩

theorem compile_nil : Pattern.compile (String.ofList []) = .ok ⟨String.ofList [], .empty, 0⟩ := rfl

theorem compile_wordBoundary : Pattern.compile (String.ofList ['\\', 'b']) =
    .ok ⟨String.ofList ['\\', 'b'], .anchor .wordBoundary, 0⟩ := rfl

theorem readFrom_wordBoundary (hr : r.At ps w) (tail : List Char) :
    readFrom r 0 (['\\', 'b'] ++ tail) = readFrom (r.push (.anchor .wordBoundary)) 0 tail := by
  refine Pattern.readFrom_of_scan (t := ['b']) (x := .tree (.anchor .wordBoundary)) ?_ rfl
  rw [hr.flags]
  rfl

/-- In front of all other groups the pattern is read as by itself. -/
theorem readFrom_wrap (h : isUnit cs = true) (hp : Pattern.compile (String.ofList cs) = .ok p) (hr : r.At ps 0)
    (hps : ∀ q ∈ ps.head?, ∃ t, q = .tree t) (tail : List Char) :
    ∃ qs r', readFrom r 0 (wrap cs ++ tail) = readFrom r' 0 tail ∧ r'.At (qs ++ ps) p.groupCount ∧
      (∀ q ∈ (qs ++ ps).head?, ∃ t, q = .tree t) ∧ p.tree = Tree.seqAll (qs.reverse.map Piece.toTree) := by
  obtain ⟨halone, hunit⟩ := Bool.and_eq_true_iff.mp h
  rcases wrap_cases cs with ⟨rfl, hwrap⟩ | ⟨rfl, hwrap⟩ | ⟨hgroup, -, hwrap⟩ | ⟨-, hwrap⟩
  · cases compile_nil.symm.trans hp
    exact ⟨[], r, by rw [hwrap]; rfl, hr, hps, rfl⟩
  · cases compile_wordBoundary.symm.trans hp
    refine ⟨[.tree (.anchor .wordBoundary)], _, ?_, hr.push _, by simp, rfl⟩
    rw [hwrap]
    exact readFrom_wordBoundary hr tail
  · obtain ⟨u, hread, hcount, hstands⟩ := exists_stands_of_compile halone hp
    have hclosed : isClosedBranch cs = true ∧ closesLast cs = true := by simpa [hgroup] using hunit
    obtain ⟨⟨hflags, houter⟩, hbranches⟩ : (u.flags = {} ∧ u.outer = []) ∧ u.inner.branches = [] := by
      have hclosed := hclosed.1
      unfold isClosedBranch at hclosed
      rw [hread] at hclosed
      simpa using hclosed
    obtain ⟨qs, r', hread', hr', ⟨t, rest, rfl⟩, htree⟩ :=
      hstands.readFrom_beside hflags houter hbranches hclosed.2 hr hps tail
    exact ⟨_, r', by rwa [hwrap], hcount ▸ hr', by simp, htree⟩
  · obtain ⟨u, -, hcount, hstands⟩ := exists_stands_of_compile halone hp
    obtain ⟨r', hread', hr'⟩ := hstands.readFrom_group hr tail
    exact ⟨[.tree p.tree], r', hwrap ▸ hread', hcount ▸ hr', by simp, rfl⟩

/-- Behind other groups too, but for the numbers of its own. -/
theorem readFrom_wrap_moved (halone : standsAlone cs = true) (hgroup : looksGrouped cs = false)
    (hp : Pattern.compile (String.ofList cs) = .ok p) (hn : isNumberless cs = true) (href : p.tree.references = [])
    (hw : 0 < w) (hr : r.At ps w) (tail : List Char) :
    ∃ qs r', readFrom r 0 (wrap cs ++ tail) = readFrom r' 0 tail ∧ r'.At (qs ++ ps) (w + p.groupCount) ∧
      Pattern.SameUpTo 0 p.tree (Tree.seqAll (qs.reverse.map Piece.toTree)) := by
  have hself : Pattern.SameUpTo 0 p.tree p.tree := .self (by simp [Tree.refersWithin, href])
  rcases wrap_cases cs with ⟨rfl, hwrap⟩ | ⟨rfl, hwrap⟩ | ⟨hgroup', -⟩ | ⟨-, hwrap⟩
  · cases compile_nil.symm.trans hp
    exact ⟨[], r, by rw [hwrap]; rfl, hr, hself⟩
  · cases compile_wordBoundary.symm.trans hp
    refine ⟨[.tree (.anchor .wordBoundary)], _, ?_, hr.push _, hself⟩
    rw [hwrap]
    exact readFrom_wordBoundary hr tail
  · cases hgroup.symm.trans hgroup'
  · have huncut : ∀ x ∈ Pattern.readings (Reader.initial {}) 0 cs, x.text.length = x.used + 1 := fun x hx =>
      of_decide_eq_true (List.all_eq_true.mp (Bool.and_eq_true_iff.mp halone).2 x hx)
    obtain ⟨t, r', hread', hr', ht⟩ := Pattern.readFrom_group_moved hp huncut hn hw hr tail
    exact ⟨[.tree t], r', hwrap ▸ hread', Nat.add_comm _ _ ▸ hr', ht.of_references (fun i j h => by omega) href⟩

end

/-- Read in a row, one pattern matches behind the other. -/
theorem readFrom_beside {front back : List Char} {p q : Pattern} {r : Reader} {ps : List Piece}
    (h : readsBeside front back = true) (hp : Pattern.compile (String.ofList front) = .ok p)
    (hq : Pattern.compile (String.ofList back) = .ok q) (hr : r.At ps 0) (hps : ∀ q ∈ ps.head?, ∃ t, q = .tree t)
    (tail : List Char) :
    ∃ qs r', readFrom r 0 (wrap front ++ (wrap back ++ tail)) = readFrom r' 0 tail ∧
      r'.At (qs ++ ps) (p.groupCount + q.groupCount) ∧
      ∀ (input : Input) (start stop : Nat), (run input (Tree.seqAll (qs.reverse.map Piece.toTree))
          (.fresh (p.groupCount + q.groupCount) start) (stopIf (· = stop))).isSome = true ↔
        ∃ place, p.Takes input start place ∧ q.Takes input place stop := by
  obtain ⟨hunits, h⟩ := Bool.and_eq_true_iff.mp h
  obtain ⟨hfront, hback⟩ := Bool.and_eq_true_iff.mp hunits
  simp only [hp, hq, Except.toOption, Option.any_some] at h
  obtain ⟨hrefers, h⟩ := Bool.and_eq_true_iff.mp h
  obtain ⟨qs, r₁, hread₁, hr₁, hqs, hptree⟩ := readFrom_wrap hfront hp hr hps (wrap back ++ tail)
  have hrun (us : List Piece) (input : Input) (s : Progress) (k : Pattern.After) :
      run input (Tree.seqAll ((us ++ qs).reverse.map Piece.toTree)) s k =
        run input p.tree s fun u => run input (Tree.seqAll (us.reverse.map Piece.toTree)) u k := by
    rw [List.reverse_append, List.map_append, Pattern.run_seqAll_append, ← hptree]
  by_cases hcount : p.groupCount = 0
  · rw [if_pos hcount] at h
    obtain ⟨hnone, hrefers'⟩ := Bool.and_eq_true_iff.mp h
    obtain ⟨us, r₂, hread₂, hr₂, -, hqtree⟩ := readFrom_wrap hback hq (hcount ▸ hr₁) hqs tail
    refine ⟨us ++ qs, r₂, hread₁.trans hread₂, ?_, fun input start stop => ?_⟩
    · rw [hcount, Nat.zero_add, List.append_assoc]
      exact hr₂
    · rw [hrun, ← hqtree]
      exact Pattern.isSome_run_beside (.self hrefers) (Nat.le_add_right _ _) (.self hrefers') (Nat.le_refl _)
        fun _ => ⟨by simpa using hnone, Nat.le_add_left _ _⟩
  · rw [if_neg hcount] at h
    obtain ⟨hgroup, href⟩ := Bool.and_eq_true_iff.mp h
    obtain ⟨hgroup, hnumber⟩ := Bool.and_eq_true_iff.mp hgroup
    obtain ⟨us, r₂, hread₂, hr₂, hqtree⟩ := readFrom_wrap_moved (Bool.and_eq_true_iff.mp hback).1 (by simpa using hgroup) hq
      hnumber (List.isEmpty_iff.mp href) (Nat.pos_of_ne_zero hcount) hr₁ tail
    refine ⟨us ++ qs, r₂, hread₁.trans hread₂, by rwa [List.append_assoc], fun input start stop => ?_⟩
    rw [hrun]
    exact Pattern.isSome_run_beside (.self hrefers) (Nat.le_add_right _ _) hqtree (Nat.zero_le _)
      fun h => absurd h (Nat.lt_irrefl 0)

/-! ## Anchors that are there already -/

/-- The trigger without an end of the line of its own. -/
def withoutEnd (trigger : List Char) : List Char :=
  if looksGrouped trigger && endsWith trigger ['$'] then trigger.dropLast else trigger

/-- The trigger without a start of the line of its own. -/
def withoutStart (trigger : List Char) : List Char :=
  if looksGrouped trigger then (Text.dropStart? ['^'] trigger).getD trigger else trigger

theorem startsWith_cons (c d : Char) (rest : List Char) : startsWith (c :: rest) [d] = decide (d = c) := by
  unfold startsWith
  rw [Text.dropStart?]
  by_cases h : d = c
  · rw [if_pos h, decide_eq_true h]
    rfl
  · rw [if_neg h, decide_eq_false h]
    rfl

theorem dropStart?_cons (c d : Char) (rest : List Char) :
    (Text.dropStart? [d] (c :: rest)).getD (c :: rest) = if d = c then rest else c :: rest := by
  rw [Text.dropStart?]
  split <;> rfl

theorem looksGrouped_of_concat {cs : List Char} (h : looksGrouped (cs ++ ['$']) = true) : looksGrouped cs = true := by
  cases cs with
  | nil => cases h
  | cons c rest =>
    have hinner : (Text.dropStart? ['^'] (c :: rest ++ ['$'])).getD (c :: rest ++ ['$']) =
        (Text.dropStart? ['^'] (c :: rest)).getD (c :: rest) ++ ['$'] := by
      rw [List.cons_append, dropStart?_cons, dropStart?_cons]
      split <;> rfl
    unfold looksGrouped at h ⊢
    rw [hinner] at h
    generalize (Text.dropStart? ['^'] (c :: rest)).getD (c :: rest) = inner at h ⊢
    dsimp only at h ⊢
    rw [endsWith_concat, if_pos (by decide), List.dropLast_concat] at h
    have hclose := eq_concat_of_endsWith (Bool.and_eq_true_iff.mp h).2
    have hend : endsWith inner ['$'] = false := by
      rw [hclose, endsWith_concat]
      rfl
    rw [hend]
    exact h

theorem looksGrouped_of_cons {cs : List Char} (h : looksGrouped ('^' :: cs) = true) : looksGrouped cs = true := by
  unfold looksGrouped at h ⊢
  rw [dropStart?_cons, if_pos rfl] at h
  cases cs with
  | nil => cases h
  | cons c rest =>
    obtain rfl : '(' = c := by
      obtain ⟨hstart, -⟩ := Bool.and_eq_true_iff.mp h
      split at hstart
      · cases rest with
        | nil => cases hstart
        | cons d rest => rwa [List.dropLast_cons_cons, startsWith_cons, decide_eq_true_eq] at hstart
      · rwa [startsWith_cons, decide_eq_true_eq] at hstart
    rw [dropStart?_cons, if_neg (by decide)]
    exact h

theorem wrap_of_looksGrouped {cs : List Char} (h : looksGrouped cs = true) : wrap cs = cs := by
  unfold wrap
  rw [h, Bool.or_true, if_pos rfl]

theorem exists_concat_wrap {cs : List Char} (h : isUnit cs = true) (hne : cs ≠ []) :
    ∃ init c, wrap cs = init ++ [c] ∧ c ≠ '$' := by
  obtain ⟨halone, hunit⟩ := Bool.and_eq_true_iff.mp h
  rcases wrap_cases cs with ⟨hnil, -⟩ | ⟨-, hwrap⟩ | ⟨hgroup, -, hwrap⟩ | ⟨-, hwrap⟩
  · exact absurd hnil hne
  · exact ⟨['\\'], 'b', hwrap, by decide⟩
  · obtain ⟨u, t, -, hstands⟩ := Pattern.exists_stands_of_standsAlone halone
    have hlast : closesLast cs = true := by
      rw [hgroup] at hunit
      exact (Bool.and_eq_true_iff.mp hunit).2
    obtain ⟨y, hy, hclose⟩ : ∃ y, (Pattern.readings (Reader.initial {}) 0 cs).getLast? = some y ∧ y.text = [')'] := by
      simpa only [closesLast, Option.any_eq_true, decide_eq_true_eq] using hlast
    obtain ⟨ys, hys⟩ := List.getLast?_eq_some_iff.mp hy
    obtain ⟨w, s, htext, -⟩ := (hys ▸ hstands.reads).split_close hclose
    exact ⟨w, ')', hwrap.trans htext, by decide⟩
  · exact ⟨['(', '?', ':'] ++ cs, ')', hwrap, by decide⟩

theorem wrap_withoutEnd (cs : List Char) :
    (cs = wrap (withoutEnd cs) ++ ['$'] ∧ wrap cs = cs) ∨ withoutEnd cs = cs := by
  unfold withoutEnd
  split
  · rename_i hown
    obtain ⟨hgroup, hend⟩ := Bool.and_eq_true_iff.mp hown
    have htext := eq_concat_of_endsWith hend
    rw [wrap_of_looksGrouped (looksGrouped_of_concat (htext ▸ hgroup))]
    exact .inl ⟨htext, wrap_of_looksGrouped hgroup⟩
  · exact .inr rfl

/-- What stands in front of the end of the line. -/
theorem openingSource_eq {trigger guard : List Char} (hguard : isUnit guard = true)
    (htrigger : isUnit (withoutEnd trigger) = true) :
    (trigger = [] ∧ guard = [] ∧ openingSource trigger guard = []) ∨
      openingSource trigger guard = wrap guard ++ (wrap (withoutEnd trigger) ++ ['$']) := by
  unfold openingSource
  dsimp only
  rcases wrap_withoutEnd trigger with ⟨htext, hwrap⟩ | hwithout
  · have hjoined : wrap guard ++ wrap trigger = wrap guard ++ (wrap (withoutEnd trigger) ++ ['$']) := by rw [hwrap, ← htext]
    have hends : endsWith (wrap guard ++ (wrap (withoutEnd trigger) ++ ['$'])) ['$'] = true := by
      rw [← List.append_assoc, endsWith_concat]
      rfl
    refine .inr ?_
    rw [hjoined, hends, Bool.or_true, if_pos rfl]
  · rw [hwithout] at htrigger ⊢
    by_cases hempty : trigger = [] ∧ guard = []
    · obtain ⟨rfl, rfl⟩ := hempty
      exact .inl ⟨rfl, rfl, rfl⟩
    · obtain ⟨init, c, hjoined, hc⟩ : ∃ init c, wrap guard ++ wrap trigger = init ++ [c] ∧ c ≠ '$' := by
        by_cases hnil : trigger = []
        · obtain ⟨init, c, hwrap, hc⟩ := exists_concat_wrap hguard fun h => hempty ⟨hnil, h⟩
          exact ⟨init, c, by rw [hnil, hwrap]; exact List.append_nil _, hc⟩
        · obtain ⟨init, c, hwrap, hc⟩ := exists_concat_wrap htrigger hnil
          exact ⟨wrap guard ++ init, c, by rw [hwrap, List.append_assoc], hc⟩
      refine .inr ?_
      have hends : endsWith (init ++ [c]) ['$'] = false := by
        rw [endsWith_concat]
        exact decide_eq_false fun h => hc h.symm
      rw [← List.append_assoc, hjoined, hends, if_neg (by simp)]

theorem wrap_withoutStart {cs : List Char} (hne : cs ≠ []) :
    (cs = '^' :: wrap (withoutStart cs) ∧ wrap cs = cs) ∨
      (withoutStart cs = cs ∧ ∃ c rest, wrap cs = c :: rest ∧ c ≠ '^') := by
  rcases wrap_cases cs with ⟨hnil, -⟩ | ⟨rfl, hwrap⟩ | ⟨hgroup, -, hwrap⟩ | ⟨hgroup, hwrap⟩
  · exact absurd hnil hne
  · exact .inr ⟨rfl, '\\', ['b'], hwrap, by decide⟩
  · obtain ⟨c, rest, rfl⟩ := List.exists_cons_of_ne_nil hne
    have hwithout : withoutStart (c :: rest) = if '^' = c then rest else c :: rest := by
      rw [withoutStart, if_pos hgroup, dropStart?_cons]
    rw [hwithout, hwrap]
    by_cases hc : '^' = c
    · subst hc
      rw [if_pos rfl, wrap_of_looksGrouped (looksGrouped_of_cons hgroup)]
      exact .inl ⟨rfl, rfl⟩
    · rw [if_neg hc]
      exact .inr ⟨rfl, c, rest, rfl, fun h => hc h.symm⟩
  · refine .inr ⟨by rw [withoutStart, hgroup]; rfl, '(', ['?', ':'] ++ cs ++ [')'], ?_, by decide⟩
    rw [hwrap]
    rfl

theorem anchored_wrap {cs : List Char} (hne : cs ≠ []) (tail : List Char) :
    (if (wrap cs ++ tail).isEmpty || startsWith (wrap cs ++ tail) ['^'] then wrap cs ++ tail
      else '^' :: (wrap cs ++ tail)) = '^' :: (wrap (withoutStart cs) ++ tail) := by
  rcases wrap_withoutStart hne with ⟨htext, hwrap⟩ | ⟨hwithout, c, rest, hwrap, hc⟩
  · rw [hwrap.trans htext, List.cons_append, startsWith_cons, decide_eq_true rfl, Bool.or_true, if_pos rfl]
  · rw [hwithout, hwrap, List.cons_append, startsWith_cons, decide_eq_false fun h => hc h.symm, Bool.or_false,
      if_neg (by simp)]

/-- What stands behind the start of the line. -/
theorem closingSource_eq (trigger guard : List Char) : (trigger = [] ∧ guard = [] ∧ closingSource trigger guard = []) ∨
    closingSource trigger guard = '^' :: (wrap (withoutStart trigger) ++
      wrap (if trigger = [] then withoutStart guard else guard)) := by
  by_cases htrigger : trigger = []
  · subst htrigger
    by_cases hguard : guard = []
    · exact .inl ⟨rfl, hguard, by rw [hguard]; rfl⟩
    · have hanchored := anchored_wrap hguard []
      rw [List.append_nil, List.append_nil] at hanchored
      exact .inr hanchored
  · rw [if_neg htrigger]
    exact .inr (anchored_wrap htrigger (wrap guard))

/-! ## Patterns between anchors -/

section
variable {cs front back : List Char} {p q : Pattern}

/-- In front of the end of the line the pattern matches what reaches up to there. -/
theorem compile_end (h : isUnit cs = true) (hp : Pattern.compile (String.ofList cs) = .ok p) :
    ∃ r, Pattern.compile (String.ofList (wrap cs ++ ['$'])) = .ok r ∧ ∀ text : String, '\n' ∉ text.toList → ∀ place,
      r.matchAt (.whole text) place =
        run (.whole text) p.tree (.fresh p.groupCount place) (stopIf (· = text.toList.length)) ∧
      (r.Takes (.whole text) place text.toList.length ↔ p.Takes (.whole text) place text.toList.length) := by
  obtain ⟨qs, r, hread, hr, -, htree⟩ := readFrom_wrap h hp .initial (by simp) ['$']
  refine ⟨_, (hr.push (.anchor .lineEnd)).compile _ hread, fun text hline place => ?_⟩
  have hrun (k : Pattern.After) : run (.whole text)
      (Tree.seqAll ((Piece.tree (.anchor .lineEnd) :: (qs ++ [])).reverse.map Piece.toTree)) (.fresh p.groupCount place) k =
        run (.whole text) p.tree (.fresh p.groupCount place) fun u => if u.pos = text.toList.length then k u else none := by
    rw [List.append_nil, List.reverse_cons, List.map_append, List.map_singleton, Piece.toTree, Pattern.run_lineEnd hline,
      htree]
  refine ⟨hrun some, ?_⟩
  unfold Pattern.Takes
  dsimp only
  rw [hrun]
  refine iff_of_eq (congrArg (fun k => (run _ _ _ k).isSome = true) (funext fun u => ?_))
  unfold stopIf
  split <;> rfl

/-- Behind the start of the line the pattern matches there only. -/
theorem compile_start (h : isUnit cs = true) (hp : Pattern.compile (String.ofList cs) = .ok p) :
    ∃ r, Pattern.compile (String.ofList ('^' :: wrap cs)) = .ok r ∧ ∀ text : String, '\n' ∉ text.toList →
      (∀ place, r.matchAt (.whole text) place = if place = 0 then p.matchAt (.whole text) place else none) ∧
      ∀ stop, r.Takes (.whole text) 0 stop ↔ p.Takes (.whole text) 0 stop := by
  obtain ⟨qs, r, hread, hr, -, htree⟩ := readFrom_wrap h hp (Pattern.Reader.At.initial.push (.anchor .lineStart)) (by simp) []
  rw [List.append_nil] at hread
  refine ⟨_, hr.compile ('^' :: _) hread, fun text hline => ?_⟩
  have hrun (place : Nat) (k : Pattern.After) : run (.whole text)
      (Tree.seqAll ((qs ++ [Piece.tree (.anchor .lineStart)]).reverse.map Piece.toTree)) (.fresh p.groupCount place) k =
        if place = 0 then run (.whole text) p.tree (.fresh p.groupCount place) k else none := by
    rw [List.reverse_append, List.reverse_singleton, List.singleton_append, List.map_cons, Piece.toTree,
      Pattern.run_lineStart hline, htree]
    rfl
  refine ⟨fun place => hrun place some, fun stop => ?_⟩
  unfold Pattern.Takes
  dsimp only
  rw [hrun, if_pos rfl]

/-- In front of the end of the line the one pattern matches behind the other. -/
theorem compile_beside_end (h : readsBeside front back = true) (hp : Pattern.compile (String.ofList front) = .ok p)
    (hq : Pattern.compile (String.ofList back) = .ok q) :
    ∃ r, Pattern.compile (String.ofList (wrap front ++ (wrap back ++ ['$']))) = .ok r ∧
      ∀ text : String, '\n' ∉ text.toList → ∀ start, (r.matchAt (.whole text) start).isSome = true ↔
        ∃ place, p.Takes (.whole text) start place ∧ q.Takes (.whole text) place text.toList.length := by
  obtain ⟨qs, r, hread, hr, hrow⟩ := readFrom_beside h hp hq .initial (by simp) ['$']
  refine ⟨_, (hr.push (.anchor .lineEnd)).compile _ hread, fun text hline start => ?_⟩
  rw [← hrow, Pattern.matchAt, List.append_nil, List.reverse_cons, List.map_append, List.map_singleton, Piece.toTree,
    Pattern.run_lineEnd hline]
  rfl

theorem compile_beside_start (h : readsBeside front back = true) (hp : Pattern.compile (String.ofList front) = .ok p)
    (hq : Pattern.compile (String.ofList back) = .ok q) :
    ∃ r, Pattern.compile (String.ofList ('^' :: (wrap front ++ wrap back))) = .ok r ∧
      ∀ text : String, '\n' ∉ text.toList → ∀ start, (r.matchAt (.whole text) start).isSome = true ↔
        start = 0 ∧ ∃ stop place, p.Takes (.whole text) 0 place ∧ q.Takes (.whole text) place stop := by
  obtain ⟨qs, r, hread, hr, hrow⟩ :=
    readFrom_beside h hp hq (Pattern.Reader.At.initial.push (.anchor .lineStart)) (by simp) []
  rw [List.append_nil] at hread
  refine ⟨_, hr.compile ('^' :: _) hread, fun text hline start => ?_⟩
  rw [Pattern.matchAt, List.reverse_append, List.reverse_singleton, List.singleton_append, List.map_cons, Piece.toTree,
    Pattern.run_lineStart hline]
  by_cases hstart : start = 0
  · subst hstart
    simp only [← hrow, ← Pattern.isSome_run_some, true_and]
    rfl
  · simp [Progress.fresh, hstart]

theorem exists_compile (h : isUnit cs = true) : ∃ p, Pattern.compile (String.ofList cs) = .ok p := by
  obtain ⟨hok, -⟩ := Bool.and_eq_true_iff.mp (Bool.and_eq_true_iff.mp h).1
  cases hp : Pattern.compile (String.ofList cs) with
  | error e => rw [hp] at hok; cases hok
  | ok p => exact ⟨p, rfl⟩

end

section
variable {trigger : List Char} {q : Pattern}

/-- Where it has to reach the end of the line, an end of its own makes no difference to a trigger. -/
theorem exists_withoutEnd (h : isUnit (withoutEnd trigger) = true)
    (hq : Pattern.compile (String.ofList trigger) = .ok q) :
    ∃ q', Pattern.compile (String.ofList (withoutEnd trigger)) = .ok q' ∧
      ∀ text : String, '\n' ∉ text.toList → ∀ place,
        q.Takes (.whole text) place text.toList.length ↔ q'.Takes (.whole text) place text.toList.length := by
  obtain ⟨q', hq'⟩ := exists_compile h
  refine ⟨q', hq', fun text hline place => ?_⟩
  rcases wrap_withoutEnd trigger with ⟨htext, -⟩ | hwithout
  · obtain ⟨r, hr, hmatch⟩ := compile_end h hq'
    rw [← htext] at hr
    cases hr.symm.trans hq
    exact (hmatch text hline place).2
  · rw [hwithout] at hq'
    cases hq'.symm.trans hq
    rfl

/-- Where it begins with the line, a start of its own makes no difference to a trigger. -/
theorem exists_withoutStart (h : isUnit (withoutStart trigger) = true)
    (hq : Pattern.compile (String.ofList trigger) = .ok q) :
    ∃ q', Pattern.compile (String.ofList (withoutStart trigger)) = .ok q' ∧
      ∀ text : String, '\n' ∉ text.toList → q.matchAt (.whole text) 0 = q'.matchAt (.whole text) 0 ∧
        ∀ stop, q.Takes (.whole text) 0 stop ↔ q'.Takes (.whole text) 0 stop := by
  obtain ⟨q', hq'⟩ := exists_compile h
  refine ⟨q', hq', fun text hline => ?_⟩
  have hsame (hwithout : withoutStart trigger = trigger) : q' = q := by
    rw [hwithout] at hq'
    cases hq'.symm.trans hq
    rfl
  by_cases hnil : trigger = []
  · rw [hsame (by rw [hnil]; rfl)]
    exact ⟨rfl, fun _ => .rfl⟩
  rcases wrap_withoutStart hnil with ⟨htext, -⟩ | ⟨hwithout, -⟩
  · obtain ⟨r, hr, hmatch⟩ := compile_start h hq'
    rw [← htext] at hr
    cases hr.symm.trans hq
    obtain ⟨hplace, hstop⟩ := hmatch text hline
    exact ⟨(hplace 0).trans (if_pos rfl), hstop⟩
  · rw [hsame hwithout]
    exact ⟨rfl, fun _ => .rfl⟩

end

end Trigger

end Scribe
