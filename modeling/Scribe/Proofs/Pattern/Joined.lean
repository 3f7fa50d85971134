import Scribe.Proofs.Pattern.Simulation

/-!
# Patterns in a union

Every rule of a union is read in the joined pattern as it is read by itself, if moving its numbers has
changed those of its references and nothing else.
-/

namespace Scribe

def RulePattern.readings (rule : RulePattern) : List Pattern.Reading :=
  Pattern.readings (Pattern.Reader.initial { caseless := rule.caseless }) 0 rule.source.toList

/-- Whether moving the numbers in the rule behind `w` groups, which goes by characters, does what its
lexemes ask for, and each of them means the same there. -/
def RulePattern.movesWell (rule : RulePattern) (w : Nat) : Bool :=
  PatternUnion.moveRefs w false false rule.source.toList = rule.readings.flatMap (·.moved w) &&
    rule.readings.all (·.movable w)

namespace PatternUnion

/-- Whether the numbers in the rules are moved well, up to one that does not compile. The group around the
first rule is `w`. -/
def allMoveWell (w : Nat) : List RulePattern → Bool
  | [] => true
  | rule :: rest =>
    match Pattern.compile rule.source rule.caseless with
    | .ok p => rule.movesWell w && allMoveWell (w + p.groupCount + 1) rest
    | .error _ => true

/-! ## Reading one rule -/

open Pattern

theorem length_of_movesWell {rule : RulePattern} {w : Nat} (hm : rule.movesWell w) :
    ∀ x ∈ rule.readings, x.text.length = x.used + 1 := fun x hx =>
  of_decide_eq_true (Bool.and_eq_true_iff.mp (List.all_eq_true.mp (Bool.and_eq_true_iff.mp hm).2 x hx)).1

/-- A rule that compiles is made up of its readings, unless a comment is cut off. -/
theorem exists_reads {rule : RulePattern} {p : Pattern}
    (hp : Pattern.compile rule.source rule.caseless = .ok p) (hx : ∀ x ∈ rule.readings, x.text.length = x.used + 1) :
    ∃ u, Reads (Reader.initial { caseless := rule.caseless }) rule.source.toList rule.readings u ∧
      Reader.finishFrom u.inner u.outer = .ok p.tree ∧ u.largestRef ≤ u.groupCount ∧ u.groupCount = p.groupCount := by
  obtain ⟨⟨t, count⟩, hread, hp⟩ := bind_eq_ok.mp hp
  cases hp
  obtain ⟨u, hu, hread⟩ := bind_eq_ok.mp hread
  obtain ⟨t', hfinish, hread⟩ := bind_eq_ok.mp hread
  cases hread
  obtain ⟨t'', hfinish, hlast⟩ := bind_eq_ok.mp hfinish
  have hreads := reads_readings hu hx
  dsimp only at hlast
  split at hlast
  · cases hlast
  · rename_i hle
    cases hlast
    exact ⟨u, hreads, hfinish, Nat.le_of_not_lt hle, rfl⟩

/-- A rule without a number after a backslash is moved well, unless it names groups by number elsewhere. -/
theorem movesWell_of_hasNumber {rule : RulePattern} {p : Pattern}
    (hp : Pattern.compile rule.source rule.caseless = .ok p) (hn : hasNumber rule.source.toList = false)
    (hx : ∀ x ∈ rule.readings, x.text.length = x.used + 1 ∧ x.lexeme.isAbsolute = false) (w : Nat) :
    rule.movesWell w := by
  obtain ⟨u, hreads, -⟩ := exists_reads hp fun x hr => (hx x hr).1
  obtain ⟨htext, hall⟩ := hreads.moved_eq (w := w) hn fun x hr => (hx x hr).2
  rw [RulePattern.movesWell, htext, moveRefs_of_hasNumber hn, decide_eq_true rfl, List.all_eq_true.mpr hall]
  rfl

theorem allMoveWell_of_hasNumber {rules : List RulePattern}
    (h : ∀ rule ∈ rules, hasNumber rule.source.toList = false ∧
      ∀ x ∈ rule.readings, x.text.length = x.used + 1 ∧ x.lexeme.isAbsolute = false) (w : Nat) :
    allMoveWell w rules := by
  induction rules generalizing w with
  | nil => rfl
  | cons rule rules ih =>
    obtain ⟨hn, hx⟩ := h rule (.head _)
    rw [allMoveWell]
    split
    · rename_i p hp
      exact Bool.and_eq_true_iff.mpr ⟨movesWell_of_hasNumber hp hn hx w, ih (fun r hr => h r (.tail _ hr)) _⟩
    · rfl

/-- The reader of a joined pattern in front of a rule: `w` is the number of the group that comes next. -/
structure Between (w : Nat) (r : Reader) : Prop where
  flags : r.flags = {}
  outer : r.outer = []
  kind : r.inner.kind = .frame .plain
  pieces : r.inner.pieces = []
  groupCount : r.groupCount + 1 = w
  names : r.NamesGroups
  largestRef : r.largestRef ≤ r.groupCount

/-- The reader behind a rule that has become the tree `t`. -/
structure Behind (w : Nat) (r : Reader) (t : Tree) (r' : Reader) : Prop where
  flags : r'.flags = {}
  outer : r'.outer = []
  inner : r'.inner = r.inner.push t
  groupCount : r'.groupCount + 1 = w
  names : r'.NamesGroups
  largestRef : r'.largestRef ≤ r'.groupCount

section
variable {rule : RulePattern} {p : Pattern} {w : Nat} {r : Reader}

theorem head?_ne_of_reads {u : Reader} {cs : List Char} {xs : List Reading} {flags : Flags}
    (h : Reads (Reader.initial flags) cs xs u) : cs.head? ≠ some '?' := by
  intro hc
  cases h with
  | nil => cases hc
  | @cons _ _ _ c t rest x xs hscan htake _ =>
    cases hc
    have hx := (Prod.mk.inj (Except.ok.inj hscan)).1
    subst hx
    -- such a character is a quantifier, and there is nothing yet to repeat
    have hnothing (q : Quantifier) : (Reader.initial flags).quantify q = .error .nothingToRepeat := by
      unfold Reader.quantify
      split <;> rfl
    exact nomatch (hnothing _).symm.trans htake

theorem readFrom_open {cs : List Char} (h : cs.head? ≠ some '?') :
    readFrom r 0 ('(' :: cs) = readFrom (r.openCapture none) 0 cs := by
  refine readFrom_of_scan (t := []) (x := .capture none) ?_ rfl
  refine scanOpening.eq_2 _ _ fun rest hrest => h ?_
  have hcs : cs = '?' :: rest := hrest
  rw [hcs]
  rfl

theorem readFrom_close {cs : List Char} {flags : Flags} {inner : OpenGroup} {outer : List OpenGroup}
    (h : Reader.closeFrom r.inner r.outer = .ok (flags, inner, outer)) :
    readFrom r 0 (')' :: cs) = readFrom { r with flags, inner, outer } 0 cs :=
  readFrom_of_scan (t := []) rfl (bind_eq_ok.mpr ⟨_, h, rfl⟩)

theorem readFrom_rule {b : OpenGroup} {below : List OpenGroup} {r' : Reader} {wrap : Tree → Tree} (rest : List Char)
    (hp : Pattern.compile rule.source rule.caseless = .ok p) (hm : rule.movesWell w) (hw : 0 < w)
    (hwrap : ∀ k : OpenGroup, k.kind = r'.inner.kind → k.close = .ok (wrap (Tree.altAll k.alternatives)))
    (hopt : r'.inner.kind ≠ .frame .options)
    (h : Reader.Moved w p.groupCount r'.inner (b :: below) r'.names (Reader.initial { caseless := rule.caseless }) r') :
    ∃ t' u', p.tree.Moved w p.groupCount t' ∧
      readFrom r' 0 (moveRefs w false false rule.source.toList ++ ')' :: rest) = readFrom u' 0 rest ∧
      u'.flags = r'.inner.outerFlags ∧ u'.inner = b.push (wrap t') ∧ u'.outer = below ∧
      u'.groupCount = p.groupCount + w ∧ u'.NamesGroups ∧ u'.largestRef ≤ u'.groupCount := by
  obtain ⟨u, hreads, hfinish, hlast, hcount⟩ := exists_reads hp (length_of_movesWell hm)
  obtain ⟨htext, hall⟩ := Bool.and_eq_true_iff.mp hm
  obtain ⟨u', hread, hu'⟩ := h.readFrom_moved hreads hw (Nat.le_of_eq hcount) (List.all_eq_true.mp hall)
    (')' :: rest) fun c hc => by cases hc; rfl
  obtain ⟨t', ht', hclose⟩ := hu'.stack.finishFrom hopt hwrap hfinish
  have hgroups := hu'.groupCount
  refine ⟨t', { u' with flags := r'.inner.outerFlags, inner := b.push (wrap t'), outer := below }, ht', ?_,
    rfl, rfl, rfl, hgroups.trans (by rw [hcount]), fun q hq => ?_, ?_⟩
  · rw [of_decide_eq_true htext, hread, readFrom_close hclose]
  · have hnames : q ∈ u.names.map (fun p => (p.1, p.2 + w)) ++ r'.names := hu'.names ▸ hq
    show q.2 ≤ u'.groupCount
    rcases List.mem_append.mp hnames with hq | hq
    · obtain ⟨q', hq', rfl⟩ := List.mem_map.mp hq
      have := hreads.namesGroups (fun _ h => nomatch h) q' hq'
      dsimp only
      omega
    · have := hu'.inFront q hq
      omega
  · have := hu'.largestRef
    show u'.largestRef ≤ u'.groupCount
    omega

theorem head?_moveRefs (w : Nat) (inClass : Bool) (cs : List Char) :
    (moveRefs w inClass false cs).head? = cs.head? := by
  unfold moveRefs
  split
  · rfl
  · split <;> rfl
  · rfl

theorem head?_ne_of_compile (hp : Pattern.compile rule.source rule.caseless = .ok p) (hm : rule.movesWell w)
    (rest : List Char) : (moveRefs w false false rule.source.toList ++ ')' :: rest).head? ≠ some '?' := by
  obtain ⟨u, hreads, -⟩ := exists_reads hp (length_of_movesWell hm)
  have hne := head?_ne_of_reads hreads
  rw [← head?_moveRefs w false] at hne
  cases hbody : moveRefs w false false rule.source.toList with
  | nil => exact fun h => nomatch h
  | cons c body => rwa [hbody] at hne

theorem Between.moved_openCapture (hr : Between w r) (n : Nat) :
    Reader.Moved w n (r.openCapture none).inner [r.inner] r.names (Reader.initial {}) (r.openCapture none) where
  flags := hr.flags
  stack := by
    have houter : (r.openCapture none).outer = [r.inner] := congrArg (r.inner :: ·) hr.outer
    rw [houter]
    exact .bottom rfl rfl rfl ⟨.nil, .nil⟩
  groupCount := hr.groupCount.trans (Nat.zero_add w).symm
  names := rfl
  inFront q hq := by
    have := hr.names q hq
    have := hr.groupCount
    omega
  largestRef := by
    have := hr.largestRef
    have := hr.groupCount
    show r.largestRef ≤ 0 + w
    omega

theorem readFrom_alternative (rest : List Char)
    (hp : Pattern.compile rule.source rule.caseless = .ok p) (hm : rule.movesWell w) (hr : Between w r) :
    ∃ t' r', p.tree.Moved w p.groupCount t' ∧
      readFrom r 0 (alternative rule w ++ rest) = readFrom r' 0 rest ∧
      Behind (w + p.groupCount + 1) r (.group w t') r' := by
  have hw : 0 < w := by have := hr.groupCount; omega
  have hopen := hr.moved_openCapture p.groupCount
  have hkind (k : OpenGroup) (hk : k.kind = (r.openCapture none).inner.kind) :
      k.close = .ok (.group w (Tree.altAll k.alternatives)) := by
    have hk : k.kind = .capture w := by rw [← hr.groupCount]; exact hk
    simp only [OpenGroup.close, hk]
  cases hc : rule.caseless with
  | false =>
    obtain ⟨t', u', ht', hread, hflags, hinner, houter, hcount, hnames, href⟩ :=
      readFrom_rule rest hp hm hw hkind (by rintro ⟨⟩) (by rw [hc]; exact hopen)
    refine ⟨t', u', ht', ?_, hflags.trans hr.flags, houter, hinner, by rw [hcount]; omega, hnames, href⟩
    have htext : alternative rule w ++ rest =
        '(' :: (moveRefs w false false rule.source.toList ++ ')' :: rest) := by
      simp [alternative, hc]
    rw [htext]
    exact (readFrom_open (head?_ne_of_compile hp hm rest)).trans hread
  | true =>
    let r₁ := r.openCapture none
    let r₂ := r₁.openGroup (.frame .plain) { caseless := true }
    have hopen₂ : Reader.Moved w p.groupCount r₂.inner [r₁.inner, r.inner] r.names
        (Reader.initial { caseless := true }) r₂ :=
      { hopen with
        flags := rfl
        stack := by
          have houter : r₂.outer = [r₁.inner, r.inner] := congrArg (r₁.inner :: r.inner :: ·) hr.outer
          rw [houter]
          exact .bottom rfl rfl rfl ⟨.nil, .nil⟩ }
    have hkind₂ (k : OpenGroup) (hk : k.kind = r₂.inner.kind) : k.close = .ok (id (Tree.altAll k.alternatives)) := by
      have hk : k.kind = .frame .plain := hk
      simp only [OpenGroup.close, hk, id]
    have hopt : r₂.inner.kind ≠ .frame .options := by rintro ⟨⟩
    obtain ⟨t', u', ht', hread, hflags, hinner, houter, hcount, hnames, href⟩ :=
      readFrom_rule (')' :: rest) hp hm hw hkind₂ hopt (by rw [hc]; exact hopen₂)
    have hclose : Reader.closeFrom u'.inner u'.outer = .ok (r.flags, r.inner.push (.group w t'), []) := by
      rw [hinner, houter]
      simp only [Reader.closeFrom, hkind (r₁.inner.push (id t')) rfl]
      rfl
    refine ⟨t', { u' with flags := r.flags, inner := r.inner.push (.group w t'), outer := [] }, ht', ?_,
      hr.flags, rfl, rfl, ?_, hnames, href⟩
    · have htext : alternative rule w ++ rest =
          '(' :: ('(' :: (['?', 'i', ':'] ++ (moveRefs w false false rule.source.toList ++ ')' :: ')' :: rest))) := by
        simp [alternative, hc]
      have hscan (cs : List Char) : scan r₁.flags r₁.groupCount '(' (['?', 'i', ':'] ++ cs) =
          .ok (.opening .plain { caseless := true }, ['?', 'i', ':'].length) := by
        have hflags : r₁.flags = {} := hr.flags
        rw [hflags]
        rfl
      have hne (cs : List Char) : ('(' :: cs).head? ≠ some '?' := fun h => absurd (Option.some.inj h) (by decide)
      rw [htext, readFrom_open (hne _), readFrom_of_scan (hscan _) rfl]
      exact hread.trans (readFrom_close hclose)
    · show u'.groupCount + 1 = _
      rw [hcount]
      omega

end

/-! ## Reading all rules -/

/-- What has become of the rules in the joined pattern: the group around each of them, and how many groups
it has itself. `w` is the number of the first group, `last` that of the last one. -/
inductive Joined (last : Nat) : Nat → List RulePattern → List UnionSlot → List Tree → Prop
  | nil {w : Nat} (hw : last + 1 = w) : Joined last w [] [] []
  | cons {w : Nat} {rule : RulePattern} {rules : List RulePattern} {slots : List UnionSlot} {ts : List Tree}
      {p : Pattern} {t : Tree} (hp : Pattern.compile rule.source rule.caseless = .ok p)
      (ht : p.tree.Moved w p.groupCount t) (h : Joined last (w + p.groupCount + 1) rules slots ts) :
      Joined last w (rule :: rules) (⟨w, p.groupCount⟩ :: slots) (.group w t :: ts)

theorem Behind.finish {w : Nat} {r r' : Reader} {t : Tree} (h : Behind w r t r') (hk : r.inner.kind = .frame .plain)
    (hp : r.inner.pieces = []) : r'.finish = .ok (Tree.altAll (r.inner.branches.reverse ++ [t])) := by
  have hclose : (r.inner.push t).close = .ok (Tree.altAll (r.inner.branches.reverse ++ [t])) := by
    simp only [OpenGroup.close, OpenGroup.alternatives, OpenGroup.branch, OpenGroup.push, hp, hk, List.reverse_cons]
    rfl
  have href := h.largestRef
  simp only [Reader.finish, h.inner, h.outer, Reader.finishFrom, hclose, bind, Except.bind]
  rw [if_neg (by omega)]
  rfl

theorem Behind.between {w : Nat} {r r' : Reader} {t : Tree} (h : Behind w r t r') (hk : r.inner.kind = .frame .plain) :
    Between w { r' with inner := r'.inner.endBranch } where
  flags := h.flags
  outer := h.outer
  kind := by
    show r'.inner.kind = _
    rw [h.inner]
    exact hk
  pieces := rfl
  groupCount := h.groupCount
  names := h.names
  largestRef := h.largestRef

theorem collect_cons {rules : List RulePattern} {rule : RulePattern} {index w : Nat} {slots : List UnionSlot}
    {alternatives : List (List Char)} (hc : collect index w (rule :: rules) = .ok (slots, alternatives)) :
    ∃ p slots' alternatives', Pattern.compile rule.source rule.caseless = .ok p ∧
      collect (index + 1) (w + p.groupCount + 1) rules = .ok (slots', alternatives') ∧
      slots = ⟨w, p.groupCount⟩ :: slots' ∧ alternatives = alternative rule w :: alternatives' := by
  unfold collect at hc
  split at hc
  · cases hc
  · rename_i p hp
    split at hc
    · cases hc
    · rename_i slots' alternatives' hc'
      cases hc
      exact ⟨p, slots', alternatives', hp, hc', rfl, rfl⟩

theorem readFrom_alternatives {rules : List RulePattern} {rule : RulePattern} {index w : Nat}
    {slots : List UnionSlot} {alternatives : List (List Char)} {r : Reader}
    (hc : collect index w (rule :: rules) = .ok (slots, alternatives)) (hm : allMoveWell w (rule :: rules))
    (hr : Between w r) :
    ∃ ts r', Joined r'.groupCount w (rule :: rules) slots ts ∧
      readFrom r 0 (Text.joinWith ['|'] alternatives) = .ok r' ∧
      r'.finish = .ok (Tree.altAll (r.inner.branches.reverse ++ ts)) := by
  induction rules generalizing rule index w slots alternatives r with
  | nil =>
    obtain ⟨p, slots', alternatives', hp, hc', rfl, rfl⟩ := collect_cons hc
    cases hc'
    simp only [allMoveWell, hp] at hm
    obtain ⟨t, r', ht, hread, hbehind⟩ :=
      readFrom_alternative [] hp (Bool.and_eq_true_iff.mp hm).1 hr
    rw [List.append_nil] at hread
    exact ⟨_, r', .cons hp ht (.nil hbehind.groupCount), hread, hbehind.finish hr.kind hr.pieces⟩
  | cons rule' rules ih =>
    obtain ⟨p, slots', alternatives', hp, hc', rfl, rfl⟩ := collect_cons hc
    obtain ⟨-, -, alternatives'', -, -, -, rfl⟩ := collect_cons hc'
    simp only [allMoveWell, hp] at hm
    obtain ⟨hm₁, hm₂⟩ := Bool.and_eq_true_iff.mp hm
    obtain ⟨t, r', ht, hread, hbehind⟩ :=
      readFrom_alternative ('|' :: Text.joinWith ['|'] (alternative rule' _ :: alternatives'')) hp hm₁ hr
    -- the bar behind the rule ends its branch, and the rest is read from there
    obtain ⟨ts, r'', hjoined, hread', hfinish⟩ := ih hc' hm₂ (hbehind.between hr.kind)
    refine ⟨_, r'', .cons hp ht hjoined, ?_, ?_⟩
    · rw [Text.joinWith.eq_3 _ _ _ (List.cons_ne_nil _ _), List.append_assoc]
      refine hread.trans (Eq.trans ?_ hread')
      exact readFrom_of_scan (t := []) (x := .bar) rfl rfl
    · have hbranch : r'.inner.endBranch.branches = .group w t :: r.inner.branches := by
        rw [hbehind.inner]
        simp only [OpenGroup.endBranch, OpenGroup.branch, OpenGroup.push, hr.pieces]
        rfl
      rw [hfinish, hbranch, List.reverse_cons, List.append_assoc]
      rfl

theorem exists_collect {rules : List RulePattern}
    (hp : ∀ rule ∈ rules, ∃ p, Pattern.compile rule.source rule.caseless = .ok p) (index w : Nat) :
    ∃ slots alternatives, collect index w rules = .ok (slots, alternatives) := by
  induction rules generalizing index w with
  | nil => exact ⟨[], [], rfl⟩
  | cons rule rules ih =>
    obtain ⟨p, hrule⟩ := hp rule (.head _)
    obtain ⟨slots, alternatives, hrest⟩ :=
      ih (fun r hr => hp r (.tail _ hr)) (index + 1) (w + p.groupCount + 1)
    exact ⟨⟨w, p.groupCount⟩ :: slots, alternative rule w :: alternatives, by simp only [collect, hrule, hrest]⟩

/-- Rules that compile and whose numbers are moved well can be joined. -/
theorem exists_joined {rule : RulePattern} {rules : List RulePattern}
    (hp : ∀ r ∈ rule :: rules, ∃ p, Pattern.compile r.source r.caseless = .ok p)
    (hm : allMoveWell 1 (rule :: rules)) :
    ∃ slots p ts, compile (rule :: rules) = .ok ⟨slots, some p⟩ ∧ p.tree = Tree.altAll ts ∧
      Joined p.groupCount 1 (rule :: rules) slots ts := by
  obtain ⟨slots, alternatives, hc⟩ := exists_collect hp 0 1
  have hstart : Between 1 (Reader.initial {}) := ⟨rfl, rfl, rfl, rfl, rfl, fun _ h => (nomatch h), Nat.le_refl _⟩
  obtain ⟨ts, r, hjoined, hread, hfinish⟩ := readFrom_alternatives hc hm hstart
  have hcompile : ∃ p, Pattern.compile (String.ofList (Text.joinWith ['|'] alternatives)) = .ok p ∧
      p.tree = Tree.altAll ts ∧ p.groupCount = r.groupCount := by
    refine ⟨_, bind_eq_ok.mpr ⟨(Tree.altAll ts, r.groupCount), ?_, rfl⟩, rfl, rfl⟩
    rw [String.toList_ofList]
    exact bind_eq_ok.mpr ⟨r, hread, bind_eq_ok.mpr ⟨_, hfinish, rfl⟩⟩
  obtain ⟨p, hcompile, htree, hcount⟩ := hcompile
  refine ⟨slots, p, ts, ?_, htree, hcount ▸ hjoined⟩
  simp only [compile, hc, hcompile]
  rfl

end PatternUnion

end Scribe
