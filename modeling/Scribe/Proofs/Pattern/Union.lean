import Scribe.Proofs.Pattern.Joined
import Scribe.Proofs.Pattern.Search

/-!
# What a union finds

The rules of a union are tried one after the other at each place, and each of them goes through the text as it
does in its own pattern. So the union finds what the first rule that matches at the least place finds by itself.
-/

namespace Scribe

/-- The match of the rule by itself that begins at `place`; none if its pattern is wrong. -/
def RulePattern.matchAt (rule : RulePattern) (input : Pattern.Input) (place : Nat) : Option Pattern.Progress :=
  match Pattern.compile rule.source rule.caseless with
  | .ok p => p.matchAt input place
  | .error _ => none

def RulePattern.find? (rule : RulePattern) (text : Array Char) (start : Nat) : Option Match :=
  match Pattern.compile rule.source rule.caseless with
  | .ok p => p.find? text start
  | .error _ => none

namespace RulePattern

variable {rule : RulePattern} {p : Pattern} {text : Array Char} {start : Nat} {m : Match}

theorem matchAt_of_compile (hp : Pattern.compile rule.source rule.caseless = .ok p) (input : Pattern.Input)
    (place : Nat) : rule.matchAt input place = p.matchAt input place := by
  simp only [matchAt, hp]

theorem find?_of_compile (hp : Pattern.compile rule.source rule.caseless = .ok p) (text : Array Char) (start : Nat) :
    rule.find? text start = p.find? text start := by
  simp only [find?, hp]

theorem find?_eq_none_iff : rule.find? text start = none ↔
    ∀ place, start ≤ place → place ≤ text.size → rule.matchAt ⟨text, start⟩ place = none := by
  unfold find? matchAt
  split
  · exact Pattern.find?_eq_none_iff
  · exact iff_of_true rfl fun _ _ _ => rfl

theorem find?_eq_some_iff : rule.find? text start = some m ↔
    ∃ place r, start ≤ place ∧ place ≤ text.size ∧ rule.matchAt ⟨text, start⟩ place = some r ∧
      (∀ q, start ≤ q → q < place → rule.matchAt ⟨text, start⟩ q = none) ∧ r.report = m := by
  unfold find? matchAt
  split
  · exact Pattern.find?_eq_some_iff
  · exact iff_of_false (fun h => nomatch h) fun ⟨_, _, _, _, h, _⟩ => nomatch h

end RulePattern

namespace PatternUnion

open Pattern

/-! ## The group around a rule -/

section
variable {w n last place : Nat} {input : Input}

theorem moved_fresh (h : n + w ≤ last) : (Progress.fresh n place).Moved w n (.fresh last place) where
  pos := rfl
  start := rfl
  size := Array.size_replicate
  room := by
    show _ < (Array.replicate (last + 1) none).size
    rw [Array.size_replicate]
    omega
  groups i := by
    have hnone (m j : Nat) : (Progress.fresh m place).groups[j]?.join = none := by
      simp only [Progress.fresh, Array.getElem?_replicate]
      split <;> rfl
    rw [hnone, hnone]
  before i _ := by
    simp only [Progress.fresh, Array.getElem?_replicate]
    split <;> rfl

/-- The first match is the rule's own one, the second that of the group `w` around the rule. -/
structure Around (w n place : Nat) (own r : Progress) : Prop where
  pos : r.pos = own.pos
  start : r.start = own.start
  size : own.groups.size = n + 1
  room : n + w < r.groups.size
  wrapper : r.groups[w]? = some (some ⟨place, own.pos⟩)
  groups : ∀ i, 0 < i → r.groups[i + w]?.join = own.groups[i]?.join
  before : ∀ i < w, r.groups[i]?.join = none

theorem run_group_alike {t t' : Tree} (ht : t.Moved w n t') (h : n + w ≤ last) :
    Alike (Around w n place) (run input t (.fresh n place) some) (run input (.group w t') (.fresh last place) some) := by
  simp only [run]
  refine run_alike Progress.Moved.respects input ht (moved_fresh h) fun s s' hs => .some ?_
  have hroom := hs.room
  exact {
    pos := hs.pos
    start := hs.start
    size := hs.size
    room := by rw [Array.size_setIfInBounds]; exact hroom
    wrapper := by rw [Array.getElem?_setIfInBounds_self_of_lt (by omega), hs.pos]; rfl
    groups := fun i hi => by rw [Array.getElem?_setIfInBounds_ne (by omega), hs.groups]
    before := fun i hi => by rw [Array.getElem?_setIfInBounds_ne (by omega), hs.before i (by omega)] }

namespace Around

variable {own r : Progress}

theorem whole_report (h : Around w n place own r) : r.report.whole = own.report.whole := by
  simp only [Progress.report, h.pos, h.start]

theorem getElem?_groups (h : Around w n place own r) {i : Nat} (hi : 0 < i) (hn : i ≤ n) :
    r.groups[i + w]? = own.groups[i]? := by
  have hsize := h.size
  have hroom := h.room
  have hjoin := h.groups i hi
  rw [Array.getElem?_eq_getElem (by omega), Array.getElem?_eq_getElem (by omega)] at hjoin ⊢
  exact congrArg some hjoin

theorem getElem?_spans (r : Progress) {i : Nat} (hi : 0 < i) : r.report.spans[i]? = r.groups[i]? := by
  obtain ⟨j, rfl⟩ := Nat.exists_eq_succ_of_ne_zero (Nat.ne_of_gt hi)
  simp only [Match.spans, Progress.report, List.getElem?_cons_succ, List.getElem?_drop, Array.getElem?_toList]
  rw [Nat.add_comm]

theorem spans_report (h : Around w n place own r) (hw : 0 < w) :
    (r.report.spans.drop w).take (n + 1) = some ⟨place, own.pos⟩ :: own.report.groups := by
  refine List.ext_getElem? fun i => ?_
  rw [List.getElem?_take, List.getElem?_drop]
  have hsize := h.size
  cases i with
  | zero =>
    rw [if_pos (Nat.succ_pos n), Nat.add_zero, getElem?_spans r hw, h.wrapper]
    rfl
  | succ i =>
    rw [getElem?_spans r (by omega), List.getElem?_cons_succ]
    have hown : own.report.groups[i]? = own.groups[i + 1]? := getElem?_spans own (Nat.succ_pos i)
    rw [hown]
    split
    · rw [Nat.add_comm w, h.getElem?_groups (Nat.succ_pos i) (by omega)]
    · exact (Array.getElem?_eq_none (by omega)).symm

end Around

end

/-! ## Trying the rules -/

theorem run_altAll {input : Input} {s : Progress} {k : After} : ∀ {ts : List Tree}, ts ≠ [] →
    run input (Tree.altAll ts) s k = ts.findSome? fun t => run input t s k
  | [], h => absurd rfl h
  | [t], _ => by
    rw [List.findSome?_cons]
    show run input t s k = _
    cases run input t s k <;> rfl
  | t :: t' :: ts, _ => by
    rw [List.findSome?_cons, ← run_altAll (List.cons_ne_nil t' ts)]
    show orElse (run input t s k) _ = _
    cases run input t s k <;> rfl

theorem Joined.le {last w : Nat} {rules : List RulePattern} {slots : List UnionSlot} {ts : List Tree}
    (h : Joined last w rules slots ts) : w ≤ last + 1 := by
  induction h with
  | nil hw => omega
  | cons _ _ _ ih => omega

/-- The `i`-th of the rules is the first one that matches at the place, as `own`, and `r` is its match in the
joined pattern. -/
structure Picked (input : Input) (place w : Nat) (rules : List RulePattern) (slots : List UnionSlot) (i : Nat)
    (slot : UnionSlot) (rule : RulePattern) (own r : Progress) : Prop where
  getElem : rules[i]? = some rule
  hit : rule.matchAt input place = some own
  around : Around slot.wrapper slot.groupCount place own r
  least : w ≤ slot.wrapper
  finds : ∀ index, findSlot r.report.spans index slots = some (index + i, slot)
  before : ∀ other ∈ rules.take i, other.matchAt input place = none

/-- The joined pattern tries the rules in their order. -/
theorem Joined.findSome? {last w : Nat} {rules : List RulePattern} {slots : List UnionSlot} {ts : List Tree}
    (h : Joined last w rules slots ts) (hw : 0 < w) (input : Input) (place : Nat) :
    ((ts.findSome? fun t => run input t (.fresh last place) some) = none ∧
      ∀ rule ∈ rules, rule.matchAt input place = none) ∨
    ∃ i slot rule own r, (ts.findSome? fun t => run input t (.fresh last place) some) = some r ∧
      Picked input place w rules slots i slot rule own r := by
  induction h with
  | nil => exact .inl ⟨rfl, fun _ h => nomatch h⟩
  | @cons w rule rules slots ts p t hp ht h ih =>
    have hle := h.le
    have halike : Alike (Around w p.groupCount place) (p.matchAt input place)
        (run input (.group w t) (.fresh last place) some) := run_group_alike ht (by omega)
    have hown := RulePattern.matchAt_of_compile hp input place
    rw [List.findSome?_cons]
    generalize p.matchAt input place = a, run input (.group w t) (.fresh last place) some = b at hown halike
    cases halike with
    | @some own r haround =>
      refine .inr ⟨0, ⟨w, p.groupCount⟩, rule, own, r, rfl, rfl, hown, haround, Nat.le_refl w, fun index => ?_,
        fun _ h => nomatch h⟩
      rw [findSlot, if_pos]
      · rfl
      · rw [Around.getElem?_spans r hw, haround.wrapper]
        rfl
    | none =>
      rcases ih (by omega) with ⟨hnone, hrules⟩ | ⟨i, slot, rule', own, r, hsome, hpicked⟩
      · exact .inl ⟨hnone, List.forall_mem_cons.mpr ⟨hown, hrules⟩⟩
      · have hleast := hpicked.least
        refine .inr ⟨i + 1, slot, rule', own, r, hsome, hpicked.getElem, hpicked.hit, hpicked.around, by omega,
          fun index => ?_, List.forall_mem_cons.mpr ⟨hown, hpicked.before⟩⟩
        -- the group around the first rule lies below that of the one picked, so it has not taken part
        rw [findSlot, if_neg, hpicked.finds, Nat.add_right_comm, Nat.add_assoc]
        rw [Around.getElem?_spans r hw, hpicked.around.before w (by omega)]
        exact Bool.false_ne_true

/-! ## Searching -/

/-- What the union has found is a match of the rule by itself, `own`, which begins at `place`. No rule matches
before that, and there none of those in front of the rule. -/
structure Found (rules : List RulePattern) (text : Array Char) (start : Nat) (m : UnionMatch) (place : Nat)
    (rule : RulePattern) (own : Progress) : Prop where
  getElem : rules[m.rule]? = some rule
  hit : rule.matchAt ⟨text, start⟩ place = some own
  begins : start ≤ place
  inside : place ≤ text.size
  whole : m.whole = own.report.whole
  spans : m.spans = some ⟨place, own.pos⟩ :: own.report.groups
  earlier : ∀ other ∈ rules, ∀ q, start ≤ q → q < place → other.matchAt ⟨text, start⟩ q = none
  before : ∀ other ∈ rules.take m.rule, other.matchAt ⟨text, start⟩ place = none

def TriesEach (u : PatternUnion) (rules : List RulePattern) : Prop :=
  ∀ text start, (u.find? text start = none ∧ ∀ rule ∈ rules, rule.find? text start = none) ∨
    ∃ m place rule own, u.find? text start = some m ∧ Found rules text start m place rule own

variable {rules : List RulePattern} {text : Array Char} {start : Nat}

theorem Joined.triesEach {p : Pattern} {slots : List UnionSlot} {ts : List Tree} (htree : p.tree = Tree.altAll ts)
    (hts : ts ≠ []) (h : Joined p.groupCount 1 rules slots ts) : TriesEach ⟨slots, some p⟩ rules := by
  intro text start
  have hat (place : Nat) : p.matchAt ⟨text, start⟩ place =
      ts.findSome? fun t => run ⟨text, start⟩ t (.fresh p.groupCount place) some := by
    rw [Pattern.matchAt, htree, run_altAll hts]
  have hnone {place : Nat} (hplace : p.matchAt ⟨text, start⟩ place = none) :
      ∀ rule ∈ rules, rule.matchAt ⟨text, start⟩ place = none := by
    rcases h.findSome? Nat.one_pos ⟨text, start⟩ place with ⟨-, hrules⟩ | ⟨_, _, _, _, r, hsome, -⟩
    · exact hrules
    · cases hplace.symm.trans ((hat place).trans hsome)
  cases hfind : p.find? text start with
  | none =>
    refine .inl ⟨by simp [PatternUnion.find?, hfind], fun rule hrule => ?_⟩
    exact RulePattern.find?_eq_none_iff.mpr fun place h₁ h₂ =>
      hnone (Pattern.find?_eq_none_iff.mp hfind place h₁ h₂) rule hrule
  | some found =>
    obtain ⟨place, r, hbegins, hinside, hr, hearlier, rfl⟩ := Pattern.find?_eq_some_iff.mp hfind
    rcases h.findSome? Nat.one_pos ⟨text, start⟩ place with ⟨hmiss, -⟩ | ⟨i, slot, rule, own, r', hsome, hpicked⟩
    · cases hr.symm.trans ((hat place).trans hmiss)
    · cases Option.some.inj (hr.symm.trans ((hat place).trans hsome))
      refine .inr ⟨⟨i, r.report.whole, (r.report.spans.drop slot.wrapper).take (slot.groupCount + 1)⟩, place, rule, own,
        ?_, ?_⟩
      · simp [PatternUnion.find?, hfind, hpicked.finds]
      · exact {
          getElem := hpicked.getElem
          hit := hpicked.hit
          begins := hbegins
          inside := hinside
          whole := hpicked.around.whole_report
          spans := hpicked.around.spans_report hpicked.least
          earlier := fun other hother q h₁ h₂ => hnone (hearlier q h₁ h₂) other hother
          before := hpicked.before }

/-- Rules whose numbers are moved well can be joined, and a search for the union tries them one by one. -/
theorem exists_triesEach (hp : ∀ rule ∈ rules, ∃ p, Pattern.compile rule.source rule.caseless = .ok p)
    (hm : allMoveWell 1 rules) : ∃ u, compile rules = .ok u ∧ u.TriesEach rules := by
  cases rules with
  | nil => exact ⟨⟨[], none⟩, rfl, fun text start => .inl ⟨rfl, fun _ h => nomatch h⟩⟩
  | cons rule rules =>
    obtain ⟨slots, p, ts, hcompile, htree, hjoined⟩ := exists_joined hp hm
    have hts : ts ≠ [] := by cases hjoined; exact List.cons_ne_nil _ _
    exact ⟨_, hcompile, hjoined.triesEach htree hts⟩

namespace Found

variable {m : UnionMatch} {place : Nat} {rule : RulePattern} {own : Progress}

theorem mem (h : Found rules text start m place rule own) : rule ∈ rules := List.mem_of_getElem? h.getElem

theorem find?_eq (h : Found rules text start m place rule own) : rule.find? text start = some own.report :=
  RulePattern.find?_eq_some_iff.mpr ⟨place, own, h.begins, h.inside, h.hit, h.earlier rule h.mem, rfl⟩

theorem tail_spans (h : Found rules text start m place rule own) : m.spans.tail = own.report.groups := by
  rw [h.spans]
  rfl

variable {p : Pattern}

theorem start_eq (h : Found rules text start m place rule own)
    (hp : Pattern.compile rule.source rule.caseless = .ok p) (hkeep : p.tree.hasKeep = false) :
    own.report.whole.start = place :=
  start_report hkeep h.inside ((RulePattern.matchAt_of_compile hp _ _).symm.trans h.hit)

theorem spans_eq (h : Found rules text start m place rule own)
    (hp : Pattern.compile rule.source rule.caseless = .ok p) (hkeep : p.tree.hasKeep = false) :
    m.spans = own.report.spans := by
  rw [h.spans, ← h.start_eq hp hkeep]
  rfl

theorem least (h : Found rules text start m place rule own) {i : Nat} {other : RulePattern} {found : Match}
    (hi : rules[i]? = some other) (hp : Pattern.compile other.source other.caseless = .ok p)
    (hkeep : p.tree.hasKeep = false) (hfound : other.find? text start = some found) :
    place < found.whole.start ∨ place = found.whole.start ∧ m.rule ≤ i := by
  obtain ⟨q, r, hbegins, hinside, hr, -, rfl⟩ := RulePattern.find?_eq_some_iff.mp hfound
  rw [start_report hkeep hinside ((RulePattern.matchAt_of_compile hp _ _).symm.trans hr)]
  rcases Nat.lt_trichotomy place q with hlt | rfl | hgt
  · exact .inl hlt
  · refine .inr ⟨rfl, Nat.le_of_not_lt fun hlt => ?_⟩
    have hmem : other ∈ rules.take m.rule := List.mem_of_getElem? ((List.getElem?_take_of_lt hlt).trans hi)
    exact nomatch (h.before other hmem).symm.trans hr
  · exact nomatch (h.earlier other (List.mem_of_getElem? hi) q hbegins hgt).symm.trans hr

end Found

namespace TriesEach

variable {u : PatternUnion} {m : UnionMatch}

theorem find?_eq_none_iff (h : u.TriesEach rules) :
    u.find? text start = none ↔ ∀ rule ∈ rules, rule.find? text start = none := by
  rcases h text start with ⟨hnone, hrules⟩ | ⟨m, place, rule, own, hsome, hfound⟩
  · exact iff_of_true hnone hrules
  · rw [hsome]
    exact iff_of_false (fun h => nomatch h) fun hrules => nomatch (hrules rule hfound.mem).symm.trans hfound.find?_eq

theorem found (h : u.TriesEach rules) (hm : u.find? text start = some m) :
    ∃ place rule own, Found rules text start m place rule own := by
  rcases h text start with ⟨hnone, -⟩ | ⟨m', place, rule, own, hsome, hfound⟩
  · cases hnone.symm.trans hm
  · cases hsome.symm.trans hm
    exact ⟨place, rule, own, hfound⟩

end TriesEach

/-- Searching for the union is searching for the rules one by one: what it finds has the least start of all that
the rules find by themselves, and it is what the first rule with this start finds. -/
theorem find?_eq_least (hp : ∀ rule ∈ rules, ∃ p, Pattern.compile rule.source rule.caseless = .ok p ∧
      p.tree.hasKeep = false) (hm : allMoveWell 1 rules) :
    ∃ u, compile rules = .ok u ∧ ∀ text start,
      (u.find? text start = none ↔ ∀ rule ∈ rules, rule.find? text start = none) ∧
      ∀ m, u.find? text start = some m →
        (∃ rule own, rules[m.rule]? = some rule ∧ rule.find? text start = some own ∧ m.whole = own.whole ∧
          m.spans = own.spans) ∧
        ∀ i other found, rules[i]? = some other → other.find? text start = some found →
          m.whole.start < found.whole.start ∨ m.whole.start = found.whole.start ∧ m.rule ≤ i := by
  obtain ⟨u, hu, htries⟩ := exists_triesEach (fun rule hr => (hp rule hr).imp fun _ h => h.1) hm
  refine ⟨u, hu, fun text start => ⟨htries.find?_eq_none_iff, fun m hsome => ?_⟩⟩
  obtain ⟨place, rule, own, h⟩ := htries.found hsome
  obtain ⟨p, hrule, hkeep⟩ := hp rule h.mem
  refine ⟨⟨rule, _, h.getElem, h.find?_eq, h.whole, h.spans_eq hrule hkeep⟩, ?_⟩
  intro i other found hi hfound
  obtain ⟨q, hother, hkeep'⟩ := hp other (List.mem_of_getElem? hi)
  rw [h.whole, h.start_eq hrule hkeep]
  exact h.least hi hother hkeep' hfound

def literals : List RulePattern := [⟨"(\\d)(x)?", true⟩, ⟨"(['\"]).*?\\1", false⟩]

theorem find?_eq_least_literals :
    let text := Text.chars "a'b'7"
    ∃ u m, compile literals = .ok u ∧ u.find? text 0 = some m ∧ m.rule = 1 ∧
      (∃ rule own, literals[1]? = some rule ∧ rule.find? text 0 = some own ∧ m.whole = own.whole ∧
        m.spans = own.spans) ∧
      ∀ i other found, literals[i]? = some other → other.find? text 0 = some found →
        m.whole.start < found.whole.start ∨ m.whole.start = found.whole.start ∧ 1 ≤ i := by
  intro text
  have hp : ∀ rule ∈ literals, ∃ p ∈ (Pattern.compile rule.source rule.caseless).toOption,
      p.tree.hasKeep = false := by decide +kernel
  have hm : allMoveWell 1 literals := by decide +kernel
  have hfirst : ∃ u ∈ (compile literals).toOption, ∃ m ∈ u.find? text 0, m.rule = 1 := by decide +kernel
  obtain ⟨u, hu, m, hsome, hrule⟩ := hfirst
  replace hu := eq_ok_of_mem_toOption hu
  obtain ⟨u', hu', hfind⟩ :=
    find?_eq_least (fun rule hr => (hp rule hr).imp fun _ h => ⟨eq_ok_of_mem_toOption h.1, h.2⟩) hm
  cases Except.ok.inj (hu.symm.trans hu')
  have hleast := (hfind text 0).2 m hsome
  rw [hrule] at hleast
  exact ⟨u, m, hu, hsome, hrule, hleast⟩

/-- An octal escape is taken for a reference: `\101`, which is an A, becomes `\102`. -/
theorem find?_octal :
    let rule : RulePattern := ⟨"\\101", false⟩
    ∃ u ∈ (compile [rule]).toOption, ∃ m ∈ u.find? (Text.chars "AB") 0, ∃ own ∈ rule.find? (Text.chars "AB") 0,
      own.whole.start = 0 ∧ m.whole.start = 1 := by
  decide +kernel

/-- In a union a rule means what it means by itself, and it is missed only where it finds nothing by itself. The
first span is that of the whole match, unless a `keep` has moved its start, and what has been found does not depend on
where the search began, unless the rule asks for that. -/
theorem find?_eq_own (hp : ∀ rule ∈ rules, ∃ p, Pattern.compile rule.source rule.caseless = .ok p)
    (hm : allMoveWell 1 rules) :
    ∃ u, compile rules = .ok u ∧ ∀ text start,
      (u.find? text start = none → ∀ rule ∈ rules, rule.find? text start = none) ∧
      ∀ m, u.find? text start = some m →
        ∃ rule p own, rules[m.rule]? = some rule ∧ Pattern.compile rule.source rule.caseless = .ok p ∧
          p.find? text start = some own ∧ m.whole = own.whole ∧ m.spans.tail = own.groups ∧
          (p.tree.hasKeep = false → m.spans = own.spans ∧
            (p.tree.hasSearchStart = false → p.find? text m.whole.start = some own)) := by
  obtain ⟨u, hu, htries⟩ := exists_triesEach hp hm
  refine ⟨u, hu, fun text start => ⟨htries.find?_eq_none_iff.mp, fun m hsome => ?_⟩⟩
  obtain ⟨place, rule, own, h⟩ := htries.found hsome
  obtain ⟨p, hrule⟩ := hp rule h.mem
  have hown : p.find? text start = some own.report := (RulePattern.find?_of_compile hrule _ _).symm.trans h.find?_eq
  refine ⟨rule, p, own.report, h.getElem, hrule, hown, h.whole, h.tail_spans, fun hkeep =>
    ⟨h.spans_eq hrule hkeep, fun horigin => ?_⟩⟩
  rw [h.whole]
  exact find?_start hkeep horigin hown

theorem find?_eq_own_literals :
    let text := Text.chars "a'b'7"
    ∃ u m p own, compile literals = .ok u ∧ u.find? text 0 = some m ∧ m.rule = 1 ∧
      Pattern.compile "(['\"]).*?\\1" = .ok p ∧ p.find? text 0 = some own ∧ m.spans = own.spans ∧
      p.find? text m.whole.start = some own := by
  intro text
  have hp : ∀ rule ∈ literals, ∃ p ∈ (Pattern.compile rule.source rule.caseless).toOption, True := by decide +kernel
  have hm : allMoveWell 1 literals := by decide +kernel
  have hfirst : ∃ u ∈ (compile literals).toOption, ∃ m ∈ u.find? text 0, m.rule = 1 := by decide +kernel
  have hplain : ∃ p ∈ (Pattern.compile "(['\"]).*?\\1").toOption,
      p.tree.hasKeep = false ∧ p.tree.hasSearchStart = false := by decide +kernel
  obtain ⟨u, hu, m, hsome, hindex⟩ := hfirst
  obtain ⟨p, hcompile, hkeep, hstart⟩ := hplain
  replace hu := eq_ok_of_mem_toOption hu
  replace hcompile := eq_ok_of_mem_toOption hcompile
  obtain ⟨u', hu', hfind⟩ := find?_eq_own (fun rule hr => (hp rule hr).imp fun _ h => eq_ok_of_mem_toOption h.1) hm
  cases Except.ok.inj (hu.symm.trans hu')
  obtain ⟨rule, p', own, hrule, hcompile', hown, -, -, hspans⟩ := (hfind text 0).2 m hsome
  rw [hindex] at hrule
  cases hrule
  cases Except.ok.inj (hcompile.symm.trans hcompile')
  exact ⟨u, m, p, own, hu, hsome, hindex, hcompile, hown, (hspans hkeep).1, (hspans hkeep).2 hstart⟩

/-- A reference in the form `\k<1>` keeps its number, which is that of the group around the rule. -/
theorem find?_numbered_name :
    let rule : RulePattern := ⟨"([ab])(?:x\\k<1>)?", false⟩
    ∃ u ∈ (compile [rule]).toOption, ∃ m ∈ u.find? (Text.chars "axa") 0, ∃ own ∈ rule.find? (Text.chars "axa") 0,
      m.whole = ⟨0, 1⟩ ∧ own.whole = ⟨0, 3⟩ := by
  decide +kernel

end PatternUnion

end Scribe
