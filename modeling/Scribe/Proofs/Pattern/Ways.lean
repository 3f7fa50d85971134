import Scribe.Proofs.Pattern.Anchored
import Scribe.Proofs.Pattern.Simulation

/-!
# The ways of a match

A tree offers a list of ways, and what has to match afterwards is tried behind each of them. So one tree matches behind
another if one of the places where the first can stop is one where the second can begin, unless groups carry something from
the one to the other.
-/

namespace Scribe

/-- The groups that the tree refers to, reference by reference. -/
def Tree.references : Tree → List (List Nat)
  | .backref gs _ => [gs]
  | .group _ t | .atomic t | .ahead _ t | .behind _ t | .repetition t _ _ _ => references t
  | .seq s t | .alt s t => references s ++ references t
  | .ifGroup gs s t => gs :: (references s ++ references t)
  | _ => []

namespace Tree.Like

variable {number : Nat → Nat → Prop} {refer : List Nat → List Nat → Prop}

theorem self : ∀ {t : Tree}, (t.hasGroup = true → ∀ i, number i i) → (∀ gs ∈ t.references, refer gs gs) →
    t.Like number refer t := by
  intro t hn hr
  induction t with
  | empty => exact .empty
  | literal text caseless => exact .literal text caseless
  | set s => exact .set s
  | anchor a => exact .anchor a
  | backref gs caseless => exact .backref caseless (hr gs (.head _))
  | group i t ih => exact .group (hn rfl i) (ih (fun _ => hn rfl) hr)
  | atomic t ih => exact .atomic (ih hn hr)
  | ahead negated t ih => exact .ahead negated (ih hn hr)
  | behind negated t ih => exact .behind negated (ih hn hr)
  | repetition t least most greedy ih => exact .repetition least most greedy (ih hn hr)
  | seq s t ih₁ ih₂ =>
    obtain ⟨hr₁, hr₂⟩ := List.forall_mem_append.mp hr
    exact .seq (ih₁ (fun h => hn (by simp [hasGroup, h])) hr₁) (ih₂ (fun h => hn (by simp [hasGroup, h])) hr₂)
  | alt s t ih₁ ih₂ =>
    obtain ⟨hr₁, hr₂⟩ := List.forall_mem_append.mp hr
    exact .alt (ih₁ (fun h => hn (by simp [hasGroup, h])) hr₁) (ih₂ (fun h => hn (by simp [hasGroup, h])) hr₂)
  | keep => exact .keep
  | ifGroup gs s t ih₁ ih₂ =>
    obtain ⟨hg, hr⟩ := List.forall_mem_cons.mp hr
    obtain ⟨hr₁, hr₂⟩ := List.forall_mem_append.mp hr
    exact .ifGroup hg (ih₁ (fun h => hn (by simp [hasGroup, h])) hr₁) (ih₂ (fun h => hn (by simp [hasGroup, h])) hr₂)

/-- Without references the numbers of the groups do not matter. -/
theorem of_references {number' : Nat → Nat → Prop} {refer' : List Nat → List Nat → Prop} (hn : ∀ i j, number' i j)
    {t t' : Tree} (h : t.Like number refer t') (hr : t.references = []) : t.Like number' refer' t' := by
  induction h with
  | empty => exact .empty
  | literal text caseless => exact .literal text caseless
  | set s => exact .set s
  | anchor a => exact .anchor a
  | backref => cases hr
  | group _ _ ih => exact .group (hn _ _) (ih hr)
  | atomic _ ih => exact .atomic (ih hr)
  | ahead negated _ ih => exact .ahead negated (ih hr)
  | behind negated _ ih => exact .behind negated (ih hr)
  | repetition least most greedy _ ih => exact .repetition least most greedy (ih hr)
  | seq _ _ ih₁ ih₂ =>
    obtain ⟨hr₁, hr₂⟩ := List.append_eq_nil_iff.mp hr
    exact .seq (ih₁ hr₁) (ih₂ hr₂)
  | alt _ _ ih₁ ih₂ =>
    obtain ⟨hr₁, hr₂⟩ := List.append_eq_nil_iff.mp hr
    exact .alt (ih₁ hr₁) (ih₂ hr₂)
  | keep => exact .keep
  | ifGroup => cases hr

end Tree.Like

namespace Pattern

variable {input : Input}

/-! ## Ways -/

/-- The body has some ways to match, and each goes on in turn until one succeeds. -/
def Offers (body : Progress → After → Option Progress) : Prop :=
  ∀ s, ∃ ways : List Progress, ∀ k, body s k = ways.findSome? k

theorem orElse_findSome? (k : After) (ways more : List Progress) :
    orElse (ways.findSome? k) (fun _ => more.findSome? k) = (ways ++ more).findSome? k := by
  rw [List.findSome?_append]
  cases ways.findSome? k <;> rfl

namespace Offers

variable {body next : Progress → After → Option Progress}

theorem some : Offers fun s k => k s := fun s => ⟨[s], fun k => by cases h : k s <;> simp [h]⟩

/-- At most one way. -/
theorem of_option (way : Progress → Option Progress) (h : ∀ s k, body s k = (way s).bind k) : Offers body := by
  intro s
  refine ⟨(way s).toList, fun k => (h s k).trans ?_⟩
  cases way s with
  | none => rfl
  | some t => cases hk : k t <;> simp [hk]

theorem orElse (hb : Offers body) (hn : Offers next) : Offers fun s k => Pattern.orElse (body s k) fun _ => next s k := by
  intro s
  obtain ⟨ways, hways⟩ := hb s
  obtain ⟨more, hmore⟩ := hn s
  refine ⟨ways ++ more, fun k => ?_⟩
  dsimp only
  rw [hways, hmore, orElse_findSome?]

theorem bind (hb : Offers body) (hn : Offers next) : Offers fun s k => body s fun t => next t k := by
  intro s
  obtain ⟨ways, hways⟩ := hb s
  suffices h : ∃ ways' : List Progress, ∀ k, ways.findSome? (fun t => next t k) = ways'.findSome? k by
    obtain ⟨ways', h⟩ := h
    exact ⟨ways', fun k => (hways _).trans (h k)⟩
  clear hways
  induction ways with
  | nil => exact ⟨[], fun _ => rfl⟩
  | cons t ways ih =>
    obtain ⟨first, hfirst⟩ := hn t
    obtain ⟨others, hothers⟩ := ih
    refine ⟨first ++ others, fun k => ?_⟩
    rw [List.findSome?_cons, hfirst, hothers, List.findSome?_append]
    cases first.findSome? k <;> rfl

theorem ite {p : Progress → Prop} [DecidablePred p] (hb : Offers body) (hn : Offers next) :
    Offers fun s k => if p s then body s k else next s k := by
  intro s
  by_cases hp : p s
  · simpa only [if_pos hp] using hb s
  · simpa only [if_neg hp] using hn s

theorem longestFirst (least n : Nat) : Offers fun s k => Pattern.longestFirst s k least n := by
  induction n with
  | zero => exact of_option (fun s => .some { s with pos := s.pos + least }) fun _ _ => rfl
  | succ n ih => exact orElse (of_option (fun s => .some { s with pos := s.pos + least + (n + 1) }) fun _ _ => rfl) ih

theorem shortestFirst (n length : Nat) : Offers fun s k => Pattern.shortestFirst s k length n := by
  induction n generalizing length with
  | zero => exact of_option (fun s => .some { s with pos := s.pos + length }) fun _ _ => rfl
  | succ n ih => exact orElse (of_option (fun s => .some { s with pos := s.pos + length }) fun _ _ => rfl) (ih _)

theorem runChars (p : Char → Bool) (least : Nat) (most : Option Nat) (greedy : Bool) :
    Offers (Pattern.runChars input p least most greedy) := by
  intro s
  unfold Pattern.runChars
  dsimp only
  split
  · exact ⟨[], fun _ => rfl⟩
  · split
    · exact longestFirst _ _ s
    · exact shortestFirst _ _ s

theorem times (hb : Offers body) : ∀ n, Offers (Pattern.times body n)
  | 0 => some
  | n + 1 => hb.bind (times hb n)

theorem upTo (hb : Offers body) (greedy : Bool) : ∀ n, Offers (Pattern.upTo body greedy n)
  | 0 => some
  | n + 1 => by
    have again := hb.bind (upTo hb greedy n)
    cases greedy with
    | true => exact again.orElse some
    | false => exact some.orElse again

theorem anyTimes (hb : Offers body) (greedy : Bool) : ∀ n, Offers (Pattern.anyTimes body greedy n)
  | 0 => some
  | n + 1 => by
    have again : Offers fun s k =>
        body s fun t => if t.pos = s.pos then k t else Pattern.anyTimes body greedy n t k := by
      intro s
      exact hb.bind (some.ite (p := fun t => t.pos = s.pos) (anyTimes hb greedy n)) s
    cases greedy with
    | true => exact again.orElse some
    | false => exact some.orElse again

end Offers

theorem offers_run (input : Input) : ∀ t : Tree, Offers (run input t) := by
  intro t
  induction t with
  | empty => exact .some
  | literal text caseless =>
    refine .of_option (fun s => (if caseless then input.foldedEnd s.pos [] (text.flatMap Unicode.foldChar)
      else input.literalEnd s.pos text).map fun pos => { s with pos }) fun s k => ?_
    simp only [run]
    split <;> simp [*]
  | set set =>
    refine .of_option (fun s => (input.text[s.pos]?.filter set.holds).map fun _ => { s with pos := s.pos + 1 })
      fun s k => ?_
    simp only [run]
    cases input.text[s.pos]? with
    | none => rfl
    | some c => cases hc : set.holds c <;> simp [Option.filter, hc]
  | anchor a =>
    refine .of_option (fun s => if input.anchorHolds a s.pos then some s else none) fun s k => ?_
    simp only [run]
    split <;> rfl
  | backref gs caseless =>
    refine .of_option (fun s => (gs.findSome? fun i =>
      s.groups[i]?.join.bind (input.copyEnd caseless s.pos)).map fun pos => { s with pos }) fun s k => ?_
    simp only [run]
    split <;> simp [*]
  | group i t ih =>
    intro s
    have hset : Offers fun (u : Progress) k => k { u with groups := u.groups.setIfInBounds i (some ⟨s.pos, u.pos⟩) } :=
      .of_option (fun u => some { u with groups := u.groups.setIfInBounds i (some ⟨s.pos, u.pos⟩) }) fun _ _ => rfl
    exact ih.bind hset s
  | atomic t ih =>
    refine .of_option (fun s => run input t s some) fun s k => ?_
    simp only [run]
    split <;> simp [*]
  | ahead negated t ih =>
    intro s
    simp only [run]
    cases run input t s some with
    | some u =>
      cases negated with
      | true => exact ⟨[], fun _ => rfl⟩
      | false => exact Offers.some { u with pos := s.pos }
    | none =>
      cases negated with
      | true => exact Offers.some s
      | false => exact ⟨[], fun _ => rfl⟩
  | behind negated t ih =>
    intro s
    simp only [run]
    cases lookBehind (run input t) t.width s with
    | some u =>
      cases negated with
      | true => exact ⟨[], fun _ => rfl⟩
      | false => exact Offers.some { u with pos := s.pos }
    | none =>
      cases negated with
      | true => exact Offers.some s
      | false => exact ⟨[], fun _ => rfl⟩
  | repetition t least most greedy ih =>
    intro s
    unfold run
    split
    · exact Offers.runChars _ least most greedy s
    · cases most with
      | some most => exact (ih.times least).bind (ih.upTo greedy (most - least)) s
      | none =>
        have hmore : Offers fun u k => anyTimes (run input t) greedy (input.text.size - u.pos + 1) u k := fun u =>
          ih.anyTimes greedy _ u
        exact (ih.times least).bind hmore s
  | seq t u ih₁ ih₂ => exact ih₁.bind ih₂
  | alt t u ih₁ ih₂ => exact ih₁.orElse ih₂
  | keep => exact .of_option (fun s => some { s with start := s.pos }) fun _ _ => rfl
  | ifGroup gs t u ih₁ ih₂ => exact ih₁.ite ih₂

/-! ## What a pattern matches between two places -/

/-- The match ends here, if it may end at this place. -/
def stopIf (P : Nat → Prop) [DecidablePred P] : After := fun s => if P s.pos then some s else none

/-- The pattern matches what stands between the two places of the text. -/
def Takes (p : Pattern) (input : Input) (start stop : Nat) : Prop :=
  (run input p.tree (.fresh p.groupCount start) (stopIf (· = stop))).isSome = true

instance (p : Pattern) (input : Input) (start stop : Nat) : Decidable (p.Takes input start stop) :=
  inferInstanceAs (Decidable (_ = true))

section
variable {P : Nat → Prop} [DecidablePred P]

theorem isSome_stopIf {s : Progress} : (stopIf P s).isSome = true ↔ P s.pos := by
  unfold stopIf
  split <;> simp [*]

theorem isSome_run_stopIf (t : Tree) (s : Progress) : (run input t s (stopIf P)).isSome = true ↔
    ∃ place, (run input t s (stopIf (· = place))).isSome = true ∧ P place := by
  obtain ⟨ways, hways⟩ := offers_run input t s
  simp only [hways, List.findSome?_isSome_iff, isSome_stopIf]
  constructor
  · rintro ⟨u, hu, hP⟩
    exact ⟨u.pos, ⟨u, hu, rfl⟩, hP⟩
  · rintro ⟨_, ⟨u, hu, rfl⟩, hP⟩
    exact ⟨u, hu, hP⟩

end

/-- A match that may end anywhere. -/
theorem isSome_run_some (t : Tree) (s : Progress) : (run input t s some).isSome = true ↔
    ∃ place, (run input t s (stopIf (· = place))).isSome = true := by
  have hsome : some = stopIf fun _ => True := funext fun u => (if_pos trivial).symm
  rw [hsome, isSome_run_stopIf]
  simp only [and_true]

theorem takes_of_matchAt {p : Pattern} {start : Nat} {r : Progress} (h : p.matchAt input start = some r) :
    p.Takes input start r.pos := by
  obtain ⟨ways, hways⟩ := offers_run input p.tree (.fresh p.groupCount start)
  obtain ⟨u, hu, hr⟩ := List.exists_of_findSome?_eq_some ((hways some).symm.trans h)
  cases hr
  rw [Takes, hways, List.findSome?_isSome_iff]
  exact ⟨r, hu, isSome_stopIf.mpr rfl⟩

theorem Takes.le {p : Pattern} {start stop : Nat} (h : p.Takes input start stop) (hstart : start ≤ input.text.size) :
    start ≤ stop ∧ stop ≤ input.text.size := by
  obtain ⟨r, hr⟩ := Option.isSome_iff_exists.mp h
  obtain ⟨s, hle, hin, hs⟩ := forward_of_run p.tree (s := .fresh p.groupCount start) hstart hr
  obtain rfl : s.pos = stop := isSome_stopIf.mp (Option.isSome_of_mem hs)
  exact ⟨hle, hin⟩

theorem Alike.isSome_eq {R : Progress → Progress → Prop} {a b : Option Progress} (h : Alike R a b) :
    a.isSome = b.isSome := by
  cases h <;> rfl

theorem alike_of_isSome_eq {a b : Option Progress} (h : a.isSome = b.isSome) : Alike (fun _ _ => True) a b := by
  cases a <;> cases b <;> first | exact .none | exact .some trivial | cases h

/-- A tree without groups leaves them alone, so what follows has to do the same behind such a match only. -/
theorem isSome_run_congr {t : Tree} {s : Progress} {k k' : After}
    (h : ∀ u : Progress, (t.hasGroup = false → u.groups = s.groups) → (k u).isSome = (k' u).isSome) :
    (run input t s k).isSome = (run input t s k').isSome := by
  let Q (u u' : Progress) : Prop := u' = u ∧ (t.hasGroup = false → u.groups = s.groups)
  have hQ : Respects (fun i j => j = i ∧ t.hasGroup = true) (fun gs gs' => gs' = gs) Q :=
    { pos := fun h => congrArg _ h.1
      setPos := fun h pos => ⟨by rw [h.1], h.2⟩
      keep := fun h => ⟨by rw [h.1], h.2⟩
      setGroup := fun h hi span => ⟨by rw [h.1, hi.1], fun hn => absurd (hi.2.symm.trans hn) (by simp)⟩
      any_eq := fun h hg => by rw [h.1, hg]
      findSome?_eq := fun h hg f => by rw [h.1, hg] }
  have hself : t.Like (fun i j => j = i ∧ t.hasGroup = true) (fun gs gs' => gs' = gs) t :=
    .self (fun hg _ => ⟨rfl, hg⟩) fun _ _ => rfl
  refine (run_alike hQ input hself (R := fun _ _ => True) (s := s) ⟨rfl, fun _ => rfl⟩ ?_).isSome_eq
  intro u u' hu
  rw [hu.1]
  exact alike_of_isSome_eq (h u hu.2)

/-- The matches stand at the same place, and the first `n` groups hold the same in both. -/
structure Progress.Agree (n : Nat) (s s' : Progress) : Prop where
  pos : s'.pos = s.pos
  groups : ∀ i, 0 < i → i ≤ n → i < s.groups.size ∧ i < s'.groups.size ∧ s'.groups[i]?.join = s.groups[i]?.join

/-- The same tree but for groups behind the first `n`; it does not refer to those. -/
abbrev SameUpTo (n : Nat) : Tree → Tree → Prop :=
  Tree.Like (fun i j => 0 < i ∧ i ≤ n ∨ 0 < j ∧ j ≤ n → j = i) fun gs gs' => gs' = gs ∧ ∀ g ∈ gs, 0 < g ∧ g ≤ n

section
variable {n m place : Nat}

theorem Progress.Agree.respects : Respects (fun i j => 0 < i ∧ i ≤ n ∨ 0 < j ∧ j ≤ n → j = i)
    (fun gs gs' => gs' = gs ∧ ∀ g ∈ gs, 0 < g ∧ g ≤ n) (Agree n) where
  pos := pos
  setPos h _ := ⟨rfl, h.groups⟩
  keep h := ⟨h.pos, h.groups⟩
  setGroup {s s' i j} h hij span := by
    refine ⟨h.pos, fun k hk hn => ?_⟩
    obtain ⟨hroom, hroom', hgroup⟩ := h.groups k hk hn
    rw [Array.size_setIfInBounds, Array.size_setIfInBounds]
    refine ⟨hroom, hroom', ?_⟩
    dsimp only
    rw [Array.getElem?_setIfInBounds, Array.getElem?_setIfInBounds]
    by_cases hi : i = k
    · obtain rfl : j = i := hij (.inl (hi ▸ ⟨hk, hn⟩))
      subst hi
      rw [if_pos rfl, if_pos rfl, if_pos hroom, if_pos hroom']
    · have hj : j ≠ k := fun hj => hi ((hij (.inr (hj ▸ ⟨hk, hn⟩))).symm.trans hj)
      rw [if_neg hi, if_neg hj, hgroup]
  any_eq := by
    rintro s s' gs _ h ⟨rfl, hgs⟩
    have hmap := List.map_congr_left fun g hg => congrArg Option.isSome (h.groups g (hgs g hg).1 (hgs g hg).2).2.2
    simpa only [List.any_map, Function.id_comp] using congrArg (List.any · id) hmap
  findSome?_eq := by
    rintro s s' gs _ h ⟨rfl, hgs⟩ f
    have hmap := List.map_congr_left fun g hg => congrArg (Option.bind · f) (h.groups g (hgs g hg).1 (hgs g hg).2).2.2
    simpa only [List.findSome?_map, Function.id_comp] using congrArg (List.findSome? id) hmap

theorem Progress.getElem?_fresh (m place i : Nat) : (Progress.fresh m place).groups[i]?.join = none := by
  simp only [Progress.fresh, Array.getElem?_replicate]
  split <;> rfl

theorem Progress.agree_fresh {s : Progress} (hn : n ≤ m)
    (hs : 0 < n → ∃ m' place', n ≤ m' ∧ s.groups = (Progress.fresh m' place').groups) :
    (Progress.fresh m s.pos).Agree n s := by
  refine ⟨rfl, fun i hi hle => ?_⟩
  obtain ⟨m', place', hm', hgroups⟩ := hs (Nat.lt_of_lt_of_le hi hle)
  rw [hgroups, getElem?_fresh, getElem?_fresh]
  refine ⟨?_, ?_, rfl⟩ <;> rw [Progress.fresh, Array.size_replicate] <;> omega

end

theorem SameUpTo.isSome_run {n : Nat} {t t' : Tree} {s s' : Progress} {P : Nat → Prop} [DecidablePred P]
    (ht : SameUpTo n t t') (hs : s.Agree n s') :
    (run input t s (stopIf P)).isSome = (run input t' s' (stopIf P)).isSome := by
  refine (run_alike Progress.Agree.respects input ht (R := fun _ _ => True) hs fun u u' hu => ?_).isSome_eq
  refine alike_of_isSome_eq (Bool.eq_iff_iff.mpr ?_)
  rw [isSome_stopIf, isSome_stopIf, hu.pos]

/-- One pattern matches behind another where the first can stop at a place where the second can begin. -/
theorem isSome_run_beside {front back : Pattern} {t : Tree} {n m start stop : Nat}
    (hfront : SameUpTo front.groupCount front.tree front.tree) (hm : front.groupCount ≤ m)
    (hback : SameUpTo n back.tree t) (hn : n ≤ back.groupCount)
    (hgroups : 0 < n → front.tree.hasGroup = false ∧ n ≤ m) :
    (run input front.tree (.fresh m start) fun u => run input t u (stopIf (· = stop))).isSome = true ↔
      ∃ place, front.Takes input start place ∧ back.Takes input place stop := by
  have hnext : (run input front.tree (.fresh m start) fun u => run input t u (stopIf (· = stop))).isSome =
      (run input front.tree (.fresh m start) (stopIf (back.Takes input · stop))).isSome := by
    refine isSome_run_congr fun u hu => ?_
    have hagree : (Progress.fresh back.groupCount u.pos).Agree n u :=
      Progress.agree_fresh hn fun h => ⟨m, start, (hgroups h).2, hu (hgroups h).1⟩
    rw [Bool.eq_iff_iff, isSome_stopIf, ← hback.isSome_run hagree]
    rfl
  have hfresh : (Progress.fresh front.groupCount start).Agree front.groupCount (.fresh m start) :=
    Progress.agree_fresh (Nat.le_refl _) fun _ => ⟨m, start, hm, rfl⟩
  rw [hnext, ← hfront.isSome_run hfresh, isSome_run_stopIf]
  rfl

/-! ## Trees in a row -/

theorem run_seqAll_cons (t : Tree) (ts : List Tree) (s : Progress) (k : After) :
    run input (Tree.seqAll (t :: ts)) s k = run input t s fun u => run input (Tree.seqAll ts) u k := by
  cases ts <;> rfl

theorem run_seqAll_append (ts us : List Tree) (s : Progress) (k : After) :
    run input (Tree.seqAll (ts ++ us)) s k = run input (Tree.seqAll ts) s fun u => run input (Tree.seqAll us) u k := by
  induction ts generalizing s with
  | nil => rfl
  | cons t ts ih =>
    rw [List.cons_append, run_seqAll_cons, run_seqAll_cons]
    exact congrArg (run input t s) (funext ih)

/-! ## On a single line -/

/-- The input of a search in the whole text. -/
abbrev Input.whole (text : String) : Input := ⟨Text.chars text, 0⟩

section
variable {text : String} (hline : '\n' ∉ text.toList)
include hline

theorem run_lineEnd (ts : List Tree) (s : Progress) (k : After) :
    run (.whole text) (Tree.seqAll (ts ++ [.anchor .lineEnd])) s k =
      run (.whole text) (Tree.seqAll ts) s fun u => if u.pos = text.toList.length then k u else none := by
  have hsize : (Text.chars text).size = text.toList.length := List.size_toArray
  rw [run_seqAll_append]
  refine congrArg _ (funext fun u => if_congr ⟨fun h => ?_, fun h => ?_⟩ rfl rfl)
  · rw [pos_of_isEnd hline rfl h, hsize]
  · simp [Input.anchorHolds, hsize, h]

theorem run_lineStart (ts : List Tree) (s : Progress) (k : After) :
    run (.whole text) (Tree.seqAll (.anchor .lineStart :: ts)) s k =
      if s.pos = 0 then run (.whole text) (Tree.seqAll ts) s k else none := by
  rw [run_seqAll_cons]
  refine if_congr ⟨pos_of_isStart hline rfl, fun h => ?_⟩ rfl rfl
  simp [Input.anchorHolds, h]

end

end Pattern

end Scribe
