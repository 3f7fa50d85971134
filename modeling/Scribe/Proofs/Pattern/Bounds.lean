import Scribe.Pattern.Union

/-!
# Where matches lie

A tree goes on only at places that lie at or behind the one where it began, inside of the text, and so do the groups.
Unless there is a `keep` in it, the reported start of the match stays where it was; unless there is one in a look-behind,
it does not move to a place in front of the one where the tree began.
-/

namespace Scribe

/-- Whether the tree can move the reported start of a match. -/
def Tree.hasKeep : Tree → Bool
  | .keep => true
  | .group _ t | .atomic t | .ahead _ t | .behind _ t | .repetition t _ _ _ => hasKeep t
  | .seq s t | .alt s t | .ifGroup _ s t => hasKeep s || hasKeep t
  | _ => false

/-- Whether the tree can move the reported start to a place in front of the one where it begins. -/
def Tree.keepsBehind : Tree → Bool
  | .behind false t => hasKeep t
  | .group _ t | .atomic t | .ahead false t | .repetition t _ _ _ => keepsBehind t
  | .seq s t | .alt s t | .ifGroup _ s t => keepsBehind s || keepsBehind t
  | _ => false

theorem Tree.keepsBehind_of_hasKeep : ∀ {tree : Tree}, tree.hasKeep = false → tree.keepsBehind = false := by
  intro tree
  induction tree with
  | behind negated t => cases negated <;> simp [hasKeep, keepsBehind]
  | ahead negated t ih => cases negated <;> simp_all [hasKeep, keepsBehind]
  | _ => simp_all [hasKeep, keepsBehind]

/-- A stretch in order and inside of a text. -/
def Span.In (text : Array Char) (span : Span) : Prop := span.start ≤ span.stop ∧ span.stop ≤ text.size

namespace Pattern

/-- The groups lie in the text. -/
def Input.Spans (input : Input) (groups : Array (Option Span)) : Prop :=
  ∀ (i : Nat) (span : Span), groups[i]? = some (some span) → span.In input.text

/-- Where a match can stand that has begun at `s`. With `fixed` it reports the same start, and with `onward` none in
front of the place where it began. -/
structure Reaches (input : Input) (fixed onward : Prop) (s t : Progress) : Prop where
  forward : s.pos ≤ t.pos
  inside : t.pos ≤ input.text.size
  start : fixed → t.start = s.start
  keeps : onward → t.start = s.start ∨ s.pos ≤ t.start
  spans : input.Spans s.groups → input.Spans t.groups

/-- What matches goes on only at places that it can reach. -/
def Advances (input : Input) (fixed onward : Prop) (body : Progress → After → Option Progress) : Prop :=
  ∀ s k r, s.pos ≤ input.text.size → body s k = some r → ∃ t, Reaches input fixed onward s t ∧ k t = some r

theorem orElse_eq_some {a : Option Progress} {b : Unit → Option Progress} {r : Progress}
    (h : orElse a b = some r) : a = some r ∨ b () = some r := by
  cases a with
  | none => exact .inr h
  | some t => exact .inl h

/-- Greedy or not, a choice ends as one of the two ways does. -/
theorem ite_orElse_eq_some {greedy : Bool} {a b : Unit → Option Progress} {r : Progress}
    (h : (if greedy = true then orElse (a ()) b else orElse (b ()) a) = some r) : a () = some r ∨ b () = some r := by
  split at h
  · exact orElse_eq_some h
  · exact (orElse_eq_some h).symm

section
variable {input : Input}

theorem lt_of_getElem? {α : Type} {text : Array α} {i : Nat} {c : α} (h : text[i]? = some c) :
    i < text.size := (Array.getElem?_eq_some_iff.mp h).1

/-! ## The ends of simple matches -/

theorem literalEnd_bounds : ∀ (cs : List Char) {pos stop : Nat}, pos ≤ input.text.size →
    input.literalEnd pos cs = some stop → pos ≤ stop ∧ stop ≤ input.text.size
  | [], pos, stop, hp, h => by
    simp only [Input.literalEnd, Option.some.injEq] at h
    subst h; exact ⟨Nat.le_refl _, hp⟩
  | c :: cs, pos, stop, hp, h => by
    simp only [Input.literalEnd] at h
    split at h
    · rename_i hc
      have := literalEnd_bounds cs (lt_of_getElem? hc) h
      omega
    · cases h

theorem foldedEnd_bounds : ∀ (folded pending : List Char) {pos stop : Nat}, pos ≤ input.text.size →
    input.foldedEnd pos pending folded = some stop → pos ≤ stop ∧ stop ≤ input.text.size
  | [], pending, pos, stop, hp, h => by
    simp only [Input.foldedEnd] at h
    split at h
    · cases h; exact ⟨Nat.le_refl _, hp⟩
    · cases h
  | f :: folded, g :: pending, pos, stop, hp, h => by
    simp only [Input.foldedEnd] at h
    split at h
    · exact foldedEnd_bounds folded pending hp h
    · cases h
  | f :: folded, [], pos, stop, hp, h => by
    simp only [Input.foldedEnd] at h
    split at h
    · cases h
    · rename_i c hc
      split at h
      · split at h
        · have := foldedEnd_bounds folded _ (lt_of_getElem? hc) h
          omega
        · cases h
      · cases h

theorem copyEnd_bounds {caseless : Bool} {pos stop : Nat} {span : Span} (hp : pos ≤ input.text.size)
    (h : input.copyEnd caseless pos span = some stop) : pos ≤ stop ∧ stop ≤ input.text.size := by
  have hl (f : Char → List Char) (h : (input.text.extract span.start span.stop).toList.map f =
      (input.text.extract pos (pos + (input.text.extract span.start span.stop).toList.length)).toList.map f) :
      pos + (input.text.extract span.start span.stop).toList.length ≤ input.text.size := by
    have := congrArg List.length h
    simp only [List.length_map, Array.length_toList, Array.size_extract] at this ⊢
    omega
  cases caseless <;>
  · simp only [Input.copyEnd, Bool.false_eq_true, ite_false, ite_true] at h
    split at h
    · rename_i heq
      cases h
      exact ⟨Nat.le_add_right _ _, hl _ heq⟩
    · cases h

theorem countRun_le (input : Input) (p : Char → Bool) : ∀ (limit pos : Nat), input.countRun p pos limit ≤ limit
  | 0, _ => Nat.le_refl _
  | limit + 1, pos => by
    simp only [Input.countRun]
    split
    · split
      · exact Nat.succ_le_succ (countRun_le input p limit _)
      · exact Nat.zero_le _
    · exact Nat.zero_le _

/-! ## Repetitions -/

theorem longestFirst_eq_some {s : Progress} {k : After} {least : Nat} {r : Progress} :
    ∀ {n : Nat}, longestFirst s k least n = some r →
      ∃ length ≤ least + n, k { s with pos := s.pos + length } = some r
  | 0, h => ⟨least, Nat.le_refl _, h⟩
  | n + 1, h => by
    rcases orElse_eq_some h with h | h
    · exact ⟨least + (n + 1), Nat.le_refl _, by rwa [Nat.add_assoc] at h⟩
    · obtain ⟨length, hl, hk⟩ := longestFirst_eq_some h
      exact ⟨length, Nat.le_succ_of_le hl, hk⟩

theorem shortestFirst_eq_some {s : Progress} {k : After} {r : Progress} :
    ∀ {n first : Nat}, shortestFirst s k first n = some r →
      ∃ length ≤ first + n, k { s with pos := s.pos + length } = some r
  | 0, first, h => ⟨first, Nat.le_refl _, h⟩
  | n + 1, first, h => by
    rcases orElse_eq_some h with h | h
    · exact ⟨first, Nat.le_add_right _ _, h⟩
    · obtain ⟨length, hl, hk⟩ := shortestFirst_eq_some h
      exact ⟨length, by omega, hk⟩

theorem Reaches.moved {fixed onward : Prop} {s : Progress} {pos : Nat} (hle : s.pos ≤ pos)
    (hin : pos ≤ input.text.size) : Reaches input fixed onward s { s with pos } :=
  ⟨hle, hin, fun _ => rfl, fun _ => .inl rfl, id⟩

theorem runChars_advances (fixed onward : Prop) (p : Char → Bool) (least : Nat) (most : Option Nat) (greedy : Bool) :
    Advances input fixed onward (runChars input p least most greedy) := by
  intro s k r hs h
  have hc := countRun_le input p (min (input.text.size - s.pos) (most.getD (input.text.size - s.pos))) s.pos
  simp only [runChars] at h
  split at h
  · cases h
  · have hlen : ∃ length ≤ input.text.size - s.pos, k { s with pos := s.pos + length } = some r := by
      split at h
      · obtain ⟨length, hl, hk⟩ := longestFirst_eq_some h
        exact ⟨length, by omega, hk⟩
      · obtain ⟨length, hl, hk⟩ := shortestFirst_eq_some h
        exact ⟨length, by omega, hk⟩
    obtain ⟨length, hl, hk⟩ := hlen
    exact ⟨_, .moved (Nat.le_add_right _ _) (by omega), hk⟩

variable {fixed onward : Prop} {body : Progress → After → Option Progress}

theorem Reaches.refl {s : Progress} (hs : s.pos ≤ input.text.size) : Reaches input fixed onward s s :=
  .moved (Nat.le_refl _) hs

theorem Reaches.trans {s t u : Progress} (h : Reaches input fixed onward s t) (h' : Reaches input fixed onward t u) :
    Reaches input fixed onward s u where
  forward := Nat.le_trans h.forward h'.forward
  inside := h'.inside
  start hf := (h'.start hf).trans (h.start hf)
  keeps ho := by
    rcases h'.keeps ho with he | hle
    · rw [he]
      exact h.keeps ho
    · exact .inr (Nat.le_trans h.forward hle)
  spans hs := h'.spans (h.spans hs)

theorem times_advances (hb : Advances input fixed onward body) : ∀ n, Advances input fixed onward (times body n)
  | 0, s, _, _, hs, h => ⟨s, .refl hs, h⟩
  | n + 1, s, k, r, hs, h => by
    obtain ⟨t, ht, hk⟩ := hb _ _ _ hs h
    obtain ⟨u, hu, hk⟩ := times_advances hb n _ _ _ ht.inside hk
    exact ⟨u, ht.trans hu, hk⟩

theorem upTo_advances (hb : Advances input fixed onward body) (greedy : Bool) :
    ∀ n, Advances input fixed onward (upTo body greedy n)
  | 0, s, _, _, hs, h => ⟨s, .refl hs, h⟩
  | n + 1, s, k, r, hs, h => by
    rcases ite_orElse_eq_some (a := fun _ => body s fun t => upTo body greedy n t k) (b := fun _ => k s) h with h | h
    · obtain ⟨t, ht, hk⟩ := hb _ _ _ hs h
      obtain ⟨u, hu, hk⟩ := upTo_advances hb greedy n _ _ _ ht.inside hk
      exact ⟨u, ht.trans hu, hk⟩
    · exact ⟨s, .refl hs, h⟩

theorem anyTimes_advances (hb : Advances input fixed onward body) (greedy : Bool) :
    ∀ n, Advances input fixed onward (anyTimes body greedy n)
  | 0, s, _, _, hs, h => ⟨s, .refl hs, h⟩
  | n + 1, s, k, r, hs, h => by
    rcases ite_orElse_eq_some (a := fun _ => body s fun t => if t.pos = s.pos then k t else anyTimes body greedy n t k)
      (b := fun _ => k s) h with h | h
    · obtain ⟨t, ht, hk⟩ := hb _ _ _ hs h
      split at hk
      · exact ⟨t, ht, hk⟩
      · obtain ⟨u, hu, hk⟩ := anyTimes_advances hb greedy n _ _ _ ht.inside hk
        exact ⟨u, ht.trans hu, hk⟩
    · exact ⟨s, .refl hs, h⟩

/-! ## Looking behind -/

/-- A look-behind has matched from a place in front of the one where it stands. -/
theorem behindFrom_reaches (hb : Advances input fixed onward body) {s t : Progress} (hs : s.pos ≤ input.text.size) :
    ∀ {n start : Nat}, start ≤ s.pos → behindFrom body s start n = some t →
      ∃ pos ≤ s.pos, Reaches input fixed onward { s with pos } t
  | 0, start, hst, h => by
    obtain ⟨u, hu, hk⟩ := hb _ _ _ (Nat.le_trans hst hs) h
    split at hk
    · cases hk; exact ⟨start, hst, hu⟩
    · cases hk
  | n + 1, start, hst, h => by
    rcases orElse_eq_some h with h | h
    · obtain ⟨u, hu, hk⟩ := hb _ _ _ (Nat.le_trans hst hs) h
      split at hk
      · cases hk; exact ⟨start, hst, hu⟩
      · cases hk
    · exact behindFrom_reaches hb hs (Nat.le_trans (Nat.sub_le _ _) hst) h

theorem lookBehind_reaches (hb : Advances input fixed onward body) {width : Nat × Option Nat} {s t : Progress}
    (hs : s.pos ≤ input.text.size) (h : lookBehind body width s = some t) :
    ∃ pos ≤ s.pos, Reaches input fixed onward { s with pos } t := by
  simp only [lookBehind] at h
  split at h
  · cases h
  · split at h
    · cases h
    · exact behindFrom_reaches hb hs (Nat.sub_le _ _) h

end

/-! ## Trees -/

theorem some_advances {input : Input} {fixed onward : Prop} {body : Progress → After → Option Progress}
    (hb : Advances input fixed onward body) {s t : Progress} (hs : s.pos ≤ input.text.size)
    (h : body s some = some t) : Reaches input fixed onward s t := by
  obtain ⟨u, hu, hk⟩ := hb _ _ _ hs h
  cases hk; exact hu

theorem Input.spans_setIfInBounds {input : Input} {groups : Array (Option Span)} (h : input.Spans groups) (index : Nat)
    {span : Span} (hspan : span.In input.text) : input.Spans (groups.setIfInBounds index (some span)) := by
  intro i span' hi
  rw [Array.getElem?_setIfInBounds] at hi
  by_cases he : index = i
  · rw [if_pos he] at hi
    split at hi
    · cases hi; exact hspan
    · cases hi
  · rw [if_neg he] at hi
    exact h i span' hi

theorem run_advances (input : Input) : ∀ (tree : Tree) {fixed onward : Prop}, (fixed → tree.hasKeep = false) →
    (onward → tree.keepsBehind = false) → Advances input fixed onward (run input tree) := by
  intro tree
  induction tree with
  | empty => intro _ _ _ _ s k r hs h; exact ⟨s, .refl hs, h⟩
  | literal text caseless =>
    intro _ _ _ _ s k r hs h
    simp only [run] at h
    split at h
    · rename_i pos hpos
      have hb : s.pos ≤ pos ∧ pos ≤ input.text.size := by
        split at hpos
        · exact foldedEnd_bounds _ _ hs hpos
        · exact literalEnd_bounds _ hs hpos
      exact ⟨_, .moved hb.1 hb.2, h⟩
    · cases h
  | set set =>
    intro _ _ _ _ s k r hs h
    simp only [run] at h
    split at h
    · rename_i c hc
      split at h
      · exact ⟨_, .moved (Nat.le_succ _) (lt_of_getElem? hc), h⟩
      · cases h
    · cases h
  | anchor a =>
    intro _ _ _ _ s k r hs h
    simp only [run] at h
    split at h
    · exact ⟨s, .refl hs, h⟩
    · cases h
  | backref groups caseless =>
    intro _ _ _ _ s k r hs h
    simp only [run] at h
    split at h
    · rename_i pos hpos
      obtain ⟨i, _, hi⟩ := List.exists_of_findSome?_eq_some hpos
      obtain ⟨span, _, hspan⟩ := Option.bind_eq_some_iff.mp hi
      have hb := copyEnd_bounds hs hspan
      exact ⟨_, .moved hb.1 hb.2, h⟩
    · cases h
  | group index body ih =>
    intro _ _ hf ho s k r hs h
    obtain ⟨t, ht, hk⟩ := ih hf ho _ _ _ hs h
    refine ⟨_, ?_, hk⟩
    have hspan : Span.In input.text ⟨s.pos, t.pos⟩ := ⟨ht.forward, ht.inside⟩
    exact ⟨ht.forward, ht.inside, ht.start, ht.keeps, fun hg => Input.spans_setIfInBounds (ht.spans hg) index hspan⟩
  | atomic body ih =>
    intro _ _ hf ho s k r hs h
    simp only [run] at h
    split at h
    · rename_i t ht
      exact ⟨t, some_advances (ih hf ho) hs ht, h⟩
    · cases h
  | ahead negated body ih =>
    intro _ _ hf ho s k r hs h
    simp only [run] at h
    split at h
    · rename_i t ht
      cases negated with
      | true => cases h
      | false =>
        have hr := some_advances (ih hf ho) hs ht
        refine ⟨_, ?_, h⟩
        exact ⟨Nat.le_refl _, hs, hr.start, hr.keeps, hr.spans⟩
    · split at h
      · exact ⟨s, .refl hs, h⟩
      · cases h
  | behind negated body ih =>
    intro fixed onward hf ho s k r hs h
    simp only [run] at h
    split at h
    · rename_i t ht
      cases negated with
      | true => cases h
      | false =>
        -- The body begins further in front, so only one that leaves the start alone keeps the promise of `onward`.
        have hfixed : fixed ∨ onward → body.hasKeep = false := fun hor => hor.elim hf ho
        obtain ⟨pos, hpos, hr⟩ := lookBehind_reaches (ih hfixed False.elim) hs ht
        refine ⟨_, ?_, h⟩
        exact ⟨Nat.le_refl _, hs, fun hx => hr.start (.inl hx), fun hx => .inl (hr.start (.inr hx)), hr.spans⟩
    · split at h
      · exact ⟨s, .refl hs, h⟩
      · cases h
  | repetition body least most greedy ih =>
    intro fixed onward hf ho s k r hs h
    simp only [run] at h
    split at h
    · exact runChars_advances fixed onward _ _ _ _ _ _ _ hs h
    · obtain ⟨t, ht, hk⟩ := times_advances (ih hf ho) _ _ _ _ hs h
      have hmore : ∃ u, Reaches input fixed onward t u ∧ k u = some r := by
        split at hk
        · exact upTo_advances (ih hf ho) _ _ _ _ _ ht.inside hk
        · exact anyTimes_advances (ih hf ho) _ _ _ _ _ ht.inside hk
      obtain ⟨u, hu, hk⟩ := hmore
      exact ⟨u, ht.trans hu, hk⟩
  | seq first second ih₁ ih₂ =>
    intro _ _ hf ho s k r hs h
    simp only [Tree.hasKeep, Tree.keepsBehind, Bool.or_eq_false_iff] at hf ho
    obtain ⟨t, ht, hk⟩ := ih₁ (fun x => (hf x).1) (fun x => (ho x).1) _ _ _ hs h
    obtain ⟨u, hu, hk⟩ := ih₂ (fun x => (hf x).2) (fun x => (ho x).2) _ _ _ ht.inside hk
    exact ⟨u, ht.trans hu, hk⟩
  | alt first second ih₁ ih₂ =>
    intro _ _ hf ho s k r hs h
    simp only [Tree.hasKeep, Tree.keepsBehind, Bool.or_eq_false_iff] at hf ho
    rcases orElse_eq_some h with h | h
    · exact ih₁ (fun x => (hf x).1) (fun x => (ho x).1) _ _ _ hs h
    · exact ih₂ (fun x => (hf x).2) (fun x => (ho x).2) _ _ _ hs h
  | keep =>
    intro _ _ hf _ s k r hs h
    refine ⟨_, ?_, h⟩
    exact ⟨Nat.le_refl _, hs, fun x => absurd (hf x) (by simp [Tree.hasKeep]), fun _ => .inr (Nat.le_refl _), id⟩
  | ifGroup groups yes no ih₁ ih₂ =>
    intro _ _ hf ho s k r hs h
    simp only [Tree.hasKeep, Tree.keepsBehind, Bool.or_eq_false_iff] at hf ho
    simp only [run] at h
    split at h
    · exact ih₁ (fun x => (hf x).1) (fun x => (ho x).1) _ _ _ hs h
    · exact ih₂ (fun x => (hf x).2) (fun x => (ho x).2) _ _ _ hs h

/-! ## Searches -/

theorem run_bounds (input : Input) {onward : Prop} {tree : Tree} (ho : onward → tree.keepsBehind = false)
    {groupCount start : Nat} {r : Progress} (hs : start ≤ input.text.size)
    (h : run input tree ⟨start, start, Array.replicate (groupCount + 1) none⟩ some = some r) :
    start ≤ r.pos ∧ r.pos ≤ input.text.size ∧ (onward → start ≤ r.start) ∧ input.Spans r.groups := by
  have hr := some_advances (run_advances input tree False.elim ho) (s := ⟨start, start, _⟩) hs h
  refine ⟨hr.forward, hr.inside, fun x => ?_, hr.spans fun i span hi => ?_⟩
  · exact (hr.keeps x).elim (fun he => Nat.le_of_eq he.symm) id
  · rw [Array.getElem?_replicate] at hi
    split at hi <;> cases hi

theorem searchFrom_bounds (input : Input) {onward : Prop} {tree : Tree} (ho : onward → tree.keepsBehind = false)
    (groupCount : Nat) {r : Progress} : ∀ (n start : Nat), start + n ≤ input.text.size →
      searchFrom input tree groupCount start n = some r →
      start ≤ r.pos ∧ r.pos ≤ input.text.size ∧ (onward → start ≤ r.start) ∧ input.Spans r.groups
  | 0, start, hn, h => run_bounds input ho hn h
  | n + 1, start, hn, h => by
    rcases orElse_eq_some h with h | h
    · exact run_bounds input ho (by omega) h
    · obtain ⟨h₁, h₂, h₃, h₄⟩ := searchFrom_bounds input ho groupCount n (start + 1) (by omega) h
      exact ⟨by omega, h₂, fun x => Nat.le_of_succ_le (h₃ x), h₄⟩

/-- A match and its groups lie in the text. -/
theorem find?_in {p : Pattern} {text : Array Char} {start : Nat} {m : Match} (h : p.find? text start = some m) :
    ∀ span, some span ∈ m.spans → span.In text := by
  simp only [find?] at h
  split at h
  · obtain ⟨s, hs, rfl⟩ := Option.map_eq_some_iff.mp h
    obtain ⟨-, hin, -, hgroups⟩ := searchFrom_bounds ⟨text, start⟩ False.elim _ _ _ (by dsimp only; omega) hs
    intro span hspan
    rcases List.mem_cons.mp hspan with he | hspan
    · cases he
      exact ⟨Nat.min_le_right _ _, hin⟩
    · obtain ⟨i, hi⟩ := List.getElem?_of_mem (List.mem_of_mem_drop hspan)
      exact hgroups i span (by rwa [Array.getElem?_toList] at hi)
  · cases h

theorem find?_bounds {p : Pattern} {text : Array Char} {start : Nat} {m : Match}
    (h : p.find? text start = some m) : m.whole.start ≤ m.whole.stop ∧ m.whole.stop ≤ text.size :=
  find?_in h m.whole List.mem_cons_self

/-- Without a `keep` in a look-behind a match starts where the search began or later. -/
theorem le_start_of_find? {p : Pattern} (hp : p.tree.keepsBehind = false) {text : Array Char} {start : Nat}
    {m : Match} (h : p.find? text start = some m) : start ≤ m.whole.start := by
  simp only [find?] at h
  split at h
  · obtain ⟨s, hs, rfl⟩ := Option.map_eq_some_iff.mp h
    obtain ⟨hpos, -, hstart, -⟩ :=
      searchFrom_bounds ⟨text, start⟩ (fun _ : True => hp) _ _ _ (by dsimp only; omega) hs
    exact Nat.le_min.mpr ⟨hstart trivial, hpos⟩
  · cases h

end Pattern

namespace PatternUnion

theorem findSlot_lt {spans : List (Option Span)} : ∀ {slots : List UnionSlot} {index i : Nat} {slot : UnionSlot},
    findSlot spans index slots = some (i, slot) → i < index + slots.length
  | [], _, _, _, h => by cases h
  | s :: rest, index, i, slot, h => by
    simp only [findSlot] at h
    split at h
    · cases h; simp
    · have := findSlot_lt h
      simp only [List.length_cons]; omega

/-- What a union finds is a match of the joined pattern, for one of its rules. -/
theorem find?_eq_some {u : PatternUnion} {text : Array Char} {start : Nat} {m : UnionMatch}
    (h : u.find? text start = some m) :
    m.rule < u.slots.length ∧ ∃ p m', u.joined = some p ∧ p.find? text start = some m' ∧ m.whole = m'.whole := by
  simp only [find?, Option.bind_eq_bind, Option.bind_eq_some_iff] at h
  obtain ⟨p, hp, m', hm', ⟨rule, slot⟩, hslot, hm⟩ := h
  simp only [pure, Option.some.injEq] at hm
  subst hm
  exact ⟨by simpa using findSlot_lt hslot, p, m', hp, hm', rfl⟩

end PatternUnion

end Scribe
