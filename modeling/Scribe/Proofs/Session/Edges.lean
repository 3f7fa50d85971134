import Scribe.Proofs.Buffer.Ranges
import Scribe.Proofs.Session.Change

/-!
# Who takes what is inserted

A text inserted where ranges of a tabstop meet is taken by one of them. The linked ranges of a tabstop stay
apart by that: an empty one is passed over only for one that is written, for one that is edited, or for another
empty one.
-/

namespace Scribe

namespace Tabstop

/-! ## The foremost range -/

theorem precedes_iff (a b : TrackedRange) : precedes a b = true ↔
    a.range.start < b.range.start ∨ (a.range.start = b.range.start ∧ a.range.stop < b.range.stop) := by
  simp [precedes]

theorem precedes_trans {a b c : TrackedRange} (h : precedes a b = true) (h' : precedes b c = true) :
    precedes a c = true := by
  rw [precedes_iff] at *
  rcases h with h | ⟨he, h⟩
  · rcases h' with h' | ⟨he', -⟩
    · exact .inl (Position.lt_of_lt_of_le h (Position.le_of_lt h'))
    · exact .inl (he' ▸ h)
  · rcases h' with h' | ⟨he', h'⟩
    · exact .inl (he ▸ h')
    · exact .inr ⟨he.trans he', Position.lt_of_lt_of_le h (Position.le_of_lt h')⟩

theorem precedes_irrefl (a : TrackedRange) : precedes a a = false := by
  rw [← Bool.not_eq_true, precedes_iff]
  rintro (h | ⟨-, h⟩)
  · exact Position.lt_irrefl _ h
  · exact Position.lt_irrefl _ h

theorem not_precedes {a b : TrackedRange} (h : a = b ∨ precedes a b = true) : precedes b a = false := by
  rw [← Bool.not_eq_true]
  intro hc
  rcases h with rfl | h
  · rw [precedes_irrefl] at hc
    cases hc
  · have := precedes_trans h hc
    rw [precedes_irrefl] at this
    cases this

theorem foldl_foremost : ∀ (rs : List TrackedRange) (best : TrackedRange),
    let o := rs.foldl (fun best r => if precedes r best then r else best) best
    (o = best ∨ precedes o best = true) ∧ o ∈ best :: rs ∧ ∀ r ∈ rs, precedes r o = false := by
  intro rs
  induction rs with
  | nil =>
    intro best
    exact ⟨.inl rfl, List.mem_cons_self, fun r hr => by cases hr⟩
  | cons r rs ih =>
    intro best
    simp only [List.foldl_cons]
    by_cases hp : precedes r best = true
    · rw [if_pos hp]
      obtain ⟨hbest, hmem, hleast⟩ := ih r
      refine ⟨.inr ?_, List.mem_cons_of_mem _ hmem, fun x hx => ?_⟩
      · rcases hbest with he | hlt
        · rwa [he]
        · exact precedes_trans hlt hp
      · rcases List.mem_cons.mp hx with rfl | hx
        · exact not_precedes hbest
        · exact hleast x hx
    · rw [if_neg hp]
      obtain ⟨hbest, hmem, hleast⟩ := ih best
      refine ⟨hbest, ?_, fun x hx => ?_⟩
      · rcases List.mem_cons.mp hmem with he | hm
        · rw [he]
          exact List.mem_cons_self
        · exact List.mem_cons_of_mem _ (List.mem_cons_of_mem _ hm)
      · rcases List.mem_cons.mp hx with rfl | hx
        · rw [← Bool.not_eq_true]
          intro hc
          rcases hbest with he | hlt
          · exact hp (he ▸ hc)
          · exact hp (precedes_trans hc hlt)
        · exact hleast x hx

theorem foremost?_spec : ∀ {rs : List TrackedRange} {o : TrackedRange}, foremost? rs = some o →
    o ∈ rs ∧ ∀ r ∈ rs, precedes r o = false
  | [], _, h => by cases h
  | first :: rest, o, h => by
    obtain rfl := Option.some.inj h
    obtain ⟨hbest, hmem, hleast⟩ := foldl_foremost rest first
    refine ⟨hmem, fun r hr => ?_⟩
    rcases List.mem_cons.mp hr with rfl | hr
    · exact not_precedes hbest
    · exact hleast r hr

/-! ## The owner of an edge -/

section
variable {ranges : List TrackedRange} {p : Position}

theorem mem_touching {r : TrackedRange} :
    r ∈ touching ranges p ↔ r ∈ ranges ∧ (r.range.start = p ∨ r.range.stop = p) := by
  simp [touching]

theorem meetAt_touching {a b : TrackedRange} (ha : a ∈ ranges) (hb : b ∈ ranges) (hk : a.key ≠ b.key)
    (hs : a.range.stop = p) (hb' : b.range.start = p) : meetAt (touching ranges p) p = true := by
  have hta : a ∈ touching ranges p := mem_touching.mpr ⟨ha, .inr hs⟩
  have htb : b ∈ touching ranges p := mem_touching.mpr ⟨hb, .inl hb'⟩
  unfold meetAt
  refine List.any_eq_true.mpr ⟨a, hta, ?_⟩
  simp only [hs, beq_self_eq_true, Bool.true_and]
  refine List.any_eq_true.mpr ⟨b, htb, ?_⟩
  simp [hb', hk.symm]

theorem edgeOwner?_of_not_meetAt {writing : Option Nat} (h : meetAt (touching ranges p) p ≠ true) :
    edgeOwner? ranges p writing = none := by
  unfold edgeOwner?
  exact if_neg h

/-- Where ranges meet, the one that is written takes the text, else one that is edited, else the foremost one. -/
theorem edgeOwner?_of_meetAt (writing : Option Nat) (h : meetAt (touching ranges p) p = true) :
    ∃ o ∈ touching ranges p, edgeOwner? ranges p writing = some o.key ∧
      (some o.key = writing ∨ (∀ r ∈ touching ranges p, some r.key ≠ writing) ∧
        (o.linked = false ∨ (∀ r ∈ touching ranges p, r.linked = true) ∧
          ∀ r ∈ touching ranges p, precedes r o = false)) := by
  unfold edgeOwner?
  dsimp only
  rw [if_pos h]
  cases hw : (touching ranges p).find? (some ·.key == writing) with
  | some o =>
    refine ⟨o, List.mem_of_find?_eq_some hw, rfl, .inl ?_⟩
    simpa using List.find?_some hw
  | none =>
    have hno : ∀ r ∈ touching ranges p, some r.key ≠ writing := fun r hr => by
      simpa using List.find?_eq_none.mp hw r hr
    cases hl : (touching ranges p).find? (!·.linked) with
    | some o =>
      refine ⟨o, List.mem_of_find?_eq_some hl, rfl, .inr ⟨hno, .inl ?_⟩⟩
      simpa using List.find?_some hl
    | none =>
      have hall : ∀ r ∈ touching ranges p, r.linked = true := fun r hr => by
        simpa using List.find?_eq_none.mp hl r hr
      cases hf : foremost? (touching ranges p) with
      | some o =>
        obtain ⟨hmem, hleast⟩ := foremost?_spec hf
        exact ⟨o, hmem, rfl, .inr ⟨hno, .inr ⟨hall, hleast⟩⟩⟩
      | none =>
        cases ht : touching ranges p with
        | nil =>
          rw [ht] at h
          cases h
        | cons first rest =>
          rw [ht] at hf
          cases hf

end

end Tabstop

/-! ## Taking what is inserted -/

namespace Session

variable {s : Session} {b : Buffer} {t : Tabstop} {d : Delta}

/-- Whether the ranges of a tabstop can take what is inserted at their ends. -/
def owns (s : Session) (t : Tabstop) : Bool := s.selectedKey == some t.key || s.around.contains t.key

/-- Whether a range of a tabstop takes what is inserted at its ends. -/
def takes (s : Session) (d : Delta) (t : Tabstop) (r : TrackedRange) : Bool :=
  let owner := if d.action = .insert ∧ s.owns t then Tabstop.edgeOwner? t.ranges d.start s.writing else none
  s.owns t && owner.all (· == r.key)

theorem shiftTabstop_eq (s : Session) (d : Delta) (t : Tabstop) :
    s.shiftTabstop s.around d t = { t with ranges := t.ranges.map fun r => r.shift d (s.takes d t r) } := rfl

theorem owns_selected (h : Running s b t) : s.owns t = true := by
  unfold owns
  rw [h.selectedKey]
  simp

theorem eq_of_range_key (h : Following s b) (ht : t ∈ s.tabstops) {x y : TrackedRange} (hx : x ∈ t.ranges)
    (hy : y ∈ t.ranges) (hk : x.key = y.key) : x = y := by
  exact h.range_eq (mem_ranges.mpr ⟨t, ht, hx⟩) (mem_ranges.mpr ⟨t, ht, hy⟩) hk

section
variable (hd : d.action = .insert)
include hd

theorem takes_insert (r : TrackedRange) :
    s.takes d t r = (s.owns t && (Tabstop.edgeOwner? t.ranges d.start s.writing).all (· == r.key)) := by
  unfold takes
  cases s.owns t with
  | false => rfl
  | true => simp [hd]

theorem takes_of_owner {o : Nat} (ho : Tabstop.edgeOwner? t.ranges d.start s.writing = some o) (r : TrackedRange) :
    s.takes d t r = (s.owns t && o == r.key) := by
  rw [takes_insert hd, ho]
  rfl

/-- Of two ranges that meet where a text is inserted one at most takes it. -/
theorem takes_unique {x y : TrackedRange} (hx : x ∈ t.ranges) (hy : y ∈ t.ranges) (hk : x.key ≠ y.key)
    (hs : x.range.stop = d.start) (hs' : y.range.start = d.start) (ht : s.takes d t y = true) :
    s.takes d t x = false := by
  obtain ⟨o, -, ho, -⟩ := Tabstop.edgeOwner?_of_meetAt s.writing (Tabstop.meetAt_touching hx hy hk hs hs')
  rw [takes_of_owner hd ho, Bool.and_eq_true, beq_iff_eq] at ht
  have hne : o.key ≠ x.key := fun he => hk (he.symm.trans ht.2)
  rw [takes_of_owner hd ho, beq_false_of_ne hne, Bool.and_false]

/-- A linked range takes a text from an empty one only if it is written, or empty too. -/
theorem stop_le_of_takes (hkeys : ∀ x ∈ t.ranges, ∀ y ∈ t.ranges, x.key = y.key → x = y) {x y : TrackedRange}
    (hx : x ∈ t.ranges) (hy : y ∈ t.ranges) (hk : x.key ≠ y.key) (hl : y.linked = true)
    (hs : x.range = .point d.start) (hs' : y.range.start = d.start) (ht : s.takes d t y = true) :
    s.writing = some y.key ∨ y.range.stop ≤ d.start := by
  have hstart : x.range.start = d.start := by rw [hs]; rfl
  have hstop : x.range.stop = d.start := by rw [hs]; rfl
  obtain ⟨o, hot, ho, hwhy⟩ := Tabstop.edgeOwner?_of_meetAt s.writing (Tabstop.meetAt_touching hx hy hk hstop hs')
  rw [takes_of_owner hd ho, Bool.and_eq_true, beq_iff_eq] at ht
  obtain rfl := hkeys o (Tabstop.mem_touching.mp hot).1 y hy ht.2
  rcases hwhy with hw | ⟨-, hu | ⟨-, hleast⟩⟩
  · exact .inl hw.symm
  · rw [hl] at hu
    cases hu
  · have hfirst := hleast x (Tabstop.mem_touching.mpr ⟨hx, .inl hstart⟩)
    rw [← Bool.not_eq_true, Tabstop.precedes_iff, hstart, hstop, hs'] at hfirst
    exact .inr (Position.not_lt.mp fun hlt => hfirst (.inr ⟨rfl, hlt⟩))

end

/-! ## Linked ranges stay apart -/

/-- The ranges of two linked occurrences stay apart, if one that is being written is empty when it gets its
text. -/
theorem apart_shift {text text' : List Char} (happ : Delta.Applies text d text')
    (hkeys : ∀ x ∈ t.ranges, ∀ y ∈ t.ranges, x.key = y.key → x = y)
    (hwrite : d.action = .insert → ∀ r ∈ t.ranges, s.writing = some r.key → r.range.start = r.range.stop)
    {x y : TrackedRange} (hx : x ∈ t.ranges) (hy : y ∈ t.ranges) (hk : x.key ≠ y.key)
    (hlx : x.linked = true) (hly : y.linked = true) (hox : x.range.On text) (hoy : y.range.On text)
    (hab : x.range.Apart y.range) :
    (x.range.shift d (s.takes d t x)).Apart (y.range.shift d (s.takes d t y)) := by
  -- It is enough to look at a range and one behind it.
  have hordered : ∀ {x y : TrackedRange}, x ∈ t.ranges → y ∈ t.ranges → x.key ≠ y.key → y.linked = true →
      x.range.On text → y.range.On text → x.range.stop ≤ y.range.start →
      (x.range.shift d (s.takes d t x)).Apart (y.range.shift d (s.takes d t y)) := by
    intro x y hx hy hk hly hox hoy hle
    cases hd : d.action with
    | remove => exact Range.Apart.shift_removal (.inl hle) happ hd hox hoy _ _
    | insert =>
      by_cases hmeet : s.takes d t y = true ∧ x.range.stop = d.start ∧ y.range.start = d.start
      · obtain ⟨ht, hs, hs'⟩ := hmeet
        have htx := takes_unique hd hx hy hk hs hs' ht
        by_cases hstart : x.range.start = d.start
        · -- The first one is empty and is passed over.
          have hpx : x.range = .point d.start := by
            cases hr : x.range with
            | mk start stop =>
              rw [hr] at hstart hs
              exact congrArg₂ Range.mk hstart hs
          have hstop : y.range.stop ≤ d.start := by
            rcases stop_le_of_takes hd hkeys hx hy hk hly hpx hs' ht with hw | hle
            · rw [← hwrite hd y hy hw, hs']
              exact Position.le_refl _
            · exact hle
          have hpy : y.range = .point d.start := by
            have hge := hoy.start_le_stop
            cases hr : y.range with
            | mk start stop =>
              rw [hr] at hs' hstop hge
              obtain rfl : start = d.start := hs'
              exact congrArg (Range.mk d.start) (Position.le_antisymm hstop hge)
          rw [ht, htx]
          exact .inr (Range.stop_le_start_of_empty happ hd hpx hpy)
        · exact .inl (Range.stop_le_start_shift happ hox hoy hle _ _ fun _ _ _ _ => ⟨htx, hstart⟩)
      · refine .inl (Range.stop_le_start_shift happ hox hoy hle _ _ fun _ ht hs hs' => ?_)
        exact absurd ⟨ht, hs, hs'⟩ hmeet
  rcases hab with hab | hab
  · exact hordered hx hy hk hly hox hoy hab
  · exact (hordered hy hx hk.symm hlx hoy hox hab).symm

/-! ## The range that takes the text -/

section
variable (hd : d.action = .insert)
include hd

/-- The range that is written takes the text that is inserted at it. -/
theorem takes_written (hown : s.owns t = true) {m : TrackedRange} (hw : s.writing = some m.key)
    (hm : m ∈ t.ranges) (hs : m.range.start = d.start) : s.takes d t m = true := by
  by_cases hmeet : Tabstop.meetAt (Tabstop.touching t.ranges d.start) d.start = true
  · obtain ⟨o, hot, ho, hwhy⟩ := Tabstop.edgeOwner?_of_meetAt s.writing hmeet
    rw [takes_of_owner hd ho, hown, Bool.true_and, beq_iff_eq]
    rcases hwhy with he | ⟨hno, -⟩
    · rw [hw] at he
      exact Option.some.inj he
    · exact absurd hw.symm (hno m (Tabstop.mem_touching.mpr ⟨hm, .inl hs⟩))
  · rw [takes_insert hd, Tabstop.edgeOwner?_of_not_meetAt hmeet, hown]
    rfl

/-- The ranges beside an empty one that is written leave the text to it. -/
theorem shift_beside_written (hown : s.owns t = true) {m : TrackedRange} (hw : s.writing = some m.key)
    (hm : m ∈ t.ranges) (hp : m.range = .point d.start) {x : TrackedRange} (hx : x ∈ t.ranges) (hk : x.key ≠ m.key) :
    x.range.shift d (s.takes d t x) = x.range.shift d false := by
  have hstart : m.range.start = d.start := by rw [hp]; rfl
  have hstop : m.range.stop = d.start := by rw [hp]; rfl
  have ht := takes_written hd hown hw hm hstart
  have hfalse : x.range.start = d.start ∨ x.range.stop = d.start → s.takes d t x = false := by
    intro htouch
    have hmeet : Tabstop.meetAt (Tabstop.touching t.ranges d.start) d.start = true := by
      rcases htouch with hs | hs
      · exact Tabstop.meetAt_touching hm hx hk.symm hstop hs
      · exact Tabstop.meetAt_touching hx hm hk hs hstart
    obtain ⟨o, -, ho, -⟩ := Tabstop.edgeOwner?_of_meetAt s.writing hmeet
    rw [takes_of_owner hd ho, Bool.and_eq_true, beq_iff_eq] at ht
    rw [takes_of_owner hd ho, beq_false_of_ne fun he => hk (he.symm.trans ht.2), Bool.and_false]
  by_cases htouch : x.range.start = d.start ∨ x.range.stop = d.start
  · rw [hfalse htouch]
  · rw [not_or] at htouch
    exact Range.shift_eq_of_not_touching (fun _ => htouch) _ _

end

/-- Where the primary range meets others it is the first one that is edited, and takes the text. -/
theorem takes_primary (hown : s.owns t = true) (hw : s.writing = none) (hd : d.action = .insert) {p : TrackedRange}
    (hp : t.primary? = some p) (htouch : p.range.start = d.start ∨ p.range.stop = d.start) :
    s.takes d t p = true := by
  have hpt : p ∈ Tabstop.touching t.ranges d.start := Tabstop.mem_touching.mpr ⟨List.mem_of_find?_eq_some hp, htouch⟩
  have howner : Tabstop.edgeOwner? t.ranges d.start s.writing =
      if Tabstop.meetAt (Tabstop.touching t.ranges d.start) d.start then some p.key else none := by
    have hwritten : (Tabstop.touching t.ranges d.start).find? (some ·.key == s.writing) = none := by
      rw [hw]
      exact List.find?_eq_none.mpr fun r _ => by simp
    have hfirst : (Tabstop.touching t.ranges d.start).find? (!·.linked) = some p := by
      obtain ⟨hl, front, behind, hts, hfront⟩ := List.find?_eq_some_iff_append.mp hp
      rw [Tabstop.touching, hts, List.filter_append] at hpt ⊢
      rw [List.find?_append, List.find?_eq_none.mpr fun r hr => ?_]
      · simp [htouch, hl]
      · simpa using hfront r (List.mem_of_mem_filter hr)
    unfold Tabstop.edgeOwner?
    dsimp only
    rw [hwritten, hfirst]
    rfl
  rw [takes_insert hd, howner, hown]
  split <;> simp

/-- The primary range of the selected tabstop takes what is inserted at its ends. -/
theorem shift_primary (h : Running s b t) (hw : s.writing = none) {p : TrackedRange} (hp : t.primary? = some p)
    (d : Delta) : p.range.shift d (s.takes d t p) = p.range.shift d true := by
  have hown := owns_selected h
  cases hd : d.action with
  | remove =>
    have ht : s.takes d t p = true := by
      unfold takes
      simp [hd, hown]
    rw [ht]
  | insert =>
    by_cases htouch : p.range.start = d.start ∨ p.range.stop = d.start
    · rw [takes_primary hown hw hd hp htouch]
    · rw [not_or] at htouch
      exact Range.shift_eq_of_not_touching (fun _ => htouch) _ _

end Session

end Scribe
