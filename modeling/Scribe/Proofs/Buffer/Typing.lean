import Scribe.Proofs.Buffer.Sound

/-!
# Typing

Typing replaces what is selected, the last selection in the text first. The places of the selections before it stay
where they are.
-/

namespace Scribe

open Position (after place)

namespace Delta

/-- Where a position is after changes. What is inserted at it goes before it. -/
def shiftAll (ds : List Delta) (p : Position) : Position := ds.foldl (fun p d => d.shift p false) p

theorem shiftAll_append (ds ds' : List Delta) (p : Position) : shiftAll (ds ++ ds') p = shiftAll ds' (shiftAll ds p) :=
  List.foldl_append

end Delta

namespace Buffer

open Delta (shiftAll)

/-! ## At one selection -/

section
variable {b b' : Buffer} {m n : Nat} {text : String}

theorem has_of_le (hb : b.WellFormed) (hb' : b'.WellFormed) (hm : m ≤ b.chars.length) {rest : List Char}
    (hchars : b'.chars = b.chars.take m ++ rest) {p : Position} (hp : b.Has p) (hle : p ≤ place b.chars m) :
    b'.Has p := by
  obtain ⟨x, hx, rfl⟩ := (has_iff hb).mp hp
  have hxm : x ≤ m := (Position.place_le_iff hx hm).mp hle
  have hlen : (b.chars.take m).length = m := List.length_take_of_le (by omega)
  refine (has_iff hb').mpr ⟨x, ?_, ?_⟩
  · rw [hchars, List.length_append]
    omega
  · rw [hchars, Position.place_take_append hm hxm]

theorem advance_place_splice (hm : m ≤ b.chars.length)
    (hchars : b'.chars = b.chars.take m ++ text.toList ++ b.chars.drop n) :
    (place b.chars m).advance text.toList = place b'.chars (m + text.toList.length) := by
  have hlen : (b.chars.take m).length = m := List.length_take_of_le (by omega)
  have hright := Position.place_append_right (b.chars.take m) (text.toList ++ b.chars.drop n) text.toList.length
  rw [List.take_left, hlen, ← List.append_assoc, ← hchars] at hright
  exact hright.symm

/-- Where a place that is not before a splice is after it. -/
theorem shiftAll_spliceDeltas {x : Nat} (hmn : m ≤ n) (hn : n ≤ b.chars.length) (hmx : m ≤ x)
    (hx : x ≤ b.chars.length) (text : String) :
    shiftAll (b.spliceDeltas m n text) (place b.chars x) =
      place (b.chars.take m ++ text.toList ++ b.chars.drop n) (m + (x - n) + text.toList.length) := by
  have hm := Nat.le_trans hmn hn
  have hremove : shiftAll (if m = n then []
      else [Delta.removal ⟨place b.chars m, place b.chars n⟩ (String.ofList ((b.chars.take n).drop m))])
      (place b.chars x) = place (b.chars.take m ++ b.chars.drop n) (m + (x - n)) := by
    by_cases h : m = n
    · subst h
      rw [if_pos rfl, List.take_append_drop, Nat.add_sub_cancel' hmx]
      rfl
    · rw [if_neg h]
      refine (Delta.place_shift_removal hmn hn hx _ false).trans (congrArg _ ?_)
      split_ifs <;> omega
  have hlen := Delta.length_removed hmn hn
  unfold spliceDeltas
  rw [Delta.shiftAll_append, hremove]
  by_cases ht : text = ""
  · subst ht
    simp [shiftAll]
  · have hle : m ≤ (b.chars.take m ++ b.chars.drop n).length := by omega
    have htake : (b.chars.take m).length = m := List.length_take_of_le (by omega)
    have hinsert := Delta.place_shift_insertion hle (x := m + (x - n)) (by omega) text false
    rw [Position.place_take_append hm (Nat.le_refl m), List.take_left' htake, List.drop_left' htake,
      if_neg (by simp)] at hinsert
    rw [if_neg ht]
    exact hinsert

/-- What typing over a range of the buffer does: `selected` gives way to the text, and places behind it move on. -/
structure Typed (b : Buffer) (text : String) (r : Range) (front selected back : List Char) (b' : Buffer)
    (ds : List Delta) : Prop where
  splice : b.splice r text = (b', ds)
  same : b.SameBut b'
  wellFormed : b'.WellFormed
  old : b.chars = front ++ selected ++ back
  new : b'.chars = front ++ text.toList ++ back
  start : r.start = after front
  stop : b.clamp r.stop = after (front ++ selected)
  chain : Delta.Chain b.chars ds b'.chars
  atStart : shiftAll ds (after front) = after (front ++ text.toList)
  behind : ∀ between rest, back = between ++ rest →
    shiftAll ds (after (front ++ selected ++ between)) = after (front ++ text.toList ++ between)

theorem exists_typed (hb : b.WellFormed) {r : Range} (hstart : b.Has r.start) (hr : r.start ≤ r.stop) (text : String) :
    ∃ front selected back b' ds, b.Typed text r front selected back b' ds := by
  obtain ⟨m, n, hmn, hn, hclamp⟩ := exists_places hb hr
  obtain ⟨b', he, hsame, hwell, hchars⟩ := splice_place hb hmn hn text
  rw [← hclamp, splice_clampRange hb] at he
  obtain ⟨hm, hstop⟩ := Range.mk.inj hclamp
  have hmlen := Nat.le_trans hmn hn
  have htake : (b.chars.take m).length = m := List.length_take_of_le (by omega)
  have hsplit : b.chars.take m ++ (b.chars.take n).drop m = b.chars.take n := by
    conv => rhs; rw [← List.take_append_drop m (b.chars.take n), List.take_take, Nat.min_eq_left hmn]
  refine ⟨b.chars.take m, (b.chars.take n).drop m, b.chars.drop n, b', b.spliceDeltas m n text, he, hsame, hwell,
    ?_, hchars, ?_, ?_, ?_, ?_, fun between rest hback => ?_⟩
  · rw [hsplit, List.take_append_drop]
  · exact (clamp_of_has hstart).symm.trans hm
  · rw [hsplit]
    exact hstop
  · rw [hchars]
    exact chain_spliceDeltas hmn hn text
  · have hshift := shiftAll_spliceDeltas hmn hn (Nat.le_refl m) hmlen text
    rw [Nat.sub_eq_zero_of_le hmn, Nat.add_zero] at hshift
    refine hshift.trans ?_
    have hlen : (b.chars.take m ++ text.toList).length = m + text.toList.length := by rw [List.length_append, htake]
    rw [← hlen, Position.place_length_append]
  · have hold : b.chars = b.chars.take n ++ between ++ rest := by
      rw [List.append_assoc, ← hback, List.take_append_drop]
    have hlen : (b.chars.take n ++ between).length = n + between.length := by
      rw [List.length_append, List.length_take]
      omega
    have hx : n + between.length ≤ b.chars.length := by
      conv => rhs; rw [hold, List.length_append, hlen]
      omega
    have hplace := Position.place_length_append (b.chars.take n ++ between) rest
    rw [← hold, hlen] at hplace
    have hlen' : (b.chars.take m ++ text.toList ++ between).length =
        m + (n + between.length - n) + text.toList.length := by
      rw [List.length_append, List.length_append, htake]
      omega
    rw [hsplit, ← hplace, shiftAll_spliceDeltas hmn hn (by omega) hx text, hback, ← List.append_assoc, ← hlen',
      Position.place_length_append]

section
variable {r : Range} {front selected back : List Char} {ds : List Delta}

theorem Typed.keeps (h : b.Typed text r front selected back b' ds) (hb : b.WellFormed) {p : Position} (hp : b.Has p)
    (hle : p ≤ r.start) : b'.Has p := by
  have hold := h.old
  rw [List.append_assoc] at hold
  have htake : b.chars.take front.length = front := by rw [hold, List.take_left]
  have hlen : front.length ≤ b.chars.length := by
    rw [hold]
    exact (List.prefix_append _ _).length_le
  have hnew : b'.chars = b.chars.take front.length ++ (text.toList ++ back) := by
    rw [htake, h.new, List.append_assoc]
  refine has_of_le hb h.wellFormed hlen hnew hp ?_
  rw [place, htake, ← h.start]
  exact hle

theorem Typed.cursor (h : b.Typed text r front selected back b' ds) (hb : b.WellFormed) (hstart : b.Has r.start) :
    (b'.clamp r.start).advance text.toList = after (front ++ text.toList) := by
  rw [clamp_of_has (h.keeps hb hstart (Position.le_refl _)), h.start, Position.after_append]

theorem Typed.has_cursor (h : b.Typed text r front selected back b' ds) : b'.Has (after (front ++ text.toList)) := by
  refine (has_iff h.wellFormed).mpr ⟨(front ++ text.toList).length, ?_, ?_⟩
  · rw [h.new]
    exact (List.prefix_append _ _).length_le
  · rw [h.new, Position.place_length_append]

theorem has_shiftAll (hb : b.WellFormed) (hb' : b'.WellFormed) (hchain : Delta.Chain b.chars ds b'.chars)
    {p : Position} (hp : b.Has p) : b'.Has (shiftAll ds p) := by
  obtain ⟨k, hk, rfl⟩ := (has_iff hb).mp hp
  obtain ⟨k', hk', hshift⟩ := hchain.exists_place false hk
  exact (has_iff hb').mpr ⟨k', hk', hshift⟩

end

end

/-! ## At several selections -/

/-- Selections of the buffer in the order in which they are typed at, the last one in the text first. -/
structure Queued (b : Buffer) (sels : List (Nat × Selection)) : Prop where
  has : ∀ e ∈ sels, b.Has e.2.toRange.start
  sorted : sels.Pairwise fun x y => y.2.toRange.start ≤ x.2.toRange.start

section
variable {b : Buffer} {e : Nat × Selection} {sels : List (Nat × Selection)}

theorem Queued.exists_typed (h : b.Queued (e :: sels)) (hb : b.WellFormed) (text : String) :
    ∃ front selected back b' ds, b.Typed text e.2.toRange front selected back b' ds ∧ b'.Queued sels := by
  obtain ⟨front, selected, back, b', ds, ht⟩ :=
    Buffer.exists_typed hb (h.has e List.mem_cons_self) (start_le_stop_between e.2.anchor e.2.lead) text
  obtain ⟨hbefore, hsorted⟩ := List.pairwise_cons.mp h.sorted
  exact ⟨front, selected, back, b', ds, ht,
    fun x hx => ht.keeps hb (h.has x (List.mem_cons_of_mem _ hx)) (hbefore x hx), hsorted⟩

theorem typeAt_cons (text : String) (b : Buffer) (done : List (Nat × Position)) (e : Nat × Selection)
    (sels : List (Nat × Selection)) :
    typeAt text b done (e :: sels) =
      let spliced := b.splice e.2.toRange text
      let cursor := (spliced.1.clamp e.2.toRange.start).advance text.toList
      let typed := typeAt text spliced.1 ((e.1, cursor) :: done.map fun c => (c.1, shiftAll spliced.2 c.2)) sels
      (typed.1, typed.2.1, spliced.2 ++ typed.2.2) := rfl

/-- Typing at selections of the buffer, each of them before the last one, leads to the text that the changes tell. -/
theorem typeAt_chain (text : String) : ∀ (sels : List (Nat × Selection)) (done : List (Nat × Position)) {b : Buffer},
    b.WellFormed → b.Queued sels → (∀ e ∈ done, b.Has e.2) →
    ∃ lines, (typeAt text b done sels).1 = { b with lines } ∧ WellFormed { b with lines } ∧
      Delta.Chain b.chars (typeAt text b done sels).2.2 (chars { b with lines }) ∧
      ∀ e ∈ (typeAt text b done sels).2.1, Has { b with lines } e.2
  | [], done, b, hb, _, hdone => ⟨b.lines, rfl, hb, .nil, hdone⟩
  | e :: sels, done, b, hb, hsels, hdone => by
    obtain ⟨front, selected, back, b₁, ds, ht, hsels₁⟩ := hsels.exists_typed hb text
    obtain ⟨lines₁, rfl⟩ := ht.same
    obtain ⟨lines, he, hwell, hchain, hcursors⟩ := typeAt_chain text sels
      ((e.1, after (front ++ text.toList)) :: done.map fun c => (c.1, shiftAll ds c.2)) ht.wellFormed hsels₁
      fun x hx => by
        rcases List.mem_cons.mp hx with rfl | hx
        · exact ht.has_cursor
        · obtain ⟨y, hy, rfl⟩ := List.mem_map.mp hx
          exact has_shiftAll hb ht.wellFormed ht.chain (hdone y hy)
    rw [typeAt_cons]
    dsimp only
    rw [ht.splice, ht.cursor hb (hsels.has e List.mem_cons_self)]
    exact ⟨lines, he, hwell, ht.chain.append hchain, hcursors⟩

theorem typesBefore_trans (x y z : Nat × Selection) (hxy : decide (y.2.toRange.start ≤ x.2.toRange.start) = true)
    (hyz : decide (z.2.toRange.start ≤ y.2.toRange.start) = true) :
    decide (z.2.toRange.start ≤ x.2.toRange.start) = true :=
  decide_eq_true (Position.le_trans (of_decide_eq_true hyz) (of_decide_eq_true hxy))

theorem typesBefore_total (x y : Nat × Selection) :
    (decide (y.2.toRange.start ≤ x.2.toRange.start) || decide (x.2.toRange.start ≤ y.2.toRange.start)) = true := by
  rw [Bool.or_eq_true, decide_eq_true_eq, decide_eq_true_eq]
  by_cases h : y.2.toRange.start ≤ x.2.toRange.start
  · exact .inl h
  · exact .inr (Position.le_of_lt (by rwa [← Position.not_lt, not_not] at h))

theorem mem_typingOrder {selections : List Selection} : e ∈ typingOrder selections ↔ (e.2, e.1) ∈ selections.zipIdx := by
  rw [typingOrder, List.mem_mergeSort, List.mem_map]
  constructor
  · rintro ⟨x, hx, rfl⟩
    exact hx
  · exact fun he => ⟨(e.2, e.1), he, rfl⟩

theorem queued_typingOrder (hb : b.Sound) : b.Queued (typingOrder b.selections) where
  has e he := by
    obtain ⟨ha, hl⟩ := hb.selections e.2 (List.fst_mem_of_mem_zipIdx (mem_typingOrder.mp he))
    exact (has_between ha hl).1
  sorted := (List.pairwise_mergeSort typesBefore_trans typesBefore_total _).imp of_decide_eq_true

theorem typingOrder_of_pairwise {selections : List Selection}
    (h : selections.Pairwise fun s s' => s'.toRange.start ≤ s.toRange.start) :
    typingOrder selections = selections.zipIdx.map fun s => (s.2, s.1) := by
  refine List.mergeSort_of_pairwise (List.pairwise_map.mpr ?_)
  rw [← List.zipIdx_map_fst 0 selections, List.pairwise_map] at h
  exact h.imp decide_eq_true

/-- Typing keeps the buffer sound, and tells how its text changes. -/
theorem typeText_chain (hb : b.Sound) (text : String) :
    (b.typeText text).1.Sound ∧ Delta.Chain b.chars (b.typeText text).2 (b.typeText text).1.chars := by
  obtain ⟨lines, he, hwell, hchain, hcursors⟩ :=
    typeAt_chain text (typingOrder b.selections) [] hb.wellFormed (queued_typingOrder hb) nofun
  unfold typeText
  dsimp only
  rw [he]
  refine ⟨⟨hwell.congr rfl, fun s hs => ?_⟩, hchain⟩
  obtain ⟨i, -, rfl⟩ := List.mem_map.mp hs
  have hcursor : Has { b with lines } (((typeAt text b [] (typingOrder b.selections)).2.1.lookup i).getD {}) := by
    cases hl : (typeAt text b [] (typingOrder b.selections)).2.1.lookup i with
    | none => exact (has_iff hwell).mpr ⟨0, Nat.zero_le _, rfl⟩
    | some p =>
      obtain ⟨before, behind, he, -⟩ := List.lookup_eq_some_iff.mp hl
      exact hcursors (i, p) (he ▸ List.mem_append_right before List.mem_cons_self)
  exact ⟨hcursor, hcursor⟩

end

end Buffer

end Scribe
