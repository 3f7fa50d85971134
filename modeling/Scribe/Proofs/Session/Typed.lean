import Scribe.Proofs.Buffer.Cursors
import Scribe.Proofs.Session.Frame

/-!
# Typing at the ranges of a tabstop

The ranges of a tabstop that are edited are selected together, and what is typed changes the text at the last one first.
Where one of them ends and the next one begins the first one takes what is typed, so the next one is left empty.
-/

namespace Scribe

open Position (place)

/-! ## Beside a change -/

theorem Delta.lt_shift {d : Delta} (hd : d.start ≤ d.stop) {p : Position} (hp : d.start < p)
    (hstop : d.action = .remove → d.stop < p) (stays : Bool) : d.start < d.shift p stays := by
  cases h : d.action with
  | insert =>
    rcases shift_insert_cases h p stays with ⟨hle, -⟩ | ⟨between, rfl, hbetween⟩
    · exact absurd hp (Position.not_lt.mpr hle)
    · have hne : between ≠ [] := by
        rintro rfl
        exact Position.lt_irrefl _ hp
      rw [shift_insert_behind hd h hbetween]
      exact Position.lt_of_le_of_lt hd (Position.lt_advance _ hne)
  | remove =>
    have hlt := hstop h
    obtain ⟨between, rfl⟩ := Position.exists_advance (Position.le_of_lt hlt)
    have hne : between ≠ [] := by
      rintro rfl
      exact Position.lt_irrefl _ hlt
    rw [shift_remove_behind hd h hne]
    exact Position.lt_advance _ hne

namespace Range

open Delta (Applies)

variable {text text' piece : List Char} {d : Delta} {r r' : Range}

theorem shift_of_stop_le (hr : r.start ≤ r.stop) (hle : r.stop ≤ d.start) (hlt : d.action = .insert → r.stop < d.start)
    (absorbs : Bool) : r.shift d absorbs = r := by
  have hstay : ∀ p, p ≤ r.stop → ∀ stays, d.shift p stays = p := by
    intro p hp stays
    cases h : d.action with
    | insert =>
      rw [Delta.shift_of_insert h]
      exact if_pos (.inl (Position.lt_of_le_of_lt hp (hlt h)))
    | remove =>
      rw [Delta.shift_of_remove h]
      exact if_pos (Position.le_trans hp hle)
  unfold shift
  dsimp only
  rw [hstay _ hr, hstay _ (Position.le_refl _), if_neg (Position.not_lt.mpr hr)]

theorem Reads.shift_behind (hr : r.Reads text piece) (h : Applies text d text') (hstart : d.start < r.start)
    (hstop : d.action = .remove → d.stop < r.start) (absorbs : Bool) :
    (r.shift d absorbs).Reads text' piece ∧ d.start < (r.shift d absorbs).start := by
  refine ⟨?_, Delta.lt_shift h.start_le_stop hstart hstop absorbs⟩
  cases hd : d.action with
  | remove => exact hr.shift_removal h hd (.inr (Position.le_of_lt (hstop hd))) absorbs
  | insert =>
    refine hr.shift_not_taken h hd ?_
    have hle := hr.on.start_le_stop
    rintro (⟨hlt, -⟩ | ⟨-, he | he⟩)
    · exact Position.lt_irrefl _ (Position.lt_of_lt_of_le hlt (Position.le_of_lt hstart))
    · exact Position.lt_irrefl _ (he ▸ hstart)
    · exact Position.lt_irrefl _ (Position.lt_of_lt_of_le hstart (he ▸ hle))

/-- Of ranges that read the same only one begins at a place. -/
theorem Reads.eq_of_start (hr : r.Reads text piece) (hr' : r'.Reads text piece) (h : r.start = r'.start) : r = r' := by
  obtain ⟨m, n, hmn, hn, rfl, hpiece⟩ := hr
  obtain ⟨m', n', hmn', hn', rfl, hpiece'⟩ := hr'
  obtain rfl := (Position.place_inj (Nat.le_trans hmn hn) (Nat.le_trans hmn' hn')).mp h
  have hlen := congrArg List.length (hpiece.trans hpiece'.symm)
  simp only [List.length_drop, List.length_take] at hlen
  obtain rfl : n = n' := by omega
  rfl

end Range

/-! ## The owner of an edge that is edited -/

namespace Tabstop

section
variable {ranges : List TrackedRange} {p : Position} {r : TrackedRange}

/-- The only range that is edited takes what is inserted where it begins or ends. -/
theorem edgeOwner?_of_alone (hr : r ∈ ranges) (hl : r.linked = false) (htouch : r.range.start = p ∨ r.range.stop = p)
    (halone : ∀ q ∈ ranges, q.linked = false → q.range.start = p ∨ q.range.stop = p → q.key = r.key) :
    (edgeOwner? ranges p none).all (· == r.key) = true := by
  by_cases hmeet : meetAt (touching ranges p) p = true
  · obtain ⟨o, ho, howner, hwhy⟩ := edgeOwner?_of_meetAt none hmeet
    obtain ⟨hmem, hat⟩ := mem_touching.mp ho
    rw [howner, Option.all_some, beq_iff_eq]
    rcases hwhy with hnone | ⟨-, hedited | ⟨hall, -⟩⟩
    · cases hnone
    · exact halone o hmem hedited hat
    · cases hl.symm.trans (hall r (mem_touching.mpr ⟨hr, htouch⟩))
  · rw [edgeOwner?_of_not_meetAt hmeet]
    rfl

/-- What is inserted where a range that is edited ends is not taken by one behind it in the list. -/
theorem edgeOwner?_of_passed {front back : List TrackedRange} {a : TrackedRange} (ha : a ∈ front)
    (hl : a.linked = false) (hstop : a.range.stop = p) (hr : r ∈ back) (hstart : r.range.start = p)
    (hkeys : ∀ q ∈ front, q.key ≠ r.key) : (edgeOwner? (front ++ back) p none).all (· == r.key) = false := by
  have hmeet : meetAt (touching (front ++ back) p) p = true :=
    meetAt_touching (List.mem_append_left _ ha) (List.mem_append_right _ hr) (hkeys a ha) hstop hstart
  obtain ⟨o, ho⟩ : ∃ o, (touching front p).find? (!·.linked) = some o := by
    rw [← Option.isSome_iff_exists, List.find?_isSome]
    exact ⟨a, mem_touching.mpr ⟨ha, .inr hstop⟩, by simp [hl]⟩
  have hwritten : (touching (front ++ back) p).find? (some ·.key == none) = none :=
    List.find?_eq_none.mpr fun q _ => by simp
  have hfirst : (touching (front ++ back) p).find? (!·.linked) = some o := by
    unfold touching at ho ⊢
    rw [List.filter_append, List.find?_append, ho]
    rfl
  unfold edgeOwner?
  dsimp only
  rw [if_pos hmeet, hwritten, hfirst]
  exact beq_false_of_ne (hkeys o (mem_touching.mp (List.mem_of_find?_eq_some ho)).1)

end

/-! ## A text typed over a range -/

/-- The ranges that are edited. -/
def edited (t : Tabstop) : List TrackedRange := t.ranges.filter (!·.linked)

theorem mem_edited {t : Tabstop} {r : TrackedRange} : r ∈ t.edited ↔ r ∈ t.ranges ∧ r.linked = false := by
  simp [edited]

/-- Where the ranges of the selected tabstop are after a change, if they stood at `f` before it. -/
def shifted (t : Tabstop) (f : TrackedRange → Range) (d : Delta) (r : TrackedRange) : Range :=
  (f r).shift d ((edgeOwner? (t.place f).ranges d.start none).all (· == r.key))

end Tabstop

namespace Session

open Tabstop (mem_edited mem_place mem_place_of_mem edgeOwner?_of_alone edgeOwner?_of_passed)

/-- The characters from `m` to `n` are removed from a text, and ranges that stood at `f` stand at `f'` then. -/
structure Removed (text : List Char) (m n : Nat) (f f' : TrackedRange → Range) : Prop where
  on : ∀ {r}, (f r).On text → (f' r).On (text.take m ++ text.drop n)
  before : ∀ {r}, (f r).On text → (f r).stop ≤ place text m → f' r = f r
  behind : ∀ {r piece}, (f r).Reads text piece → place text n < (f r).start →
    (f' r).Reads (text.take m ++ text.drop n) piece ∧ place text m < (f' r).start
  cleared : ∀ {r}, f r = ⟨place text m, place text n⟩ → f' r = .point (place text m)
  nil : ∀ {r}, (f r).Reads text [] → (f' r).Reads (text.take m ++ text.drop n) []

/-- A text is typed over the characters from `m` to `n`, and ranges that stood at `f` stand at `f'` then. -/
structure TypedOver (t : Tabstop) (text new : List Char) (m n : Nat) (f f' : TrackedRange → Range) : Prop where
  on : ∀ {r}, (f r).On text → (f' r).On (text.take m ++ new ++ text.drop n)
  before : ∀ {r}, (f r).On text → (f r).stop < place text m ∨ new = [] ∧ (f r).stop ≤ place text m → f' r = f r
  behind : ∀ {r piece}, (f r).Reads text piece → place text n < (f r).start →
    (f' r).Reads (text.take m ++ new ++ text.drop n) piece ∧ place text m < (f' r).start
  nil : new = [] → ∀ {r}, (f r).Reads text [] → (f' r).Reads (text.take m ++ new ++ text.drop n) []
  alone : ∀ r ∈ t.edited, f r = ⟨place text m, place text n⟩ →
    (new ≠ [] → ∀ q ∈ t.edited, q.key ≠ r.key → (f q).On text ∧
      ((f q).stop < place text m ∨ place text n < (f q).start)) →
    (f' r).Reads (text.take m ++ new ++ text.drop n) new ∧ place text m ≤ (f' r).start
  passed : ∀ {front back a r}, t.ranges = front ++ back → a ∈ front → a.linked = false → r ∈ back →
    (∀ q ∈ front, q.key ≠ r.key) → (f a).On text → (f a).stop = place text m →
    f r = ⟨place text m, place text n⟩ → new ≠ [] →
    (f' r).Reads (text.take m ++ new ++ text.drop n) [] ∧ place text m < (f' r).start

section
variable {t : Tabstop} {text : List Char} {m n : Nat} {f f' : TrackedRange → Range}

/-- The range of an empty piece of a text. -/
theorem reads_point (hm : m ≤ text.length) : (Range.point (place text m)).Reads text [] :=
  ⟨m, m, Nat.le_refl m, hm, rfl, List.drop_eq_nil_of_le (List.length_take_le _ _)⟩

theorem removed_refl (text : List Char) (m : Nat) (f : TrackedRange → Range) :
    Removed text m m f f := by
  have hsame : text.take m ++ text.drop m = text := List.take_append_drop m text
  refine ⟨?_, fun _ _ => rfl, ?_, fun hr => hr, ?_⟩
  all_goals rw [hsame]
  · exact fun hr => hr
  · exact fun hr hlt => ⟨hr, hlt⟩
  · exact fun hr => hr

theorem removed_shifted (t : Tabstop) (hmn : m ≤ n) (hn : n ≤ text.length) (f : TrackedRange → Range) :
    Removed text m n f
      (t.shifted f (.removal ⟨place text m, place text n⟩ (String.ofList ((text.take n).drop m)))) := by
  have happ := Delta.Applies.removal hmn hn
  have hm := Nat.le_trans hmn hn
  have hle := (Position.place_le_iff hm hn).mpr hmn
  refine ⟨fun hr => hr.shift happ _, fun hr hstop => ?_, fun hr hlt => ?_, fun hr => ?_, fun hr => ?_⟩
  · exact Range.shift_of_stop_le hr.start_le_stop hstop (fun hi => by cases hi) _
  · exact hr.shift_behind happ (Position.lt_of_le_of_lt hle hlt) (fun _ => hlt) _
  · exact Range.shift_removed happ rfl hr _
  · exact hr.shift_nil happ fun hi => by cases hi

theorem Removed.typedOver_nil (h : Removed text m n f f') (hmn : m ≤ n) (hn : n ≤ text.length) (t : Tabstop) :
    TypedOver t text [] m n f f' := by
  have hm := Nat.le_trans hmn hn
  have hsame : text.take m ++ [] ++ text.drop n = text.take m ++ text.drop n := by rw [List.append_nil]
  refine ⟨?_, fun hr hstop => h.before hr (hstop.elim Position.le_of_lt And.right), ?_, fun _ => ?_, ?_, ?_⟩
  all_goals rw [hsame]
  · exact h.on
  · exact h.behind
  · exact h.nil
  · intro r _ hr _
    have hplace := Position.place_take_append hm (Nat.le_refl m) (text.drop n)
    rw [h.cleared hr, ← hplace]
    refine ⟨reads_point ?_, Position.le_refl _⟩
    rw [List.length_append, List.length_take]
    omega
  · intro _ _ _ _ _ _ _ _ _ _ _ _ hne
    exact absurd rfl hne

/-- Nothing else that is edited stands where the only range to be typed over was. -/
theorem Removed.owner_alone (h : Removed text m n f f') {r : TrackedRange} (hr : r ∈ t.edited)
    (hfr : f r = ⟨place text m, place text n⟩)
    (halone : ∀ q ∈ t.edited, q.key ≠ r.key → (f q).On text ∧ ((f q).stop < place text m ∨ place text n < (f q).start)) :
    (Tabstop.edgeOwner? (t.place f').ranges (place text m) none).all (· == r.key) = true := by
  obtain ⟨hmem, hl⟩ := mem_edited.mp hr
  refine edgeOwner?_of_alone (r := { r with range := f' r }) (mem_place_of_mem hmem) hl
    (.inl (by rw [h.cleared hfr]; rfl)) fun q' hq' hql htouch => ?_
  obtain ⟨q, hq, rfl⟩ := mem_place.mp hq'
  by_contra hkey
  dsimp only at htouch
  obtain ⟨hon, hstop | hstart⟩ := halone q (mem_edited.mpr ⟨hq, hql⟩) hkey
  · have hle := hon.start_le_stop
    rw [h.before hon (Position.le_of_lt hstop)] at htouch
    rcases htouch with he | he
    · exact Position.lt_irrefl _ (Position.lt_of_le_of_lt (he ▸ hle) hstop)
    · exact Position.lt_irrefl _ (he ▸ hstop)
  · obtain ⟨piece, hpiece⟩ := hon.reads
    obtain ⟨hreads, hbehind⟩ := h.behind hpiece hstart
    have hle := hreads.on.start_le_stop
    rcases htouch with he | he
    · exact Position.lt_irrefl _ (he ▸ hbehind)
    · exact Position.lt_irrefl _ (Position.lt_of_lt_of_le hbehind (he ▸ hle))

/-- One that ends where the range to be typed over was is listed before it. -/
theorem Removed.owner_passed (h : Removed text m n f f') {front back : List TrackedRange} {a r : TrackedRange}
    (hranges : t.ranges = front ++ back) (ha : a ∈ front) (hl : a.linked = false) (hr : r ∈ back)
    (hkeys : ∀ q ∈ front, q.key ≠ r.key) (hon : (f a).On text) (hstop : (f a).stop = place text m)
    (hfr : f r = ⟨place text m, place text n⟩) :
    (Tabstop.edgeOwner? (t.place f').ranges (place text m) none).all (· == r.key) = false := by
  have hplaced : (t.place f').ranges = front.map (fun r => { r with range := f' r }) ++
      back.map fun r => { r with range := f' r } := by
    rw [← List.map_append, ← hranges]
    rfl
  have hstay : (f' a).stop = place text m := by rw [h.before hon (hstop ▸ Position.le_refl _), hstop]
  have hstart : (f' r).start = place text m := by rw [h.cleared hfr]; rfl
  rw [hplaced]
  refine edgeOwner?_of_passed (r := { r with range := f' r }) (List.mem_map_of_mem ha) hl hstay
    (List.mem_map_of_mem hr) hstart fun q' hq' => ?_
  obtain ⟨q, hq, rfl⟩ := List.mem_map.mp hq'
  exact hkeys q hq

theorem Removed.typedOver (h : Removed text m n f f') (hmn : m ≤ n) (hn : n ≤ text.length) {new : String}
    (hnew : new ≠ "") (t : Tabstop) :
    TypedOver t text new.toList m n f (t.shifted f' (.insertion (place text m) new)) := by
  have hm := Nat.le_trans hmn hn
  have happ := Delta.applies_insertion hm n new
  have hne : new.toList ≠ [] := by simpa using hnew
  have hlt : place text m < (place text m).advance new.toList := Position.lt_advance _ hne
  have hshifted : ∀ {r : TrackedRange} {absorbs : Bool}, f r = ⟨place text m, place text n⟩ →
      (Tabstop.edgeOwner? (t.place f').ranges (place text m) none).all (· == r.key) = absorbs →
      t.shifted f' (.insertion (place text m) new) r =
        (Range.point (place text m)).shift (.insertion (place text m) new) absorbs := by
    intro r absorbs hfr howner
    show (f' r).shift _ ((Tabstop.edgeOwner? (t.place f').ranges (place text m) none).all (· == r.key)) = _
    rw [howner, h.cleared hfr]
  refine ⟨fun hr => (h.on hr).shift happ _, fun hr hstop => ?_, fun hr hstart => ?_, fun hnil => absurd hnil hne,
    fun r hr hfr halone => ?_, fun {front back a r} hranges ha hl hr hkeys hon hstop hfr _ => ?_⟩
  · have hstop : (f _).stop < place text m := hstop.resolve_right fun hnil => hne hnil.1
    show (f' _).shift _ _ = _
    rw [h.before hr (Position.le_of_lt hstop)]
    exact Range.shift_of_stop_le hr.start_le_stop (Position.le_of_lt hstop) (fun _ => hstop) _
  · obtain ⟨hreads, hbehind⟩ := h.behind hr hstart
    exact hreads.shift_behind happ hbehind (fun hd => by cases hd) _
  · rw [hshifted hfr (h.owner_alone hr hfr (halone hne))]
    exact ⟨Range.reads_shift_point happ rfl rfl,
      Delta.le_shift (d := .insertion (place text m) new) (Position.le_of_lt hlt) (Position.le_refl _)
        (Position.le_refl _) _⟩
  · rw [hshifted hfr (h.owner_passed hranges ha hl hr hkeys hon hstop hfr)]
    have hnil : (Range.point (place text m)).Reads (text.take m ++ text.drop n) [] := by
      rw [← Position.place_take_append hm (Nat.le_refl m) (text.drop n)]
      refine reads_point ?_
      rw [List.length_append, List.length_take]
      omega
    refine ⟨hnil.shift_insertion happ rfl (.inl (Position.le_refl _)), ?_⟩
    have hbehind := Delta.shift_insertion_behind (place text m) new [] false (.inl rfl)
    rw [Position.advance_nil, Position.advance_nil] at hbehind
    show place text m < (Delta.insertion (place text m) new).shift (place text m) false
    rw [hbehind]
    exact hlt

/-- The changes with which a text is typed over a piece of a buffer. -/
theorem typedOver_spliceDeltas (t : Tabstop) {b : Buffer} (hmn : m ≤ n) (hn : n ≤ b.chars.length) (new : String)
    (f : TrackedRange → Range) :
    TypedOver t b.chars new.toList m n f ((b.spliceDeltas m n new).foldl t.shifted f) := by
  have hm := Nat.le_trans hmn hn
  obtain ⟨f₁, hf₁, hremoved⟩ : ∃ f₁, (if m = n then [] else [Delta.removal ⟨place b.chars m, place b.chars n⟩
      (String.ofList ((b.chars.take n).drop m))]).foldl t.shifted f = f₁ ∧ Removed b.chars m n f f₁ := by
    by_cases h : m = n
    · subst h
      rw [if_pos rfl]
      exact ⟨f, rfl, removed_refl b.chars m f⟩
    · rw [if_neg h]
      exact ⟨_, rfl, removed_shifted t hmn hn f⟩
  unfold Buffer.spliceDeltas
  rw [List.foldl_append, hf₁]
  by_cases h : new = ""
  · subst h
    exact hremoved.typedOver_nil hmn hn t
  · rw [if_neg h]
    exact hremoved.typedOver hmn hn h t

end

end Session

end Scribe
