import Scribe.Proofs.Snippet.Layout
import Mathlib.Data.List.Pairwise

/-!
# Well-formed expansions

The groups of an expansion come in the order in which they are visited, their ranges are nested, and the parents of
a group are the tabstops that stand around one of its occurrences.
-/

namespace Scribe

open Position (after after_le_after)

namespace Range

/-- One of two ranges ends before the other begins, or lies in it. -/
def Nested (a b : Range) : Prop :=
  a.Apart b ∨ (a.start ≤ b.start ∧ b.stop ≤ a.stop) ∨ (b.start ≤ a.start ∧ a.stop ≤ b.stop)

theorem Nested.symm {a b : Range} (h : a.Nested b) : b.Nested a := h.imp Apart.symm Or.symm

end Range

namespace Expansion

/-! ## The order of the groups -/

theorem pairwise_keys_collect {tokens : List SnippetToken} {found : Dict Nat Placeholder} {met : List Nat}
    (h : found.keys.Pairwise (· < ·)) : (collect found met tokens).keys.Pairwise (· < ·) := by
  fun_induction collect found met tokens with
  | case1 => exact h
  | case2 _ _ _ _ _ ih => exact ih h
  | case3 _ _ t _ _ p ih =>
    exact ih (Dict.pairwise_insertEntry (fun _ _ _ => Nat.lt_trans) (fun a b hab hba => by omega) t.id p h)
  | case4 _ _ _ _ _ ih => exact ih h

theorem pairwise_groups {found : Dict Nat Placeholder} (h : found.keys.Pairwise (· < ·)) (filled : Filled) :
    ((groups found filled).map (·.id)).Pairwise (· < ·) := by
  have hids : (groups found filled).map (·.id) =
      (found.entries.filter fun e => filled.occurrences.any (·.id == e.1)).map (·.1) := by
    simp [groups, groupOf]
  rw [hids]
  exact h.sublist (List.filter_sublist.map _)

theorem order_layout {found : Dict Nat Placeholder} (h : found.keys.Pairwise (· < ·)) (filled : Filled) :
    ∃ ids, (layout found filled).order = ids ++ [0] ∧ ids.Pairwise (· < ·) ∧ 0 ∉ ids := by
  have hgroups := List.pairwise_map.mp (pairwise_groups h filled)
  unfold ExpandedSnippet.order
  rw [tabstops_layout]
  generalize groups found filled = groups at hgroups ⊢
  refine ⟨(groups.filter (·.id != 0)).map (·.id), ?_, List.pairwise_map.mpr (hgroups.filter _), ?_⟩
  · rw [List.map_append]
    congr 1
    have hzero : ∀ g ∈ groups.filter (·.id == 0), g.id = 0 := fun g hg => by simpa using (List.mem_filter.mp hg).2
    have hpair := hgroups.filter (·.id == 0)
    generalize groups.filter (·.id == 0) = zeros at hzero hpair
    match zeros with
    | [] => rfl
    | [g] => simp [hzero g]
    | g :: g' :: rest =>
      -- Two groups with the number 0 would not be in ascending order.
      have hlt := List.rel_of_pairwise_cons hpair (List.mem_cons_self)
      rw [hzero g (by simp), hzero g' (by simp)] at hlt
      exact absurd hlt (Nat.lt_irrefl 0)
  · intro hm
    obtain ⟨g, hg, hid⟩ := List.mem_map.mp hm
    simpa [hid] using (List.mem_filter.mp hg).2

/-! ## Tabstops in tabstops -/

/-- An occurrence of `inner` stands between the two tokens of an occurrence of `outer`. -/
def Encloses (tokens : List SnippetToken) (outer inner : Nat) : Prop :=
  ∃ (xs ys : List SnippetToken) (a b : TabstopMark), tokens = xs ++ .tabstop b :: ys ∧ a.id = outer ∧ b.id = inner ∧
    .tabstop a ∈ xs ∧ .tabstop a ∈ ys

section
variable {tokens front behind : List SnippetToken} {outer inner : Nat}

theorem Encloses.append (h : Encloses tokens outer inner) (front behind : List SnippetToken) :
    Encloses (front ++ tokens ++ behind) outer inner := by
  obtain ⟨xs, ys, a, b, rfl, ha, hb, hxs, hys⟩ := h
  exact ⟨front ++ xs, ys ++ behind, a, b, by simp, ha, hb, List.mem_append_right _ hxs, List.mem_append_left _ hys⟩

theorem encloses_of_mem {a b : TabstopMark} (hb : .tabstop b ∈ tokens) (rest : List SnippetToken) :
    Encloses (.tabstop a :: tokens ++ .tabstop a :: rest) a.id b.id := by
  obtain ⟨xs, ys, rfl⟩ := List.append_of_mem hb
  exact ⟨.tabstop a :: xs, ys ++ .tabstop a :: rest, a, b, by simp, rfl, rfl, List.mem_cons_self, by simp⟩

/-- Where no marker stands in two of the parts, an occurrence begins and ends in the same one. -/
theorem Encloses.cases {t : TabstopMark} {within rest : List SnippetToken} (ht : t.marker ∉ markers within)
    (ht' : t.marker ∉ markers rest) (hdisj : ∀ m ∈ markers within, m ∉ markers rest)
    (h : Encloses (.tabstop t :: within ++ .tabstop t :: rest) outer inner) :
    (t.id = outer ∧ ∃ b, .tabstop b ∈ within ∧ b.id = inner) ∨ Encloses within outer inner ∨
      Encloses rest outer inner := by
  obtain ⟨xs, ys, a, b, he, rfl, rfl, hxs, hys⟩ := h
  have hboth : .tabstop a ∈ SnippetToken.tabstop t :: within → .tabstop a ∉ rest := fun ha ha' => by
    rcases List.mem_cons.mp ha with ha | ha
    · cases ha
      exact ht' (mem_markers ha')
    · exact hdisj _ (mem_markers ha) (mem_markers ha')
  rcases List.append_eq_append_iff.mp he with ⟨zs, rfl, hrest⟩ | ⟨zs, hwithin, hrest⟩
  · rcases List.cons_eq_append_iff.mp hrest with ⟨rfl, hrest⟩ | ⟨zs, rfl, rfl⟩
    · cases hrest
      exact absurd hys (hboth (by simpa using hxs))
    · refine .inr (.inr ⟨zs, ys, a, b, rfl, rfl, rfl, ?_, hys⟩)
      have har : .tabstop a ∈ zs ++ .tabstop b :: ys := List.mem_append_right _ (List.mem_cons_of_mem _ hys)
      rcases List.mem_append.mp hxs with ha | ha
      · exact absurd har (hboth ha)
      · exact (List.mem_cons.mp ha).elim (fun ha => absurd har (hboth (ha ▸ List.mem_cons_self))) id
  · rcases List.cons_eq_append_iff.mp hwithin with ⟨rfl, -⟩ | ⟨xs, rfl, rfl⟩
    · cases hxs
    · rcases List.cons_eq_append_iff.mp hrest with ⟨rfl, hrest⟩ | ⟨zs, rfl, rfl⟩
      · cases hrest
        exact absurd hys (hboth (by simpa using hxs))
      · rcases List.mem_cons.mp hxs with ha | ha
        · cases ha
          exact .inl ⟨rfl, b, by simp, rfl⟩
        · refine .inr (.inl ⟨xs, zs, a, b, rfl, rfl, rfl, ha, ?_⟩)
          rcases List.mem_append.mp hys with hz | hz
          · exact hz
          · have haw : .tabstop a ∈ xs ++ .tabstop b :: zs := List.mem_append_left _ ha
            rcases List.mem_cons.mp hz with hz | hz
            · cases hz
              exact absurd (mem_markers haw) ht
            · exact absurd hz (hboth (List.mem_cons_of_mem _ haw))

end

namespace Laid

variable {before text : List Char} {opened : List Nat} {tokens : List SnippetToken} {fields : List Field}

theorem mem_markers_iff (h : Laid before opened tokens text fields) {m : Nat} :
    m ∈ markers tokens ↔ m ∈ fields.map Field.marker := by
  rw [← List.count_pos_iff, ← List.count_pos_iff, h.count_markers m]
  exact Nat.mul_pos_iff_of_pos_left (by decide)

theorem exists_field (h : Laid before opened tokens text fields) {b : TabstopMark} (hb : .tabstop b ∈ tokens) :
    ∃ f ∈ fields, f.occurrence.id = b.id := by
  induction h with
  | nil => cases hb
  | text _ ih => exact ih (by simpa using hb)
  | @field _ _ _ _ t within rest _ _ _ _ _ ihi ihr =>
    have hcases : b = t ∨ SnippetToken.tabstop b ∈ within ∨ SnippetToken.tabstop b ∈ rest := by
      simpa [or_left_comm] using hb
    rcases hcases with rfl | hb | hb
    · exact ⟨_, List.mem_cons_self, rfl⟩
    · obtain ⟨f, hf, hid⟩ := ihi hb
      exact ⟨f, List.mem_cons_of_mem _ (List.mem_append_left _ hf), hid⟩
    · obtain ⟨f, hf, hid⟩ := ihr hb
      exact ⟨f, List.mem_cons_of_mem _ (List.mem_append_right _ hf), hid⟩

theorem exists_token (h : Laid before opened tokens text fields) {f : Field} (hf : f ∈ fields) :
    ∃ b, .tabstop b ∈ tokens ∧ b.id = f.occurrence.id := by
  induction h with
  | nil => cases hf
  | text _ ih =>
    obtain ⟨b, hb, hid⟩ := ih hf
    exact ⟨b, List.mem_cons_of_mem _ hb, hid⟩
  | @field _ _ _ _ t _ _ _ _ _ _ _ ihi ihr =>
    rcases List.mem_cons.mp hf with rfl | hf
    · exact ⟨t, by simp, rfl⟩
    · rcases List.mem_append.mp hf with hf | hf
      · obtain ⟨b, hb, hid⟩ := ihi hf
        exact ⟨b, by simp [hb], hid⟩
      · obtain ⟨b, hb, hid⟩ := ihr hf
        exact ⟨b, by simp [hb], hid⟩

theorem encloses_of_around (h : Laid before opened tokens text fields) {f : Field} (hf : f ∈ fields) {m : Nat}
    (hm : m ∈ f.around) : m ∈ opened ∨ Encloses tokens m f.occurrence.id := by
  induction h with
  | nil => cases hf
  | text _ ih => exact (ih hf).imp_right fun he => by simpa using he.append [_] []
  | @field _ _ _ opened t inner rest _ _ _ hi hr ihi ihr =>
    rcases List.mem_cons.mp hf with rfl | hf
    · exact .inl hm
    · rcases List.mem_append.mp hf with hf | hf
      · rcases ihi hf with ho | he
        · rcases List.mem_cons.mp ho with rfl | ho
          · obtain ⟨b, hb, hid⟩ := hi.exists_token hf
            exact .inr (hid ▸ encloses_of_mem hb rest)
          · exact .inl ho
        · exact .inr (by simpa using he.append [.tabstop t] (.tabstop t :: rest))
      · refine (ihr hf).imp_right fun he => ?_
        have := he.append (.tabstop t :: inner ++ [.tabstop t]) []
        rwa [List.append_nil, List.append_assoc] at this

/-- The two tokens of an occurrence have a marker of their own, so what stands between them is in it. -/
theorem around_of_encloses (h : Laid before opened tokens text fields) : (fields.map Field.marker).Nodup →
    ∀ {outer inner : Nat}, Encloses tokens outer inner →
    ∃ f ∈ fields, f.occurrence.id = inner ∧ outer ∈ f.around := by
  induction h with
  | nil =>
    rintro - outer inner ⟨xs, ys, a, b, he, -⟩
    simp at he
  | text _ ih =>
    rintro hn outer inner ⟨xs, ys, a, b, he, ha, hb, hxs, hys⟩
    rcases List.cons_eq_append_iff.mp he with ⟨rfl, -⟩ | ⟨xs, rfl, rfl⟩
    · cases hxs
    · exact ih hn ⟨xs, ys, a, b, rfl, ha, hb, by simpa using hxs, hys⟩
  | @field _ _ _ opened t within rest fields more _ hi hr ihi ihr =>
    intro hn outer inner h
    simp only [List.cons_append, List.map_cons, List.map_append, List.nodup_cons, List.mem_append, not_or,
      List.nodup_append] at hn
    obtain ⟨⟨hti, htr⟩, hnodup, hnodup', hdisj⟩ := hn
    rcases h.cases (hi.mem_markers_iff.not.mpr hti) (hr.mem_markers_iff.not.mpr htr) fun m hm hm' =>
      hdisj m (hi.mem_markers_iff.mp hm) m (hr.mem_markers_iff.mp hm') rfl with ⟨rfl, b, hb, rfl⟩ | h | h
    · obtain ⟨f, hf, hid⟩ := hi.exists_field hb
      exact ⟨f, List.mem_cons_of_mem _ (List.mem_append_left _ hf), hid, (hi.around f hf).1.subset List.mem_cons_self⟩
    · obtain ⟨f, hf, hid, hm⟩ := ihi hnodup h
      exact ⟨f, List.mem_cons_of_mem _ (List.mem_append_left _ hf), hid, hm⟩
    · obtain ⟨f, hf, hid, hm⟩ := ihr hnodup' h
      exact ⟨f, List.mem_cons_of_mem _ (List.mem_append_right _ hf), hid, hm⟩

theorem encloses_iff (h : Laid before [] tokens text fields) (hn : (fields.map Field.marker).Nodup)
    {outer inner : Nat} :
    Encloses tokens outer inner ↔ ∃ f ∈ fields, f.occurrence.id = inner ∧ outer ∈ f.around := by
  refine ⟨h.around_of_encloses hn, ?_⟩
  rintro ⟨f, hf, rfl, hm⟩
  exact (h.encloses_of_around hf hm).resolve_left List.not_mem_nil

theorem nested (h : Laid before opened tokens text fields) {f g : Field} (hf : f ∈ fields) (hg : g ∈ fields) :
    f.range.range.Nested g.range.range := by
  have : Std.Symm fun f g : Field => f.range.range.Nested g.range.range := ⟨fun _ _ => Range.Nested.symm⟩
  refine List.Pairwise.forall_of_forall (R := fun f g : Field => f.range.range.Nested g.range.range)
    (fun f _ => .inr (.inl ⟨Position.le_refl _, Position.le_refl _⟩)) ?_ hf hg
  refine h.pairwise_follows.imp fun hfg => ?_
  rcases hfg with hbehind | ⟨-, hstart, hstop⟩
  · exact .inl (.inl (after_le_after hbehind))
  · exact .inr (.inl ⟨after_le_after hstart, after_le_after hstop⟩)

end Laid

/-! ## Expansions -/

/-- What an expansion is like whose tabstops are filled with these tokens. -/
structure WellFormed (tokens : List SnippetToken) (e : ExpandedSnippet) : Prop where
  /-- Each number once, in ascending order, and 0 behind them. -/
  order : ∃ ids, e.order = ids ++ [0] ∧ ids.Pairwise (· < ·) ∧ 0 ∉ ids
  ne_nil : ∀ g ∈ e.tabstops, g.ranges ≠ []
  start_le_stop : ∀ g ∈ e.tabstops, ∀ r ∈ g.ranges, r.range.start ≤ r.range.stop
  on : ∀ g ∈ e.tabstops, ∀ r ∈ g.ranges, r.range.On e.text.toList
  ordered : ∀ g ∈ e.tabstops, g.ranges.Pairwise fun r r' => r.range.stop ≤ r'.range.start
  nested : ∀ g ∈ e.tabstops, ∀ g' ∈ e.tabstops, ∀ r ∈ g.ranges, ∀ r' ∈ g'.ranges, r.range.Nested r'.range
  parents : ∀ g ∈ e.tabstops, ∀ id, id ∈ g.parents ↔ Encloses tokens id g.id

theorem Laid.Draws.exists_range {text : List Char} {fields : List Field} {g : TabstopGroup}
    (h : Laid.Draws text fields g) {r : TabstopRange} (hr : r ∈ g.ranges) :
    (∃ f ∈ fields, r = f.range) ∨ r.range = .point (after text) := by
  cases h with
  | fields _ hranges _ =>
    obtain ⟨f, hf, rfl⟩ := List.mem_map.mp (hranges ▸ hr)
    exact .inl ⟨f, (List.mem_filter.mp hf).1, rfl⟩
  | final _ =>
    obtain rfl := List.mem_singleton.mp hr
    exact .inr rfl

/-- Every snippet expands well, wherever it is inserted. -/
theorem wellFormed_expandSnippet (vars : Variables) (ctx : EditContext) (options : InsertOptions) (source : String) :
    WellFormed (filledSnippet vars ctx options source).tokens (expandSnippet vars ctx options source) := by
  obtain ⟨fields, hlaid, hnodup, hdraws⟩ := laid_expandSnippet vars ctx options source
  have hgroup : ∀ g ∈ (expandSnippet vars ctx options source).tabstops,
      Laid.Group (expandSnippet vars ctx options source).text.toList g.ranges :=
    fun g hg => group_expandSnippet vars ctx options source hg
  have horder : ∃ ids, (expandSnippet vars ctx options source).order = ids ++ [0] ∧ ids.Pairwise (· < ·) ∧ 0 ∉ ids := by
    rw [expandSnippet_eq_layout]
    exact order_layout (pairwise_keys_collect .nil) _
  generalize filledSnippet vars ctx options source = filled at hlaid
  generalize expandSnippet vars ctx options source = e at *
  -- The end of the text is behind every range.
  have hend : ∀ g ∈ e.tabstops, ∀ r ∈ g.ranges, r.range.stop ≤ after e.text.toList := fun g hg r hr => by
    obtain ⟨m, n, -, hn, he⟩ := (hgroup g hg).on r hr
    rw [he, ← Position.place_of_length_le (Nat.le_refl _)]
    exact (Position.place_le_iff hn (Nat.le_refl _)).mpr hn
  exact {
    order := horder
    ne_nil := fun g hg => (hgroup g hg).ne_nil
    start_le_stop := fun g hg r hr => ((hgroup g hg).on r hr).start_le_stop
    on := fun g hg => (hgroup g hg).on
    ordered := fun g hg => (hgroup g hg).ordered
    nested := fun g hg g' hg' r hr r' hr' => by
      rcases (hdraws g hg).exists_range hr with ⟨f, hf, rfl⟩ | he
      · rcases (hdraws g' hg').exists_range hr' with ⟨f', hf', rfl⟩ | he'
        · exact hlaid.nested hf hf'
        · exact .inl (.inl (he' ▸ hend g hg _ hr))
      · exact .inl (.inr (he ▸ hend g' hg' _ hr'))
    parents := fun g hg id => by
      rw [hlaid.encloses_iff hnodup]
      cases hdraws g hg with
      | fields _ _ hparents => exact hparents id
      | final hne => exact ⟨fun h => absurd h List.not_mem_nil, fun ⟨f, hf, hid, _⟩ => absurd hid (hne f hf)⟩ }

end Expansion

end Scribe
