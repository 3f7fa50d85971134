import Scribe.Proofs.Buffer.Ranges
import Scribe.Proofs.Snippet.Fill

/-!
# The groups of an expansion

Each group of an expansion has a range, its ranges lie in the text, and they stand one behind the other.
-/

namespace Scribe

open Position (after place)

theorem Position.after_eq_place {text front : List Char} (h : front <+: text) :
    after front = place text front.length := by
  rw [place, ← List.prefix_iff_eq_take.mp h]

theorem Position.after_le_after {a b : List Char} (h : a <+: b) : after a ≤ after b := by
  obtain ⟨rest, rfl⟩ := h
  rw [after_append]
  exact le_advance _ _

namespace Expansion

/-! ## Places of markers -/

theorem placesFrom_append : ∀ (xs ys : List SnippetToken) (p : Position) (places : Places),
    placesFrom p places (xs ++ ys) = placesFrom (placesFrom p places xs).1 (placesFrom p places xs).2 ys
  | [], _, _, _ => rfl
  | .text _ :: xs, ys, _, places => placesFrom_append xs ys _ places
  | .tabstop _ :: xs, ys, p, _ => placesFrom_append xs ys p _
  | .var _ :: xs, ys, p, places => placesFrom_append xs ys p places

section
variable {places : Places} {m : Nat}

theorem mark_other (places : Places) {m k : Nat} (h : k ≠ m) (p : Position) :
    (places.mark m p)[k]? = places[k]? := by
  unfold Places.mark
  split <;> rw [Array.getElem?_setIfInBounds_ne h.symm]

theorem mark_first (h : places[m]? = some none) (p : Position) :
    (places.mark m p)[m]? = some (some (.point p)) := by
  have hlt := (Array.getElem?_eq_some_iff.mp h).1
  unfold Places.mark
  simp only [h, Option.join_some]
  rw [Array.getElem?_setIfInBounds_self_of_lt hlt]

theorem mark_second {r : Range} (h : places[m]? = some (some r)) (p : Position) :
    (places.mark m p)[m]? = some (some { r with stop := p }) := by
  have hlt := (Array.getElem?_eq_some_iff.mp h).1
  unfold Places.mark
  simp only [h, Option.join_some]
  rw [Array.getElem?_setIfInBounds_self_of_lt hlt]

end

def Field.marker (f : Field) : Nat := f.occurrence.marker

/-- Where a field stands in the text. -/
def Field.range (f : Field) : TabstopRange := ⟨⟨after f.before, after f.upto⟩, f.occurrence.transform⟩

/-- The markers of nested tokens get the places of their fields, and no other marker gets one. -/
theorem Laid.placesFrom {before text : List Char} {opened : List Nat} {tokens : List SnippetToken}
    {fields : List Field} (h : Laid before opened tokens text fields) :
    ∀ places : Places, (fields.map Field.marker).Nodup → (∀ f ∈ fields, places[f.marker]? = some none) →
    (Expansion.placesFrom (after before) places tokens).1 = after text ∧
      (∀ f ∈ fields, (Expansion.placesFrom (after before) places tokens).2[f.marker]? = some (some f.range.range)) ∧
      ∀ m, m ∉ fields.map Field.marker →
        (Expansion.placesFrom (after before) places tokens).2[m]? = places[m]? := by
  induction h with
  | nil => exact fun places _ _ => ⟨rfl, fun f hf => (by cases hf), fun _ _ => rfl⟩
  | text _ ih =>
    intro places hn hp
    have := ih places hn hp
    rwa [Position.after_append] at this
  | @field before mid text opened t inner rest fields more hid hi hr ihi ihr =>
    intro places hn hp
    simp only [List.cons_append, List.map_cons, List.map_append, List.nodup_cons, List.mem_append, not_or,
      List.nodup_append] at hn
    obtain ⟨⟨hni, hnm⟩, hnodup, hnodup', hdisj⟩ := hn
    -- The opening token, what is inside, the closing token, and what follows.
    have hfirst : places[t.marker]? = some none := hp _ List.mem_cons_self
    have hother : ∀ f ∈ fields ++ more, f.marker ≠ t.marker := by
      intro f hf he
      rcases List.mem_append.mp hf with hf | hf
      · exact hni (List.mem_map.mpr ⟨f, hf, he⟩)
      · exact hnm (List.mem_map.mpr ⟨f, hf, he⟩)
    have hpi : ∀ f ∈ fields, (places.mark t.marker (after before))[f.marker]? = some none := fun f hf => by
      rw [mark_other _ (hother f (List.mem_append_left _ hf))]
      exact hp f (List.mem_cons_of_mem _ (List.mem_append_left _ hf))
    obtain ⟨hpos, hin, hout⟩ := ihi (places.mark t.marker (after before)) hnodup hpi
    generalize hres : Expansion.placesFrom (after before) (places.mark t.marker (after before)) inner = res at *
    obtain ⟨p, inside⟩ := res
    dsimp only at hpos hin hout
    subst hpos
    have hopen : inside[t.marker]? = some (some (.point (after before))) := by
      rw [hout t.marker hni, mark_first hfirst]
    have hclosed := mark_second hopen (after mid)
    have hpm : ∀ f ∈ more, (inside.mark t.marker (after mid))[f.marker]? = some none := fun f hf => by
      rw [mark_other _ (hother f (List.mem_append_right _ hf)), hout f.marker fun hm => ?_,
        mark_other _ (hother f (List.mem_append_right _ hf))]
      · exact hp f (List.mem_cons_of_mem _ (List.mem_append_right _ hf))
      · exact hdisj _ hm _ (List.mem_map_of_mem hf) rfl
    obtain ⟨hpos', hin', hout'⟩ := ihr (inside.mark t.marker (after mid)) hnodup' hpm
    have hwhole : Expansion.placesFrom (after before) places (.tabstop t :: inner ++ .tabstop t :: rest) =
        Expansion.placesFrom (after mid) (inside.mark t.marker (after mid)) rest := by
      rw [List.cons_append]
      show Expansion.placesFrom (after before) (places.mark t.marker (after before)) (inner ++ .tabstop t :: rest) = _
      rw [placesFrom_append, hres]
      rfl
    rw [hwhole]
    refine ⟨hpos', fun f hf => ?_, fun m hm => ?_⟩
    · rcases List.mem_cons.mp hf with rfl | hf
      · exact (hout' t.marker hnm).trans hclosed
      · rcases List.mem_append.mp hf with hf | hf
        · rw [hout' f.marker fun hm => hdisj _ (List.mem_map_of_mem hf) _ hm rfl,
            mark_other _ (hother f (List.mem_append_left _ hf))]
          exact hin f hf
        · exact hin' f hf
    · simp only [List.cons_append, List.map_cons, List.map_append, List.mem_cons, List.mem_append, not_or] at hm
      have ho : m ≠ t.marker := hm.1
      rw [hout' m hm.2.2, mark_other _ ho, hout m hm.2.1, mark_other _ ho]

/-! ## Groups -/

/-- What the groups of an expansion are like. -/
structure Laid.Group (text : List Char) (ranges : List TabstopRange) : Prop where
  ne_nil : ranges ≠ []
  on : ∀ r ∈ ranges, r.range.On text
  ordered : ranges.Pairwise fun r r' => r.range.stop ≤ r'.range.start

theorem Laid.group {text : List Char} {tokens : List SnippetToken} {fields : List Field}
    (h : Laid [] [] tokens text fields) {id : Nat} (hid : ∃ f ∈ fields, f.occurrence.id = id) :
    Laid.Group text ((fields.filter (·.occurrence.id == id)).map Field.range) where
  ne_nil := by
    obtain ⟨f, hf, he⟩ := hid
    have hmem : f ∈ fields.filter (·.occurrence.id == id) := List.mem_filter.mpr ⟨hf, by simpa using he⟩
    intro hnil
    rw [List.map_eq_nil_iff] at hnil
    rw [hnil] at hmem
    cases hmem
  on r hr := by
    obtain ⟨f, hf, rfl⟩ := List.mem_map.mp hr
    obtain ⟨-, hbu, hu⟩ := h.bounds f (List.mem_filter.mp hf).1
    refine ⟨f.before.length, f.upto.length, hbu.length_le, hu.length_le, ?_⟩
    rw [← Position.after_eq_place hu, ← Position.after_eq_place (hbu.trans hu)]
    rfl
  ordered := by
    refine List.pairwise_map.mpr ((h.pairwise_of_id id).imp fun {f g} hfg => ?_)
    exact Position.after_le_after hfg

theorem text_layout (found : Dict Nat Placeholder) (filled : Filled) :
    (layout found filled).text.toList = written filled.tokens := by
  have : ∀ tokens : List SnippetToken, (String.join (tokens.filterMap (·.text?))).toList = written tokens := by
    intro tokens
    rw [String.toList_join]
    induction tokens with
    | nil => rfl
    | cons token rest ih =>
      cases token <;> simp_all [written, SnippetToken.text?]
  exact this filled.tokens

/-- The groups of the tabstops that occur, in ascending order. -/
def groups (found : Dict Nat Placeholder) (filled : Filled) : List TabstopGroup :=
  (found.entries.filter fun e => filled.occurrences.any (·.id == e.1)).map fun e =>
    groupOf (placesFrom {} (Array.replicate filled.nextMarker none) filled.tokens).2 filled e.1 e.2

theorem tabstops_layout (found : Dict Nat Placeholder) (filled : Filled) :
    (layout found filled).tabstops = (groups found filled).filter (·.id != 0) ++
      match (groups found filled).filter (·.id == 0) with
      | [] => [{ id := 0, ranges :=
          [⟨.point (placesFrom {} (Array.replicate filled.nextMarker none) filled.tokens).1, none⟩] }]
      | zero => zero := rfl

theorem mem_tabstops_layout {found : Dict Nat Placeholder} {filled : Filled} {g : TabstopGroup}
    (hg : g ∈ (layout found filled).tabstops) :
    g ∈ groups found filled ∨
      g = { id := 0, ranges :=
        [⟨.point (placesFrom {} (Array.replicate filled.nextMarker none) filled.tokens).1, none⟩] } ∧
      ∀ g' ∈ groups found filled, g'.id ≠ 0 := by
  rw [tabstops_layout] at hg
  rcases List.mem_append.mp hg with hg | hg
  · exact .inl (List.mem_filter.mp hg).1
  · split at hg
    · rename_i hnil
      refine .inr ⟨List.mem_singleton.mp hg, fun g' hg' => ?_⟩
      simpa using List.filter_eq_nil_iff.mp hnil g' hg'
    · exact .inl (List.mem_filter.mp hg).1

theorem mem_insertId {id m : Nat} : ∀ {ids : List Nat}, m ∈ insertId id ids ↔ m = id ∨ m ∈ ids
  | [] => by simp [insertId]
  | n :: rest => by
    unfold insertId
    split
    · exact List.mem_cons
    · split
      · rw [List.mem_cons, mem_insertId, List.mem_cons, or_left_comm]
      · have : n = id := by omega
        simp [this]

theorem mem_foldr_insertId {m : Nat} : ∀ {ids : List Nat}, m ∈ ids.foldr insertId [] ↔ m ∈ ids
  | [] => Iff.rfl
  | n :: rest => by rw [List.foldr_cons, mem_insertId, mem_foldr_insertId, List.mem_cons]

theorem ranges_groupOf {places : Places} {filled : Filled} {fields : List Field}
    (hf : fields.map (·.occurrence) = filled.occurrences)
    (hp : ∀ f ∈ fields, places[f.marker]? = some (some f.range.range)) (id : Nat) (p : Placeholder) :
    (groupOf places filled id p).ranges = (fields.filter (·.occurrence.id == id)).map Field.range := by
  unfold groupOf
  dsimp only
  rw [← hf, List.filter_map, List.filterMap_map, ← List.filterMap_eq_map]
  refine List.filterMap_congr fun f hmem => ?_
  have := hp f (List.mem_filter.mp hmem).1
  simp only [Function.comp, Field.marker] at this ⊢
  rw [this]
  rfl

theorem mem_parents_groupOf {filled : Filled} {fields : List Field}
    (hc : filled.closings.Perm (fields.map fun f => (f.occurrence.id, f.around))) (places : Places) (id : Nat)
    (p : Placeholder) {m : Nat} :
    m ∈ (groupOf places filled id p).parents ↔ ∃ f ∈ fields, f.occurrence.id = id ∧ m ∈ f.around := by
  unfold groupOf
  rw [mem_foldr_insertId, List.mem_flatMap]
  constructor
  · rintro ⟨e, he, hm⟩
    obtain ⟨he, hid⟩ := List.mem_filter.mp he
    obtain ⟨f, hf, rfl⟩ := List.mem_map.mp (hc.mem_iff.mp he)
    exact ⟨f, hf, by simpa using hid, hm⟩
  · rintro ⟨f, hf, hid, hm⟩
    exact ⟨_, List.mem_filter.mpr ⟨hc.mem_iff.mpr (List.mem_map_of_mem hf), by simpa using hid⟩, hm⟩

/-- What the group of a tabstop is: its fields, or the end of the text for a final tabstop that does not occur. -/
inductive Laid.Draws (text : List Char) (fields : List Field) : TabstopGroup → Prop
  | fields {g : TabstopGroup} : (∃ f ∈ fields, f.occurrence.id = g.id) →
    g.ranges = (fields.filter (·.occurrence.id == g.id)).map Field.range →
    (∀ m, m ∈ g.parents ↔ ∃ f ∈ fields, f.occurrence.id = g.id ∧ m ∈ f.around) → Draws text fields g
  | final : (∀ f ∈ fields, f.occurrence.id ≠ 0) → Draws text fields { id := 0, ranges := [⟨.point (after text), none⟩] }

section
variable (vars : Variables) (ctx : EditContext) (options : InsertOptions) (source : String)

/-- The tokens of an expansion are nested, with a field for each occurrence, and its groups are the fields. -/
theorem laid_filledSnippet : ∃ fields,
    Laid [] [] (filledSnippet vars ctx options source).tokens (expandSnippet vars ctx options source).text.toList
      fields ∧
    (fields.map Field.marker).Nodup ∧
    fields.map (·.occurrence) = (filledSnippet vars ctx options source).occurrences ∧
    ∀ g ∈ (expandSnippet vars ctx options source).tabstops,
      Laid.Draws (expandSnippet vars ctx options source).text.toList fields g := by
  have hfills := fills_filledSnippet vars ctx options source
  have hknown := known_filledSnippet vars ctx options source
  rw [expandSnippet_eq_layout, text_layout]
  generalize filledSnippet vars ctx options source = filled at hfills hknown ⊢
  obtain ⟨fields, hlaid, hocc, hclosings⟩ := hfills.laid []
  rw [List.nil_append] at hlaid
  have hnodup : (fields.map Field.marker).Nodup := by
    have := hfills.nodup
    rwa [← hocc, List.map_map] at this
  have hfree : ∀ f ∈ fields, (Array.replicate filled.nextMarker (none : Option Range))[f.marker]? = some none := by
    intro f hf
    have : f.marker < filled.nextMarker := hfills.lt f.occurrence (hocc ▸ List.mem_map_of_mem hf)
    rw [Array.getElem?_replicate, if_pos this]
  obtain ⟨hstop, hplaces, -⟩ := hlaid.placesFrom (Array.replicate filled.nextMarker none) hnodup hfree
  rw [show after [] = ({} : Position) from rfl] at hstop hplaces
  refine ⟨fields, hlaid, hnodup, hocc, fun g hg => ?_⟩
  rcases mem_tabstops_layout hg with hg | ⟨rfl, hne⟩
  · obtain ⟨e, he, rfl⟩ := List.mem_map.mp hg
    obtain ⟨o, ho, hid⟩ := List.any_eq_true.mp (List.mem_filter.mp he).2
    obtain ⟨f, hf, rfl⟩ := List.mem_map.mp (hocc ▸ ho)
    have hid : f.occurrence.id = e.1 := by simpa using hid
    exact .fields ⟨f, hf, hid⟩ (ranges_groupOf hocc hplaces e.1 e.2) fun m =>
      mem_parents_groupOf hclosings _ e.1 e.2
  · rw [hstop]
    refine .final fun f hf hzero => ?_
    have ho : f.occurrence ∈ filled.occurrences := hocc ▸ List.mem_map_of_mem hf
    obtain ⟨p, hp⟩ := hknown f.occurrence ho
    refine hne _ (List.mem_map_of_mem (List.mem_filter.mpr ⟨Dict.mem_entries_of_get? hp, ?_⟩)) hzero
    exact List.any_eq_true.mpr ⟨f.occurrence, ho, by simp⟩

theorem laid_expandSnippet : ∃ fields,
    Laid [] [] (filledSnippet vars ctx options source).tokens (expandSnippet vars ctx options source).text.toList
      fields ∧
    (fields.map Field.marker).Nodup ∧
    ∀ g ∈ (expandSnippet vars ctx options source).tabstops,
      Laid.Draws (expandSnippet vars ctx options source).text.toList fields g := by
  obtain ⟨fields, hlaid, hnodup, -, hdraws⟩ := laid_filledSnippet vars ctx options source
  exact ⟨fields, hlaid, hnodup, hdraws⟩

end

end Expansion

open Expansion in
/-- Every group of an expansion has a range in the text, and its ranges stand one behind the other. -/
theorem group_expandSnippet (vars : Variables) (ctx : EditContext) (options : InsertOptions) (source : String)
    {g : TabstopGroup} (hg : g ∈ (expandSnippet vars ctx options source).tabstops) :
    Laid.Group (expandSnippet vars ctx options source).text.toList g.ranges := by
  obtain ⟨fields, hlaid, -, hdraws⟩ := laid_expandSnippet vars ctx options source
  generalize (expandSnippet vars ctx options source).text.toList = text at hlaid hdraws ⊢
  cases hdraws g hg with
  | fields hf hranges _ =>
    rw [hranges]
    exact hlaid.group hf
  | final _ =>
    refine ⟨by simp, fun r hr => ?_, List.pairwise_singleton _ _⟩
    obtain rfl := List.mem_singleton.mp hr
    refine ⟨text.length, text.length, Nat.le_refl _, Nat.le_refl _, ?_⟩
    rw [Position.place_of_length_le (Nat.le_refl _)]
    rfl

theorem tabstops_expandSnippet_ne_nil (vars : Variables) (ctx : EditContext) (options : InsertOptions)
    (source : String) : (expandSnippet vars ctx options source).tabstops ≠ [] := by
  rw [Expansion.expandSnippet_eq]
  dsimp only
  unfold Expansion.layout
  dsimp only
  intro hnil
  have := (List.append_eq_nil_iff.mp hnil).2
  split at this
  · cases this
  · rename_i zero hzero
    exact hzero this

end Scribe
