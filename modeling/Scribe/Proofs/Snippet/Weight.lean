import Scribe.Snippet.Walk

/-!
# The weight of what is ahead

A walk comes to an end. The list ahead may grow with each step, but what is put in ahead holds no tabstop that is
open. So a tabstop is given a weight above that of any default in which one more tabstop is open, and each step makes
what is ahead lighter (`weight_step`).
-/

namespace Scribe

namespace Expansion

def Default.length : Default → Nat
  | .none => 0
  | .text _ => 1
  | .nested tokens => tokens.length

namespace Walk

section
variable (found : Dict Nat Placeholder)

/-- A default has at most this many tokens. -/
def longest : Nat :=
  (found.entries.map (·.2.default.length)).foldr max 0

/-- What a tabstop weighs where so many are not open yet. -/
def tabstopWeight : Nat → Nat
  | 0 => 1
  | n + 1 => longest found * tabstopWeight n + 2

/-- The placeholders of the tabstops that are not open. -/
def unopened (opened : List Nat) : List (Nat × Placeholder) := found.entries.filter fun e => !opened.contains e.1

def weightFrom (opened : List (Nat × Nat)) : List SnippetToken → Nat
  | [] => 0
  | .tabstop t :: rest =>
    match opened.lookup t.id with
    | some marker =>
      weightFrom (if marker = t.marker then opened.filter (·.1 != t.id) else opened) rest + 1
    | none => tabstopWeight found (unopened found (opened.map (·.1))).length + weightFrom opened rest
  | _ :: rest => weightFrom opened rest + 1

def weight (w : Walk) : Nat := weightFrom found w.opened w.ahead

end

/-! ## What is open -/

section
variable {opened opened' : List (Nat × Nat)}

theorem lookup_cons_of_ne {id k : Nat} (marker : Nat) (opened : List (Nat × Nat)) (h : k ≠ id) :
    ((id, marker) :: opened).lookup k = opened.lookup k := by
  rw [List.lookup_cons, beq_eq_false_iff_ne.mpr h]

theorem lookup_filter (opened : List (Nat × Nat)) (id k : Nat) :
    (opened.filter (·.1 != id)).lookup k = if k = id then none else opened.lookup k := by
  induction opened with
  | nil => simp
  | cons e rest ih =>
    obtain ⟨id', marker⟩ := e
    by_cases he : id' = id
    · rw [List.filter_cons_of_neg (by simp [he]), ih]
      split
      · rfl
      · rename_i hk
        rw [lookup_cons_of_ne marker rest (he ▸ hk)]
    · rw [List.filter_cons_of_pos (by simpa using he)]
      by_cases hk : k = id'
      · simp [hk, he]
      · rw [lookup_cons_of_ne _ _ hk, lookup_cons_of_ne _ _ hk, ih]

/-- Whatever is open in the one list is open in the other, and in the same occurrence. -/
def Within (opened opened' : List (Nat × Nat)) : Prop :=
  ∀ id marker, opened.lookup id = some marker → opened'.lookup id = some marker

theorem within_filter (opened : List (Nat × Nat)) (id : Nat) : Within (opened.filter (·.1 != id)) opened := by
  intro k marker h
  rw [lookup_filter] at h
  split at h
  · cases h
  · exact h

theorem within_cons {id : Nat} (marker : Nat) (h : opened.lookup id = none) :
    Within opened ((id, marker) :: opened) := by
  intro k marker' hk
  have hne : k ≠ id := by
    rintro rfl
    rw [h] at hk
    cases hk
  rw [lookup_cons_of_ne marker opened hne, hk]

theorem Within.lookup_eq_none (h : Within opened opened') {id : Nat} (hn : opened'.lookup id = none) :
    opened.lookup id = none := by
  cases ho : opened.lookup id with
  | none => rfl
  | some marker => rw [h id marker ho] at hn; cases hn

theorem Within.filter (h : Within opened opened') (id : Nat) :
    Within (opened.filter (·.1 != id)) (opened'.filter (·.1 != id)) := by
  intro k marker hk
  rw [lookup_filter] at hk ⊢
  split
  · rename_i hid
    rw [if_pos hid] at hk
    cases hk
  · rename_i hid
    rw [if_neg hid] at hk
    exact h k marker hk

theorem Within.filter_of_none (h : Within opened opened') {id : Nat} (hn : opened.lookup id = none) :
    Within opened (opened'.filter (·.1 != id)) := by
  intro k marker hk
  have hne : k ≠ id := by
    rintro rfl
    rw [hn] at hk
    cases hk
  rw [lookup_filter, if_neg hne]
  exact h k marker hk

theorem lookup_eq_none_iff {id : Nat} : opened.lookup id = none ↔ id ∉ opened.map (·.1) := by
  simp only [List.lookup_eq_none_iff, List.mem_map, not_exists, not_and, bne_iff_ne, ne_eq]
  exact ⟨fun h e he hid => h e he hid.symm, fun h e he hid => h e he hid.symm⟩

theorem Within.subset (h : Within opened opened') : opened.map (·.1) ⊆ opened'.map (·.1) := by
  intro id hid
  apply Decidable.byContradiction
  intro hn
  exact lookup_eq_none_iff.mp (h.lookup_eq_none (lookup_eq_none_iff.mpr hn)) hid

end

/-! ## Lists of tokens -/

section
variable (found : Dict Nat Placeholder) {opened opened' : List (Nat × Nat)}

theorem tabstopWeight_pos (n : Nat) : 0 < tabstopWeight found n := by
  cases n <;> simp [tabstopWeight]

theorem tabstopWeight_mono {m n : Nat} (h : m ≤ n) : tabstopWeight found m ≤ tabstopWeight found n := by
  induction n generalizing m with
  | zero => exact Nat.le_of_eq (congrArg _ (Nat.le_zero.mp h))
  | succ n ih =>
    cases m with
    | zero => exact tabstopWeight_pos found _
    | succ m =>
      have := Nat.mul_le_mul_left (longest found) (ih (Nat.le_of_succ_le_succ h))
      simp only [tabstopWeight]
      omega

/-- A tabstop weighs more than all the tabstops of a default where fewer are left to open. -/
theorem mul_tabstopWeight_le {k m n : Nat} (hk : k ≤ longest found) (h : m < n) :
    k * tabstopWeight found m + 2 ≤ tabstopWeight found n := by
  obtain ⟨d, rfl⟩ := Nat.exists_eq_add_of_lt h
  rw [tabstopWeight]
  exact Nat.add_le_add_right (Nat.mul_le_mul hk (tabstopWeight_mono found (Nat.le_add_right m d))) 2

theorem length_unopened_le {ids ids' : List Nat} (h : ids ⊆ ids') :
    (unopened found ids').length ≤ (unopened found ids).length := by
  have hsub : unopened found ids' = (unopened found ids).filter fun e => !ids'.contains e.1 := by
    unfold unopened
    rw [List.filter_filter]
    refine List.filter_congr fun e _ => ?_
    by_cases he : e.1 ∈ ids
    · simp [he, h he]
    · simp [he]
  rw [hsub]
  exact List.length_filter_le _ _

variable {found} in
theorem length_unopened_cons {id : Nat} {ids : List Nat} {p : Placeholder} (hn : id ∉ ids)
    (hp : found.get? id = some p) : (unopened found (id :: ids)).length < (unopened found ids).length := by
  have hmem : ∃ e ∈ unopened found ids, e.1 = id := by
    obtain ⟨e, he, -⟩ := Option.map_eq_some_iff.mp hp
    have hid : e.1 = id := by simpa using List.find?_some he
    exact ⟨e, List.mem_filter.mpr ⟨List.mem_of_find?_eq_some he, by simp [hid, hn]⟩, hid⟩
  have hsub : unopened found (id :: ids) = (unopened found ids).filter (·.1 != id) := by
    unfold unopened
    rw [List.filter_filter]
    refine List.filter_congr fun e _ => ?_
    by_cases he : e.1 = id <;> simp [he]
  obtain ⟨e, he, hid⟩ := hmem
  rw [hsub]
  exact List.length_filter_lt_length_iff_exists.mpr ⟨e, he, by simp [hid]⟩

/-- The more is open, the less there is to do. -/
theorem weightFrom_le : ∀ (tokens : List SnippetToken) {opened opened' : List (Nat × Nat)}, Within opened opened' →
    weightFrom found opened' tokens ≤ weightFrom found opened tokens
  | [], _, _, _ => Nat.le_refl _
  | .text _ :: rest, _, _, h | .var _ :: rest, _, _, h => Nat.succ_le_succ (weightFrom_le rest h)
  | .tabstop t :: rest, opened, opened', h => by
    simp only [weightFrom]
    cases hn' : opened'.lookup t.id with
    | none =>
      rw [h.lookup_eq_none hn']
      have := weightFrom_le rest h
      have := tabstopWeight_mono found (length_unopened_le found h.subset)
      dsimp only
      omega
    | some marker' =>
      cases hn : opened.lookup t.id with
      | none =>
        have hpos := tabstopWeight_pos found (unopened found (opened.map (·.1))).length
        have : weightFrom found (if marker' = t.marker then opened'.filter (·.1 != t.id) else opened') rest ≤
            weightFrom found opened rest := by
          split
          · exact weightFrom_le rest (h.filter_of_none hn)
          · exact weightFrom_le rest h
        dsimp only
        omega
      | some marker =>
        obtain rfl : marker' = marker := Option.some.inj (hn'.symm.trans (h _ _ hn))
        refine Nat.succ_le_succ ?_
        split
        · exact weightFrom_le rest (h.filter t.id)
        · exact weightFrom_le rest h

theorem weightFrom_tail_lt (token : SnippetToken) (rest : List SnippetToken) :
    weightFrom found opened rest < weightFrom found opened (token :: rest) := by
  cases token with
  | text s => exact Nat.lt_succ_self _
  | var v => exact Nat.lt_succ_self _
  | tabstop t =>
    simp only [weightFrom]
    split
    · refine Nat.lt_succ_of_le ?_
      split
      · exact weightFrom_le found rest (within_filter opened t.id)
      · exact Nat.le_refl _
    · have := tabstopWeight_pos found (unopened found (opened.map (·.1))).length
      omega

theorem weightFrom_drop_le (n : Nat) : ∀ tokens : List SnippetToken,
    weightFrom found opened (tokens.drop n) ≤ weightFrom found opened tokens := by
  induction n with
  | zero => exact fun _ => Nat.le_refl _
  | succ n ih =>
    intro tokens
    cases tokens with
    | nil => exact Nat.le_refl _
    | cons token rest => exact Nat.le_trans (ih rest) (Nat.le_of_lt (weightFrom_tail_lt found token rest))

theorem weightFrom_append_le (rest : List SnippetToken) : ∀ value : List SnippetToken,
    (∀ t, .tabstop t ∈ value → opened.lookup t.id = none) →
    weightFrom found opened (value ++ rest) ≤
      value.length * tabstopWeight found (unopened found (opened.map (·.1))).length + weightFrom found opened rest
  | [], _ => by simp
  | token :: value, h => by
    have ih := weightFrom_append_le rest value fun t ht => h t (List.mem_cons_of_mem _ ht)
    have hpos := tabstopWeight_pos found (unopened found (opened.map (·.1))).length
    rw [List.length_cons, Nat.succ_mul, List.cons_append]
    cases token with
    | text s =>
      simp only [weightFrom]
      omega
    | var v =>
      simp only [weightFrom]
      omega
    | tabstop t =>
      simp only [weightFrom, h t List.mem_cons_self]
      omega

end

/-! ## What is put in -/

section
variable {found : Dict Nat Placeholder} {opened : List (Nat × Nat)}

/-- A copy is no longer than its default, and holds no tabstop that is open. -/
theorem copyDefault_bounds (around : List Nat) : ∀ (tokens : List SnippetToken) (renamed : List (Nat × Nat))
    (next : Nat), (copyDefault around renamed next tokens).1.length ≤ tokens.length ∧
      ∀ t, .tabstop t ∈ (copyDefault around renamed next tokens).1 → t.id ∉ around
  | [], _, _ => ⟨Nat.le_refl _, fun t ht => by cases ht⟩
  | .text _ :: rest, renamed, next | .var _ :: rest, renamed, next => by
    have ih := copyDefault_bounds around rest renamed next
    exact ⟨Nat.succ_le_succ ih.1, fun t ht => ih.2 t (by simpa [copyDefault] using ht)⟩
  | .tabstop t :: rest, renamed, next => by
    unfold copyDefault
    split
    · have ih := copyDefault_bounds around rest renamed next
      exact ⟨Nat.le_succ_of_le ih.1, ih.2⟩
    · rename_i hid
      simp only [List.contains_eq_mem, decide_eq_true_eq] at hid
      have hcons : ∀ (marker : Nat) (copy : List SnippetToken), (∀ u, .tabstop u ∈ copy → u.id ∉ around) →
          ∀ u, .tabstop u ∈ SnippetToken.tabstop { marker, id := t.id } :: copy → u.id ∉ around := by
        intro marker copy hcopy u hu
        rcases List.mem_cons.mp hu with hu | hu
        · cases hu
          exact hid
        · exact hcopy u hu
      split
      · have ih := copyDefault_bounds around rest renamed next
        exact ⟨Nat.succ_le_succ ih.1, hcons _ _ ih.2⟩
      · have ih := copyDefault_bounds around rest ((t.marker, next) :: renamed) (next + 1)
        exact ⟨Nat.succ_le_succ ih.1, hcons _ _ ih.2⟩

theorem le_foldr_max {n : Nat} {ns : List Nat} (h : n ∈ ns) : n ≤ ns.foldr max 0 := by
  induction ns with
  | nil => cases h
  | cons m ns ih =>
    rw [List.foldr_cons]
    rcases List.mem_cons.mp h with rfl | h
    · exact Nat.le_max_left _ _
    · exact Nat.le_trans (ih h) (Nat.le_max_right _ _)

theorem length_default_le {id : Nat} {p : Placeholder} (hp : found.get? id = some p) :
    p.default.length ≤ longest found := by
  obtain ⟨e, he, rfl⟩ := Option.map_eq_some_iff.mp hp
  exact le_foldr_max (List.mem_map.mpr ⟨e, List.mem_of_find?_eq_some he, rfl⟩)

theorem content_bounds (transform : Transform → String → String) (p : Placeholder) (t : TabstopMark)
    (around : List Nat) (next : Nat) :
    (content transform p t around next).1.length ≤ p.default.length ∧
      ∀ u, .tabstop u ∈ (content transform p t around next).1 → u.id ∉ around := by
  obtain ⟨default, choices⟩ := p
  cases default with
  | none => exact ⟨Nat.le_refl _, fun u hu => by cases hu⟩
  | text s => exact ⟨Nat.le_refl _, fun u hu => by simp [content] at hu⟩
  | nested tokens => exact copyDefault_bounds around tokens [] next

/-! ## Steps -/

/-- What is put in weighs less than the tabstop did that is now open. -/
theorem weightFrom_open_lt {t : TabstopMark} {p : Placeholder} {value : List SnippetToken}
    (hl : opened.lookup t.id = none) (hp : found.get? t.id = some p) (hlen : value.length ≤ p.default.length)
    (hids : ∀ u, .tabstop u ∈ value → u.id ∉ t.id :: opened.map (·.1)) (rest : List SnippetToken) :
    weightFrom found ((t.id, t.marker) :: opened) (value ++ .tabstop t :: behindBody t.marker rest) <
      weightFrom found opened (.tabstop t :: rest) := by
  have hwithin : Within opened ((t.id, t.marker) :: opened) := within_cons t.marker hl
  have hself : ((t.id, t.marker) :: opened).lookup t.id = some t.marker := by simp
  have hnone : ∀ u, .tabstop u ∈ value → ((t.id, t.marker) :: opened).lookup u.id = none :=
    fun u hu => lookup_eq_none_iff.mpr (hids u hu)
  have hvalue := weightFrom_append_le found (.tabstop t :: behindBody t.marker rest) value hnone
  have hclose : weightFrom found ((t.id, t.marker) :: opened) (.tabstop t :: behindBody t.marker rest) ≤
      weightFrom found opened rest + 1 := by
    simp only [weightFrom, hself, if_true]
    exact Nat.succ_le_succ (Nat.le_trans (weightFrom_le found _ (hwithin.filter_of_none hl))
      (weightFrom_drop_le found _ _))
  have hcost := mul_tabstopWeight_le found (Nat.le_trans hlen (length_default_le hp))
    (length_unopened_cons (lookup_eq_none_iff.mp hl) hp)
  have htabstop : weightFrom found opened (.tabstop t :: rest) =
      tabstopWeight found (unopened found (opened.map (·.1))).length + weightFrom found opened rest := by
    simp only [weightFrom, hl]
  simp only [List.map_cons] at hvalue
  omega

/-- What is ahead weighs less with each step. -/
theorem weight_step {transform : Transform → String → String} {w w' : Walk}
    (h : w.step found transform = some w') : w'.weight found < w.weight found := by
  obtain ⟨passed, ahead, opened, occurrences, closings, nextMarker⟩ := w
  unfold weight
  cases ahead with
  | nil => cases h
  | cons token rest =>
    cases token with
    | text s =>
      cases h
      exact weightFrom_tail_lt found _ _
    | var v =>
      cases h
      exact weightFrom_tail_lt found _ _
    | tabstop t =>
      simp only [step] at h
      cases hl : opened.lookup t.id with
      | some marker =>
        simp only [hl] at h
        simp only [weightFrom, hl]
        split at h <;> cases h <;> simp_all
      | none =>
        simp only [hl] at h
        cases hp : found.get? t.id with
        | none =>
          simp only [hp, Option.some.injEq] at h
          subst h
          have hle := weightFrom_le found rest (within_cons t.marker hl)
          have hpos := tabstopWeight_pos found (unopened found (opened.map (·.1))).length
          simp only [weightFrom, hl]
          omega
        | some p =>
          simp only [hp, Option.some.injEq] at h
          subst h
          obtain ⟨hlen, hids⟩ := content_bounds transform p t (((t.id, t.marker) :: opened).map (·.1)) nextMarker
          exact weightFrom_open_lt hl hp hlen hids rest

end

end Walk

end Expansion

end Scribe
