import Scribe.Dict
import Mathlib.Data.List.Forall2
import Mathlib.Data.List.Nodup
import Mathlib.Data.String.Basic

/-!
# Facts about dictionaries
-/

namespace Scribe

theorem String.lt_total (a b : String) (hab : ¬ a < b) (hba : ¬ b < a) : a = b :=
  le_antisymm (not_lt.mp hba) (not_lt.mp hab)

end Scribe

namespace Scribe.Dict

variable {κ α : Type}

theorem mem_entries_of_get? [DecidableEq κ] {d : Dict κ α} {k : κ} {v : α} (h : d.get? k = some v) :
    (k, v) ∈ d.entries := by
  simp only [get?, Option.map_eq_some_iff] at h
  obtain ⟨e, he, rfl⟩ := h
  have hk : e.1 = k := by simpa using List.find?_some he
  exact hk ▸ List.mem_of_find?_eq_some he

theorem mem_values_of_get? [DecidableEq κ] {d : Dict κ α} {k : κ} {v : α} (h : d.get? k = some v) :
    v ∈ d.values := List.mem_map_of_mem (mem_entries_of_get? h)

theorem contains_eq_true_iff [DecidableEq κ] {d : Dict κ α} {k : κ} : d.contains k = true ↔ k ∈ d.keys := by
  simp only [contains, get?, Option.isSome_map, List.find?_isSome, keys, List.mem_map, decide_eq_true_eq]

theorem get?_filterKeys [DecidableEq κ] (d : Dict κ α) (keep : κ → Bool) (k : κ) :
    (d.filterKeys keep).get? k = if keep k then d.get? k else none := by
  have hfind : ∀ l : List (κ × α), (l.filter (keep ·.1)).find? (·.1 = k) =
      if keep k then l.find? (·.1 = k) else none := by
    intro l
    rw [List.find?_filter]
    split
    · rename_i hk
      refine congrArg (fun p => l.find? p) (funext fun e => ?_)
      by_cases he : e.1 = k
      · simp [he, hk]
      · simp [he]
    · rename_i hk
      refine List.find?_eq_none.mpr fun e _ => ?_
      by_cases he : e.1 = k
      · simp [he, hk]
      · simp [he]
  rw [get?, filterKeys, hfind]
  split <;> rfl

theorem mem_of_filterKeys_eq {d d' : Dict κ α} {keep : κ → Bool} {e : κ × α} (h : d.filterKeys keep = d')
    (he : e ∈ d.entries) (hkeep : keep e.1 = true) : e ∈ d'.entries := by
  rw [← h]
  exact List.mem_filter.mpr ⟨he, hkeep⟩

/-- Other keys and values in the same order. -/
def mapEntries {β : Type} (d : Dict κ α) (f : κ → κ) (g : α → β) : Dict κ β :=
  ⟨d.entries.map fun e => (f e.1, g e.2)⟩

section
variable {β : Type} {f : κ → κ} (g : α → β)

theorem keys_mapEntries (d : Dict κ α) : (d.mapEntries f g).keys = d.keys.map f := by
  simp [mapEntries, keys]

theorem pairwise_mapEntries [LT κ] (hf : ∀ a b, a < b → f a < f b) {d : Dict κ α} (h : d.keys.Pairwise (· < ·)) :
    (d.mapEntries f g).keys.Pairwise (· < ·) := by
  rw [keys_mapEntries]
  exact List.pairwise_map.mpr (h.imp fun hlt => hf _ _ hlt)

theorem get?_mapEntries [DecidableEq κ] (hf : f.Injective) (d : Dict κ α) (k : κ) :
    (d.mapEntries f g).get? (f k) = (d.get? k).map g := by
  simp only [mapEntries, get?, List.find?_map, Option.map_map, Function.comp_def, hf.eq_iff]

end

theorem get?_mapValues [DecidableEq κ] {β : Type} (d : Dict κ α) (f : α → β) (k : κ) :
    (d.mapValues f).get? k = (d.get? k).map f := by
  simp only [mapValues, get?, List.find?_map, Option.map_map, Function.comp_def]

theorem contains_mapValues [DecidableEq κ] {β : Type} (d : Dict κ α) (f : α → β) (k : κ) :
    (d.mapValues f).contains k = d.contains k := by
  rw [contains, contains, get?_mapValues, Option.isSome_map]

theorem get?_modify [DecidableEq κ] (d : Dict κ α) (k k' : κ) (f : α → α) :
    (d.modify k f).get? k' = if k' = k then (d.get? k').map f else d.get? k' := by
  have hcomp : ((fun e : κ × α => decide (e.1 = k')) ∘ fun e => if e.1 = k then (e.1, f e.2) else e) =
      fun e => decide (e.1 = k') := funext fun e => by
    simp only [Function.comp_apply]
    split <;> rfl
  rw [modify, get?, List.find?_map, hcomp, get?]
  cases hfind : d.entries.find? (·.1 = k') with
  | none => simp
  | some e =>
    have hkey : e.1 = k' := by simpa using List.find?_some hfind
    simp only [Option.map_some, hkey]
    split <;> rfl

theorem keys_modify [DecidableEq κ] (d : Dict κ α) (k : κ) (f : α → α) : (d.modify k f).keys = d.keys := by
  rw [modify, keys, keys, List.map_map]
  refine List.map_congr_left fun e _ => ?_
  simp only [Function.comp_apply]
  split <;> rfl

theorem mapValues_insert {β : Type} [LT κ] [DecidableLT κ] (d : Dict κ α) (f : α → β) (k : κ) (v : α) :
    (d.insert k v).mapValues f = (d.mapValues f).insert k (f v) := by
  have hentries : ∀ l : List (κ × α), (insertEntry k v l).map (fun e => (e.1, f e.2)) =
      insertEntry k (f v) (l.map fun e => (e.1, f e.2)) := by
    intro l
    induction l with
    | nil => rfl
    | cons e rest ih =>
      simp only [insertEntry, List.map_cons]
      split
      · rfl
      · split
        · rw [List.map_cons, ih]
        · rfl
  exact congrArg mk (hentries d.entries)

theorem mapValues_insertMany {β : Type} [LT κ] [DecidableLT κ] (f : α → β) : ∀ (pairs : List (κ × α)) (d : Dict κ α),
    (d.insertMany pairs).mapValues f = (d.mapValues f).insertMany (pairs.map fun e => (e.1, f e.2))
  | [], _ => rfl
  | e :: rest, d => by
    have hrest := mapValues_insertMany f rest (d.insert e.1 e.2)
    rw [mapValues_insert] at hrest
    exact hrest

section
variable [LT κ] [DecidableLT κ]

theorem mem_insertEntry {k : κ} {v : α} {e : κ × α} : ∀ {l : List (κ × α)}, e ∈ insertEntry k v l →
    e = (k, v) ∨ e ∈ l
  | [], h => .inl (by simpa [insertEntry] using h)
  | (k', v') :: rest, h => by
    simp only [insertEntry] at h
    split at h
    · exact List.mem_cons.mp h
    · split at h
      · rcases List.mem_cons.mp h with h | h
        · exact .inr (by simp [h])
        · exact (mem_insertEntry h).imp_right (List.mem_cons_of_mem _)
      · exact (List.mem_cons.mp h).imp_right (List.mem_cons_of_mem _)

theorem mem_insert {d : Dict κ α} {k : κ} {v : α} {e : κ × α} (h : e ∈ (d.insert k v).entries) :
    e = (k, v) ∨ e ∈ d.entries := mem_insertEntry h

theorem mem_insertMany {e : κ × α} : ∀ {pairs : List (κ × α)} {d : Dict κ α}, e ∈ (d.insertMany pairs).entries →
    e ∈ pairs ∨ e ∈ d.entries
  | [], _, h => .inr h
  | pair :: pairs, d, h => by
    have hrest : e ∈ ((d.insert pair.1 pair.2).insertMany pairs).entries := h
    rcases mem_insertMany hrest with hpairs | hinsert
    · exact .inl (List.mem_cons_of_mem pair hpairs)
    · rcases mem_insert hinsert with rfl | hd
      · exact .inl List.mem_cons_self
      · exact .inr hd

theorem pairwise_insertEntry (trans : ∀ a b c : κ, a < b → b < c → a < c)
    (total : ∀ a b : κ, ¬ a < b → ¬ b < a → a = b) (k : κ) (v : α) : ∀ {l : List (κ × α)},
    (l.map (·.1)).Pairwise (· < ·) → ((insertEntry k v l).map (·.1)).Pairwise (· < ·)
  | [], _ => List.pairwise_singleton _ _
  | (k', v') :: rest, h => by
    obtain ⟨hfirst, hrest⟩ := List.pairwise_cons.mp h
    unfold insertEntry
    split
    · rename_i hlt
      refine List.pairwise_cons.mpr ⟨fun m hm => ?_, h⟩
      rcases List.mem_cons.mp hm with rfl | hm
      · exact hlt
      · exact trans _ _ _ hlt (hfirst m hm)
    · rename_i hge
      split
      · rename_i hlt
        refine List.pairwise_cons.mpr ⟨fun m hm => ?_, pairwise_insertEntry trans total k v hrest⟩
        obtain ⟨e, he, rfl⟩ := List.mem_map.mp hm
        rcases mem_insertEntry he with rfl | he
        · exact hlt
        · exact hfirst e.1 (List.mem_map_of_mem he)
      · rename_i hle
        obtain rfl := total k k' hge hle
        exact h

theorem pairwise_insertMany (trans : ∀ a b c : κ, a < b → b < c → a < c)
    (total : ∀ a b : κ, ¬ a < b → ¬ b < a → a = b) : ∀ {pairs : List (κ × α)} {d : Dict κ α},
    d.keys.Pairwise (· < ·) → (d.insertMany pairs).keys.Pairwise (· < ·)
  | [], _, h => h
  | e :: _, d, h => pairwise_insertMany trans total (d := d.insert e.1 e.2) (pairwise_insertEntry trans total e.1 e.2 h)

theorem pairwise_ofList (trans : ∀ a b c : κ, a < b → b < c → a < c) (total : ∀ a b : κ, ¬ a < b → ¬ b < a → a = b)
    (pairs : List (κ × α)) : (ofList pairs).keys.Pairwise (· < ·) :=
  pairwise_insertMany trans total List.Pairwise.nil

/-- A key behind all others goes to the end. -/
theorem insertEntry_of_lt (asymm : ∀ {a b : κ}, a < b → ¬ b < a) {k : κ} {v : α} : ∀ {l : List (κ × α)},
    (∀ e ∈ l, e.1 < k) → insertEntry k v l = l ++ [(k, v)]
  | [], _ => rfl
  | e :: rest, h => by
    obtain ⟨hfirst, hrest⟩ := List.forall_mem_cons.mp h
    rw [insertEntry, if_neg (asymm hfirst), if_pos hfirst, insertEntry_of_lt asymm hrest, List.cons_append]

theorem insertMany_of_lt (asymm : ∀ {a b : κ}, a < b → ¬ b < a) : ∀ {new old : List (κ × α)},
    ((old ++ new).map (·.1)).Pairwise (· < ·) → (mk old).insertMany new = mk (old ++ new)
  | [], old, _ => by simp [insertMany]
  | e :: new, old, h => by
    have hlt : ∀ e' ∈ old, e'.1 < e.1 := fun e' he' => by
      rw [List.map_append, List.pairwise_append] at h
      exact h.2.2 e'.1 (List.mem_map_of_mem he') e.1 (by simp)
    have hnext : (mk (old ++ [e])).insertMany new = mk ((old ++ [e]) ++ new) :=
      insertMany_of_lt asymm (by simpa using h)
    rw [List.append_assoc, List.singleton_append] at hnext
    rw [insertMany, List.foldl_cons, insert, insertEntry_of_lt asymm hlt]
    exact hnext

/-- A dictionary is made again from its entries. -/
theorem ofList_entries (asymm : ∀ {a b : κ}, a < b → ¬ b < a) {d : Dict κ α} (h : d.keys.Pairwise (· < ·)) :
    ofList d.entries = d := insertMany_of_lt asymm h

section
variable [DecidableEq κ] (irrefl : ∀ a : κ, ¬ a < a) (total : ∀ a b : κ, ¬ a < b → ¬ b < a → a = b)

include irrefl in
theorem get?_insert_self (d : Dict κ α) (k : κ) (v : α) : (d.insert k v).get? k = some v := by
  obtain ⟨l⟩ := d
  simp only [get?, insert]
  induction l with
  | nil => simp [insertEntry]
  | cons e rest ih =>
    obtain ⟨k', v'⟩ := e
    simp only [insertEntry]
    split
    · simp
    · split
      · rename_i hlt
        have hne : k' ≠ k := fun he => irrefl k (he ▸ hlt)
        rw [List.find?_cons_of_neg (by simpa using hne)]
        exact ih
      · simp

include total in
theorem get?_insert_of_ne (d : Dict κ α) {k k' : κ} (v : α) (hne : k' ≠ k) :
    (d.insert k v).get? k' = d.get? k' := by
  obtain ⟨l⟩ := d
  simp only [get?, insert]
  induction l with
  | nil => simp [insertEntry, hne.symm]
  | cons e rest ih =>
    obtain ⟨k₁, v₁⟩ := e
    simp only [insertEntry]
    split
    · rw [List.find?_cons_of_neg (by simpa using hne.symm)]
    · rename_i hge
      split
      · by_cases hk : k₁ = k'
        · simp [hk]
        · rw [List.find?_cons_of_neg (by simpa using hk), List.find?_cons_of_neg (by simpa using hk)]
          exact ih
      · rename_i hle
        have he : k = k₁ := total k k₁ hge hle
        subst he
        rw [List.find?_cons_of_neg (by simpa using hne.symm), List.find?_cons_of_neg (by simpa using hne.symm)]

include irrefl total in
theorem get?_insert (d : Dict κ α) (k k' : κ) (v : α) :
    (d.insert k v).get? k' = if k' = k then some v else d.get? k' := by
  by_cases h : k' = k
  · subst h
    rw [if_pos rfl, get?_insert_self irrefl]
  · rw [if_neg h, get?_insert_of_ne total d v h]

include irrefl total in
/-- The last pair with the key counts. -/
theorem get?_insertMany (k : κ) : ∀ (pairs : List (κ × α)) (d : Dict κ α),
    (d.insertMany pairs).get? k = ((pairs.reverse.find? (·.1 = k)).map (·.2)).or (d.get? k)
  | [], _ => rfl
  | e :: pairs, d => by
    rw [insertMany, List.foldl_cons, ← insertMany, get?_insertMany k pairs, List.reverse_cons, List.find?_append]
    cases pairs.reverse.find? (·.1 = k) with
    | some e' => rfl
    | none =>
      by_cases he : e.1 = k
      · subst he
        simp [get?_insert_self irrefl]
      · simp [he, get?_insert_of_ne total d e.2 (Ne.symm he)]

include irrefl total in
/-- Where no key comes twice, each pair counts. -/
theorem get?_ofList_of_nodup {pairs : List (κ × α)} (h : (pairs.map (·.1)).Nodup) {pair : κ × α} (hpair : pair ∈ pairs) :
    (ofList pairs).get? pair.1 = some pair.2 := by
  have hnone : (empty : Dict κ α).get? pair.1 = none := rfl
  have hfind : pairs.reverse.find? (·.1 = pair.1) = some pair := by
    cases hfound : pairs.reverse.find? (·.1 = pair.1) with
    | none =>
      have hkey := List.find?_eq_none.mp hfound pair (List.mem_reverse.mpr hpair)
      simp at hkey
    | some e =>
      have hkey : e.1 = pair.1 := by simpa using List.find?_some hfound
      have hmem := List.mem_reverse.mp (List.mem_of_find?_eq_some hfound)
      rw [List.inj_on_of_nodup_map h hmem hpair hkey]
  rw [ofList, get?_insertMany irrefl total, hnone, Option.or_none, hfind]
  rfl

end

end

/-! ## Ordered dictionaries -/

section
variable [LT κ] [DecidableEq κ] (irrefl : ∀ a : κ, ¬ a < a)

omit [DecidableEq κ] in
include irrefl in
theorem nodup_keys {d : Dict κ α} (h : d.keys.Pairwise (· < ·)) : d.keys.Nodup := by
  refine List.nodup_iff_pairwise_ne.mpr (h.imp ?_)
  rintro a b hlt rfl
  exact irrefl a hlt

include irrefl in
theorem get?_eq_some_iff {d : Dict κ α} (h : d.keys.Pairwise (· < ·)) {k : κ} {v : α} :
    d.get? k = some v ↔ (k, v) ∈ d.entries := by
  refine ⟨mem_entries_of_get?, fun hmem => ?_⟩
  cases hfind : d.entries.find? (·.1 = k) with
  | none =>
    have hk := List.find?_eq_none.mp hfind (k, v) hmem
    simp at hk
  | some e =>
    have hk : e.1 = k := by simpa using List.find?_some hfind
    have hkey : e.1 = (k, v).1 := hk
    rw [get?, hfind, List.inj_on_of_nodup_map (nodup_keys irrefl h) (List.mem_of_find?_eq_some hfind) hmem hkey]
    rfl

include irrefl in
/-- Two dictionaries with the same values are one. -/
theorem ext_of_get? {d d' : Dict κ α} (h : d.keys.Pairwise (· < ·)) (h' : d'.keys.Pairwise (· < ·))
    (trans : ∀ a b c : κ, a < b → b < c → a < c) (heq : ∀ k, d.get? k = d'.get? k) : d = d' := by
  have hperm : d.entries.Perm d'.entries := by
    refine (List.perm_ext_iff_of_nodup (nodup_keys irrefl h).of_map (nodup_keys irrefl h').of_map).mpr fun e => ?_
    rw [← get?_eq_some_iff irrefl h, ← get?_eq_some_iff irrefl h', heq]
  have hanti : ∀ a b : κ × α, a ∈ d.entries → b ∈ d'.entries → a.1 < b.1 → b.1 < a.1 → a = b :=
    fun a b _ _ hab hba => absurd (trans _ _ _ hab hba) (irrefl _)
  have hentries := hperm.eq_of_pairwise hanti (List.pairwise_map.mp h) (List.pairwise_map.mp h')
  cases d
  exact congrArg mk hentries

omit [DecidableEq κ] in
theorem pairwise_filterKeys {d : Dict κ α} (h : d.keys.Pairwise (· < ·)) (keep : κ → Bool) :
    (d.filterKeys keep).keys.Pairwise (· < ·) := h.sublist (List.filter_sublist.map _)

include irrefl in
/-- What lists hold together does not depend on the keys with an empty one. -/
theorem flatten_values_eq (trans : ∀ a b c : κ, a < b → b < c → a < c)
    {d d' : Dict κ (List α)} (h : d.keys.Pairwise (· < ·)) (h' : d'.keys.Pairwise (· < ·))
    (heq : ∀ k, (d.get? k).getD [] = (d'.get? k).getD []) : d.values.flatten = d'.values.flatten := by
  let filled (d : Dict κ (List α)) : Dict κ (List α) := ⟨d.entries.filter fun e => !e.2.isEmpty⟩
  have hflatten (d : Dict κ (List α)) : (filled d).values.flatten = d.values.flatten := by
    rw [← List.flatten_filter_not_isEmpty (L := d.values)]
    refine congrArg List.flatten ?_
    rw [values, values, List.filter_map]
    rfl
  have hordered {d : Dict κ (List α)} (h : d.keys.Pairwise (· < ·)) : (filled d).keys.Pairwise (· < ·) :=
    h.sublist (List.filter_sublist.map _)
  have hget {d : Dict κ (List α)} (h : d.keys.Pairwise (· < ·)) (k : κ) (l : List α) :
      (filled d).get? k = some l ↔ (d.get? k).getD [] = l ∧ l ≠ [] := by
    rw [get?_eq_some_iff irrefl (hordered h), List.mem_filter, ← get?_eq_some_iff irrefl h]
    cases d.get? k with
    | none =>
      refine iff_of_false (fun h => nomatch h.1) ?_
      rintro ⟨rfl, hne⟩
      exact hne rfl
    | some l' => simp
  rw [← hflatten d, ← hflatten d']
  refine congrArg (fun d : Dict κ (List α) => d.values.flatten) (ext_of_get? irrefl (hordered h) (hordered h') trans fun k => ?_)
  refine Option.ext fun l => ?_
  rw [hget h, hget h', heq]

end

/-! ## Two dictionaries -/

/-- Two dictionaries with the same keys in the same order are related key by key. -/
theorem rel_get? [DecidableEq κ] {β : Type} {R : κ × α → κ × β → Prop} {d : Dict κ α} {d' : Dict κ β}
    (h : List.Forall₂ (fun e e' => e'.1 = e.1 ∧ R e e') d.entries d'.entries) (k : κ) :
    Option.Rel (fun v v' => R (k, v) (k, v')) (d.get? k) (d'.get? k) := by
  obtain ⟨entries⟩ := d
  obtain ⟨entries'⟩ := d'
  simp only [get?] at h ⊢
  induction h with
  | nil => exact .none
  | @cons e e' rest rest' he _ ih =>
    obtain ⟨k₁, v⟩ := e
    obtain ⟨k₂, v'⟩ := e'
    obtain ⟨rfl, hR⟩ := he
    by_cases hk : k₂ = k
    · subst hk
      simpa using Option.Rel.some hR
    · simpa [hk] using ih

section
variable [LT κ] [DecidableLT κ] [DecidableEq κ] (irrefl : ∀ a : κ, ¬ a < a)
  (trans : ∀ a b c : κ, a < b → b < c → a < c) (total : ∀ a b : κ, ¬ a < b → ¬ b < a → a = b)

include irrefl trans total in
theorem get?_insertMany_entries (d : Dict κ α) {d' : Dict κ α} (h' : d'.keys.Pairwise (· < ·)) (k : κ) :
    (d.insertMany d'.entries).get? k = (d'.get? k).or (d.get? k) := by
  have hself := congrArg (get? · k) (ofList_entries (fun hab hba => irrefl _ (trans _ _ _ hab hba)) h')
  have hnone : (empty : Dict κ α).get? k = none := rfl
  simp only [ofList, get?_insertMany irrefl total, hnone, Option.or_none] at hself
  rw [get?_insertMany irrefl total, hself]

variable {d d' : Dict κ α} (h : d.keys.Pairwise (· < ·)) (h' : d'.keys.Pairwise (· < ·))
include irrefl trans total h h'

theorem filterKeys_insertMany_new : (d.insertMany d'.entries).filterKeys d'.contains = d' := by
  refine ext_of_get? irrefl (pairwise_filterKeys (pairwise_insertMany trans total h) _) h' trans fun k => ?_
  rw [get?_filterKeys, get?_insertMany_entries irrefl trans total d h', contains]
  cases d'.get? k <;> rfl

theorem filterKeys_insertMany_old (hfresh : ∀ k, d'.contains k = true → d.contains k = false) :
    (d.insertMany d'.entries).filterKeys (!d'.contains ·) = d := by
  refine ext_of_get? irrefl (pairwise_filterKeys (pairwise_insertMany trans total h) _) h trans fun k => ?_
  rw [get?_filterKeys, get?_insertMany_entries irrefl trans total d h']
  cases hk : d'.contains k with
  | true =>
    have hnone : d.get? k = none := by simpa [contains] using hfresh k hk
    simp [hnone]
  | false =>
    have hnone : d'.get? k = none := by simpa [contains] using hk
    simp [hnone]

end

end Scribe.Dict
