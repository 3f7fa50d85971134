import Scribe.Proofs.Dict
import Scribe.Proofs.Highlight.Renaming

/-!
# The states of inline rules

A state and the states of its inline rules go into the compiled table together, in order of the states of
the table, and of two with one name the later one stays. So what a name stands for is settled by the states
that make it, and those of an embedded table keep their order behind a label.
-/

namespace Scribe

namespace RuleTable

/-- A state and those of its inline rules. -/
def piecesOf (e : String × List Entry) : List (String × List Entry) :=
  (e.1, (Entry.hoistAll e.1 0 e.2).1) :: (Entry.hoistAll e.1 0 e.2).2.2

variable (t : RuleTable)

theorem hoisted_eq : t.hoisted = Dict.ofList (t.states.entries.flatMap piecesOf) := by
  have hfold : ∀ (entries : List (String × List Entry)) (d : Dict String (List Entry)),
      entries.foldl (fun states e => (states.insert e.1 (Entry.hoistAll e.1 0 e.2).1).insertMany
        (Entry.hoistAll e.1 0 e.2).2.2) d = d.insertMany (entries.flatMap piecesOf) := by
    intro entries
    induction entries with
    | nil => intro d; rfl
    | cons e rest ih =>
      intro d
      rw [List.foldl_cons, ih, List.flatMap_cons, piecesOf]
      simp only [Dict.insertMany, List.cons_append, List.foldl_cons, List.foldl_append]
  exact hfold t.states.entries Dict.empty

theorem get?_hoisted (name : String) : t.hoisted.get? name =
    (t.states.entries.reverse.findSome? fun e => (piecesOf e).reverse.find? (·.1 = name)).map (·.2) := by
  have hnone : (Dict.empty : Dict String (List Entry)).get? name = none := rfl
  rw [hoisted_eq, Dict.ofList, Dict.get?_insertMany lt_irrefl String.lt_total, hnone, Option.or_none,
    List.reverse_flatMap, List.find?_flatMap]
  rfl

theorem contains_hoisted {name : String} :
    t.hoisted.contains name = true ↔ ∃ e ∈ t.states.entries, ∃ piece ∈ piecesOf e, piece.1 = name := by
  simp [Dict.contains, get?_hoisted, List.findSome?_isSome_iff]

variable {t} in
theorem contains_hoisted_of_contains {name : String} (h : t.states.contains name = true) :
    t.hoisted.contains name = true := by
  obtain ⟨e, he, hname⟩ := List.mem_map.mp (Dict.contains_eq_true_iff.mp h)
  exact t.contains_hoisted.mpr ⟨e, he, _, List.mem_cons_self, hname⟩

theorem pairwise_hoisted : t.hoisted.keys.Pairwise (· < ·) := by
  rw [hoisted_eq]
  exact Dict.pairwise_ofList (fun _ _ _ => lt_trans) String.lt_total _

variable {t} in
theorem exists_piece_of_get?_hoisted {name : String} {entries : List Entry} (h : t.hoisted.get? name = some entries) :
    ∃ e ∈ t.states.entries, (name, entries) ∈ piecesOf e := by
  rw [get?_hoisted, Option.map_eq_some_iff] at h
  obtain ⟨piece, hpiece, rfl⟩ := h
  obtain ⟨e, he, hfind⟩ := List.exists_of_findSome?_eq_some hpiece
  have hname : piece.1 = name := by simpa using List.find?_some hfind
  exact ⟨e, List.mem_reverse.mp he, hname ▸ List.mem_reverse.mp (List.mem_of_find?_eq_some hfind)⟩

theorem plain_hoisted {name : String} {entries : List Entry} (h : t.hoisted.get? name = some entries) :
    ∀ e ∈ entries, e.Plain := by
  obtain ⟨e, -, hmem⟩ := exists_piece_of_get?_hoisted h
  obtain ⟨hown, hinner⟩ := Entry.hoistAll_plain e.1 0 e.2
  rcases List.mem_cons.mp hmem with hmem | hmem
  · obtain ⟨-, rfl⟩ := Prod.mk.inj hmem
    exact hown
  · exact hinner _ hmem

variable {t} in
/-- States that do not make the name have no say in what it stands for. -/
theorem get?_hoisted_filterKeys {name : String} (keep : String → Bool)
    (h : ∀ e ∈ t.states.entries, keep e.1 = false → ∀ piece ∈ piecesOf e, piece.1 ≠ name) :
    t.hoisted.get? name = (mk (t.states.filterKeys keep)).hoisted.get? name := by
  have hfind : ∀ entries : List (String × List Entry),
      (∀ e ∈ entries, keep e.1 = false → ∀ piece ∈ piecesOf e, piece.1 ≠ name) →
      entries.findSome? (fun e => (piecesOf e).reverse.find? (·.1 = name)) =
        (entries.filter (keep ·.1)).findSome? fun e => (piecesOf e).reverse.find? (·.1 = name) := by
    intro entries
    induction entries with
    | nil => intro _; rfl
    | cons e rest ih =>
      intro h
      obtain ⟨he, hrest⟩ := List.forall_mem_cons.mp h
      cases hk : keep e.1 with
      | true => rw [List.filter_cons, if_pos hk, List.findSome?_cons, List.findSome?_cons, ih hrest]
      | false =>
        have hnone : (piecesOf e).reverse.find? (·.1 = name) = none :=
          List.find?_eq_none.mpr fun piece hp => by simpa using he hk piece (List.mem_reverse.mp hp)
        rw [List.filter_cons_of_neg (by simp [hk]), List.findSome?_cons, hnone, ih hrest]
  rw [get?_hoisted, get?_hoisted, hfind _ fun e he => h e (List.mem_reverse.mp he), List.filter_reverse]
  rfl

/-! ## Renamed tables -/

section
variable (label : String)

theorem append_injective : Function.Injective (label ++ ·) := fun _ _ h => (String.append_right_inj label).mp h

theorem append_lt_append {a b : String} (h : a < b) : label ++ a < label ++ b := by
  rw [String.lt_iff_toList_lt, String.toList_append, String.toList_append]
  exact List.append_left_lt (String.lt_iff_toList_lt.mp h)

theorem piecesOf_rename (e : String × List Entry) : piecesOf (label ++ e.1, Entry.renameAll (label ++ ·) e.2) =
    Entry.renamePieces (label ++ ·) (piecesOf e) := by
  simp only [piecesOf, Entry.hoistAll_rename, Entry.renamePieces, List.map_cons]

/-- A label in front of all states of a table comes in front of all states of the compiled one. -/
theorem get?_hoisted_rename (name : String) : (t.rename (label ++ ·)).hoisted.get? (label ++ name) =
    (t.hoisted.get? name).map (Entry.renameAll (label ++ ·)) := by
  have hfind : ∀ pieces : List (String × List Entry),
      (Entry.renamePieces (label ++ ·) pieces).find? (·.1 = label ++ name) =
        (pieces.find? (·.1 = name)).map fun e => (label ++ e.1, Entry.renameAll (label ++ ·) e.2) := by
    intro pieces
    simp only [Entry.renamePieces, List.find?_map, Function.comp_def, String.append_right_inj]
  simp only [get?_hoisted, rename, Dict.mapEntries, ← List.map_reverse, List.findSome?_map, Function.comp_def,
    piecesOf_rename]
  have hreverse : ∀ e, (Entry.renamePieces (label ++ ·) (piecesOf e)).reverse =
      Entry.renamePieces (label ++ ·) (piecesOf e).reverse := fun e => List.map_reverse.symm
  simp only [hreverse, hfind, List.map_findSome?, Function.comp_def, Option.map_map]

theorem exists_of_contains_hoisted_rename {name : String}
    (h : (t.rename (label ++ ·)).hoisted.contains name = true) :
    ∃ n, t.hoisted.contains n = true ∧ label ++ n = name := by
  obtain ⟨e', he', piece', hpiece', rfl⟩ := (contains_hoisted _).mp h
  obtain ⟨e, he, rfl⟩ := List.mem_map.mp he'
  rw [piecesOf_rename, Entry.renamePieces] at hpiece'
  obtain ⟨piece, hpiece, rfl⟩ := List.mem_map.mp hpiece'
  exact ⟨piece.1, t.contains_hoisted.mpr ⟨e, he, piece, hpiece, rfl⟩, rfl⟩

end

/-! ## Embedded tables -/

section
variable {host inner : RuleTable} {label : String}

theorem embed_eq (host : RuleTable) (label : String) (inner : RuleTable) : host.embed label inner [] =
    ⟨host.states.insertMany (inner.states.mapEntries (label ++ ·) (Entry.relabelAll label)).entries⟩ := rfl

theorem contains_embed (label : String) (inner : RuleTable) {name : String}
    (h : host.states.contains name = true) : (host.embed label inner []).states.contains name = true := by
  rw [embed_eq, Dict.contains, Dict.get?_insertMany lt_irrefl String.lt_total, Option.isSome_or]
  rw [Dict.contains] at h
  simp [h]

/-- Where no state that the table mentions begins with the label, embedding the table renames it. -/
theorem mapEntries_relabelAll (hlabel : ∀ n ∈ inner.mentions, labelled label n = label ++ n) :
    inner.states.mapEntries (label ++ ·) (Entry.relabelAll label) = (inner.rename (label ++ ·)).states := by
  refine congrArg Dict.mk (List.map_congr_left fun e he => congrArg (Prod.mk _) ?_)
  rw [Entry.relabelAll_eq_renameAll, Entry.renameAll_eq_renameAll_iff]
  exact fun n hn => hlabel n (List.mem_flatMap.mpr ⟨e, he, hn⟩)

theorem state?_embed (host : RuleTable) (label : String) {inner : RuleTable}
    (hinner : inner.states.keys.Pairwise (· < ·)) {name : String} {entries : List Entry}
    (h : inner.state? name = some entries) :
    (host.embed label inner []).state? (label ++ name) = some (Entry.renameAll (labelled label) entries) := by
  have hpairs := Dict.pairwise_mapEntries (Entry.relabelAll label) (fun _ _ => append_lt_append label) hinner
  have hget := Dict.get?_mapEntries (Entry.relabelAll label) (append_injective label) inner.states name
  rw [state?, embed_eq, Dict.get?_insertMany_entries lt_irrefl (fun _ _ _ => lt_trans) String.lt_total _ hpairs, hget,
    ← Entry.relabelAll_eq_renameAll]
  rw [state?] at h
  rw [h]
  rfl

/-- An embedded state is the renamed one for all states of a table only if no state that the table mentions begins with
the label. -/
theorem state?_embed_iff (host : RuleTable) (label : String) {inner : RuleTable}
    (hinner : inner.states.keys.Pairwise (· < ·)) :
    (∀ name entries, inner.state? name = some entries →
      (host.embed label inner []).state? (label ++ name) = some (Entry.renameAll (label ++ ·) entries)) ↔
      ∀ n ∈ inner.mentions, labelled label n = label ++ n := by
  constructor
  · intro h n hn
    obtain ⟨⟨name, entries⟩, he, hn⟩ := List.mem_flatMap.mp hn
    have hstate := (Dict.get?_eq_some_iff lt_irrefl hinner).mpr he
    have heq := h name entries hstate
    rw [state?_embed host label hinner hstate, Option.some.injEq, Entry.renameAll_eq_renameAll_iff] at heq
    exact heq n hn
  · intro h name entries hstate
    rw [state?_embed host label hinner hstate, Option.some.injEq, Entry.renameAll_eq_renameAll_iff]
    exact fun n hn => h n (List.mem_flatMap.mpr ⟨(name, entries), Dict.mem_entries_of_get? hstate, hn⟩)

end

section
variable {host inner : RuleTable} {label : String} (hhost : host.states.keys.Pairwise (· < ·))
  (hinner : inner.states.keys.Pairwise (· < ·)) (hlabel : ∀ n ∈ inner.mentions, labelled label n = label ++ n)
  (hfresh : ∀ n, inner.hoisted.contains n = true → host.hoisted.contains (label ++ n) = false)
include hhost hinner hlabel hfresh

/-- The states of an embedded table and those of its host lie apart, each in its order. -/
theorem filterKeys_embed :
    (host.embed label inner []).states.filterKeys (inner.rename (label ++ ·)).states.contains =
        (inner.rename (label ++ ·)).states ∧
      (host.embed label inner []).states.filterKeys (!(inner.rename (label ++ ·)).states.contains ·) = host.states := by
  have hrenamed : (inner.rename (label ++ ·)).states.keys.Pairwise (· < ·) :=
    Dict.pairwise_mapEntries _ (fun _ _ => append_lt_append label) hinner
  have happart : ∀ k, (inner.rename (label ++ ·)).states.contains k = true → host.states.contains k = false := by
    intro k hk
    rw [Dict.contains_eq_true_iff, rename, Dict.keys_mapEntries] at hk
    obtain ⟨n, hn, rfl⟩ := List.mem_map.mp hk
    have hfresh' := hfresh n (contains_hoisted_of_contains (Dict.contains_eq_true_iff.mpr hn))
    by_contra hc
    rw [contains_hoisted_of_contains (Bool.of_not_eq_false hc)] at hfresh'
    cases hfresh'
  rw [embed_eq, mapEntries_relabelAll hlabel]
  exact ⟨Dict.filterKeys_insertMany_new lt_irrefl (fun _ _ _ => lt_trans) String.lt_total hhost hrenamed,
    Dict.filterKeys_insertMany_old lt_irrefl (fun _ _ _ => lt_trans) String.lt_total hhost hrenamed happart⟩

theorem get?_hoisted_embed_inner {name : String} {entries : List Entry} (h : inner.hoisted.get? name = some entries) :
    (host.embed label inner []).hoisted.get? (label ++ name) = some (Entry.renameAll (label ++ ·) entries) := by
  obtain ⟨hnew, hold⟩ := filterKeys_embed hhost hinner hlabel hfresh
  rw [get?_hoisted_filterKeys (inner.rename (label ++ ·)).states.contains, hnew]
  · exact (get?_hoisted_rename inner label name).trans (by rw [h]; rfl)
  intro e he hkeep piece hpiece hname
  have hmem := Dict.mem_of_filterKeys_eq hold he (by simp [hkeep])
  have hcontains := host.contains_hoisted.mpr ⟨e, hmem, piece, hpiece, hname⟩
  rw [hfresh name (by simp [Dict.contains, h])] at hcontains
  cases hcontains

theorem get?_hoisted_embed_host {name : String} {entries : List Entry} (h : host.hoisted.get? name = some entries) :
    (host.embed label inner []).hoisted.get? name = some entries := by
  obtain ⟨hnew, hold⟩ := filterKeys_embed hhost hinner hlabel hfresh
  rw [get?_hoisted_filterKeys (!(inner.rename (label ++ ·)).states.contains ·), hold]
  · exact h
  intro e he hkeep piece hpiece hname
  have hmem := Dict.mem_of_filterKeys_eq hnew he (by simpa using hkeep)
  obtain ⟨n, hn, rfl⟩ :=
    exists_of_contains_hoisted_rename inner label ((contains_hoisted _).mpr ⟨e, hmem, piece, hpiece, hname⟩)
  have hcontains := hfresh n hn
  rw [Dict.contains, h] at hcontains
  cases hcontains

theorem contains_hoisted_embed {name : String}
    (h : (host.embed label inner []).hoisted.contains name = true) :
    (∃ n, inner.hoisted.contains n = true ∧ label ++ n = name) ∨ host.hoisted.contains name = true := by
  obtain ⟨hnew, hold⟩ := filterKeys_embed hhost hinner hlabel hfresh
  obtain ⟨e, he, piece, hpiece, hname⟩ := (contains_hoisted _).mp h
  cases hkeep : (inner.rename (label ++ ·)).states.contains e.1 with
  | true =>
    have hmem := Dict.mem_of_filterKeys_eq hnew he hkeep
    exact .inl (exists_of_contains_hoisted_rename inner label
      ((contains_hoisted _).mpr ⟨e, hmem, piece, hpiece, hname⟩))
  | false =>
    have hmem := Dict.mem_of_filterKeys_eq hold he (by simp [hkeep])
    exact .inr (host.contains_hoisted.mpr ⟨e, hmem, piece, hpiece, hname⟩)

end

end RuleTable

end Scribe
