import Scribe.Proofs.Highlight.Compiling
import Scribe.Proofs.Highlight.Written
import Scribe.Proofs.Library.Names
import Scribe.Proofs.Snippet.Extra

/-!
# Libraries from archives

What an archive gives back: the modes in their order and with the usual bounds, each at its own name, then the other
names one by one, then the snippets. A name is linked to what the own name of its mode stands for when its turn comes,
and another name may have been linked to that one before.
-/

namespace Scribe

/-! ## Archives as text -/

namespace Archive

theorem pairs?_pairsJson (pairs : List (String × String)) : pairs? (pairsJson pairs) = some pairs :=
  Json.mapM_map_eq_some fun _ _ => rfl

theorem isPlain_pairsJson (pairs : List (String × String)) : (pairsJson pairs).isPlain = true := by
  rw [pairsJson, Json.isPlain, Json.itemsPlain_iff, List.forall_mem_map]
  exact fun _ _ => rfl

theorem read?_write (a : Archive) : read? a.write = some a := by
  have hplain : (Json.arr [pairsJson a.modes, pairsJson a.aliases, pairsJson a.snippets]).isPlain = true := by
    simp [Json.isPlain, Json.itemsPlain, isPlain_pairsJson]
  rw [read?, write, Json.read?_write hplain]
  simp only [pairs?_pairsJson]
  rfl

end Archive

theorem fromUTF8?_toUTF8 (s : String) : String.fromUTF8? s.toUTF8 = some s := by
  unfold String.fromUTF8?
  split
  · rfl
  · rename_i h
    exact absurd s.isValidUTF8 h

/-! ## The usual bounds -/

def Tokenizer.usual (t : Tokenizer) : Tokenizer := { t with options := default }

theorem Tokenizer.compile_usual {table : RuleTable} {options : ScanOptions} {t : Tokenizer}
    (h : compile table options = .ok t) : compile table default = .ok t.usual := by
  rw [compile_options table options, h]
  rfl

namespace Mode

def usual (m : Mode) : Mode := { m with tokenizer := m.tokenizer.usual }

/-- The table of the mode as JSON, with its name. -/
def written (m : Mode) : Option (String × String) := m.source.map fun f => (m.name, f.write)

/-- A mode that was compiled from a table of a file. -/
def ComesFrom (m : Mode) (options : ScanOptions) (f : ModeFile) : Prop :=
  m.source = some f ∧ f.states.keys.Pairwise (· < ·) ∧ Tokenizer.compile f.toTable options = .ok m.tokenizer

theorem ComesFrom.usual {m : Mode} {options : ScanOptions} {f : ModeFile} (h : m.ComesFrom options f) :
    m.usual.ComesFrom default f := ⟨h.1, h.2.1, Tokenizer.compile_usual h.2.2⟩

end Mode

namespace Library

theorem load_dump_eq (l : Library) : load (some l.dump) = ofArchive l.archive := by
  rw [load, dump, Option.bind_some, fromUTF8?_toUTF8, Option.bind_some, Archive.read?_write]

/-! ## Libraries of tables from files -/

/-- A library made from tables of files, with other names and snippets. The states of such a table stand in the order of a
dictionary. -/
inductive Filed (options : ScanOptions) : Library → Prop
  | new : Filed options (withOptions options)
  | file {l l' : Library} {name : String} {file : ModeFile} :
    Filed options l → file.states.keys.Pairwise (· < ·) → l.addFile name file = .ok l' → Filed options l'
  | named {l : Library} (mode name : String) : Filed options l → Filed options (l.addAlias mode name)
  | snippets {l : Library} (scope : Option String) (definitions : List SnippetDefinition) :
    Filed options l → Filed options (l.addSnippets scope definitions)

/-- Every mode has the table that it was compiled from. -/
structure Sourced (l : Library) (options : ScanOptions) : Prop where
  bounds : l.options = options
  comes : ∀ m ∈ l.modes, ∃ f, m.ComesFrom options f
  scopes : l.snippets.keys.Pairwise (· < ·)

variable {options : ScanOptions} {l : Library}

theorem Filed.built (h : l.Filed options) : l.Built := by
  induction h with
  | new => exact .new options
  | file _ _ ha ih => exact .file ih ha
  | named mode name _ ih => exact .named mode name ih
  | snippets scope definitions _ ih => exact .snippets scope definitions ih

theorem filed_addPlain {l' : Library} {names : List String} (h : l.Filed options) (ha : l.addPlain names = .ok l') :
    l'.Filed options := by
  obtain ⟨plain, hplain, rfl⟩ := exists_of_addPlain ha
  exact List.foldlRecOn names _ (.file h (List.pairwise_singleton _ _) hplain) fun _ hl _ _ => .named _ _ hl

theorem Filed.placed (h : l.Filed options) : l.Placed := h.built.placed

theorem setMode_frame (l : Library) (name : String) (t : Tokenizer) (source : Option ModeFile) :
    (l.setMode name t source).options = l.options ∧ (l.setMode name t source).snippets = l.snippets := by
  unfold setMode
  split <;> exact ⟨rfl, rfl⟩

theorem addAlias_frame (l : Library) (mode name : String) : (l.addAlias mode name).options = l.options ∧
    (l.addAlias mode name).modes = l.modes ∧ (l.addAlias mode name).snippets = l.snippets := by
  unfold addAlias
  split <;> exact ⟨rfl, rfl, rfl⟩

theorem Filed.sourced (h : l.Filed options) : l.Sourced options := by
  induction h with
  | new => exact ⟨rfl, nofun, List.Pairwise.nil⟩
  | @file l l' name file _ hordered ha ih =>
    obtain ⟨t, ht, rfl⟩ := exists_of_addFile ha
    obtain ⟨hoptions, hsnippets⟩ := setMode_frame l name t (some file)
    refine ⟨hoptions.trans ih.bounds, fun m hm => ?_, by rw [hsnippets]; exact ih.scopes⟩
    rcases mem_modes_setMode hm with hm | ⟨hmt, hms⟩
    · exact ih.comes m hm
    · exact ⟨file, hms, hordered, by rw [hmt, ← ih.bounds, ht]⟩
  | @named l mode name _ ih =>
    obtain ⟨hoptions, hmodes, hsnippets⟩ := addAlias_frame l mode name
    exact ⟨hoptions.trans ih.bounds, by rw [hmodes]; exact ih.comes, by rw [hsnippets]; exact ih.scopes⟩
  | snippets scope definitions _ ih =>
    exact ⟨ih.bounds, ih.comes,
      Dict.pairwise_insertEntry (fun _ _ _ => lt_trans) String.lt_total _ _ ih.scopes⟩

/-! ## Modes -/

def appended (l : Library) (ms : List Mode) : Library :=
  ms.foldl (fun l m => l.setMode m.name m.tokenizer m.source) l

theorem restoreMode_eq (l : Library) {name : String} {f : ModeFile} {t : Tokenizer} (hread : ModeFile.read? f.write = some f)
    (ht : Tokenizer.compile f.toTable l.options = .ok t) :
    restoreMode l (name, f.write) = .ok (l.setMode name t (some f)) := by
  simp only [restoreMode, hread, addFile_eq, ht, Except.map]

theorem foldlM_restoreMode {ms : List Mode} {l : Library} (hbounds : l.options = default)
    (h : ∀ m ∈ ms, ∃ f, m.ComesFrom default f) (hdepth : ∀ m ∈ ms, ∀ f ∈ m.source, f.toJson.depth ≤ ModeFile.maxDepth) :
    (ms.filterMap Mode.written).foldlM restoreMode l = .ok (l.appended ms) := by
  induction ms generalizing l with
  | nil => rfl
  | cons m ms ih =>
    obtain ⟨⟨f, hsource, hordered, ht⟩, hms⟩ := List.forall_mem_cons.mp h
    obtain ⟨hf, hdepths⟩ := List.forall_mem_cons.mp hdepth
    have hread := ModeFile.read?_write hordered (hf f hsource)
    have hwritten : m.written = some (m.name, f.write) := by rw [Mode.written, hsource, Option.map_some]
    rw [List.filterMap_cons_some hwritten, List.foldlM_cons, restoreMode_eq l hread (hbounds ▸ ht), ← hsource]
    exact ih ((setMode_frame l m.name m.tokenizer m.source).1.trans hbounds) hms hdepths

theorem foldlM_restoreMode_eq_error {ms : List Mode} {l : Library} (hbounds : l.options = default)
    (h : ∀ m ∈ ms, ∃ f, m.ComesFrom default f) (hdeep : ∃ m ∈ ms, ∃ f ∈ m.source, ModeFile.maxDepth < f.toJson.depth) :
    (ms.filterMap Mode.written).foldlM restoreMode l = .error .malformed := by
  induction ms generalizing l with
  | nil =>
    obtain ⟨m, hm, -⟩ := hdeep
    cases hm
  | cons m ms ih =>
    obtain ⟨⟨f, hsource, hordered, ht⟩, hms⟩ := List.forall_mem_cons.mp h
    have hwritten : m.written = some (m.name, f.write) := by rw [Mode.written, hsource, Option.map_some]
    rw [List.filterMap_cons_some hwritten, List.foldlM_cons]
    -- The first table that is too deep ends it; those before it are restored.
    by_cases hf : f.toJson.depth ≤ ModeFile.maxDepth
    · rw [restoreMode_eq l (ModeFile.read?_write hordered hf) (hbounds ▸ ht), ← hsource]
      refine ih ((setMode_frame l m.name m.tokenizer m.source).1.trans hbounds) hms ?_
      obtain ⟨m', hm', f', hf', hlt⟩ := hdeep
      rcases List.mem_cons.mp hm' with rfl | hm'
      · rw [hsource, Option.mem_some_iff] at hf'
        exact absurd hf (Nat.not_le.mpr (hf' ▸ hlt))
      · exact ⟨m', hm', f', hf', hlt⟩
    · rw [restoreMode, ModeFile.read?_write_eq_none (Nat.not_le.mp hf)]
      rfl

/-- New modes go behind the old ones, each at its own name. -/
theorem appended_eq {ms : List Mode} {l : Library} (hdistinct : (ms.map (·.name)).Nodup)
    (hfresh : ∀ m ∈ ms, l.places.get? m.name = none) :
    ∃ places, l.appended ms = { l with modes := l.modes ++ ms, places } ∧
      ∀ k, places.get? k = ((ms.findIdx? (·.name == k)).map (l.modes.length + ·)).or (l.places.get? k) := by
  induction ms generalizing l with
  | nil => exact ⟨l.places, by simp [appended], by simp⟩
  | cons m ms ih =>
    obtain ⟨hnew, hrest⟩ := List.nodup_cons.mp hdistinct
    obtain ⟨hm, hms⟩ := List.forall_mem_cons.mp hfresh
    have hset := setMode_of_none hm m.tokenizer m.source
    obtain ⟨places, heq, hplaces⟩ := @ih (l.setMode m.name m.tokenizer m.source) hrest fun m' hm' => by
      have hne : m'.name ≠ m.name := fun he => hnew (List.mem_map.mpr ⟨m', hm', he⟩)
      rw [hset, get?_places_insert, if_neg hne]
      exact hms m' hm'
    refine ⟨places, ?_, fun k => ?_⟩
    · rw [appended, List.foldl_cons, ← appended, heq, hset]
      simp
    · rw [hplaces, hset, get?_places_insert, List.findIdx?_cons]
      by_cases hk : m.name = k
      · have hnone : ms.findIdx? (·.name == k) = none := by
          rw [List.findIdx?_eq_none_iff]
          intro m' hm'
          have hne : m'.name ≠ k := fun he => hnew (List.mem_map.mpr ⟨m', hm', he.trans hk.symm⟩)
          simp [hne]
        simp [hnone, hk]
      · have hk' : k ≠ m.name := fun he => hk he.symm
        cases ms.findIdx? (·.name == k) with
        | none => simp [hk, hk']
        | some i =>
          simp [hk]
          omega

theorem findIdx?_name {ms : List Mode} (hdistinct : (ms.map (·.name)).Nodup) {i : Nat} {m : Mode} (hm : ms[i]? = some m) :
    ms.findIdx? (·.name == m.name) = some i := by
  obtain ⟨hi, rfl⟩ := List.getElem?_eq_some_iff.mp hm
  refine List.findIdx?_eq_some_iff_getElem.mpr ⟨hi, by simp, fun j hj => ?_⟩
  have hne := List.pairwise_iff_getElem.mp (List.pairwise_map.mp hdistinct) j i (hj.trans hi) hi hj
  simpa using hne

/-! ## Other names -/

/-- Another name, linked to what the name of its mode stands for. -/
def link (places : Dict String Nat) (entry : String × String) : Dict String Nat :=
  match places.get? entry.2 with
  | some place => places.insert entry.1 place
  | none => places

theorem foldl_addAlias (aliases : List (String × String)) (l : Library) :
    aliases.foldl (fun l entry => l.addAlias entry.2 entry.1) l = { l with places := aliases.foldl link l.places } := by
  induction aliases generalizing l with
  | nil => rfl
  | cons entry aliases ih =>
    rw [List.foldl_cons, List.foldl_cons, ih]
    unfold addAlias link
    cases l.places.get? entry.2 <;> rfl

theorem link_of_some {places : Dict String Nat} {entry : String × String} {place : Nat}
    (h : places.get? entry.2 = some place) : link places entry = places.insert entry.1 place := by
  simp only [link, h]

theorem get?_link_of_ne (places : Dict String Nat) {entry : String × String} {k : String} (hne : entry.1 ≠ k) :
    (link places entry).get? k = places.get? k := by
  unfold link
  split
  · rw [get?_places_insert, if_neg hne.symm]
  · rfl

theorem contains_link {places : Dict String Nat} {k : String} (h : places.contains k = true) (entry : String × String) :
    (link places entry).contains k = true := by
  unfold link
  split
  · rw [contains_places_insert, h, Bool.or_true]
  · exact h

theorem get?_foldl_link {aliases : List (String × String)} {k : String} (hne : ∀ entry ∈ aliases, entry.1 ≠ k)
    (places : Dict String Nat) : (aliases.foldl link places).get? k = places.get? k := by
  induction aliases generalizing places with
  | nil => rfl
  | cons entry aliases ih =>
    obtain ⟨hentry, haliases⟩ := List.forall_mem_cons.mp hne
    rw [List.foldl_cons, ih haliases, get?_link_of_ne places hentry]

theorem contains_foldl_link {places : Dict String Nat} {k : String} (h : places.contains k = true)
    (aliases : List (String × String)) : (aliases.foldl link places).contains k = true := by
  induction aliases generalizing places with
  | nil => exact h
  | cons entry aliases ih => exact ih (contains_link h entry)

theorem aliasOf_fst {entry : String × Nat} {a : String × String} (h : l.aliasOf entry = some a) : a.1 = entry.1 := by
  unfold aliasOf at h
  split at h
  · split at h
    · cases h
    · rw [← Option.some.inj h]
  · cases h

theorem aliases_ne {entries : List (String × Nat)} {k : String} (hne : ∀ entry ∈ entries, entry.1 ≠ k) :
    ∀ a ∈ entries.filterMap l.aliasOf, a.1 ≠ k := by
  intro a ha
  obtain ⟨entry, hentry, halias⟩ := List.mem_filterMap.mp ha
  rw [aliasOf_fst halias]
  exact hne entry hentry

/-- A name gets the place of its mode, unless the own name of the mode had its turn before: then both stand for the same
from then on. -/
theorem get?_relinked (h : l.Placed) (hsources : ∀ m ∈ l.modes, m.source.isSome = true) {start : Dict String Nat}
    (hstart : ∀ {i m}, l.modes[i]? = some m → start.get? m.name = some i) {k : String} {i : Nat} {m : Mode}
    (hk : l.places.get? k = some i) (hm : l.modes[i]? = some m) :
    (l.archive.aliases.foldl link start).get? k =
      if m.name < k then (l.archive.aliases.foldl link start).get? m.name else some i := by
  -- The names are cut at `k`: only those before it can have changed what it is linked to, and none behind it changes it.
  obtain ⟨before, after, hsplit⟩ := List.append_of_mem (Dict.mem_entries_of_get? hk)
  have hordered : (before.map (·.1) ++ k :: after.map (·.1)).Pairwise (· < ·) := by
    simpa [Dict.keys, hsplit] using h.ordered
  obtain ⟨-, hrest, hbefore⟩ := List.pairwise_append.mp hordered
  have hlt : ∀ entry ∈ before, entry.1 < k := fun entry he =>
    hbefore _ (List.mem_map_of_mem he) k List.mem_cons_self
  have hgt : ∀ entry ∈ after, k < entry.1 := fun entry he =>
    (List.pairwise_cons.mp hrest).1 _ (List.mem_map_of_mem he)
  have hafter : ∀ entry ∈ after.filterMap l.aliasOf, entry.1 ≠ k := aliases_ne fun entry he => (hgt entry he).ne'
  have hown := hstart hm
  by_cases hname : m.name = k
  · have hnone : l.aliasOf (k, i) = none := by simp [aliasOf, hm, hname]
    have hall : ∀ entry ∈ l.archive.aliases, entry.1 ≠ k := by
      rw [archive, hsplit, List.filterMap_append, List.filterMap_cons_none hnone]
      exact List.forall_mem_append.mpr ⟨aliases_ne fun entry he => (hlt entry he).ne, hafter⟩
    rw [get?_foldl_link hall, ← hname, hown, if_neg (lt_irrefl _)]
  · have halias : l.aliasOf (k, i) = some (k, m.name) := by
      have hsource := Option.isSome_iff_ne_none.mp (hsources m (List.mem_of_getElem? hm))
      simp [aliasOf, hm, hname, hsource]
    let places := (before.filterMap l.aliasOf).foldl link start
    have hknown : start.contains m.name = true := by rw [Dict.contains, hown, Option.isSome_some]
    obtain ⟨place, hplace⟩ := Option.isSome_iff_exists.mp (contains_foldl_link hknown (before.filterMap l.aliasOf))
    have hfold : l.archive.aliases.foldl link start =
        (after.filterMap l.aliasOf).foldl link (places.insert k place) := by
      rw [archive, hsplit, List.filterMap_append, List.filterMap_cons_some halias, List.foldl_append, List.foldl_cons,
        link_of_some hplace]
    rw [hfold, get?_foldl_link hafter, get?_places_insert, if_pos rfl]
    by_cases hturn : m.name < k
    · have hnext : ∀ entry ∈ after.filterMap l.aliasOf, entry.1 ≠ m.name :=
        aliases_ne fun entry he => (hturn.trans (hgt entry he)).ne'
      rw [if_pos hturn, get?_foldl_link hnext, get?_places_insert, if_neg hname, hplace]
    · have hturn' : k < m.name := lt_of_le_of_ne (not_lt.mp hturn) (Ne.symm hname)
      have hprev : ∀ entry ∈ before.filterMap l.aliasOf, entry.1 ≠ m.name :=
        aliases_ne fun entry he => ((hlt entry he).trans hturn').ne
      rw [get?_foldl_link hprev, hown] at hplace
      rw [if_neg hturn, hplace]

/-! ## Snippets -/

theorem foldlM_restoreSnippets {entries : List (String × List SnippetDefinition)} {l : Library}
    (hdistinct : (entries.map (·.1)).Nodup) (hfresh : ∀ e ∈ entries, l.snippets.get? e.1 = none) :
    (entries.map fun e => (e.1, SnippetDefinition.writeAll e.2)).foldlM restoreSnippets l =
      .ok { l with snippets := l.snippets.insertMany
                    (entries.map fun e => (e.1, e.2.map SnippetDefinition.withoutExtra)) } := by
  induction entries generalizing l with
  | nil => rfl
  | cons e entries ih =>
    obtain ⟨hnew, hrest⟩ := List.nodup_cons.mp hdistinct
    obtain ⟨he, hentries⟩ := List.forall_mem_cons.mp hfresh
    have hrestore : restoreSnippets l (e.1, SnippetDefinition.writeAll e.2) =
        .ok { l with snippets := l.snippets.insert e.1 (e.2.map SnippetDefinition.withoutExtra) } := by
      simp [restoreSnippets, SnippetDefinition.readAll?_writeAll, addSnippets, he]
    rw [List.map_cons, List.foldlM_cons, hrestore]
    refine (ih hrest fun e' he' => ?_).trans ?_
    · have hne : e'.1 ≠ e.1 := fun h => hnew (List.mem_map.mpr ⟨e', he', h⟩)
      exact (Dict.get?_insert_of_ne String.lt_total l.snippets _ hne).trans (hentries e' he')
    · simp [Dict.insertMany]

theorem foldlM_restoreScopes {scopes : Dict String (List SnippetDefinition)} (h : scopes.keys.Pairwise (· < ·))
    {l : Library} (hempty : l.snippets = Dict.empty) :
    (scopes.entries.map fun e => (e.1, SnippetDefinition.writeAll e.2)).foldlM restoreSnippets l =
      .ok { l with snippets := scopes.mapValues (·.map SnippetDefinition.withoutExtra) } := by
  have hkeys : (scopes.mapValues (·.map SnippetDefinition.withoutExtra)).keys.Pairwise (· < ·) := by
    rw [Dict.keys, Dict.mapValues, List.map_map]
    exact h
  have hmade := Dict.ofList_entries lt_asymm hkeys
  rw [Dict.ofList, ← hempty] at hmade
  rw [foldlM_restoreSnippets (Dict.nodup_keys lt_irrefl h) fun _ _ => by rw [hempty]; rfl, ← hmade]
  rfl

/-! ## The whole archive -/

/-- What a library is after it was put away and built again. -/
structure Restores (l l' : Library) : Prop where
  modes : l'.modes = l.modes.map Mode.usual
  snippets : l'.snippets = l.snippets.mapValues (·.map SnippetDefinition.withoutExtra)
  names : ∀ k, l'.contains k = l.contains k
  place : ∀ {k : String} {i : Nat} {m : Mode}, l.places.get? k = some i → l.modes[i]? = some m →
    l'.places.get? k = if m.name < k then l'.places.get? m.name else some i

theorem not_mem_ownNames (h : l.Placed) {k : String} (hk : l.places.get? k = none) : k ∉ l.ownNames := fun hmem => by
  have hknown := h.owned k hmem
  simp [contains, Dict.contains, hk] at hknown

theorem get?_start {ms : List Mode} {start : Dict String Nat}
    (h : ∀ k, start.get? k = ((ms.findIdx? (·.name == k)).map (0 + ·)).or none) (k : String) :
    start.get? k = ms.findIdx? (·.name == k) := by
  rw [h, Option.or_none]
  cases ms.findIdx? (·.name == k) <;> simp

theorem contains_relinked (h : l.Placed) (hsources : ∀ m ∈ l.modes, m.source.isSome = true) {start : Dict String Nat}
    (hstart : ∀ k, start.get? k = l.modes.findIdx? (·.name == k)) (k : String) :
    (l.archive.aliases.foldl link start).contains k = l.contains k := by
  have hown : ∀ {i m}, l.modes[i]? = some m → start.get? m.name = some i := fun hm => by
    rw [hstart, findIdx?_name h.distinct hm]
  cases hk : l.places.get? k with
  | none =>
    have hfresh : start.get? k = none := by
      rw [hstart, List.findIdx?_eq_none_iff]
      intro m hm
      have hne : m.name ≠ k := fun he => not_mem_ownNames h hk (he ▸ List.mem_map_of_mem hm)
      simp [hne]
    have hother : ∀ entry ∈ l.archive.aliases, entry.1 ≠ k := aliases_ne fun entry he hname => by
      have hmem := (Dict.get?_eq_some_iff lt_irrefl h.ordered).mpr he
      rw [hname, hk] at hmem
      cases hmem
    simp [Dict.contains, contains, get?_foldl_link hother, hfresh, hk]
  | some i =>
    obtain ⟨m, hm, -⟩ := mode?_of_get? h hk
    have hplace := get?_relinked h hsources hown hk hm
    have hknown : l.contains k = true := by simp [contains, Dict.contains, hk]
    rw [hknown, Dict.contains, hplace]
    by_cases hturn : m.name < k
    · rw [if_pos hturn]
      exact contains_foldl_link (by simp [Dict.contains, hown hm]) _
    · rw [if_neg hturn, Option.isSome_some]

theorem load_dump (h : l.Filed options) (hdepth : ∀ m ∈ l.modes, ∀ f ∈ m.source, f.toJson.depth ≤ ModeFile.maxDepth) :
    ∃ l', load (some l.dump) = .ok l' ∧ Restores l l' := by
  have hplaced := h.placed
  have hsourced := h.sourced
  have hsources : ∀ m ∈ l.modes, m.source.isSome = true := fun m hm => by
    obtain ⟨f, hsource, -⟩ := hsourced.comes m hm
    rw [hsource, Option.isSome_some]
  let ms := l.modes.map Mode.usual
  have hwritten : l.archive.modes = ms.filterMap Mode.written := by
    rw [List.filterMap_map]
    rfl
  have hcomes : ∀ m ∈ ms, ∃ f, m.ComesFrom default f := List.forall_mem_map.mpr fun m hm =>
    (hsourced.comes m hm).imp fun _ hf => hf.usual
  have hfits : ∀ m ∈ ms, ∀ f ∈ m.source, f.toJson.depth ≤ ModeFile.maxDepth := List.forall_mem_map.mpr hdepth
  have hdistinct : (ms.map (·.name)).Nodup := by
    rw [List.map_map]
    exact hplaced.distinct
  obtain ⟨start, happended, hplaces⟩ := @appended_eq ms {} hdistinct fun _ _ => rfl
  have hstart : ∀ k, start.get? k = l.modes.findIdx? (·.name == k) := fun k => by
    rw [get?_start hplaces, List.findIdx?_map]
    rfl
  have hmodes : l.archive.modes.foldlM restoreMode {} = .ok { modes := ms, places := start } := by
    rw [hwritten, foldlM_restoreMode rfl hcomes hfits, happended]
    rfl
  let linked : Library := { modes := ms, places := l.archive.aliases.foldl link start }
  have hload : load (some l.dump) =
      .ok { linked with snippets := l.snippets.mapValues (·.map SnippetDefinition.withoutExtra) } := by
    rw [load_dump_eq, ofArchive, hmodes, ← foldlM_restoreScopes (l := linked) hsourced.scopes rfl]
    show l.archive.snippets.foldlM restoreSnippets _ = _
    rw [foldl_addAlias]
    rfl
  refine ⟨_, hload, rfl, rfl, contains_relinked hplaced hsources hstart, ?_⟩
  exact get?_relinked hplaced hsources fun hm => by rw [hstart, findIdx?_name hplaced.distinct hm]

theorem load_dump_eq_error (h : l.Filed options) (hdeep : ∃ m ∈ l.modes, ∃ f ∈ m.source, ModeFile.maxDepth < f.toJson.depth) :
    load (some l.dump) = .error .malformed := by
  have hwritten : l.archive.modes = (l.modes.map Mode.usual).filterMap Mode.written := by
    rw [List.filterMap_map]
    rfl
  have hcomes : ∀ m ∈ l.modes.map Mode.usual, ∃ f, m.ComesFrom default f := List.forall_mem_map.mpr fun m hm =>
    (h.sourced.comes m hm).imp fun _ hf => hf.usual
  obtain ⟨m, hm, hf⟩ := hdeep
  rw [load_dump_eq, ofArchive, hwritten,
    foldlM_restoreMode_eq_error rfl hcomes ⟨m.usual, List.mem_map_of_mem hm, hf⟩]
  rfl

end Library

end Scribe
