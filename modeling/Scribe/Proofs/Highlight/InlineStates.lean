import Scribe.Highlight.Scan
import Scribe.Proofs.Highlight.Compiling
import Mathlib.Data.List.Perm.Basic

/-!
# States of inline rules

The list of an inline rule becomes a state, which the rule pushes, and so do the lists inside of it. Names are made from that
of the state and a running number, so within one state no two lists get the same. Those of two states differ too, unless a
state of the table has such a name itself: then it and the list are one state, and one of them is lost.
-/

namespace Scribe

/-! ## Names -/

def listName (owner : String) (number : Nat) : String := owner ++ "#" ++ toString number

theorem toString_inj {number number' : Nat} (h : (toString number).toList = (toString number').toList) :
    number = number' := by
  have hvalue := congrArg (fun digits => Nat.ofDigitChars 10 digits 0) h
  simpa [Nat.toString_eq_ofList_toDigits, Nat.ofDigitChars_toDigits] using hvalue

theorem not_mem_toString (number : Nat) : '#' ∉ (toString number).toList := by
  rw [Nat.toString_eq_ofList_toDigits, String.toList_ofList]
  intro h
  have hdigit := Nat.isDigit_of_mem_toDigits (by decide) (by decide) h
  exact absurd hdigit (by decide)

/-- What stands behind the last sign is known from a name, and so is what stands in front of it. -/
theorem append_sign_inj {front front' back back' : List Char} (hback : '#' ∉ back) (hback' : '#' ∉ back')
    (h : front ++ '#' :: back = front' ++ '#' :: back') : front = front' ∧ back = back' := by
  rcases List.append_eq_append_iff.mp h with ⟨more, rfl, hmore⟩ | ⟨more, rfl, hmore⟩
  · cases more with
    | nil => exact ⟨(List.append_nil _).symm, (List.cons.inj hmore).2⟩
    | cons c more =>
      have hmem : '#' ∈ back := by
        rw [(List.cons.inj hmore).2]
        exact List.mem_append_right _ List.mem_cons_self
      exact absurd hmem hback
  · cases more with
    | nil => exact ⟨List.append_nil _, (List.cons.inj hmore).2.symm⟩
    | cons c more =>
      have hmem : '#' ∈ back' := by
        rw [(List.cons.inj hmore).2]
        exact List.mem_append_right _ List.mem_cons_self
      exact absurd hmem hback'

theorem listName_inj {owner owner' : String} {number number' : Nat} (h : listName owner number = listName owner' number') :
    owner = owner' ∧ number = number' := by
  have hchars := congrArg String.toList h
  simp only [listName, String.toList_append, List.append_assoc] at hchars
  obtain ⟨howner, hnumber⟩ := append_sign_inj (not_mem_toString number) (not_mem_toString number') hchars
  exact ⟨String.toList_injective howner, toString_inj hnumber⟩

theorem length_lt_listName (owner : String) (number : Nat) : owner.length < (listName owner number).length := by
  have hsign : "#".length = 1 := rfl
  rw [listName, String.length_append, String.length_append, hsign]
  omega

namespace Entry

/-- The names made for the lists of inline rules of a state, inner ones first. -/
def listNames (owner : String) (entries : List Entry) : List String := (hoistAll owner 0 entries).2.2.map (·.1)

/-- How names are made: by numbers between two counts, each one once, for the owner or for a list with a name already. -/
structure Numbered (owner : String) (count count' : Nat) (names : List String) : Prop where
  le : count ≤ count'
  nodup : names.Nodup
  made : ∀ n ∈ names, ∃ parent number, n = listName parent number ∧ count < number ∧ number ≤ count' ∧
    (parent = owner ∨ parent ∈ names)

theorem Numbered.nil (owner : String) (count : Nat) : Numbered owner count count [] :=
  ⟨Nat.le_refl _, List.nodup_nil, fun _ h => (nomatch h)⟩

theorem Numbered.append {owner : String} {count count' count'' : Nat} {names more : List String}
    (h : Numbered owner count count' names) (hmore : Numbered owner count' count'' more) :
    Numbered owner count count'' (names ++ more) where
  le := h.le.trans hmore.le
  nodup := by
    refine List.nodup_append.mpr ⟨h.nodup, hmore.nodup, ?_⟩
    rintro n hn _ hn' rfl
    obtain ⟨_, number, hname, -, hle, -⟩ := h.made n hn
    obtain ⟨_, number', hname', hlt, -, -⟩ := hmore.made n hn'
    have hnumber := (listName_inj (hname.symm.trans hname')).2
    omega
  made := by
    intro n hn
    rcases List.mem_append.mp hn with hn | hn
    · obtain ⟨parent, number, hname, hlt, hle, hparent⟩ := h.made n hn
      exact ⟨parent, number, hname, hlt, hle.trans hmore.le, hparent.imp_right (List.mem_append_left _)⟩
    · obtain ⟨parent, number, hname, hlt, hle, hparent⟩ := hmore.made n hn
      exact ⟨parent, number, hname, Nat.lt_of_le_of_lt h.le hlt, hle, hparent.imp_right (List.mem_append_right _)⟩

/-- The lists inside of a list are numbered behind it. -/
theorem Numbered.list {owner : String} {count count' : Nat} {names : List String}
    (h : Numbered (listName owner (count + 1)) (count + 1) count' names) :
    Numbered owner count count' (names ++ [listName owner (count + 1)]) where
  le := (Nat.le_succ count).trans h.le
  nodup := by
    refine List.nodup_append.mpr ⟨h.nodup, List.nodup_singleton _, ?_⟩
    rintro n hn n' hn' rfl
    obtain rfl := List.mem_singleton.mp hn'
    obtain ⟨parent, number, hname, hlt, -, -⟩ := h.made _ hn
    have hnumber := (listName_inj hname).2
    omega
  made := by
    intro n hn
    rcases List.mem_append.mp hn with hn | hn
    · obtain ⟨parent, number, hname, hlt, hle, hparent⟩ := h.made n hn
      refine ⟨parent, number, hname, Nat.lt_of_succ_lt hlt, hle, .inr (List.mem_append.mpr ?_)⟩
      exact hparent.symm.imp_right List.mem_singleton.mpr
    · obtain rfl := List.mem_singleton.mp hn
      exact ⟨owner, count + 1, rfl, Nat.lt_succ_self _, h.le, .inl rfl⟩

mutual

theorem numbered_hoist (owner : String) (count : Nat) : ∀ e : Entry,
    Numbered owner count (e.hoist owner count).2.1 ((e.hoist owner count).2.2.map (·.1))
  | .inline r entries => by
    have h := (numbered_hoistAll (listName owner (count + 1)) (count + 1) entries).list
    simp only [hoist, List.map_append, List.map_cons, List.map_nil]
    exact h
  | .rule r => .nil owner count
  | .include state => .nil owner count
  | .defaultKind kind => .nil owner count

theorem numbered_hoistAll (owner : String) (count : Nat) : ∀ entries : List Entry,
    Numbered owner count (hoistAll owner count entries).2.1 ((hoistAll owner count entries).2.2.map (·.1))
  | [] => .nil owner count
  | e :: rest => by
    have h := (numbered_hoist owner count e).append (numbered_hoistAll owner (e.hoist owner count).2.1 rest)
    simpa only [hoistAll, List.map_append] using h

end

end Entry

/-! ## Lists that are states -/

mutual

/-- The entry as it is once the lists of inline rules are states. These have the `names`, those of inner lists first, and
`has` says which entries a state has. -/
def Entry.Becomes (has : String → List Entry → Prop) : Entry → List String → Entry → Prop
  | .inline r entries, names, e' => ∃ inner name entries', names = inner ++ [name] ∧
      Entry.AllBecome has entries inner entries' ∧ has name entries' ∧ e' = .rule { r with jump := some (.push name) }
  | e, names, e' => names = [] ∧ e' = e

def Entry.AllBecome (has : String → List Entry → Prop) : List Entry → List String → List Entry → Prop
  | [], names, entries' => names = [] ∧ entries' = []
  | e :: rest, names, entries' => ∃ first more e' rest', names = first ++ more ∧ entries' = e' :: rest' ∧
      Entry.Becomes has e first e' ∧ Entry.AllBecome has rest more rest'

end

namespace Entry

variable {has : String → List Entry → Prop}

mutual

theorem becomes_hoist (owner : String) (count : Nat) : ∀ e : Entry,
    (∀ piece ∈ (e.hoist owner count).2.2, has piece.1 piece.2) →
    Becomes has e ((e.hoist owner count).2.2.map (·.1)) (e.hoist owner count).1
  | .inline r entries, h => by
    simp only [hoist] at h ⊢
    obtain ⟨hinner, hlist⟩ := List.forall_mem_append.mp h
    have hentries := allBecome_hoistAll (owner ++ "#" ++ toString (count + 1)) (count + 1) entries hinner
    exact ⟨_, _, _, List.map_append, hentries, hlist _ List.mem_cons_self, rfl⟩
  | .rule r, _ => ⟨rfl, rfl⟩
  | .include state, _ => ⟨rfl, rfl⟩
  | .defaultKind kind, _ => ⟨rfl, rfl⟩

theorem allBecome_hoistAll (owner : String) (count : Nat) : ∀ entries : List Entry,
    (∀ piece ∈ (hoistAll owner count entries).2.2, has piece.1 piece.2) →
    AllBecome has entries ((hoistAll owner count entries).2.2.map (·.1)) (hoistAll owner count entries).1
  | [], _ => ⟨rfl, rfl⟩
  | e :: rest, h => by
    simp only [hoistAll] at h ⊢
    obtain ⟨hfirst, hmore⟩ := List.forall_mem_append.mp h
    exact ⟨_, _, _, _, List.map_append, rfl, becomes_hoist owner count e hfirst, allBecome_hoistAll owner _ rest hmore⟩

end

mutual

/-- There are as many names as there are lists, however they are made. -/
theorem length_of_becomes (owner : String) (count : Nat) : ∀ {e : Entry} {names : List String} {e' : Entry},
    Becomes has e names e' → names.length = (e.hoist owner count).2.2.length
  | .inline r entries, names, e', h => by
    obtain ⟨inner, name, entries', rfl, hentries, -, -⟩ := h
    simp only [hoist, List.length_append, List.length_singleton]
    rw [length_of_allBecome _ _ hentries]
  | .rule r, names, e', h => congrArg List.length h.1
  | .include state, names, e', h => congrArg List.length h.1
  | .defaultKind kind, names, e', h => congrArg List.length h.1

theorem length_of_allBecome (owner : String) (count : Nat) :
    ∀ {entries : List Entry} {names : List String} {entries' : List Entry},
    AllBecome has entries names entries' → names.length = (hoistAll owner count entries).2.2.length
  | [], names, entries', h => congrArg List.length h.1
  | e :: rest, names, entries', h => by
    obtain ⟨first, more, e', rest', rfl, -, hfirst, hmore⟩ := h
    simp only [hoistAll, List.length_append]
    rw [length_of_becomes owner count hfirst, length_of_allBecome owner _ hmore]

end

end Entry

/-! ## Names of one table -/

namespace RuleTable

variable {t : RuleTable}

/-- All names that compiling the table makes or takes. -/
def allNames (t : RuleTable) : List String :=
  t.states.keys ++ t.states.entries.flatMap fun e => Entry.listNames e.1 e.2

/-- No state of the table is named like a list of another state. -/
def Fresh (t : RuleTable) : Prop :=
  ∀ e ∈ t.states.entries, ∀ n ∈ Entry.listNames e.1 e.2, t.states.contains n = false

instance (t : RuleTable) : Decidable t.Fresh := inferInstanceAs (Decidable (∀ e ∈ _, ∀ n ∈ _, _))

/-- If two states had a list of one name, the lists around these would have one too, and so on up to the states. -/
theorem disjoint_listNames (hfresh : t.Fresh) {e e' : String × List Entry} (he : e ∈ t.states.entries)
    (he' : e' ∈ t.states.entries) (hne : e.1 ≠ e'.1) : ∀ (length : Nat) (n : String), n.length ≤ length →
    n ∈ Entry.listNames e.1 e.2 → n ∉ Entry.listNames e'.1 e'.2
  | 0, n, hlength, hn, _ => by
    obtain ⟨parent, number, rfl, -⟩ := (Entry.numbered_hoistAll e.1 0 e.2).made n hn
    exact absurd (length_lt_listName parent number) (by omega)
  | length + 1, n, hlength, hn, hn' => by
    have hkey : ∀ e ∈ t.states.entries, t.states.contains e.1 = true :=
      fun e he => Dict.contains_eq_true_iff.mpr (List.mem_map_of_mem he)
    obtain ⟨parent, number, rfl, -, -, hparent⟩ := (Entry.numbered_hoistAll e.1 0 e.2).made n hn
    obtain ⟨parent', number', hname, -, -, hparent'⟩ := (Entry.numbered_hoistAll e'.1 0 e'.2).made _ hn'
    obtain ⟨rfl, -⟩ := listName_inj hname
    have hless := length_lt_listName parent number
    rcases hparent with rfl | hparent
    · rcases hparent' with heq | hparent'
      · exact hne heq
      · exact absurd (hkey e he) (Bool.eq_false_iff.mp (hfresh e' he' e.1 hparent'))
    · rcases hparent' with rfl | hparent'
      · exact absurd (hkey e' he') (Bool.eq_false_iff.mp (hfresh e he e'.1 hparent))
      · exact disjoint_listNames hfresh he he' hne length parent (by omega) hparent hparent'

theorem nodup_allNames_iff (hkeys : t.states.keys.Nodup) : t.allNames.Nodup ↔ t.Fresh := by
  rw [allNames, List.nodup_append]
  constructor
  · rintro ⟨-, -, hapart⟩ e he n hn
    refine Bool.eq_false_iff.mpr fun hcontains => ?_
    exact hapart n (Dict.contains_eq_true_iff.mp hcontains) n (List.mem_flatMap.mpr ⟨e, he, hn⟩) rfl
  · intro hfresh
    refine ⟨hkeys, List.nodup_flatMap.mpr ⟨fun e _ => (Entry.numbered_hoistAll e.1 0 e.2).nodup, ?_⟩, ?_⟩
    · refine (List.pairwise_map.mp hkeys).imp_of_mem fun {e e'} he he' hne => ?_
      intro n hn hn'
      exact disjoint_listNames hfresh he he' hne n.length n (Nat.le_refl _) hn hn'
    · rintro n hn _ hn' rfl
      obtain ⟨e, he, hmem⟩ := List.mem_flatMap.mp hn'
      exact absurd (Dict.contains_eq_true_iff.mpr hn) (Bool.eq_false_iff.mp (hfresh e he n hmem))

variable (t) in
theorem names_pieces_perm : ((t.states.entries.flatMap piecesOf).map (·.1)).Perm t.allNames := by
  have hnames : (t.states.entries.flatMap piecesOf).map (·.1) =
      t.states.entries.flatMap fun e => e.1 :: Entry.listNames e.1 e.2 := by
    rw [List.map_flatMap]
    rfl
  rw [hnames]
  exact (List.map_append_flatMap_perm t.states.entries (·.1) fun e => Entry.listNames e.1 e.2).symm

variable (t) in
theorem mem_keys_hoisted {name : String} : name ∈ t.hoisted.keys ↔ name ∈ t.allNames := by
  rw [← Dict.contains_eq_true_iff, contains_hoisted, ← (names_pieces_perm t).mem_iff]
  simp only [List.mem_map, List.mem_flatMap]
  constructor
  · rintro ⟨e, he, piece, hpiece, rfl⟩
    exact ⟨piece, ⟨e, he, hpiece⟩, rfl⟩
  · rintro ⟨piece, ⟨e, he, hpiece⟩, rfl⟩
    exact ⟨e, he, piece, hpiece, rfl⟩

theorem keys_hoisted_perm (h : t.allNames.Nodup) : t.hoisted.keys.Perm t.allNames :=
  (List.perm_ext_iff_of_nodup (Dict.nodup_keys lt_irrefl t.pairwise_hoisted) h).mpr fun _ => mem_keys_hoisted t

/-- Where no name is made twice, each state and each list is there with its own entries. -/
theorem get?_hoisted_of_mem (h : t.allNames.Nodup) {e : String × List Entry} (he : e ∈ t.states.entries)
    {piece : String × List Entry} (hpiece : piece ∈ piecesOf e) : t.hoisted.get? piece.1 = some piece.2 := by
  have hnodup : ((t.states.entries.flatMap piecesOf).map (·.1)).Nodup := (names_pieces_perm t).nodup_iff.mpr h
  have hmem : piece ∈ t.states.entries.flatMap piecesOf := List.mem_flatMap.mpr ⟨e, he, hpiece⟩
  rw [hoisted_eq]
  exact Dict.get?_ofList_of_nodup lt_irrefl String.lt_total hnodup hmem

end RuleTable

/-! ## Compiled tables -/

namespace Tokenizer

variable {table : RuleTable} {options : ScanOptions} {t : Tokenizer}

theorem keys_of_compile (h : compile table options = .ok t) : t.states.keys = table.hoisted.keys := by
  have hkeys : ∀ {entries : List (String × List Entry)} {rows : List (String × CompiledState)},
      List.Forall₂ (fun e e' => e'.1 = e.1 ∧ compileState table.hoisted e.1 e.2 = .ok e'.2) entries rows →
      rows.map (·.1) = entries.map (·.1) := by
    intro entries rows hrows
    induction hrows with
    | nil => rfl
    | cons hrow _ ih => rw [List.map_cons, List.map_cons, hrow.1, ih]
  exact hkeys (of_compile h).rows

/-- The state is compiled from these entries. -/
def HasState (t : Tokenizer) (table : RuleTable) (name : String) (entries : List Entry) : Prop :=
  table.hoisted.get? name = some entries ∧
    ∃ state, t.states.get? name = some state ∧ compileState table.hoisted name entries = .ok state

/-- The states of the table and one more for each list of an inline rule, all of different names, each with its own
entries. -/
def ListsAreStates (t : Tokenizer) (table : RuleTable) : Prop :=
  ∃ names : String → List String,
    (∀ e ∈ table.states.entries, ∃ entries', t.HasState table e.1 entries' ∧
      Entry.AllBecome (t.HasState table) e.2 (names e.1) entries') ∧
    t.states.keys.Perm (table.states.keys ++ table.states.keys.flatMap names) ∧
    (table.states.keys ++ table.states.keys.flatMap names).Nodup

theorem length_of_listsAreStates (h : t.ListsAreStates table) : t.states.keys.length = table.allNames.length := by
  obtain ⟨names, hstates, hperm, -⟩ := h
  have hlengths : ∀ e ∈ table.states.entries, (names e.1).length = (Entry.listNames e.1 e.2).length := by
    intro e he
    obtain ⟨_, -, hbecome⟩ := hstates e he
    rw [Entry.length_of_allBecome e.1 0 hbecome, Entry.listNames, List.length_map]
  have hflat : table.states.keys.flatMap names = table.states.entries.flatMap fun e => names e.1 := List.flatMap_map ..
  rw [hperm.length_eq, RuleTable.allNames, List.length_append, List.length_append, hflat, List.length_flatMap,
    List.length_flatMap, List.map_congr_left hlengths]

/-- The states of a compiled table are those of the table, with their own rules, and one for each list of an inline rule,
which the rule pushes, exactly if no state of the table is named as a list of another state would be: by the name of that
state, and behind a sign each the numbers of the lists from the outermost one to it. -/
theorem listsAreStates_iff (hkeys : table.states.keys.Pairwise (· < ·)) (ht : compile table options = .ok t) :
    t.ListsAreStates table ↔ table.Fresh := by
  have hnodup := Dict.nodup_keys lt_irrefl hkeys
  rw [← RuleTable.nodup_allNames_iff hnodup]
  constructor
  · intro h
    -- As many states as there are names, so no two of the names are one.
    have hlength := length_of_listsAreStates h
    rw [keys_of_compile ht] at hlength
    have hsub : table.hoisted.keys ⊆ table.allNames := fun _ hn => table.mem_keys_hoisted.mp hn
    have hsubperm := (Dict.nodup_keys lt_irrefl table.pairwise_hoisted).subperm hsub
    have hperm := hsubperm.perm_of_length_le (Nat.le_of_eq hlength.symm)
    exact hperm.nodup_iff.mp (Dict.nodup_keys lt_irrefl table.pairwise_hoisted)
  · intro hnames
    have hhas : ∀ e ∈ table.states.entries, ∀ piece ∈ RuleTable.piecesOf e, t.HasState table piece.1 piece.2 := by
      intro e he piece hpiece
      have hentries := RuleTable.get?_hoisted_of_mem hnames he hpiece
      exact ⟨hentries, exists_state_of_compile ht hentries⟩
    let names := fun name => Entry.listNames name ((table.states.get? name).getD [])
    have hown : ∀ e ∈ table.states.entries, names e.1 = Entry.listNames e.1 e.2 := by
      intro e he
      simp only [names, (Dict.get?_eq_some_iff lt_irrefl hkeys).mpr he, Option.getD_some]
    have hall : table.states.keys ++ table.states.keys.flatMap names = table.allNames := by
      have hflat : table.states.keys.flatMap names = table.states.entries.flatMap fun e => names e.1 :=
        List.flatMap_map ..
      rw [hflat, RuleTable.allNames, List.flatMap_congr hown]
    refine ⟨names, fun e he => ?_, ?_, ?_⟩
    · obtain ⟨hstate, hlists⟩ := List.forall_mem_cons.mp (hhas e he)
      rw [hown e he]
      exact ⟨_, hstate, Entry.allBecome_hoistAll e.1 0 e.2 hlists⟩
    · rw [hall, keys_of_compile ht]
      exact RuleTable.keys_hoisted_perm hnames
    · rw [hall]
      exact hnames

/-- A list in a list, and a state with a sign in its name that has a list too. -/
def sampleSigns : RuleTable :=
  { states := Dict.ofList [
    (startState, [.inline { token := .literal "paren", regex := "\\(" } [
      .inline { token := .literal "paren", regex := "\\[" } [
        .rule { token := .literal "paren", regex := "\\]", jump := some .pop }],
      .rule { token := .literal "paren", regex := "\\)", jump := some (.next "start#3") }]]),
    ("start#3", [.inline { token := .literal "paren", regex := "<" } [
      .rule { token := .literal "paren", regex := ">", jump := some .pop }]])] }

theorem listsAreStates_signs : sampleSigns.states.keys.Pairwise (· < ·) ∧ sampleSigns.Fresh ∧
    ∃ t, compile sampleSigns = .ok t ∧ t.ListsAreStates sampleSigns ∧
      t.states.keys = ["start", "start#1", "start#1#2", "start#3", "start#3#1"] := by
  have hkeys : sampleSigns.states.keys.Pairwise (· < ·) :=
    Dict.pairwise_ofList (fun _ _ _ => lt_trans) String.lt_total _
  have hfresh : sampleSigns.Fresh := by decide +kernel
  obtain ⟨t, ht, hnames⟩ : ∃ t, compile sampleSigns = .ok t ∧
      t.states.keys = ["start", "start#1", "start#1#2", "start#3", "start#3#1"] :=
    ⟨_, rfl, by decide +kernel⟩
  exact ⟨hkeys, hfresh, t, ht, (listsAreStates_iff hkeys ht).mpr hfresh, hnames⟩

/-- A state that is named as the list of the start is. -/
def sampleTaken : RuleTable :=
  { states := Dict.ofList [
    (startState, [.inline { token := .literal "paren", regex := "\\(" } [
      .rule { token := .literal "paren", regex := "\\)", jump := some .pop }]]),
    ("start#1", [.rule { token := .literal "word", regex := "x" }])] }

/-- The list is lost: an opening bracket enters the other state, which the closing one does not leave. -/
theorem list_lost_taken : ∃ t, compile sampleTaken = .ok t ∧ t.states.keys = ["start", "start#1"] ∧
    ¬ t.ListsAreStates sampleTaken ∧
    t.lineTokens "(x)y" .initial =
      ⟨[⟨"paren", "("⟩, ⟨"word", "x"⟩, ⟨"text", ")y"⟩], { frames := ["start#1", "start"] }⟩ := by
  have hnames : sampleTaken.allNames.length = 3 := by decide +kernel
  obtain ⟨t, ht, hkeys, hline⟩ : ∃ t, compile sampleTaken = .ok t ∧ t.states.keys = ["start", "start#1"] ∧
      t.lineTokens "(x)y" .initial =
        ⟨[⟨"paren", "("⟩, ⟨"word", "x"⟩, ⟨"text", ")y"⟩], { frames := ["start#1", "start"] }⟩ :=
    ⟨_, rfl, by decide +kernel⟩
  refine ⟨t, ht, hkeys, fun h => ?_, hline⟩
  have hlength := length_of_listsAreStates h
  rw [hkeys, hnames] at hlength
  cases hlength

end Tokenizer

end Scribe
