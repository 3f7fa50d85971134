import Scribe.Proofs.Library.Restored

/-!
# Libraries put away and built again

A library of tables from files comes back with all of its names. They stand for the same modes exactly if no name was
linked to a mode whose own name comes before it and has come to stand for another mode. Bounds and extra fields are not
kept.
-/

namespace Scribe

/-! ## Snippets -/

theorem SnippetStore.register_withoutExtra (s : SnippetStore) (ds : List SnippetDefinition) (scope : Option String) :
    s.withoutExtra.register (ds.map SnippetDefinition.withoutExtra) scope =
      ((s.register ds scope).1.withoutExtra, (s.register ds scope).2) := registerFrom_withoutExtra ds s _

namespace Library

theorem foldlM_registerScope_withoutExtra (scopes : List (String × List SnippetDefinition)) (s : SnippetStore) :
    (scopes.map fun e => (e.1, e.2.map SnippetDefinition.withoutExtra)).foldlM registerScope s.withoutExtra =
      (scopes.foldlM registerScope s).map SnippetStore.withoutExtra := by
  induction scopes generalizing s with
  | nil => rfl
  | cons scope scopes ih =>
    have hregister : registerScope s.withoutExtra (scope.1, scope.2.map SnippetDefinition.withoutExtra) =
        (registerScope s scope).map SnippetStore.withoutExtra := by
      unfold registerScope
      rw [SnippetStore.register_withoutExtra]
      cases hs : s.register scope.2 (some scope.1) with
      | mk store e => cases e <;> rfl
    rw [List.map_cons, List.foldlM_cons, List.foldlM_cons, hregister]
    cases registerScope s scope with
    | error e => rfl
    | ok store => exact ih store

variable {options : ScanOptions} {l l' : Library}

theorem Restores.snippetStore (h : Restores l l') :
    l'.snippetStore = l.snippetStore.map SnippetStore.withoutExtra := by
  rw [Library.snippetStore, h.snippets]
  exact foldlM_registerScope_withoutExtra l.snippets.entries {}

/-! ## Names -/

/-- A name that comes after the own name of its mode comes back only if that name still stands for the same mode. -/
def Replays (l : Library) : Prop :=
  ∀ k ∈ l.places.keys, ∀ m ∈ l.mode? k, m.name < k → l.sameMode m.name k = .ok true

instance (l : Library) : Decidable l.Replays :=
  inferInstanceAs (Decidable (∀ k ∈ l.places.keys, ∀ m ∈ l.mode? k, m.name < k → l.sameMode m.name k = .ok true))

/-- Names stand for the same modes, and for the same one, in both libraries. -/
def Agrees (l l' : Library) : Prop :=
  (∀ k, l'.mode? k = l.mode? k) ∧ ∀ k other, l'.sameMode k other = l.sameMode k other

theorem Restores.get?_places (h : Restores l l') (hplaced : l.Placed) (hreplays : l.Replays) (k : String) :
    l'.places.get? k = l.places.get? k := by
  cases hk : l.places.get? k with
  | none =>
    have hunknown := h.names k
    simpa [contains, Dict.contains, hk] using hunknown
  | some i =>
    obtain ⟨m, hm, hmode⟩ := mode?_of_get? hplaced hk
    rw [h.place hk hm]
    by_cases hturn : m.name < k
    · have hkey : k ∈ l.places.keys := Dict.contains_eq_true_iff.mp (by simp [Dict.contains, hk])
      obtain ⟨place, hown, hk'⟩ := sameMode_eq_ok_iff.mp (hreplays k hkey m hmode hturn)
      obtain rfl := Option.some.inj (hk.symm.trans hk')
      rw [if_pos hturn, h.place hown hm, if_neg (lt_irrefl _)]
    · rw [if_neg hturn]

theorem Restores.mode? (h : Restores l l') {k : String} (hk : l'.places.get? k = l.places.get? k) :
    l'.mode? k = (l.mode? k).map Mode.usual := by
  rw [Library.mode?, Library.mode?, hk, h.modes]
  cases l.places.get? k with
  | none => rfl
  | some i => simp

theorem map_usual_of_default (h : l.Sourced default) : l.modes.map Mode.usual = l.modes := by
  refine (List.map_congr_left fun m hm => ?_).trans (List.map_id _)
  obtain ⟨f, -, -, ht⟩ := h.comes m hm
  have husual := ht.symm.trans (Tokenizer.compile_usual ht)
  rw [Mode.usual, ← Except.ok.inj husual]
  rfl

theorem Restores.agrees_iff (h : Restores l l') (hplaced : l.Placed) (husual : l.modes.map Mode.usual = l.modes) :
    l.Agrees l' ↔ l.Replays := by
  constructor
  · rintro ⟨-, hshare⟩ k hk m hm hturn
    obtain ⟨i, hi⟩ := Option.isSome_iff_exists.mp (Dict.contains_eq_true_iff.mpr hk)
    obtain ⟨m', hm', hmode⟩ := mode?_of_get? hplaced hi
    obtain rfl := Option.some.inj (hm.symm.trans hmode)
    have hknown : l'.contains m.name = true :=
      (h.names m.name).trans (hplaced.owned m.name (List.mem_map_of_mem (List.mem_of_getElem? hm')))
    obtain ⟨place, hplace⟩ := Option.isSome_iff_exists.mp hknown
    rw [← hshare]
    exact sameMode_eq_ok_iff.mpr ⟨place, hplace, by rw [h.place hi hm', if_pos hturn, hplace]⟩
  · intro hreplays
    have hplaces := h.get?_places hplaced hreplays
    refine ⟨fun k => ?_, fun k other => by simp only [sameMode, hplaces]⟩
    rw [Library.mode?, Library.mode?, hplaces, h.modes, husual]

/-- A library with the usual bounds comes back if its tables are not too deep. It has the same names then, and they
stand for the same modes exactly if each one comes back in its turn. -/
theorem reload_agrees_iff (h : l.Filed default) :
    ((∃ l', load (some l.dump) = .ok l') ↔ ∀ m ∈ l.modes, ∀ f ∈ m.source, f.toJson.depth ≤ ModeFile.maxDepth) ∧
    ∀ l', load (some l.dump) = .ok l' → (∀ k, l'.contains k = l.contains k) ∧ (l.Agrees l' ↔ l.Replays) := by
  have hloads : (∃ l', load (some l.dump) = .ok l') ↔
      ∀ m ∈ l.modes, ∀ f ∈ m.source, f.toJson.depth ≤ ModeFile.maxDepth := by
    constructor
    · rintro ⟨l', hl'⟩ m hm f hf
      by_contra hdeep
      have herror := load_dump_eq_error h ⟨m, hm, f, hf, Nat.not_le.mp hdeep⟩
      rw [herror] at hl'
      cases hl'
    · intro hdepth
      exact (load_dump h hdepth).imp fun _ hl' => hl'.1
  refine ⟨hloads, fun l' hl' => ?_⟩
  obtain ⟨restored, hrestored, hall⟩ := load_dump h (hloads.mp ⟨l', hl'⟩)
  obtain rfl := Except.ok.inj (hl'.symm.trans hrestored)
  exact ⟨hall.names, hall.agrees_iff h.placed (map_usual_of_default h.sourced)⟩

/-- Names of names, a name in place of a mode, and a mode added again under it. -/
theorem reload_agrees_named :
    ∃ plain two l l', (withOptions default).addPlain ["txt"] = .ok plain ∧ plain.addFile "zig" (sampleFile "a") = .ok two ∧
      ((two.addAlias "txt" "zag").addAlias "zag" "zig").addFile "zig" (sampleFile "b") = .ok l ∧
      load (some l.dump) = .ok l' ∧ l.Agrees l' ∧ (∀ k, l'.contains k = l.contains k) ∧
      l.sameMode "zig" "plain" = .ok true ∧ l.tokenize "zag" "x" false = .ok [⟨[⟨"b", "x"⟩], .initial⟩] := by
  obtain ⟨plain, hplain, two, htwo, l, hl, hreplays, hdepth, hshare, htokens⟩ :
      ∃ plain, (withOptions default).addPlain ["txt"] = .ok plain ∧ ∃ two, plain.addFile "zig" (sampleFile "a") = .ok two ∧
        ∃ l, ((two.addAlias "txt" "zag").addAlias "zag" "zig").addFile "zig" (sampleFile "b") = .ok l ∧ l.Replays ∧
          (∀ m ∈ l.modes, ∀ f ∈ m.source, f.toJson.depth ≤ ModeFile.maxDepth) ∧ l.sameMode "zig" "plain" = .ok true ∧
          l.tokenize "zag" "x" false = .ok [⟨[⟨"b", "x"⟩], .initial⟩] :=
    ⟨_, rfl, _, rfl, _, rfl, by decide +kernel, by decide +kernel, by decide +kernel, by decide +kernel⟩
  have hordered : ∀ kind, (sampleFile kind).states.keys.Pairwise (· < ·) := fun _ => List.pairwise_singleton _ _
  have hfiled : l.Filed default :=
    .file (.named "zag" "zig" (.named "txt" "zag" (.file (filed_addPlain .new hplain) (hordered "a") htwo)))
      (hordered "b") hl
  obtain ⟨hloads, hagrees⟩ := reload_agrees_iff hfiled
  obtain ⟨l', hl'⟩ := hloads.mpr hdepth
  obtain ⟨hnames, hiff⟩ := hagrees l' hl'
  exact ⟨plain, two, l, l', hplain, htwo, hl, hl', hiff.mpr hreplays, hnames, hshare, htokens⟩

/-- The name `c` was linked to `b` before `b` was linked to `a`, and comes back after it. -/
theorem reload_shares_more :
    ∃ one two l', (withOptions default).addFile "a" (sampleFile "first") = .ok one ∧ one.addFile "b" (sampleFile "second") = .ok two ∧
      let l := (two.addAlias "b" "c").addAlias "a" "b"
      load (some l.dump) = .ok l' ∧
      l.sameMode "c" "b" = .ok false ∧ l'.sameMode "c" "b" = .ok true ∧
      l.tokenize "c" "x" false = .ok [⟨[⟨"second", "x"⟩], .initial⟩] ∧
      l'.tokenize "c" "x" false = .ok [⟨[⟨"first", "x"⟩], .initial⟩] := by
  obtain ⟨one, hone, two, htwo, l, hl, a, b, hmodes, hplaces, ⟨haname, hbname⟩, hfirst, hdepth, hshare, hsecond⟩ :
      ∃ one, (withOptions default).addFile "a" (sampleFile "first") = .ok one ∧
        ∃ two, one.addFile "b" (sampleFile "second") = .ok two ∧ ∃ l, (two.addAlias "b" "c").addAlias "a" "b" = l ∧
          ∃ a b, l.modes = [a, b] ∧ l.places = ⟨[("a", 0), ("b", 0), ("c", 1)]⟩ ∧ (a.name = "a" ∧ b.name = "b") ∧
            a.usual.tokenizer.tokenize "x" = [⟨[⟨"first", "x"⟩], .initial⟩] ∧
            (∀ m ∈ l.modes, ∀ f ∈ m.source, f.toJson.depth ≤ ModeFile.maxDepth) ∧
            l.sameMode "c" "b" = .ok false ∧ l.tokenize "c" "x" false = .ok [⟨[⟨"second", "x"⟩], .initial⟩] :=
    ⟨_, rfl, _, rfl, _, rfl, _, _, rfl, by decide +kernel, ⟨rfl, rfl⟩, by decide +kernel, by decide +kernel,
      by decide +kernel, by decide +kernel⟩
  have hordered : ∀ kind, (sampleFile kind).states.keys.Pairwise (· < ·) := fun _ => List.pairwise_singleton _ _
  have hfiled : l.Filed default :=
    hl ▸ .named "a" "b" (.named "b" "c" (.file (.file .new (hordered "first") hone) (hordered "second") htwo))
  obtain ⟨l', hl', h⟩ := load_dump hfiled hdepth
  have ha : l'.places.get? "a" = some 0 := by
    rw [h.place (k := "a") (i := 0) (m := a) (by rw [hplaces]; rfl) (by rw [hmodes]; rfl), haname, if_neg (by decide)]
  have hb : l'.places.get? "b" = some 0 := by
    rw [h.place (k := "b") (i := 0) (m := a) (by rw [hplaces]; rfl) (by rw [hmodes]; rfl), haname, if_pos (by decide), ha]
  have hc : l'.places.get? "c" = some 0 := by
    rw [h.place (k := "c") (i := 1) (m := b) (by rw [hplaces]; rfl) (by rw [hmodes]; rfl), hbname, if_pos (by decide), hb]
  have hmode : l'.mode? "c" = some a.usual := by
    rw [mode?, hc, h.modes, hmodes]
    rfl
  subst hl
  refine ⟨one, two, l', hone, htwo, hl', hshare, sameMode_eq_ok_iff.mpr ⟨0, hc, hb⟩, hsecond, ?_⟩
  simp only [tokenize, hmode]
  exact congrArg Except.ok hfirst

/-! ## Modes and snippets -/

def usual (l : Library) : Library := { l with modes := l.modes.map Mode.usual }

theorem mode?_usual (l : Library) (k : String) : l.usual.mode? k = (l.mode? k).map Mode.usual := by
  rw [mode?, mode?, usual]
  cases l.places.get? k with
  | none => rfl
  | some i => simp

theorem usual_of_default (h : l.Sourced default) : l.usual = l := by
  rw [usual, map_usual_of_default h]

theorem mode?_ownName (h : l.Placed) (hnames : ∀ k m, l.mode? k = some m → m.name = k) {m : Mode} (hm : m ∈ l.modes) :
    l.mode? m.name = some m := by
  obtain ⟨place, hp⟩ := Option.isSome_iff_exists.mp (h.owned m.name (List.mem_map_of_mem hm))
  obtain ⟨m', hm', hmode⟩ := mode?_of_get? h hp
  rw [hmode, List.inj_on_of_nodup_map h.distinct (List.mem_of_getElem? hm') hm (hnames m.name m' hmode)]

theorem tokenize_eq_of_mode? (h : ∀ k, l'.mode? k = l.mode? k) (name content : String) (fallback : Bool) :
    l'.tokenize name content fallback = l.tokenize name content fallback := by
  simp only [tokenize, h]

theorem Restores.mode?_eq_usual (h : Restores l l') (hplaced : l.Placed) (hreplays : l.Replays) (k : String) :
    l'.mode? k = l.usual.mode? k := by
  rw [mode?_usual, h.mode? (h.get?_places hplaced hreplays k)]

/-- A library of tables that were read from texts, without other names, comes back. Its modes then have the usual bounds,
which is all that is different about them, and its snippets have no extra fields, which is all that is different about
those. -/
theorem reload_keeps (h : l.Filed options) (hread : ∀ m ∈ l.modes, ∃ text, ∃ f ∈ m.source, ModeFile.read? text = some f)
    (hnames : ∀ k m, l.mode? k = some m → m.name = k) :
    ∃ l', load (some l.dump) = .ok l' ∧
      (∀ m ∈ l.modes, ∀ f ∈ m.source, ∃ t, Tokenizer.compile f.toTable default = .ok t ∧
        l'.tokenizer m.name = .ok t ∧ l.tokenizer m.name = .ok { t with options }) ∧
      (∀ name content fallback, l'.tokenize name content fallback = l.usual.tokenize name content fallback) ∧
      (options = default →
        ∀ name content fallback, l'.tokenize name content fallback = l.tokenize name content fallback) ∧
      l'.snippetStore = l.snippetStore.map SnippetStore.withoutExtra := by
  have hdepth : ∀ m ∈ l.modes, ∀ f ∈ m.source, f.toJson.depth ≤ ModeFile.maxDepth := fun m hm f hf => by
    obtain ⟨text, f', hf', hread⟩ := hread m hm
    obtain rfl := Option.mem_unique hf hf'
    exact (ModeFile.ordered_of_read? hread).2
  obtain ⟨l', hl', hall⟩ := load_dump h hdepth
  have hreplays : l.Replays := fun k _ m hm hturn => by
    rw [hnames k m hm] at hturn
    exact absurd hturn (lt_irrefl k)
  have hmodes := hall.mode?_eq_usual h.placed hreplays
  refine ⟨l', hl', fun m hm f hf => ?_, tokenize_eq_of_mode? hmodes, ?_, hall.snippetStore⟩
  · obtain ⟨f', hsource, -, ht⟩ := h.sourced.comes m hm
    obtain rfl := Option.mem_unique hf hsource
    have hbounds : { m.tokenizer.usual with options } = m.tokenizer := by
      have hself := Tokenizer.compile_options f.toTable default options
      rw [ht, Tokenizer.compile_usual ht] at hself
      exact (Except.ok.inj hself).symm
    have hown := mode?_ownName h.placed hnames hm
    refine ⟨m.tokenizer.usual, Tokenizer.compile_usual ht, ?_, by rw [tokenizer, hown, hbounds]⟩
    rw [tokenizer, hmodes, mode?_usual, hown]
    rfl
  · rintro rfl
    rw [usual_of_default h.sourced] at hmodes
    exact tokenize_eq_of_mode? hmodes

/-- Two matches for each line, and a snippet with a trigger of its own. -/
theorem reload_keeps_bounded :
    let options := (default : ScanOptions).withMaxMatches 2
    let file : ModeFile := ⟨Dict.ofList [(startState, [.rule { token := .one "x", regex := "x", merge := some false } none])]⟩
    let snippet : SnippetDefinition := { name := some "s", content := "c", trigger := some "s+" }
    ∃ one l', (withOptions options).addFile "a" file = .ok one ∧
      load (some (one.addSnippets (some "a") [snippet]).dump) = .ok l' ∧
      (∃ t, l'.tokenizer "a" = .ok t ∧ one.tokenizer "a" = .ok { t with options }) ∧
      l'.tokenize "a" "xxx" false = .ok [⟨[⟨"x", "x"⟩, ⟨"x", "x"⟩, ⟨"x", "x"⟩], .initial⟩] ∧
      l'.snippetStore.toOption.map (·.definitions) = some [{ snippet with scope := some "a" }] := by
  intro options file snippet
  obtain ⟨one, hone, m, hmodes, hsource, hname, hplaces, hdepth, hafter, hstore⟩ :
      ∃ one, (withOptions options).addFile "a" file = .ok one ∧
        ∃ m, one.modes = [m] ∧ m.source = some file ∧ m.name = "a" ∧ one.places = ⟨[("a", 0)]⟩ ∧
        file.toJson.depth ≤ ModeFile.maxDepth ∧
        one.usual.tokenize "a" "xxx" false = .ok [⟨[⟨"x", "x"⟩, ⟨"x", "x"⟩, ⟨"x", "x"⟩], .initial⟩] ∧
        ((one.addSnippets (some "a") [snippet]).snippetStore.map SnippetStore.withoutExtra).toOption.map
          (·.definitions) = some [{ snippet with scope := some "a" }] :=
    ⟨_, rfl, _, rfl, rfl, rfl, by decide +kernel, by decide +kernel, by decide +kernel, by decide +kernel⟩
  have hordered : file.states.keys.Pairwise (· < ·) := List.pairwise_singleton _ _
  have hread : ∀ m' ∈ one.modes, ∃ text, ∃ f ∈ m'.source, ModeFile.read? text = some f := by
    rw [hmodes, List.forall_mem_singleton]
    exact ⟨file.write, file, hsource, ModeFile.read?_write hordered hdepth⟩
  have hnames : ∀ k m', one.mode? k = some m' → m'.name = k := fun k m' hm' => by
    obtain ⟨i, hi, hget⟩ := Option.bind_eq_some_iff.mp hm'
    have hmem := Dict.mem_entries_of_get? hi
    rw [hplaces, List.mem_singleton, Prod.mk.injEq] at hmem
    rw [hmem.2, hmodes] at hget
    rw [hmem.1, ← hname, ← Option.some.inj hget]
  obtain ⟨l', hl', hmode, htokenize, -, hstores⟩ :=
    reload_keeps (.snippets (some "a") [snippet] (.file .new hordered hone)) hread hnames
  obtain ⟨t, -, ht, ht'⟩ := hmode m (by rw [addSnippets, hmodes]; exact List.mem_singleton_self m) file hsource
  rw [hname] at ht ht'
  exact ⟨one, l', hone, hl', ⟨t, ht, ht'⟩, (htokenize "a" "xxx" false).trans hafter, by rw [hstores, hstore]⟩

/-- One match for each line, and a snippet with an author. -/
theorem reload_forgets :
    let options := (default : ScanOptions).withMaxMatches 1
    let file : ModeFile := ⟨Dict.ofList [(startState, [.rule { token := .one "x", regex := "x", merge := some false } none])]⟩
    let author := Dict.ofList [("author", "me")]
    ∃ one l', (withOptions options).addFile "a" file = .ok one ∧
      let l := one.addSnippets none [{ name := some "s", content := "c", extra := author }]
      load (some l.dump) = .ok l' ∧
      l.tokenize "a" "xxx" false = .ok [⟨[⟨"x", "x"⟩, ⟨"overflow", "xx"⟩], .initial⟩] ∧
      l'.tokenize "a" "xxx" false = .ok [⟨[⟨"x", "x"⟩, ⟨"x", "x"⟩, ⟨"x", "x"⟩], .initial⟩] ∧
      l.snippetStore.toOption.map (·.definitions.map (·.extra)) = some [author] ∧
      l'.snippetStore.toOption.map (·.definitions.map (·.extra)) = some [Dict.empty] := by
  intro options file author
  obtain ⟨one, hone, l, hl, hreplays, hdepth, hbefore, hafter, hauthor, hnone⟩ :
      ∃ one, (withOptions options).addFile "a" file = .ok one ∧
        ∃ l, one.addSnippets none [{ name := some "s", content := "c", extra := author }] = l ∧ l.Replays ∧
        (∀ m ∈ l.modes, ∀ f ∈ m.source, f.toJson.depth ≤ ModeFile.maxDepth) ∧
        l.tokenize "a" "xxx" false = .ok [⟨[⟨"x", "x"⟩, ⟨"overflow", "xx"⟩], .initial⟩] ∧
        l.usual.tokenize "a" "xxx" false = .ok [⟨[⟨"x", "x"⟩, ⟨"x", "x"⟩, ⟨"x", "x"⟩], .initial⟩] ∧
        l.snippetStore.toOption.map (·.definitions.map (·.extra)) = some [author] ∧
        (l.snippetStore.map SnippetStore.withoutExtra).toOption.map (·.definitions.map (·.extra)) = some [Dict.empty] :=
    ⟨_, rfl, _, rfl, by decide +kernel, by decide +kernel, by decide +kernel, by decide +kernel, by decide +kernel,
      by decide +kernel⟩
  have hfiled : l.Filed options := hl ▸ .snippets _ _ (.file .new (List.pairwise_singleton _ _) hone)
  obtain ⟨l', hl', h⟩ := load_dump hfiled hdepth
  subst hl
  refine ⟨one, l', hone, hl', hbefore, ?_, hauthor, by rw [h.snippetStore, hnone]⟩
  rw [tokenize_eq_of_mode? (h.mode?_eq_usual hfiled.placed hreplays), hafter]

end Library

end Scribe
