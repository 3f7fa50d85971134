import Scribe.Proofs.Highlight.Hoisting
import Mathlib.Data.List.Forall2
import Mathlib.Data.List.Perm.Subperm

/-!
# Compiled states under a renaming

A state is compiled from its own rules and those of the states that it takes in, and only the names of
states differ between one table and a renamed one within another. So a state that compiles does so there.
-/

namespace Scribe

/-! ## Included rules -/

section
variable {states : Dict String (List Entry)}

/-- No path goes through a state twice, so more room than there are states makes no difference. -/
theorem includedRules_room : ∀ {room room' : Nat} {path : List String} {name : String},
    (name :: path).Nodup → (∀ n ∈ name :: path, states.contains n = true) →
    states.entries.length < room + path.length → room ≤ room' →
    includedRules states room path name = includedRules states room' path name
  | 0, room', path, name, hnodup, hmem, hroom, _ => by
    -- Without room the path would hold more states than there are.
    have hsub : name :: path ⊆ states.keys := fun n hn => Dict.contains_eq_true_iff.mp (hmem n hn)
    have hlen := (hnodup.subperm hsub).length_le
    simp only [Dict.keys, List.length_map, List.length_cons] at hlen
    omega
  | room + 1, 0, _, _, _, _, _, hle => absurd hle (Nat.not_succ_le_zero _)
  | room + 1, room' + 1, path, name, hnodup, hmem, hroom, hle => by
    unfold includedRules
    refine congrArg (fun step => ((states.get? name).getD []).foldlM step []) ?_
    funext rules entry
    cases entry with
    | rule r => rfl
    | inline r entries => rfl
    | defaultKind kind => rfl
    | «include» target =>
      dsimp only
      cases hc : states.contains target with
      | false => rfl
      | true =>
        by_cases hp : (name :: path).contains target = true
        · simp only [hp, if_true]
        · have htarget : target ∉ name :: path := fun h => hp (List.contains_iff_mem.mpr h)
          rw [includedRules_room (List.nodup_cons.mpr ⟨htarget, hnodup⟩)
            (List.forall_mem_cons.mpr ⟨hc, hmem⟩) (by simp only [List.length_cons]; omega)
            (Nat.le_of_succ_le_succ hle)]

end

/-- What each step of a fold keeps holds of its result. -/
theorem foldlM_keeps {α β ε : Type} {P : β → Prop} {step : β → α → Except ε β} {xs : List α}
    (hstep : ∀ x ∈ xs, ∀ b b', P b → step b x = .ok b' → P b') :
    ∀ {start result : β}, P start → xs.foldlM step start = .ok result → P result := by
  induction xs with
  | nil =>
    intro start result hstart h
    cases h
    exact hstart
  | cons x xs ih =>
    intro start result hstart h
    obtain ⟨hx, hxs⟩ := List.forall_mem_cons.mp hstep
    rw [List.foldlM_cons] at h
    cases hfirst : step start x with
    | error e => rw [hfirst] at h; cases h
    | ok next =>
      rw [hfirst] at h
      exact ih hxs (hx start next hstart hfirst) h

theorem foldlM_ok_map {f : String → String} {step step' : List Rule → Entry → Except Error (List Rule)}
    {entries : List Entry} (hstep : ∀ e ∈ entries, ∀ rules result, step rules e = .ok result →
      step' (rules.map (Rule.rename f)) (e.rename f) = .ok (result.map (Rule.rename f))) :
    ∀ {rules result : List Rule}, entries.foldlM step rules = .ok result →
      (Entry.renameAll f entries).foldlM step' (rules.map (Rule.rename f)) = .ok (result.map (Rule.rename f)) := by
  induction entries with
  | nil =>
    intro rules result h
    cases h
    rfl
  | cons e rest ih =>
    intro rules result h
    obtain ⟨he, hrest⟩ := List.forall_mem_cons.mp hstep
    rw [List.foldlM_cons] at h
    cases hfirst : step rules e with
    | error _ => rw [hfirst] at h; cases h
    | ok next =>
      rw [hfirst] at h
      rw [Entry.renameAll, List.foldlM_cons, he rules next hfirst]
      exact ih hrest h

section
variable {states states' : Dict String (List Entry)} {f : String → String} (hf : f.Injective)
  (hstates : ∀ {name entries}, states.get? name = some entries →
    states'.get? (f name) = some (Entry.renameAll f entries))
  (hplain : ∀ {name entries}, states.get? name = some entries → ∀ e ∈ entries, e.Plain)
include hstates

theorem contains_of_renamed {name : String} (h : states.contains name = true) : states'.contains (f name) = true := by
  obtain ⟨entries, hentries⟩ := Option.isSome_iff_exists.mp h
  simp [Dict.contains, hstates hentries]

include hf

theorem length_le_of_renamed (hordered : states.keys.Pairwise (· < ·)) :
    states.entries.length ≤ states'.entries.length := by
  have hnodup := (Dict.nodup_keys lt_irrefl hordered).map hf
  have hsub : states.keys.map f ⊆ states'.keys := by
    intro n hn
    obtain ⟨m, hm, rfl⟩ := List.mem_map.mp hn
    exact Dict.contains_eq_true_iff.mp (contains_of_renamed hstates (Dict.contains_eq_true_iff.mpr hm))
  simpa [Dict.keys] using (hnodup.subperm hsub).length_le

include hplain

theorem includedRules_rename : ∀ {room : Nat} {path : List String} {name : String} {rules : List Rule},
    states.contains name = true → includedRules states room path name = .ok rules →
    includedRules states' room (path.map f) (f name) = .ok (rules.map (Rule.rename f))
  | 0, _, _, _, _, h => by cases h; rfl
  | room + 1, path, name, rules, hname, h => by
    obtain ⟨entries, hentries⟩ := Option.isSome_iff_exists.mp hname
    unfold includedRules at h ⊢
    simp only [hentries, hstates hentries, Option.getD_some] at h ⊢
    refine foldlM_ok_map (fun e he rules result hstep => ?_) h
    cases e with
    | rule r =>
      cases hstep
      simp [Entry.rename]
    | inline r inner =>
      -- It would keep its rule as it is; compiled tables have no such entry.
      exact absurd rfl (hplain hentries _ he r inner)
    | defaultKind kind =>
      cases hstep
      rfl
    | «include» target =>
      dsimp only at hstep
      cases hc : states.contains target with
      | false => simp [hc] at hstep
      | true =>
        have hpath : ((f name :: path.map f).contains (f target)) = (name :: path).contains target := by
          rw [← List.map_cons, Bool.eq_iff_iff, List.contains_iff_mem, List.contains_iff_mem,
            List.mem_map_of_injective hf]
        simp only [Entry.rename, contains_of_renamed hstates hc, hpath]
        cases hp : (name :: path).contains target with
        | true =>
          rw [hc, hp] at hstep
          cases hstep
          rfl
        | false =>
          rw [hc, hp] at hstep
          simp only [Bool.not_true, Bool.false_eq_true, if_false] at hstep ⊢
          cases hinner : includedRules states room (name :: path) target with
          | error _ => rw [hinner] at hstep; cases hstep
          | ok inner =>
            rw [hinner] at hstep
            cases hstep
            have hrenamed : includedRules states' room ((name :: path).map f) (f target) =
                .ok (inner.map (Rule.rename f)) := includedRules_rename hc hinner
            rw [List.map_cons] at hrenamed
            rw [hrenamed, List.map_append]
            rfl

end

/-! ## Compiled states -/

def CompiledRule.rename (f : String → String) (r : CompiledRule) : CompiledRule :=
  { r with jump := r.jump.map (Jump.rename f) }

def Rule.compiled (patterns : PatternUnion) (index : Nat) (r : Rule) : CompiledRule :=
  { token := r.token.fit (patterns.groupCount index), jump := r.jump, onMatch := r.onMatch, merge := r.merge }

theorem Rule.mapIdx_compiled_rename (f : String → String) (patterns : PatternUnion) (rules : List Rule) :
    (rules.map (rename f)).mapIdx (fun i r => r.compiled patterns i) =
      (rules.mapIdx fun i r => r.compiled patterns i).map (CompiledRule.rename f) := by
  refine List.ext_getElem? fun i => ?_
  simp only [List.getElem?_mapIdx, List.getElem?_map, Option.map_map]
  rfl

def CompiledState.rename (f : String → String) (s : CompiledState) : CompiledState :=
  { s with name := f s.name, rules := s.rules.map (CompiledRule.rename f) }

theorem defaultKindOf_renameAll (f : String → String) (entries : List Entry) :
    defaultKindOf (Entry.renameAll f entries) = defaultKindOf entries := by
  unfold defaultKindOf
  rw [Entry.renameAll_eq_map, ← List.map_reverse, List.findSome?_map]
  refine congrArg (fun kind => (entries.reverse.findSome? kind).getD Token.textKind) (funext fun e => ?_)
  cases e <;> rfl

section
variable {states states' : Dict String (List Entry)} {f : String → String}

/-- A compiled state, taken apart. -/
theorem compileState_eq_ok {name : String} {entries : List Entry} {state : CompiledState}
    (h : compileState states name entries = .ok state) :
    ∃ rules patterns, includedRules states (states.entries.length + 1) [] name = .ok rules ∧
      (∀ r ∈ rules, ∀ n ∈ r.target?, states.contains n = true) ∧
      PatternUnion.compile (rules.map fun r => ⟨r.regex, r.caseless⟩) = .ok patterns ∧
      state = ⟨name, defaultKindOf entries, patterns, (rules.mapIdx fun i r => r.compiled patterns i).toArray⟩ := by
  simp only [compileState, bind, Except.bind] at h
  split at h
  · cases h
  · rename_i rules hrules
    split at h
    · cases h
    · rename_i htargets
      split at h
      · cases h
      · rename_i patterns hpatterns
        refine ⟨rules, patterns, hrules, fun r hr n hn => ?_, hpatterns, (Except.ok.inj h).symm⟩
        have hnone := List.findSome?_eq_none_iff.mp htargets r hr
        rw [Option.mem_def.mp hn] at hnone
        simpa [Option.filter] using hnone

variable (hf : f.Injective)
  (hstates : ∀ {name entries}, states.get? name = some entries →
    states'.get? (f name) = some (Entry.renameAll f entries))
  (hplain : ∀ {name entries}, states.get? name = some entries → ∀ e ∈ entries, e.Plain)
  (hlength : states.entries.length ≤ states'.entries.length)
include hf hstates hplain hlength

theorem compileState_rename {name : String} {entries : List Entry} {state : CompiledState}
    (hname : states.contains name = true) (h : compileState states name entries = .ok state) :
    compileState states' (f name) (Entry.renameAll f entries) = .ok (state.rename f) := by
  obtain ⟨rules, patterns, hrules, htargets, hpatterns, rfl⟩ := compileState_eq_ok h
  have hroom : includedRules states (states'.entries.length + 1) [] name = .ok rules := by
    rw [← hrules]
    refine (includedRules_room (List.nodup_singleton name) ?_ ?_ ?_).symm
    · exact fun n hn => List.mem_singleton.mp hn ▸ hname
    · exact Nat.lt_succ_self _
    · exact Nat.succ_le_succ hlength
  have hrenamed : includedRules states' (states'.entries.length + 1) [] (f name) = .ok (rules.map (Rule.rename f)) :=
    includedRules_rename hf hstates hplain hname hroom
  have hnone : (rules.map (Rule.rename f)).findSome? (fun r => r.target?.filter (!states'.contains ·)) = none := by
    rw [List.findSome?_map, List.findSome?_eq_none_iff]
    intro r hr
    rw [Function.comp_apply, Rule.target?_rename]
    cases htarget : r.target? with
    | none => rfl
    | some n =>
      have hcontains := contains_of_renamed hstates (htargets r hr n htarget)
      simp [Option.filter, hcontains]
  have hsources : (rules.map (Rule.rename f)).map (fun r => (⟨r.regex, r.caseless⟩ : RulePattern)) =
      rules.map fun r => ⟨r.regex, r.caseless⟩ := by
    rw [List.map_map]
    rfl
  simp only [compileState, hrenamed, bind, Except.bind, hnone, hsources, hpatterns, pure, Except.pure,
    defaultKindOf_renameAll, CompiledState.rename, List.map_toArray, ← Rule.mapIdx_compiled_rename]
  rfl

end

/-! ## Compiled tables -/

theorem mapM_eq_ok_iff {α β ε : Type} (f : α → Except ε β) (xs : List α) (ys : List β) :
    xs.mapM f = .ok ys ↔ List.Forall₂ (fun x y => f x = .ok y) xs ys := by
  induction xs generalizing ys with
  | nil => cases ys <;> simp [pure, Except.pure]
  | cons x xs ih =>
    rw [List.mapM_cons]
    cases hx : f x with
    | error e => cases ys <;> simp [bind, Except.bind, hx]
    | ok y =>
      cases hxs : xs.mapM f with
      | error e => cases ys <;> simp [bind, Except.bind, ← ih, hxs, hx]
      | ok rest => cases ys <;> simp [bind, Except.bind, pure, Except.pure, ← ih, hxs, hx]

theorem exists_of_forall₂ {α β : Type} {R : α → β → Prop} {xs : List α} {ys : List β} (h : List.Forall₂ R xs ys) {y : β}
    (hy : y ∈ ys) : ∃ x ∈ xs, R x y := by
  induction h with
  | nil => cases hy
  | @cons x y' _ _ hR _ ih =>
    rcases List.mem_cons.mp hy with rfl | hy
    · exact ⟨x, List.mem_cons_self, hR⟩
    · obtain ⟨x', hx', hR'⟩ := ih hy
      exact ⟨x', List.mem_cons_of_mem _ hx', hR'⟩

theorem mapM_ne_error {α β ε : Type} {f : α → Except ε β} {e : ε} : ∀ {xs : List α}, (∀ x ∈ xs, ∃ y, f x = .ok y) →
    xs.mapM f ≠ .error e
  | [], _, h => by cases h
  | x :: xs, hok, h => by
    obtain ⟨⟨y, hy⟩, hxs⟩ := List.forall_mem_cons.mp hok
    rw [List.mapM_cons, hy] at h
    cases hmap : xs.mapM f with
    | error e' => exact mapM_ne_error hxs hmap
    | ok ys => rw [hmap] at h; cases h

namespace Tokenizer

variable {table : RuleTable} {options : ScanOptions} {t : Tokenizer}

theorem row_of_map {states : Dict String (List Entry)} {e : String × List Entry} {e' : String × CompiledState}
    (h : ((compileState states e.1 e.2).map fun s => (e.1, s)) = .ok e') :
    e'.1 = e.1 ∧ compileState states e.1 e.2 = .ok e'.2 := by
  cases hc : compileState states e.1 e.2 with
  | error _ => rw [hc] at h; cases h
  | ok state => rw [hc] at h; cases h; exact ⟨rfl, rfl⟩

/-- The compiled states of a table stand in its order. -/
structure CompiledFrom (t : Tokenizer) (table : RuleTable) (options : ScanOptions) : Prop where
  starts : table.states.contains startState = true
  start : t.states.get? startState = some t.start
  options : t.options = options
  rows : List.Forall₂ (fun e e' => e'.1 = e.1 ∧ compileState table.hoisted e.1 e.2 = .ok e'.2) table.hoisted.entries
    t.states.entries

theorem of_compile (h : compile table options = .ok t) : t.CompiledFrom table options := by
  simp only [compile, bind, Except.bind] at h
  split at h
  · cases h
  · rename_i hstarts
    split at h
    · cases h
    · rename_i compiled hmap
      split at h
      · rename_i start hstart
        cases h
        exact ⟨by simpa using hstarts, hstart, rfl, ((mapM_eq_ok_iff _ _ _).mp hmap).imp fun _ _ => row_of_map⟩
      · cases h

/-- The bounds play no part in compiling. -/
theorem compile_options (table : RuleTable) (options options' : ScanOptions) :
    compile table options' = (compile table options).map fun t => { t with options := options' } := by
  simp only [compile, bind, Except.bind]
  split
  · rfl
  · split
    · rfl
    · split
      · rfl
      · rfl

theorem exists_of_mem_values (h : compile table options = .ok t) {state : CompiledState}
    (hstate : state ∈ t.states.values) : ∃ name entries, table.hoisted.get? name = some entries ∧
      compileState table.hoisted name entries = .ok state := by
  obtain ⟨e', he', rfl⟩ := List.mem_map.mp hstate
  obtain ⟨e, he, -, hcompile⟩ := exists_of_forall₂ (of_compile h).rows he'
  exact ⟨e.1, e.2, (Dict.get?_eq_some_iff lt_irrefl table.pairwise_hoisted).mpr he, hcompile⟩

theorem get?_of_compile (h : compile table options = .ok t) (name : String) :
    Option.Rel (fun entries state => compileState table.hoisted name entries = .ok state) (table.hoisted.get? name)
      (t.states.get? name) := Dict.rel_get? (of_compile h).rows name

theorem exists_entries_of_compile (h : compile table options = .ok t) {name : String} {state : CompiledState}
    (hstate : t.states.get? name = some state) :
    ∃ entries, table.hoisted.get? name = some entries ∧ compileState table.hoisted name entries = .ok state := by
  have hrel := get?_of_compile h name
  rw [hstate] at hrel
  cases hget : table.hoisted.get? name with
  | none => rw [hget] at hrel; cases hrel
  | some entries =>
    rw [hget] at hrel
    cases hrel with
    | some hcompile => exact ⟨entries, rfl, hcompile⟩

theorem exists_state_of_compile (h : compile table options = .ok t) {name : String} {entries : List Entry}
    (hentries : table.hoisted.get? name = some entries) :
    ∃ state, t.states.get? name = some state ∧ compileState table.hoisted name entries = .ok state := by
  have hrel := get?_of_compile h name
  rw [hentries] at hrel
  cases hget : t.states.get? name with
  | none => rw [hget] at hrel; cases hrel
  | some state =>
    rw [hget] at hrel
    cases hrel with
    | some hcompile => exact ⟨state, rfl, hcompile⟩

theorem contains_of_compile (h : compile table options = .ok t) (name : String) :
    t.states.contains name = table.hoisted.contains name := by
  rw [Bool.eq_iff_iff, Dict.contains, Dict.contains, Option.isSome_iff_exists, Option.isSome_iff_exists]
  constructor
  · rintro ⟨state, hstate⟩
    obtain ⟨entries, hentries, -⟩ := exists_entries_of_compile h hstate
    exact ⟨entries, hentries⟩
  · rintro ⟨entries, hentries⟩
    obtain ⟨state, hstate, -⟩ := exists_state_of_compile h hentries
    exact ⟨state, hstate⟩

theorem exists_compile (options : ScanOptions) (hstart : table.states.contains startState = true)
    (hstates : ∀ name entries, table.hoisted.get? name = some entries →
      ∃ state, compileState table.hoisted name entries = .ok state) : ∃ t, compile table options = .ok t := by
  unfold compile
  simp only [hstart, Bool.not_true, Bool.false_eq_true, if_false, bind, Except.bind, pure, Except.pure]
  split
  · rename_i hmap
    refine absurd hmap (mapM_ne_error fun e he => ?_)
    obtain ⟨state, hstate⟩ := hstates e.1 e.2 ((Dict.get?_eq_some_iff lt_irrefl table.pairwise_hoisted).mpr he)
    exact ⟨(e.1, state), by simp [hstate, Except.map]⟩
  · rename_i compiled hmap
    have hrows := ((mapM_eq_ok_iff _ _ _).mp hmap).imp fun e e' he => row_of_map he
    have hrel : Option.Rel _ (table.hoisted.get? startState)
        ((⟨compiled⟩ : Dict String CompiledState).get? startState) := Dict.rel_get? hrows startState
    obtain ⟨entries, hentries⟩ := Option.isSome_iff_exists.mp (RuleTable.contains_hoisted_of_contains hstart)
    rw [hentries] at hrel
    cases hget : (⟨compiled⟩ : Dict String CompiledState).get? startState with
    | none => rw [hget] at hrel; cases hrel
    | some start => exact ⟨⟨⟨compiled⟩, start, options⟩, rfl⟩

end Tokenizer

end Scribe
