import Scribe.Proofs.Snippet.Registered
import Mathlib.Data.List.TakeWhile

/-!
# A batch that fails

A batch is registered one definition after another. When one does not compile, those before it have come to their scopes
already, in place of the ones of their names. So a failed batch leaves a store as it was just if these were the last ones
there before.
-/

namespace Scribe

namespace SnippetDefinition

variable {ds es : List SnippetDefinition}

/-- One of these replaces it. -/
def GivesWay (d : SnippetDefinition) (es : List SnippetDefinition) : Prop := d.name.isSome ∧ ∃ e ∈ es, e.name = d.name

instance (d : SnippetDefinition) (es : List SnippetDefinition) : Decidable (d.GivesWay es) :=
  inferInstanceAs (Decidable (_ ∧ _))

theorem latest_cons (d : SnippetDefinition) (rest : List SnippetDefinition) :
    latest (d :: rest) = if d.GivesWay rest then latest rest else d :: latest rest := rfl

theorem givesWay_append {d : SnippetDefinition} : d.GivesWay (ds ++ es) ↔ d.GivesWay ds ∨ d.GivesWay es := by
  simp only [GivesWay, List.mem_append, or_and_right, exists_or, and_or_left]

theorem GivesWay.of_mem {d e : SnippetDefinition} (he : e ∈ es) (hname : d.name.isSome) (hsame : d.name = e.name) :
    d.GivesWay es := ⟨hname, e, he, hsame.symm⟩

theorem latest_sublist (ds : List SnippetDefinition) : (latest ds).Sublist ds := by
  induction ds with
  | nil => exact .slnil
  | cons d rest ih =>
    rw [latest_cons]
    split
    · exact ih.cons d
    · exact ih.cons_cons d

/-- What has no name is never replaced. -/
theorem mem_latest_of_nameless {d : SnippetDefinition} (hd : d ∈ ds) (hname : d.name = none) : d ∈ latest ds := by
  induction ds with
  | nil => cases hd
  | cons d' rest ih =>
    rw [latest_cons]
    split
    · rename_i hgone
      rcases List.mem_cons.mp hd with rfl | hd
      · exact absurd hgone.1 (by simp [hname])
      · exact ih hd
    · exact (List.mem_cons.mp hd).elim (· ▸ List.mem_cons_self) fun hd => List.mem_cons_of_mem _ (ih hd)

/-- A name that comes is there afterwards. -/
theorem exists_mem_latest {name : String} (h : ∃ d ∈ ds, d.name = some name) :
    ∃ d ∈ latest ds, d.name = some name := by
  induction ds with
  | nil => simp at h
  | cons d' rest ih =>
    obtain ⟨d, hd, hname⟩ := h
    rw [latest_cons]
    split
    · rename_i hgone
      rcases List.mem_cons.mp hd with rfl | hd
      · obtain ⟨-, e, he, hsame⟩ := hgone
        exact ih ⟨e, he, hsame.trans hname⟩
      · exact ih ⟨d, hd, hname⟩
    · rcases List.mem_cons.mp hd with rfl | hd
      · exact ⟨d, List.mem_cons_self, hname⟩
      · obtain ⟨e, he, hsame⟩ := ih ⟨d, hd, hname⟩
        exact ⟨e, List.mem_cons_of_mem _ he, hsame⟩

/-- More definitions replace those of their names. -/
theorem latest_append (ds es : List SnippetDefinition) :
    latest (ds ++ es) = (latest ds).filter (fun d => !decide (d.GivesWay es)) ++ latest es := by
  induction ds with
  | nil => rfl
  | cons d rest ih =>
    rw [List.cons_append, latest_cons, latest_cons, ih]
    by_cases hrest : d.GivesWay rest
    · rw [if_pos hrest, if_pos (givesWay_append.mpr (.inl hrest))]
    · rw [if_neg hrest]
      by_cases hes : d.GivesWay es
      · rw [if_pos (givesWay_append.mpr (.inr hes)), List.filter_cons_of_neg (by simpa using hes)]
      · have hneither : ¬ d.GivesWay (rest ++ es) := fun h => (givesWay_append.mp h).elim hrest hes
        rw [if_neg hneither, List.filter_cons_of_pos (by simpa using hes), List.cons_append]

/-- No two of them have the same name. -/
def DistinctNames (ds : List SnippetDefinition) : Prop := ds.Pairwise fun d e => d.name.isSome → d.name ≠ e.name

theorem DistinctNames.latest_eq (h : DistinctNames ds) : latest ds = ds := by
  induction ds with
  | nil => rfl
  | cons d rest ih =>
    obtain ⟨hd, hrest⟩ := List.pairwise_cons.mp h
    have hstays : ¬ d.GivesWay rest := fun ⟨hname, e, he, hsame⟩ => hd e he hname hsame.symm
    rw [latest_cons, if_neg hstays, ih hrest]

/-- More definitions change nothing just if they are there already as the last ones. -/
theorem latest_append_eq_iff (h : DistinctNames ds) :
    latest (ds ++ es) = ds ↔ (∀ e ∈ es, e.name.isSome) ∧ latest es <:+ ds := by
  rw [latest_append, h.latest_eq]
  constructor
  · intro heq
    refine ⟨fun e he => ?_, ⟨_, heq⟩⟩
    -- One without a name would be there once more than before.
    by_contra hnone
    rw [Option.not_isSome_iff_eq_none] at hnone
    have hcount := congrArg (List.countP fun d : SnippetDefinition => d.name.isNone) heq
    have hold : (ds.filter fun d => !decide (d.GivesWay es)).countP (·.name.isNone) = ds.countP (·.name.isNone) := by
      rw [List.countP_filter]
      refine List.countP_congr fun d _ => ?_
      cases hname : d.name <;> simp [GivesWay, hname]
    have hnew : 0 < (latest es).countP (·.name.isNone) :=
      List.countP_pos_iff.mpr ⟨e, mem_latest_of_nameless he hnone, by simp [hnone]⟩
    rw [List.countP_append, hold] at hcount
    omega
  · rintro ⟨hnamed, front, rfl⟩
    obtain ⟨-, -, happart⟩ := List.pairwise_append.mp h
    have hgone : (latest es).filter (fun d => !decide (d.GivesWay es)) = [] := by
      refine List.filter_eq_nil_iff.mpr fun d hd => ?_
      have hmem := (latest_sublist es).subset hd
      simpa using GivesWay.of_mem hmem (hnamed d hmem) rfl
    have hkept : front.filter (fun d => !decide (d.GivesWay es)) = front := by
      refine List.filter_eq_self.mpr fun d hd => ?_
      rw [Bool.not_eq_true', decide_eq_false_iff_not]
      rintro ⟨hname, e, he, hsame⟩
      obtain ⟨name, hsome⟩ := Option.isSome_iff_exists.mp hname
      obtain ⟨e', he', hname'⟩ := exists_mem_latest ⟨e, he, hsame.trans hsome⟩
      exact happart d hd e' he' hname (hsome.trans hname'.symm)
    rw [List.filter_append, hkept, hgone, List.append_nil]

end SnippetDefinition

namespace SnippetStore

open SnippetDefinition

variable {s s' : SnippetStore}

/-- The stores that there are. -/
inductive Built : SnippetStore → Prop where
  | empty : Built {}
  | register {s : SnippetStore} (h : Built s) (ds : List SnippetDefinition) (scope : Option String) :
      Built (s.register ds scope).1
  | unregister {s : SnippetStore} (h : Built s) (scope name : String) : Built (s.unregister scope name)
  | includeScopes {s : SnippetStore} (h : Built s) (scope : String) (names : List String) :
      Built (s.includeScopes scope names)

/-- Each scope holds snippets of its own, one for a name. -/
structure Sound (s : SnippetStore) : Prop where
  ordered : s.scopes.keys.Pairwise (· < ·)
  made : ∀ scope, ∀ snippet ∈ s.snippets scope, snippet.Made
  placed : ∀ scope, ∀ snippet ∈ s.snippets scope, snippet.definition.scope = some scope
  distinct : ∀ scope, DistinctNames ((s.snippets scope).map (·.definition))

theorem sound_empty : ({} : SnippetStore).Sound :=
  ⟨.nil, fun _ _ h => (nomatch h), fun _ _ h => (nomatch h), fun _ => .nil⟩

theorem dropNamed_sublist (name : Option String) (snippets : List Snippet) :
    (dropNamed name snippets).Sublist snippets := by
  unfold dropNamed
  split
  · exact List.filter_sublist
  · exact .refl _

/-- Fewer snippets in the same scopes. -/
theorem Sound.thinned (h : s.Sound) (hordered : s'.scopes.keys.Pairwise (· < ·))
    (hsub : ∀ scope, (s'.snippets scope).Sublist (s.snippets scope)) : s'.Sound where
  ordered := hordered
  made scope snippet hmem := h.made scope snippet ((hsub scope).subset hmem)
  placed scope snippet hmem := h.placed scope snippet ((hsub scope).subset hmem)
  distinct scope := (h.distinct scope).sublist ((hsub scope).map _)

theorem Sound.add (h : s.Sound) {scope : String} {snippet : Snippet} (hmade : snippet.Made)
    (hscope : snippet.definition.scope = some scope) : (s.add scope snippet).Sound := by
  have hmem : ∀ scope', ∀ other ∈ (s.add scope snippet).snippets scope',
      other ∈ s.snippets scope' ∨ scope' = scope ∧ other = snippet := by
    intro scope' other hother
    rw [snippets_add] at hother
    split at hother
    · rename_i hsame
      subst hsame
      rcases List.mem_append.mp hother with hother | hother
      · exact .inl ((dropNamed_sublist _ _).subset hother)
      · exact .inr ⟨rfl, List.mem_singleton.mp hother⟩
    · exact .inl hother
  refine ⟨Dict.pairwise_insertEntry (fun _ _ _ => lt_trans) String.lt_total _ _ h.ordered, ?_, ?_, ?_⟩
  · intro scope' other hother
    rcases hmem scope' other hother with hold | ⟨-, rfl⟩
    · exact h.made scope' other hold
    · exact hmade
  · intro scope' other hother
    rcases hmem scope' other hother with hold | ⟨rfl, rfl⟩
    · exact h.placed scope' other hold
    · exact hscope
  · intro scope'
    rw [snippets_add]
    split
    · rename_i hsame
      subst hsame
      rw [List.map_append]
      refine List.pairwise_append.mpr
        ⟨(h.distinct scope').sublist ((dropNamed_sublist _ _).map _), List.pairwise_singleton _ _, ?_⟩
      rw [map_definition_dropNamed]
      intro d hd e he hname hsame
      obtain rfl := List.mem_singleton.mp he
      have hkept := (List.mem_filter.mp hd).2
      rw [hsame, Option.isSome_iff_exists] at hname
      obtain ⟨name, hname⟩ := hname
      have hname' : snippet.name? = some name := hname
      simp [hname', hsame, hname] at hkept
    · exact h.distinct scope'

theorem Sound.registerFrom (h : s.Sound) (scope : String) (ds : List SnippetDefinition) :
    (s.registerFrom scope ds).1.Sound := by
  induction ds generalizing s scope with
  | nil => exact h
  | cons d ds ih =>
    rw [registerFrom_cons]
    cases hcompile : Snippet.compile { d with scope := some (d.scope.getD scope) } with
    | error e => exact h
    | ok snippet =>
      refine ih (h.add ⟨_, hcompile⟩ ?_) _
      exact (congrArg (·.scope) (Snippet.definition_of_compile hcompile)).trans (scope_settled d _)

theorem snippets_unregister (s : SnippetStore) (scope name scope' : String) :
    (s.unregister scope name).snippets scope' =
      if scope' = scope then dropNamed (some name) (s.snippets scope') else s.snippets scope' := by
  rw [snippets, unregister, Dict.get?_modify]
  split
  · rw [snippets]
    cases s.scopes.get? scope' <;> rfl
  · rfl

theorem Sound.unregister (h : s.Sound) (scope name : String) : (s.unregister scope name).Sound := by
  have hkeys : (s.unregister scope name).scopes.keys = s.scopes.keys := Dict.keys_modify ..
  refine h.thinned (hkeys ▸ h.ordered) fun scope' => ?_
  rw [snippets_unregister]
  split
  · exact dropNamed_sublist _ _
  · exact .refl _

theorem Built.sound (h : s.Built) : s.Sound := by
  induction h with
  | empty => exact sound_empty
  | register _ ds scope ih => exact ih.registerFrom _ ds
  | unregister _ scope name ih => exact ih.unregister scope name
  | includeScopes _ scope names ih => exact ih.thinned ih.ordered fun _ => .refl _

/-- The definitions of the store, those of one scope alone. -/
theorem Sound.inScope_definitions (h : s.Sound) (scope : String) :
    inScope scope s.definitions = (s.snippets scope).map (·.definition) := by
  have hplaced : ∀ e ∈ s.scopes.entries, ∀ snippet ∈ e.2, snippet.definition.scope = some e.1 := by
    intro e he snippet hmem
    refine h.placed e.1 snippet ?_
    rw [snippets, (Dict.get?_eq_some_iff lt_irrefl h.ordered).mpr he]
    exact hmem
  have hentries : ∀ entries : List (String × List Snippet), (entries.map (·.1)).Nodup →
      (∀ e ∈ entries, ∀ snippet ∈ e.2, snippet.definition.scope = some e.1) →
      inScope scope ((entries.map (·.2)).flatten.map (·.definition)) =
        (((entries.find? (·.1 = scope)).map (·.2)).getD []).map (·.definition) := by
    intro entries hnodup hentries
    induction entries with
    | nil => rfl
    | cons e rest ih =>
      obtain ⟨hnew, hnodup⟩ := List.nodup_cons.mp hnodup
      obtain ⟨he, hrest⟩ := List.forall_mem_cons.mp hentries
      rw [List.map_cons, List.flatten_cons, List.map_append, inScope_append, ih hnodup hrest]
      by_cases hkey : e.1 = scope
      · subst hkey
        have hfirst : inScope e.1 (e.2.map (·.definition)) = e.2.map (·.definition) :=
          List.filter_eq_self.mpr fun d hd => by
            obtain ⟨snippet, hmem, rfl⟩ := List.mem_map.mp hd
            simp [he snippet hmem]
        have hnone : rest.find? (·.1 = e.1) = none := List.find?_eq_none.mpr fun e' he' hsame =>
          hnew (List.mem_map.mpr ⟨e', he', of_decide_eq_true hsame⟩)
        simp [hfirst, hnone]
      · have hfirst : inScope scope (e.2.map (·.definition)) = [] := List.filter_eq_nil_iff.mpr fun d hd => by
          obtain ⟨snippet, hmem, rfl⟩ := List.mem_map.mp hd
          simpa [he snippet hmem] using hkey
        simp [hfirst, hkey]
  exact hentries _ (Dict.nodup_keys lt_irrefl h.ordered) hplaced

theorem Sound.holds (h : s.Sound) : s.Holds s.definitions where
  made := h.made
  definitions scope := by rw [h.inScope_definitions, (h.distinct scope).latest_eq]

/-- A name stands for one snippet at most. -/
theorem Sound.countP_le_one (h : s.Sound) (scope name : String) :
    (s.snippets scope).countP (·.name? == some name) ≤ 1 := by
  have hdistinct : (s.snippets scope).Pairwise fun x y => x.name?.isSome → x.name? ≠ y.name? :=
    List.pairwise_map.mp (h.distinct scope)
  generalize s.snippets scope = snippets at hdistinct
  induction hdistinct with
  | nil => exact Nat.zero_le _
  | @cons snippet rest hfirst _ ih =>
    rw [List.countP_cons]
    split
    · rename_i hname
      rw [beq_iff_eq] at hname
      have hnone : rest.countP (·.name? == some name) = 0 := List.countP_eq_zero.mpr fun other hother hsame =>
        hfirst other hother (by simp [hname]) (hname.trans (beq_iff_eq.mp hsame).symm)
      omega
    · exact ih

/-- To its users the one is as the other. -/
structure SameTo (s s' : SnippetStore) : Prop where
  snippets : ∀ scope, s'.snippets scope = s.snippets scope
  definitions : s'.definitions = s.definitions
  findTrigger? : ∀ scopes before after, s'.findTrigger? scopes before after = s.findTrigger? scopes before after
  findByName? : ∀ scopes name, s'.findByName? scopes name = s.findByName? scopes name

theorem Sound.sameTo_iff (h : s.Sound) (h' : s'.Sound) : s.SameTo s' ↔ s.Agrees s' := by
  refine ⟨fun hsame scope => (hsame.snippets scope).symm, fun hagrees => ⟨fun scope => (hagrees scope).symm, ?_, ?_, ?_⟩⟩
  · rw [definitions, definitions, Dict.flatten_values_eq lt_irrefl (fun _ _ _ => lt_trans) h.ordered h'.ordered hagrees]
  · exact fun scopes before after => ((hagrees.find scopes).1 before after).symm
  · exact fun scopes name => ((hagrees.find scopes).2 name).symm

end SnippetStore

namespace SnippetBatch

/-- The part before the first definition that does not compile. -/
def accepted (b : SnippetBatch) : SnippetBatch :=
  { b with definitions := b.definitions.takeWhile fun d => (Snippet.compile d).isOk }

/-- What is wrong with the first definition that does not compile. -/
def firstError? (b : SnippetBatch) : Option Error :=
  b.definitions.findSome? fun d =>
    match Snippet.compile d with
    | .error e => some e
    | .ok _ => none

theorem compiles_accepted (b : SnippetBatch) : b.accepted.Compiles :=
  compiles_iff.mpr fun _ hd => (List.mem_takeWhile_imp hd :)

theorem firstError?_eq_none_iff {b : SnippetBatch} : b.firstError? = none ↔ b.Compiles := by
  rw [firstError?, List.findSome?_eq_none_iff]
  refine forall₂_congr fun d _ => ?_
  cases Snippet.compile d with
  | error e => exact ⟨fun h => (nomatch h), fun ⟨_, h⟩ => (nomatch h)⟩
  | ok snippet => exact ⟨fun _ => ⟨snippet, rfl⟩, fun _ => rfl⟩

end SnippetBatch

namespace SnippetStore

open SnippetDefinition

variable {s s' : SnippetStore}

/-- The accepted part is registered and stays. -/
theorem register_eq (s : SnippetStore) (b : SnippetBatch) : s.register b.definitions b.scope =
    ((s.register b.accepted.definitions b.scope).1, b.firstError?) := by
  obtain ⟨scope, ds⟩ := b
  show s.registerFrom _ ds = _
  generalize hscope : scope.getD globalScope = target
  have hafter (s : SnippetStore) (ds : List SnippetDefinition) : (s.register ds scope) = s.registerFrom target ds := by
    rw [register, hscope]
  rw [hafter]
  clear hafter hscope
  induction ds generalizing s target with
  | nil => rfl
  | cons d ds ih =>
    simp only [SnippetBatch.accepted, SnippetBatch.firstError?, List.takeWhile_cons, List.findSome?_cons] at ih ⊢
    rw [registerFrom_cons, Snippet.compile_scope]
    cases hcompile : Snippet.compile d with
    | error e => rfl
    | ok snippet =>
      simp only [Except.isOk, Except.toBool, if_true]
      rw [registerFrom_cons, Snippet.compile_scope, hcompile]
      exact ih _ _

/-- At most one snippet of each scope has a given name, and each carries the scope that it is stored under, whatever comes of
a batch. It fails if a definition does not compile, and then those before it stay: so the store is as it was just if, in each
scope that these came to, all have names and they were the last ones there. -/
theorem register_restores_iff (hs : s.Built) (b : SnippetBatch) :
    let after := (s.register b.definitions b.scope).1
    (s.register b.definitions b.scope).2 = b.firstError? ∧ (b.firstError? = none ↔ b.Compiles) ∧
    (∀ scope, (∀ name, (after.snippets scope).countP (·.name? == some name) ≤ 1) ∧
      ∀ snippet ∈ after.snippets scope, snippet.definition.scope = some scope) ∧
    (∀ scope, (after.snippets scope).map (·.definition) =
      latest ((s.snippets scope).map (·.definition) ++ inScope scope b.accepted.arrivals)) ∧
    (s.SameTo after ↔ ∀ scope, (∀ d ∈ inScope scope b.accepted.arrivals, d.name.isSome) ∧
      latest (inScope scope b.accepted.arrivals) <:+ (s.snippets scope).map (·.definition)) := by
  intro after
  have hsound := hs.sound
  have hafter : after.Sound := hsound.registerFrom _ _
  obtain ⟨s', hregister, hholds⟩ := hsound.holds.registerFrom b.target b.compiles_accepted
  have hs' : after = s' := by
    have hbatch := congrArg Prod.fst (s.register_eq b)
    exact hbatch.trans (congrArg Prod.fst hregister)
  refine ⟨congrArg Prod.snd (s.register_eq b), SnippetBatch.firstError?_eq_none_iff,
    fun scope => ⟨hafter.countP_le_one scope, hafter.placed scope⟩, fun scope => ?_, ?_⟩
  · rw [hs', hholds.definitions, inScope_append, hsound.inScope_definitions]
    rfl
  · rw [hsound.sameTo_iff hafter, hs', hsound.holds.agrees_iff hholds]
    refine forall_congr' fun scope => ?_
    rw [inScope_append, hsound.inScope_definitions, (hsound.distinct scope).latest_eq,
      ← latest_append_eq_iff (hsound.distinct scope), eq_comm]
    rfl

/-- A batch whose first definition is there already. -/
theorem register_restores_iff_log :
    let log : SnippetDefinition := { name := some "log", content := "old" }
    let broken : SnippetDefinition := { name := some "broken", trigger := some "(" }
    let s := (({} : SnippetStore).register [log] none).1
    (s.register [log, broken] none).2.isSome = true ∧ s.SameTo (s.register [log, broken] none).1 := by
  intro log broken s
  have hlog : (Snippet.compile log).isOk = true := by decide +kernel
  have hbroken : (Snippet.compile broken).isOk = false := by decide +kernel
  have haccepted : SnippetBatch.accepted ⟨none, [log, broken]⟩ = ⟨none, [log]⟩ := by
    simp [SnippetBatch.accepted, hlog, hbroken]
  have haccepted' : SnippetBatch.accepted ⟨none, [log]⟩ = ⟨none, [log]⟩ := by simp [SnippetBatch.accepted, hlog]
  have harrivals : SnippetBatch.arrivals ⟨none, [log]⟩ = [log.settled "_"] := rfl
  have hmade := (register_restores_iff .empty ⟨none, [log]⟩).2.2.2.1
  obtain ⟨herror, hcompiles, -, -, hsame⟩ := register_restores_iff (.register .empty [log] none) ⟨none, [log, broken]⟩
  refine ⟨?_, hsame.mpr fun scope => ?_⟩
  · rw [herror, Option.isSome_iff_ne_none, Ne, hcompiles, SnippetBatch.compiles_iff]
    exact fun h => Bool.false_ne_true (hbroken.symm.trans (h broken (by simp)))
  · have hold := hmade scope
    rw [haccepted', harrivals] at hold
    rw [haccepted, harrivals, hold]
    refine ⟨fun d hd => ?_, List.suffix_refl _⟩
    obtain rfl := List.mem_singleton.mp (List.mem_filter.mp hd).1
    rw [name_settled]
    rfl

/-- The first definition of a failed batch has replaced what was there under its name. -/
theorem register_keeps_front :
    let old : SnippetDefinition := { name := some "log", content := "old" }
    let new : SnippetDefinition := { name := some "log", content := "new" }
    let broken : SnippetDefinition := { name := some "broken", trigger := some "(" }
    let s := (({} : SnippetStore).register [old] none).1
    (s.register [new, broken] none).2.isSome = true ∧
      (s.snippets globalScope).map (·.content) = ["old"] ∧
      ((s.register [new, broken] none).1.snippets globalScope).map (·.content) = ["new"] := by
  decide +kernel

end SnippetStore

end Scribe
