import Scribe.Proofs.Dict
import Scribe.Proofs.Snippet.Extra
import Mathlib.Data.List.Induction

/-!
# What registering leaves

Definitions come to a scope one after another, and each replaces the one of its name. So what a scope holds is said by the
definitions that came to it, in their order: those that no later one has replaced.
-/

namespace Scribe

namespace SnippetDefinition

/-- The definition as it is kept in a scope. -/
def settled (d : SnippetDefinition) (scope : String) : SnippetDefinition :=
  Trigger.withLiteral { d with scope := some scope }

/-- The scope that a definition without one of its own gets after these. -/
def carried (scope : String) (ds : List SnippetDefinition) : String := ds.foldl (fun scope d => d.scope.getD scope) scope

def routed (scope : String) : List SnippetDefinition → List SnippetDefinition
  | [] => []
  | d :: rest => d.settled (d.scope.getD scope) :: routed (d.scope.getD scope) rest

def inScope (scope : String) (ds : List SnippetDefinition) : List SnippetDefinition :=
  ds.filter (·.scope == some scope)

/-- Without those that a later one of the same name replaces. -/
def latest : List SnippetDefinition → List SnippetDefinition
  | [] => []
  | d :: rest => if d.name.isSome ∧ ∃ e ∈ rest, e.name = d.name then latest rest else d :: latest rest

@[simp] theorem name_settled (d : SnippetDefinition) (scope : String) : (d.settled scope).name = d.name := by
  unfold settled Trigger.withLiteral
  split
  · split <;> rfl
  · rfl

@[simp] theorem scope_settled (d : SnippetDefinition) (scope : String) : (d.settled scope).scope = some scope := by
  unfold settled Trigger.withLiteral
  split
  · split <;> rfl
  · rfl

theorem routed_append (scope : String) (ds more : List SnippetDefinition) :
    routed scope (ds ++ more) = routed scope ds ++ routed (carried scope ds) more := by
  induction ds generalizing scope with
  | nil => rfl
  | cons d ds ih =>
    have hcarried : carried scope (d :: ds) = carried (d.scope.getD scope) ds := rfl
    rw [List.cons_append, routed, routed, ih, hcarried, List.cons_append]

theorem inScope_append (scope : String) (ds more : List SnippetDefinition) :
    inScope scope (ds ++ more) = inScope scope ds ++ inScope scope more := List.filter_append ..

/-- One more replaces the one of its name and goes to the end. -/
theorem latest_concat (ds : List SnippetDefinition) (d : SnippetDefinition) :
    latest (ds ++ [d]) = (latest ds).filter (fun e => d.name.isNone || e.name != d.name) ++ [d] := by
  induction ds with
  | nil => simp [latest]
  | cons e rest ih =>
    rw [List.cons_append, latest, latest, ih]
    -- Either `e` was replaced already, or it is replaced by `d`, or it stays.
    by_cases hrest : e.name.isSome ∧ ∃ e' ∈ rest, e'.name = e.name
    · have hmore : e.name.isSome ∧ ∃ e' ∈ rest ++ [d], e'.name = e.name := by
        obtain ⟨hname, e', he', hsame⟩ := hrest
        exact ⟨hname, e', List.mem_append_left _ he', hsame⟩
      rw [if_pos hrest, if_pos hmore]
    · rw [if_neg hrest]
      by_cases hd : e.name.isSome ∧ d.name = e.name
      · have hmore : e.name.isSome ∧ ∃ e' ∈ rest ++ [d], e'.name = e.name := ⟨hd.1, d, by simp, hd.2⟩
        rw [if_pos hmore, List.filter_cons_of_neg]
        rw [hd.2]
        simpa [Option.isSome_iff_ne_none] using hd.1
      · have hmore : ¬ (e.name.isSome ∧ ∃ e' ∈ rest ++ [d], e'.name = e.name) := by
          rintro ⟨hname, e', he', hsame⟩
          rcases List.mem_append.mp he' with he' | he'
          · exact hrest ⟨hname, e', he', hsame⟩
          · obtain rfl := List.mem_singleton.mp he'
            exact hd ⟨hname, hsame⟩
        rw [if_neg hmore, List.filter_cons_of_pos, List.cons_append]
        cases hname : d.name with
        | none => rfl
        | some name =>
          have hne : e.name ≠ some name := fun he => hd ⟨by simp [he], by rw [hname, he]⟩
          simpa using hne

end SnippetDefinition

namespace Snippet

open SnippetDefinition

/-- It comes from a definition. -/
def Made (s : Snippet) : Prop := ∃ d, compile d = .ok s

theorem definition_of_compile {d : SnippetDefinition} {s : Snippet} (h : compile d = .ok s) :
    s.definition = Trigger.withLiteral d := by
  simp only [compile, bind, Except.bind] at h
  repeat' split at h
  all_goals cases h
  rfl

/-- A snippet is told by its definition. -/
theorem Made.inj {s s' : Snippet} (h : s.Made) (h' : s'.Made) (heq : s.definition = s'.definition) : s = s' := by
  obtain ⟨d, hd⟩ := h
  obtain ⟨d', hd'⟩ := h'
  rw [definition_of_compile hd, definition_of_compile hd'] at heq
  have hcompile : compile d = compile d' := by
    unfold compile
    rw [heq]
  exact Except.ok.inj (hd.symm.trans (hcompile.trans hd'))

theorem compile_scope (d : SnippetDefinition) (scope : String) : compile { d with scope := some scope } =
    (compile d).map fun s => { s with definition := { s.definition with scope := some scope } } := by
  have hliteral : Trigger.withLiteral { d with scope := some scope } =
      { Trigger.withLiteral d with scope := some scope } := by
    unfold Trigger.withLiteral
    dsimp only
    split
    · split <;> rfl
    · rfl
  show _ = (fun s : Snippet => { s with definition := { s.definition with scope := some scope } }) <$> compile d
  unfold compile
  rw [hliteral]
  simp only [map_bind, map_pure]

/-- Whether a definition compiles does not depend on its scope. -/
theorem exists_compile_settled {d : SnippetDefinition} (h : ∃ s, compile d = .ok s) (scope : String) :
    ∃ s, compile { d with scope := some scope } = .ok s ∧ s.definition = d.settled scope := by
  have hcompile := compile_scope d scope
  obtain ⟨s, hs⟩ := h
  rw [hs] at hcompile
  exact ⟨_, hcompile, definition_of_compile hcompile⟩

end Snippet

/-! ## Stores -/

/-- Definitions that are registered together. -/
structure SnippetBatch where
  scope : Option String
  definitions : List SnippetDefinition
  deriving DecidableEq, Repr

namespace SnippetBatch

/-- The scope of the first definition without one of its own. -/
def target (b : SnippetBatch) : String := b.scope.getD SnippetStore.globalScope

def arrivals (b : SnippetBatch) : List SnippetDefinition := SnippetDefinition.routed b.target b.definitions

def Compiles (b : SnippetBatch) : Prop := ∀ d ∈ b.definitions, ∃ s, Snippet.compile d = .ok s

theorem compiles_iff {b : SnippetBatch} : b.Compiles ↔ ∀ d ∈ b.definitions, (Snippet.compile d).isOk = true := by
  refine forall₂_congr fun d _ => ?_
  cases Snippet.compile d with
  | error e => exact ⟨fun ⟨_, h⟩ => (nomatch h), fun h => (nomatch h)⟩
  | ok s => exact ⟨fun _ => rfl, fun _ => ⟨s, rfl⟩⟩

instance (b : SnippetBatch) : Decidable b.Compiles := decidable_of_iff' _ compiles_iff

end SnippetBatch

namespace SnippetStore

open SnippetDefinition

variable {s s' : SnippetStore} {ds ds' : List SnippetDefinition}

def registerAll (s : SnippetStore) : List SnippetBatch → SnippetStore × Option Error
  | [] => (s, none)
  | b :: rest =>
    match s.register b.definitions b.scope with
    | (s, none) => s.registerAll rest
    | (s, some e) => (s, some e)

/-- The scopes of both hold the same snippets in the same order. -/
def Agrees (s s' : SnippetStore) : Prop := ∀ scope, s.snippets scope = s'.snippets scope

/-- The store is what is left when these definitions have come to their scopes. -/
structure Holds (s : SnippetStore) (ds : List SnippetDefinition) : Prop where
  made : ∀ scope, ∀ snippet ∈ s.snippets scope, snippet.Made
  definitions : ∀ scope, (s.snippets scope).map (·.definition) = latest (inScope scope ds)

theorem holds_empty : ({} : SnippetStore).Holds [] :=
  ⟨fun _ _ h => (nomatch h), fun _ => rfl⟩

theorem snippets_add (s : SnippetStore) (scope scope' : String) (snippet : Snippet) :
    (s.add scope snippet).snippets scope' =
      if scope' = scope then dropNamed snippet.name? (s.snippets scope) ++ [snippet] else s.snippets scope' := by
  rw [snippets, add, Dict.get?_insert lt_irrefl String.lt_total]
  split <;> rfl

theorem map_definition_dropNamed (name : Option String) (snippets : List Snippet) :
    (dropNamed name snippets).map (·.definition) =
      (snippets.map (·.definition)).filter fun e => name.isNone || e.name != name := by
  cases name with
  | none => simp [dropNamed]
  | some name =>
    rw [dropNamed, List.filter_map]
    rfl

theorem Holds.add (h : s.Holds ds) {scope : String} {snippet : Snippet} (hmade : snippet.Made)
    (hscope : snippet.definition.scope = some scope) : (s.add scope snippet).Holds (ds ++ [snippet.definition]) := by
  constructor
  · intro scope' other hother
    rw [snippets_add] at hother
    split at hother
    · rcases List.mem_append.mp hother with hother | hother
      · refine h.made scope other ?_
        unfold dropNamed at hother
        split at hother
        · exact (List.mem_filter.mp hother).1
        · exact hother
      · exact List.mem_singleton.mp hother ▸ hmade
    · exact h.made scope' other hother
  · intro scope'
    rw [snippets_add, inScope_append]
    by_cases hsame : scope' = scope
    · subst hsame
      have hown : inScope scope' [snippet.definition] = [snippet.definition] := by simp [inScope, hscope]
      rw [if_pos rfl, hown, latest_concat, List.map_append, map_definition_dropNamed, h.definitions]
      rfl
    · have hother : inScope scope' [snippet.definition] = [] := by simp [inScope, hscope, Ne.symm hsame]
      rw [if_neg hsame, hother, List.append_nil, h.definitions]

theorem Holds.registerFrom {es : List SnippetDefinition} (h : s.Holds ds) (scope : String)
    (hes : ∀ d ∈ es, ∃ snippet, Snippet.compile d = .ok snippet) :
    ∃ s', s.registerFrom scope es = (s', none) ∧ s'.Holds (ds ++ routed scope es) := by
  induction es generalizing s ds scope with
  | nil => exact ⟨s, rfl, by rwa [routed, List.append_nil]⟩
  | cons d es ih =>
    obtain ⟨hd, hrest⟩ := List.forall_mem_cons.mp hes
    obtain ⟨snippet, hcompile, hdefinition⟩ := Snippet.exists_compile_settled hd (d.scope.getD scope)
    have hscope : snippet.definition.scope = some (d.scope.getD scope) := by rw [hdefinition, scope_settled]
    have hadd := h.add ⟨_, hcompile⟩ hscope
    obtain ⟨s', hs', hholds⟩ := ih hadd (d.scope.getD scope) hrest
    refine ⟨s', ?_, ?_⟩
    · rw [registerFrom_cons, hcompile]
      exact hs'
    · rwa [hdefinition, List.append_assoc] at hholds

theorem Holds.registerAll {batches : List SnippetBatch} (h : s.Holds ds) (hcompile : ∀ b ∈ batches, b.Compiles) :
    ∃ s', s.registerAll batches = (s', none) ∧ s'.Holds (ds ++ batches.flatMap (·.arrivals)) := by
  induction batches generalizing s ds with
  | nil => exact ⟨s, rfl, by rwa [List.flatMap_nil, List.append_nil]⟩
  | cons b batches ih =>
    obtain ⟨hb, hrest⟩ := List.forall_mem_cons.mp hcompile
    obtain ⟨s₁, hs₁, hholds₁⟩ := h.registerFrom b.target hb
    obtain ⟨s', hs', hholds⟩ := ih hholds₁ hrest
    refine ⟨s', ?_, by rwa [List.append_assoc] at hholds⟩
    have hregister : s.register b.definitions b.scope = (s₁, none) := hs₁
    rw [SnippetStore.registerAll, hregister]
    exact hs'

theorem map_definition_inj {xs ys : List Snippet} (hxs : ∀ x ∈ xs, x.Made) (hys : ∀ y ∈ ys, y.Made)
    (h : xs.map (·.definition) = ys.map (·.definition)) : xs = ys := by
  induction xs generalizing ys with
  | nil => exact (List.map_eq_nil_iff.mp h.symm).symm
  | cons x xs ih =>
    cases ys with
    | nil => cases h
    | cons y ys =>
      obtain ⟨hx, hxs⟩ := List.forall_mem_cons.mp hxs
      obtain ⟨hy, hys⟩ := List.forall_mem_cons.mp hys
      obtain ⟨hfirst, hrest⟩ := List.cons.inj h
      rw [hx.inj hy hfirst, ih hxs hys hrest]

theorem Holds.agrees_iff (h : s.Holds ds) (h' : s'.Holds ds') :
    s.Agrees s' ↔ ∀ scope, latest (inScope scope ds) = latest (inScope scope ds') := by
  constructor
  · intro hagrees scope
    rw [← h.definitions, ← h'.definitions, hagrees]
  · intro hlatest scope
    refine map_definition_inj (h.made scope) (h'.made scope) ?_
    rw [h.definitions, h'.definitions, hlatest]

/-- Scopes that hold the same snippets are searched with the same results. -/
theorem Agrees.find (h : s.Agrees s') (scopes : List String) :
    (∀ before after, s.findTrigger? scopes before after = s'.findTrigger? scopes before after) ∧
      ∀ name, s.findByName? scopes name = s'.findByName? scopes name := by
  constructor
  · intro before after
    simp only [findTrigger?, h _]
  · intro name
    simp only [findByName?, h _]

end SnippetStore

end Scribe
