import Scribe.Library.Basic
import Scribe.Proofs.Snippet.Registered

/-!
# Snippets collected in a library

A library keeps the definitions that it is given for each scope and registers them scope by scope. That leaves the same
snippets as registering each batch when it comes, if the definitions that come to each scope, without those that are
replaced, are the same in both orders. They are if no batch begins with what another one has left off with, and batches
that meet in a scope come in the order of the scopes that they are given for.
-/

namespace Scribe

open SnippetDefinition

/-! ## Batches -/

namespace SnippetBatch

/-- The definitions that are given for the scope. -/
def given (scope : String) (batches : List SnippetBatch) : List SnippetDefinition :=
  (batches.filter (·.target == scope)).flatMap (·.definitions)

/-- The first definition gets a scope from its own batch. -/
def Opens (before : List SnippetBatch) (b : SnippetBatch) : Prop :=
  ∀ d ∈ b.definitions.head?, d.scope = none → carried b.target (given b.target before) = b.target

def OpensAfter (before : List SnippetBatch) : List SnippetBatch → Prop
  | [] => True
  | b :: rest => Opens before b ∧ OpensAfter (before ++ [b]) rest

/-- What the batches bring to one scope they bring in the order of their own scopes. -/
def InOrder (batches : List SnippetBatch) : Prop :=
  batches.Pairwise fun b b' => b'.target < b.target → ∀ d ∈ b.arrivals, ∀ d' ∈ b'.arrivals, d.scope ≠ d'.scope

instance (before : List SnippetBatch) (b : SnippetBatch) : Decidable (b.Opens before) :=
  inferInstanceAs (Decidable (∀ d ∈ b.definitions.head?, d.scope = none → carried b.target (given b.target before) = b.target))

instance decidableOpensAfter : ∀ before batches : List SnippetBatch, Decidable (OpensAfter before batches)
  | _, [] => inferInstanceAs (Decidable True)
  | before, b :: rest =>
    have := decidableOpensAfter (before ++ [b]) rest
    inferInstanceAs (Decidable (Opens before b ∧ OpensAfter (before ++ [b]) rest))

instance (batches : List SnippetBatch) : Decidable (InOrder batches) :=
  inferInstanceAs (Decidable (List.Pairwise _ _))

theorem given_concat (scope : String) (batches : List SnippetBatch) (b : SnippetBatch) :
    given scope (batches ++ [b]) = given scope batches ++ if b.target = scope then b.definitions else [] := by
  rw [given, given, List.filter_append, List.flatMap_append]
  by_cases h : b.target = scope
  · simp [h]
  · simp [h]

theorem routed_of_opens {before : List SnippetBatch} {b : SnippetBatch} (h : b.Opens before) :
    routed (carried b.target (given b.target before)) b.definitions = b.arrivals := by
  unfold arrivals
  cases hds : b.definitions with
  | nil => rfl
  | cons d rest =>
    cases hscope : d.scope with
    | none => rw [h d (by simp [hds]) hscope]
    | some scope => simp only [routed, hscope, Option.getD_some]

/-- Definitions that were given for a scope come to scopes as they do batch by batch. -/
theorem routed_given (scope : String) : ∀ {batches before : List SnippetBatch},
    routed scope (given scope before) = (before.filter (·.target == scope)).flatMap (·.arrivals) →
    OpensAfter before batches →
    routed scope (given scope (before ++ batches)) = ((before ++ batches).filter (·.target == scope)).flatMap (·.arrivals)
  | [], before, hbefore, _ => by rwa [List.append_nil]
  | b :: rest, before, hbefore, h => by
    obtain ⟨hb, hrest⟩ := h
    have hnext : routed scope (given scope (before ++ [b])) =
        ((before ++ [b]).filter (·.target == scope)).flatMap (·.arrivals) := by
      rw [given_concat, routed_append, hbefore, List.filter_append, List.flatMap_append]
      by_cases hscope : b.target = scope
      · subst hscope
        rw [if_pos rfl, routed_of_opens hb]
        simp
      · simp [hscope, routed]
    have hall := routed_given scope hnext hrest
    rwa [List.append_assoc, List.singleton_append] at hall

end SnippetBatch

/-! ## Key by key -/

section
variable {α β : Type} {key : α → String} {f : α → List β}

/-- What has the first key goes before the rest without harm if nothing that counts stands before it. -/
theorem flatMap_filter_first {k : String} {xs : List α} (hfirst : ∀ x ∈ xs, key x ≠ k → k < key x)
    (hxs : xs.Pairwise fun x y => key y < key x → f x = [] ∨ f y = []) :
    (xs.filter (key · == k)).flatMap f ++ (xs.filter (key · != k)).flatMap f = xs.flatMap f := by
  induction xs with
  | nil => rfl
  | cons x xs ih =>
    obtain ⟨hx, hrest⟩ := List.forall_mem_cons.mp hfirst
    obtain ⟨hover, hpairs⟩ := List.pairwise_cons.mp hxs
    have ih := ih hrest hpairs
    by_cases hk : key x = k
    · rw [List.filter_cons_of_pos (by simpa using hk), List.filter_cons_of_neg (by simpa using hk), List.flatMap_cons,
        List.flatMap_cons, List.append_assoc, ih]
    · -- `x` stands before all that has the key, so one of the two counts for nothing.
      rw [List.filter_cons_of_neg (by simpa using hk), List.filter_cons_of_pos (by simpa using hk), List.flatMap_cons,
        List.flatMap_cons, ← ih]
      by_cases hempty : f x = []
      · simp [hempty]
      · have hnone : (xs.filter (key · == k)).flatMap f = [] := by
          refine List.flatMap_eq_nil_iff.mpr fun y hy => ?_
          obtain ⟨hmem, hkey⟩ := List.mem_filter.mp hy
          have hlt : key y < key x := by
            rw [eq_of_beq hkey]
            exact hx hk
          exact (hover y hmem hlt).resolve_left hempty
        rw [hnone, List.nil_append, List.nil_append]

/-- Taken key by key, in ascending order, a list gives what it gives as it stands, if what counts in it stands in that
order. -/
theorem flatMap_filter_keys {keys : List String} {xs : List α} (hkeys : keys.Pairwise (· < ·))
    (hmem : ∀ x ∈ xs, key x ∈ keys) (hxs : xs.Pairwise fun x y => key y < key x → f x = [] ∨ f y = []) :
    keys.flatMap (fun k => (xs.filter (key · == k)).flatMap f) = xs.flatMap f := by
  induction keys generalizing xs with
  | nil =>
    obtain rfl : xs = [] := List.eq_nil_iff_forall_not_mem.mpr fun x hx => nomatch hmem x hx
    rfl
  | cons k keys ih =>
    obtain ⟨hfirst, hkeys⟩ := List.pairwise_cons.mp hkeys
    have hover : ∀ x ∈ xs, key x ≠ k → key x ∈ keys := fun x hx hne => List.mem_of_ne_of_mem hne (hmem x hx)
    have hlater : ∀ x ∈ xs.filter (key · != k), key x ∈ keys := by
      intro x hx
      obtain ⟨hx, hne⟩ := List.mem_filter.mp hx
      exact hover x hx (by simpa using hne)
    have hrest : keys.flatMap (fun k' => (xs.filter (key · == k')).flatMap f) = (xs.filter (key · != k)).flatMap f := by
      rw [← ih hkeys hlater (hxs.sublist List.filter_sublist)]
      refine List.flatMap_congr fun k' hk' => ?_
      have hne : k' ≠ k := fun he => lt_irrefl k (he ▸ hfirst k' hk')
      rw [List.filter_filter]
      refine congrArg (List.flatMap f) (List.filter_congr fun x _ => ?_)
      by_cases hx : key x = k'
      · simp [hx, hne]
      · simp [hx]
    rw [List.flatMap_cons, hrest]
    exact flatMap_filter_first (fun x hx hne => hfirst _ (hover x hx hne)) hxs

end

/-! ## Libraries -/

namespace Library

variable {l : Library} {batches : List SnippetBatch}

def addBatches (l : Library) (batches : List SnippetBatch) : Library :=
  batches.foldl (fun l b => l.addSnippets b.scope b.definitions) l

/-- The definitions of the library as they come to their scopes. -/
def arrivals (l : Library) : List SnippetDefinition := l.snippets.entries.flatMap fun e => routed e.1 e.2

structure Collects (l : Library) (batches : List SnippetBatch) : Prop where
  ordered : l.snippets.keys.Pairwise (· < ·)
  given : ∀ scope, l.snippets.get? scope =
    if scope ∈ batches.map (·.target) then some (SnippetBatch.given scope batches) else none

theorem collects_nil (h : l.snippets = Dict.empty) : l.Collects [] := by
  constructor
  · rw [h]
    exact List.Pairwise.nil
  · intro scope
    rw [h]
    rfl

theorem Collects.addSnippets (h : l.Collects batches) (b : SnippetBatch) :
    (l.addSnippets b.scope b.definitions).Collects (batches ++ [b]) := by
  have hold : (l.snippets.get? b.target).getD [] = SnippetBatch.given b.target batches := by
    rw [h.given]
    split
    · rfl
    · rename_i hnone
      refine (List.flatMap_eq_nil_iff.mpr fun b' hb' => ?_).symm
      obtain ⟨hb', htarget⟩ := List.mem_filter.mp hb'
      exact absurd (List.mem_map.mpr ⟨b', hb', eq_of_beq htarget⟩) hnone
  constructor
  · exact Dict.pairwise_insertEntry (fun _ _ _ => lt_trans) String.lt_total _ _ h.ordered
  · intro scope
    have hget : (l.addSnippets b.scope b.definitions).snippets.get? scope =
        if scope = b.target then some ((l.snippets.get? b.target).getD [] ++ b.definitions) else l.snippets.get? scope :=
      Dict.get?_insert lt_irrefl String.lt_total l.snippets b.target scope _
    rw [hget, hold, SnippetBatch.given_concat, h.given]
    by_cases hscope : scope = b.target
    · subst hscope
      simp
    · simp [hscope, Ne.symm hscope]

theorem Collects.addBatches {l : Library} {before : List SnippetBatch} (h : l.Collects before)
    (batches : List SnippetBatch) : (l.addBatches batches).Collects (before ++ batches) := by
  induction batches generalizing l before with
  | nil => rwa [List.append_nil]
  | cons b rest ih =>
    have hnext := ih (h.addSnippets b)
    rwa [List.append_assoc, List.singleton_append] at hnext

theorem Collects.given_of_mem (h : l.Collects batches) {e : String × List SnippetDefinition} (he : e ∈ l.snippets.entries) :
    e.2 = SnippetBatch.given e.1 batches := by
  have hget := (Dict.get?_eq_some_iff lt_irrefl h.ordered).mpr he
  rw [h.given] at hget
  split at hget
  · exact (Option.some.inj hget).symm
  · cases hget

theorem Collects.arrivals (h : l.Collects batches) :
    l.arrivals = l.snippets.keys.flatMap fun scope => routed scope (SnippetBatch.given scope batches) := by
  rw [Library.arrivals, Dict.keys, List.flatMap_map]
  refine List.flatMap_congr fun e he => ?_
  rw [h.given_of_mem he]

theorem holds_registerScopes {scopes : List (String × List SnippetDefinition)} {s : SnippetStore}
    {ds : List SnippetDefinition} (h : s.Holds ds)
    (hcompile : ∀ e ∈ scopes, ∀ d ∈ e.2, ∃ snippet, Snippet.compile d = .ok snippet) :
    ∃ s', scopes.foldlM registerScope s = .ok s' ∧ s'.Holds (ds ++ scopes.flatMap fun e => routed e.1 e.2) := by
  induction scopes generalizing s ds with
  | nil => exact ⟨s, rfl, by rwa [List.flatMap_nil, List.append_nil]⟩
  | cons e scopes ih =>
    obtain ⟨he, hrest⟩ := List.forall_mem_cons.mp hcompile
    obtain ⟨s₁, hs₁, hholds₁⟩ := h.registerFrom e.1 he
    obtain ⟨s', hs', hholds⟩ := ih hholds₁ hrest
    have hregister : registerScope s e = .ok s₁ := by
      have hfrom : s.register e.2 (some e.1) = (s₁, none) := hs₁
      rw [registerScope, hfrom]
    refine ⟨s', ?_, by rwa [List.append_assoc] at hholds⟩
    rw [List.foldlM_cons, hregister]
    exact hs'

theorem Collects.holds_snippetStore (h : l.Collects batches) (hcompile : ∀ b ∈ batches, b.Compiles) :
    ∃ store, l.snippetStore = .ok store ∧ store.Holds l.arrivals := by
  refine holds_registerScopes SnippetStore.holds_empty fun e he d hd => ?_
  rw [h.given_of_mem he] at hd
  obtain ⟨b, hb, hd⟩ := List.mem_flatMap.mp hd
  exact hcompile b (List.mem_filter.mp hb).1 d hd

/-- Batches that open themselves and come in order leave the same definitions in each scope. -/
theorem Collects.inScope_arrivals (h : l.Collects batches) (hopens : SnippetBatch.OpensAfter [] batches)
    (horder : SnippetBatch.InOrder batches) (scope : String) :
    inScope scope l.arrivals = inScope scope (batches.flatMap (·.arrivals)) := by
  have hbatches : l.arrivals =
      l.snippets.keys.flatMap fun k => (batches.filter (·.target == k)).flatMap (·.arrivals) := by
    rw [h.arrivals]
    exact List.flatMap_congr fun k _ => @SnippetBatch.routed_given k batches [] rfl hopens
  have hmem : ∀ b ∈ batches, b.target ∈ l.snippets.keys := by
    intro b hb
    have htarget : b.target ∈ batches.map (·.target) := List.mem_map_of_mem hb
    refine Dict.contains_eq_true_iff.mp ?_
    rw [Dict.contains, h.given, if_pos htarget]
    rfl
  have hpairs : batches.Pairwise fun b b' => b'.target < b.target →
      inScope scope b.arrivals = [] ∨ inScope scope b'.arrivals = [] := by
    refine horder.imp fun {b b'} hapart hlt => ?_
    by_cases hempty : inScope scope b.arrivals = []
    · exact .inl hempty
    · refine .inr (List.filter_eq_nil_iff.mpr fun d' hd' hscope' => ?_)
      obtain ⟨d, hd⟩ := List.exists_mem_of_ne_nil _ hempty
      obtain ⟨hd, hscope⟩ := List.mem_filter.mp hd
      exact hapart hlt d hd d' hd' ((eq_of_beq hscope).trans (eq_of_beq hscope').symm)
  have hkeys := flatMap_filter_keys h.ordered hmem hpairs
  rw [hbatches]
  simp only [inScope, List.filter_flatMap] at hkeys ⊢
  exact hkeys

/-- In a library without snippets, definitions that compile can be collected, and can be registered batch by batch. The
scopes hold the same snippets after both exactly if the definitions that come to each of them, without those that are
replaced, are the same; then a search has the same results. It is so if each batch opens itself and they come in order. -/
theorem collected_agrees_iff (hl : l.snippets = Dict.empty) (hcompile : ∀ b ∈ batches, b.Compiles) :
    ∃ store direct, (l.addBatches batches).snippetStore = .ok store ∧
      ({} : SnippetStore).registerAll batches = (direct, none) ∧
      (∀ scope, (store.snippets scope).map (·.definition) = latest (inScope scope (l.addBatches batches).arrivals)) ∧
      (∀ scope, (direct.snippets scope).map (·.definition) = latest (inScope scope (batches.flatMap (·.arrivals)))) ∧
      (store.Agrees direct ↔ ∀ scope, latest (inScope scope (l.addBatches batches).arrivals) =
        latest (inScope scope (batches.flatMap (·.arrivals)))) ∧
      (store.Agrees direct → ∀ scopes,
        (∀ before after, store.findTrigger? scopes before after = direct.findTrigger? scopes before after) ∧
          ∀ name, store.findByName? scopes name = direct.findByName? scopes name) ∧
      (SnippetBatch.OpensAfter [] batches → SnippetBatch.InOrder batches → store.Agrees direct) := by
  have hcollects : (l.addBatches batches).Collects batches := (collects_nil hl).addBatches batches
  obtain ⟨store, hstore, hholds⟩ := hcollects.holds_snippetStore hcompile
  obtain ⟨direct, hdirect, hholds'⟩ := SnippetStore.holds_empty.registerAll hcompile
  rw [List.nil_append] at hholds'
  have hagrees := hholds.agrees_iff hholds'
  refine ⟨store, direct, hstore, hdirect, hholds.definitions, hholds'.definitions, hagrees, fun h => h.find, ?_⟩
  intro hopens horder
  refine hagrees.mpr fun scope => ?_
  rw [hcollects.inScope_arrivals hopens horder]

/-- A snippet for all modes comes from the batch for one of them, and another one is replaced by it. -/
def sampleBatches : List SnippetBatch := [
  ⟨none, [{ name := some "todo", content := "TODO" }]⟩,
  ⟨some "rust", [{ name := some "fn", tabTrigger := some "fn", content := "fn $0" },
    { name := some "todo", content := "FIXME", scope := some "_" }]⟩,
  ⟨some "lua", [{ name := some "fn", tabTrigger := some "fn", content := "function $0" }]⟩,
  ⟨some "rust", [{ name := some "let", trigger := some "l(et)?", content := "let $0", scope := some "rust" }]⟩]

theorem collected_agrees_iff_sample :
    (withOptions default).snippets = Dict.empty ∧ (∀ b ∈ sampleBatches, b.Compiles) ∧
      SnippetBatch.OpensAfter [] sampleBatches ∧ SnippetBatch.InOrder sampleBatches ∧
      ∃ store direct, ((withOptions default).addBatches sampleBatches).snippetStore = .ok store ∧
        ({} : SnippetStore).registerAll sampleBatches = (direct, none) ∧ store.Agrees direct ∧
        (store.snippets "_").map (·.content) = ["FIXME"] ∧ (store.snippets "rust").map (·.content) = ["fn $0", "let $0"] ∧
        store.findByName? ["rust", "_"] "todo" = direct.findByName? ["rust", "_"] "todo" := by
  have hcompile : ∀ b ∈ sampleBatches, b.Compiles := by decide +kernel
  have hopens : SnippetBatch.OpensAfter [] sampleBatches := by decide +kernel
  have horder : SnippetBatch.InOrder sampleBatches := by decide +kernel
  obtain ⟨store, direct, hstore, hdirect, hdefinitions, -, -, hfind, hagrees⟩ :=
    collected_agrees_iff (l := withOptions default) rfl hcompile
  have hsame := hagrees hopens horder
  have hcontents : ∀ scope, (store.snippets scope).map (·.content) =
      (latest (inScope scope ((withOptions default).addBatches sampleBatches).arrivals)).map (·.content) := by
    intro scope
    rw [← hdefinitions, List.map_map]
    rfl
  refine ⟨rfl, hcompile, hopens, horder, store, direct, hstore, hdirect, hsame, ?_, ?_, (hfind hsame _).2 _⟩
  · rw [hcontents]
    decide +kernel
  · rw [hcontents]
    decide +kernel

/-- A batch for all modes gets the scope that the one before it has left off with. And the snippet that was added last is
registered first, since `lua` comes before `rust`, and is replaced. -/
theorem collected_differs :
    (let batches : List SnippetBatch := [
        ⟨none, [{ name := some "x", content := "X", scope := some "rust" }]⟩,
        ⟨none, [{ name := some "todo", content := "T" }]⟩]
      ∃ store direct, ((withOptions default).addBatches batches).snippetStore = .ok store ∧
        ({} : SnippetStore).registerAll batches = (direct, none) ∧
        ["_", "rust"].map (fun scope => (store.snippets scope).map (·.content)) = [[], ["X", "T"]] ∧
        ["_", "rust"].map (fun scope => (direct.snippets scope).map (·.content)) = [["T"], ["X"]] ∧
        (store.findByName? ["_"] "todo").isNone ∧ (direct.findByName? ["_"] "todo").isSome) ∧
    (let batches : List SnippetBatch := [
        ⟨some "rust", [{ name := some "x", content := "old", scope := some "_" }]⟩,
        ⟨some "lua", [{ name := some "x", content := "new", scope := some "_" }]⟩]
      ∃ store direct, ((withOptions default).addBatches batches).snippetStore = .ok store ∧
        ({} : SnippetStore).registerAll batches = (direct, none) ∧
        (store.snippets "_").map (·.content) = ["old"] ∧ (direct.snippets "_").map (·.content) = ["new"]) :=
  ⟨⟨_, _, rfl, rfl, by decide +kernel⟩, _, _, rfl, rfl, by decide +kernel⟩

end Library

end Scribe
