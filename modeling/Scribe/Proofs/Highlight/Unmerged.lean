import Scribe.Proofs.Highlight.Compiling

/-!
# Merging switched off

Whether the token of a rule may join the one before it plays no part in compiling: a table with merging switched off in
each rule compiles if the table itself does, to the same tokenizer with merging switched off.
-/

namespace Scribe

def Rule.unmerged (r : Rule) : Rule := { r with merge := false }

mutual

/-- No rule in the entry lets its token join another, and none inside of inline rules does. -/
def Entry.unmerged : Entry → Entry
  | .rule r => .rule r.unmerged
  | .inline r entries => .inline r.unmerged (Entry.unmergedAll entries)
  | .include state => .include state
  | .defaultKind kind => .defaultKind kind

def Entry.unmergedAll : List Entry → List Entry
  | [] => []
  | e :: rest => e.unmerged :: Entry.unmergedAll rest

end

def RuleTable.unmerged (t : RuleTable) : RuleTable := ⟨t.states.mapValues Entry.unmergedAll⟩

def CompiledRule.unmerged (r : CompiledRule) : CompiledRule := { r with merge := false }

def CompiledState.unmerged (s : CompiledState) : CompiledState := { s with rules := s.rules.map CompiledRule.unmerged }

def Tokenizer.unmerged (t : Tokenizer) : Tokenizer :=
  { t with states := t.states.mapValues CompiledState.unmerged, start := t.start.unmerged }

/-! ## States of inline rules -/

namespace Entry

theorem unmergedAll_eq_map (entries : List Entry) : unmergedAll entries = entries.map unmerged := by
  induction entries with
  | nil => rfl
  | cons e rest ih => rw [unmergedAll, ih, List.map_cons]

mutual

theorem hoist_unmerged (owner : String) (count : Nat) : ∀ e : Entry, e.unmerged.hoist owner count =
    ((e.hoist owner count).1.unmerged, (e.hoist owner count).2.1,
      (e.hoist owner count).2.2.map fun piece => (piece.1, unmergedAll piece.2))
  | .inline r entries => by
    simp only [unmerged, hoist, hoistAll_unmerged _ (count + 1) entries, List.map_append, List.map_cons, List.map_nil]
    rfl
  | .rule r => rfl
  | .include state => rfl
  | .defaultKind kind => rfl

theorem hoistAll_unmerged (owner : String) (count : Nat) : ∀ entries : List Entry,
    hoistAll owner count (unmergedAll entries) =
      (unmergedAll (hoistAll owner count entries).1, (hoistAll owner count entries).2.1,
        (hoistAll owner count entries).2.2.map fun piece => (piece.1, unmergedAll piece.2))
  | [] => rfl
  | e :: rest => by
    simp only [unmergedAll, hoistAll, hoist_unmerged owner count e, hoistAll_unmerged owner _ rest, List.map_append]

end

end Entry

theorem RuleTable.hoisted_unmerged (t : RuleTable) : t.unmerged.hoisted = t.hoisted.mapValues Entry.unmergedAll := by
  have hpieces : ∀ e : String × List Entry, piecesOf (e.1, Entry.unmergedAll e.2) =
      (piecesOf e).map fun piece => (piece.1, Entry.unmergedAll piece.2) := by
    intro e
    simp only [piecesOf, Entry.hoistAll_unmerged, List.map_cons]
  rw [hoisted_eq, hoisted_eq, Dict.ofList, Dict.ofList, Dict.mapValues_insertMany, List.map_flatMap]
  simp only [unmerged, Dict.mapValues, List.flatMap_map, hpieces]
  rfl

/-! ## States -/

theorem foldlM_unmerged {step step' : List Rule → Entry → Except Error (List Rule)} {entries : List Entry}
    (hstep : ∀ e ∈ entries, ∀ rules, step' (rules.map Rule.unmerged) e.unmerged =
      (step rules e).map (List.map Rule.unmerged)) :
    ∀ rules : List Rule, (Entry.unmergedAll entries).foldlM step' (rules.map Rule.unmerged) =
      (entries.foldlM step rules).map (List.map Rule.unmerged) := by
  induction entries with
  | nil => exact fun _ => rfl
  | cons e rest ih =>
    intro rules
    obtain ⟨he, hrest⟩ := List.forall_mem_cons.mp hstep
    rw [Entry.unmergedAll, List.foldlM_cons, List.foldlM_cons, he rules]
    cases step rules e with
    | error _ => rfl
    | ok next => exact ih hrest next

theorem includedRules_unmerged (states : Dict String (List Entry)) : ∀ (room : Nat) (path : List String) (name : String),
    includedRules (states.mapValues Entry.unmergedAll) room path name =
      (includedRules states room path name).map (List.map Rule.unmerged)
  | 0, _, _ => rfl
  | room + 1, path, name => by
    have hentries : ((states.mapValues Entry.unmergedAll).get? name).getD [] =
        Entry.unmergedAll ((states.get? name).getD []) := by
      rw [Dict.get?_mapValues]
      cases states.get? name <;> rfl
    unfold includedRules
    rw [hentries]
    refine foldlM_unmerged (fun e _ rules => ?_) []
    cases e with
    | rule r => simp [Entry.unmerged, Except.map]
    | inline r entries => simp [Entry.unmerged, Except.map]
    | defaultKind kind => rfl
    | «include» target =>
      simp only [Entry.unmerged, Dict.contains_mapValues, includedRules_unmerged states room]
      split
      · rfl
      · split
        · rfl
        · cases includedRules states room (name :: path) target with
          | error _ => rfl
          | ok more => simp [Except.map]

theorem defaultKindOf_unmergedAll (entries : List Entry) :
    defaultKindOf (Entry.unmergedAll entries) = defaultKindOf entries := by
  unfold defaultKindOf
  rw [Entry.unmergedAll_eq_map, ← List.map_reverse, List.findSome?_map]
  refine congrArg (fun kind => (entries.reverse.findSome? kind).getD Token.textKind) (funext fun e => ?_)
  cases e <;> rfl

theorem compileState_unmerged (states : Dict String (List Entry)) (name : String) (entries : List Entry) :
    compileState (states.mapValues Entry.unmergedAll) name (Entry.unmergedAll entries) =
      (compileState states name entries).map CompiledState.unmerged := by
  have hlength : (states.mapValues Entry.unmergedAll).entries.length = states.entries.length := List.length_map _
  simp only [compileState, hlength, includedRules_unmerged, defaultKindOf_unmergedAll]
  cases includedRules states (states.entries.length + 1) [] name with
  | error _ => rfl
  | ok rules =>
    have htargets : (rules.map Rule.unmerged).findSome? (fun r =>
          r.target?.filter (!(states.mapValues Entry.unmergedAll).contains ·)) =
        rules.findSome? fun r => r.target?.filter (!states.contains ·) := by
      simp only [List.findSome?_map, Dict.contains_mapValues]
      rfl
    have hsources : (rules.map Rule.unmerged).map (fun r => (⟨r.regex, r.caseless⟩ : RulePattern)) =
        rules.map fun r => ⟨r.regex, r.caseless⟩ := by
      rw [List.map_map]
      rfl
    have hcompiled : ∀ patterns : PatternUnion,
        ((rules.map Rule.unmerged).mapIdx fun i r => r.compiled patterns i) =
          (rules.mapIdx fun i r => r.compiled patterns i).map CompiledRule.unmerged := by
      intro patterns
      refine List.ext_getElem? fun i => ?_
      simp only [List.getElem?_mapIdx, List.getElem?_map, Option.map_map]
      rfl
    simp only [bind, Except.bind, Except.map, htargets, hsources]
    split
    · rfl
    · split
      · rfl
      · rename_i patterns _
        have hrules := hcompiled patterns
        simp only [Rule.compiled] at hrules
        simp only [hrules, CompiledState.unmerged, pure, Except.pure, List.map_toArray]

/-! ## Tables -/

theorem mapM_map_eq {α α' β β' ε : Type} {f : α → Except ε β} {f' : α' → Except ε β'} {g : α → α'} {h : β → β'}
    (hf : ∀ x, f' (g x) = (f x).map h) : ∀ xs : List α, (xs.map g).mapM f' = (xs.mapM f).map (List.map h)
  | [] => rfl
  | x :: xs => by
    rw [List.map_cons, List.mapM_cons, List.mapM_cons, hf, mapM_map_eq hf xs]
    cases f x with
    | error _ => rfl
    | ok y => cases xs.mapM f <;> rfl

theorem Tokenizer.compile_unmerged (table : RuleTable) (options : ScanOptions) :
    compile table.unmerged options = (compile table options).map unmerged := by
  have hstart : table.unmerged.states.contains startState = table.states.contains startState :=
    Dict.contains_mapValues ..
  have hstates : (table.hoisted.entries.map fun e => (e.1, Entry.unmergedAll e.2)).mapM (fun e =>
        (compileState (table.hoisted.mapValues Entry.unmergedAll) e.1 e.2).map fun s => (e.1, s)) =
      (table.hoisted.entries.mapM fun e => (compileState table.hoisted e.1 e.2).map fun s => (e.1, s)).map
        (List.map fun e => (e.1, e.2.unmerged)) := by
    refine mapM_map_eq (fun e => ?_) table.hoisted.entries
    rw [compileState_unmerged]
    cases compileState table.hoisted e.1 e.2 <;> rfl
  have hentries : (table.hoisted.mapValues Entry.unmergedAll).entries =
      table.hoisted.entries.map fun e => (e.1, Entry.unmergedAll e.2) := rfl
  simp only [compile, hstart, RuleTable.hoisted_unmerged, hentries, hstates]
  split
  · rfl
  · cases table.hoisted.entries.mapM fun e => (compileState table.hoisted e.1 e.2).map fun s => (e.1, s) with
    | error _ => rfl
    | ok compiled =>
      have hget := Dict.get?_mapValues (⟨compiled⟩ : Dict String CompiledState) CompiledState.unmerged startState
      simp only [Dict.mapValues] at hget
      simp only [bind, Except.bind, Except.map, hget]
      cases (⟨compiled⟩ : Dict String CompiledState).get? startState <;> rfl

end Scribe
