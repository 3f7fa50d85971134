import Scribe.Library.Archive
import Scribe.Proofs.Dict
import Scribe.Proofs.Json.Written
import Scribe.Snippet.Store

/-!
# Extra fields

A definition written as JSON reads back without its extra fields. They are all that it loses, and nothing else about
its snippet depends on them.
-/

namespace Scribe

open Json (told)

/-! ## Definitions as JSON -/

namespace SnippetDefinition

def withoutExtra (d : SnippetDefinition) : SnippetDefinition := { d with extra := Dict.empty }

/-- The fields of a definition, each with the text that it has, if any. -/
def texts (d : SnippetDefinition) : List (String × Option String) :=
  [("name", d.name), ("tabTrigger", d.tabTrigger), ("content", some d.content), ("trigger", d.trigger),
    ("guard", d.guard), ("endTrigger", d.endTrigger), ("endGuard", d.endGuard), ("scope", d.scope)]

def optionals (d : SnippetDefinition) : List (String × Option Json) :=
  d.texts.map fun f => (f.1, f.2.map .text)

theorem toJson_eq (d : SnippetDefinition) : d.toJson = .obj (told d.optionals) := by
  have hfields : d.fields = d.texts.filterMap fun f => f.2.map fun v => (f.1, v) := rfl
  rw [toJson, Json.ofFields, hfields, told, optionals, List.filterMap_map, List.map_map, List.map_filterMap]
  refine congrArg Json.obj (congrArg (List.filterMap · d.texts) (funext fun f => ?_))
  cases hf : f.2 <;> simp [hf]

theorem get?_told (d : SnippetDefinition) {names : List String} {value : Option String} (place : Nat) (key : String)
    (h : names.flatMap (fun name => d.texts.filter (·.1 == name)) = [(key, value)]) :
    (Json.Record.named (told d.optionals)).get? place names = some (value.map .text) := by
  refine Json.get?_told place key ?_
  have hmap := congrArg (List.map fun f : String × Option String => (f.1, f.2.map Json.text)) h
  rw [List.map_flatMap, List.map_singleton] at hmap
  rw [← hmap]
  refine List.flatMap_congr fun name _ => ?_
  rw [optionals, List.filter_map]
  rfl

theorem ofRecord?_told (d : SnippetDefinition) : ofRecord? (.named (told d.optionals)) = some d.withoutExtra := by
  let r := Json.Record.named (told d.optionals)
  have hname : r.get? 0 ["name"] = some (d.name.map .text) := d.get?_told 0 "name" (by simp [texts])
  have htab : r.get? 1 ["tabTrigger", "prefix"] = some (d.tabTrigger.map .text) := d.get?_told 1 "tabTrigger" (by simp [texts])
  have hcontent : r.get? 2 ["content", "body"] = some ((some d.content).map .text) := d.get?_told 2 "content" (by simp [texts])
  have htrigger : r.get? 3 ["trigger"] = some (d.trigger.map .text) := d.get?_told 3 "trigger" (by simp [texts])
  have hguard : r.get? 4 ["guard"] = some (d.guard.map .text) := d.get?_told 4 "guard" (by simp [texts])
  have hendTrigger : r.get? 5 ["endTrigger"] = some (d.endTrigger.map .text) := d.get?_told 5 "endTrigger" (by simp [texts])
  have hendGuard : r.get? 6 ["endGuard"] = some (d.endGuard.map .text) := d.get?_told 6 "endGuard" (by simp [texts])
  have hscope : r.get? 7 ["scope"] = some (d.scope.map .text) := d.get?_told 7 "scope" (by simp [texts])
  have hexcess : r.excess 8 = 0 := rfl
  show ofRecord? r = some d.withoutExtra
  simp only [ofRecord?, Json.Record.text?, hname, htab, hcontent, htrigger, hguard, hendTrigger, hendGuard, hscope,
    hexcess, Option.bind_eq_bind, Option.bind_some, Json.fieldOr_text]
  rfl

theorem ofJson?_toJson (d : SnippetDefinition) : ofJson? d.toJson = some d.withoutExtra := by
  rw [toJson_eq, ofJson?, Json.told_isSome, if_pos rfl, ofRecord?_told]

theorem isPlain_toJson (d : SnippetDefinition) : d.toJson.isPlain = true := by
  rw [toJson_eq, Json.isPlain]
  refine Json.fieldsPlain_told fun f hf v hv => ?_
  obtain ⟨entry, -, rfl⟩ := List.mem_map.mp hf
  obtain ⟨text, -, rfl⟩ := Option.map_eq_some_iff.mp hv
  rfl

theorem readAll?_writeAll (ds : List SnippetDefinition) : readAll? (writeAll ds) = some (ds.map withoutExtra) := by
  have hplain : (Json.arr (ds.map toJson)).isPlain = true := by
    rw [Json.isPlain, Json.itemsPlain_iff, List.forall_mem_map]
    exact fun d _ => isPlain_toJson d
  have hitems : (ds.map toJson).mapM ofJson? = some (ds.map withoutExtra) := by
    clear hplain
    induction ds with
    | nil => rfl
    | cons d ds ih =>
      rw [List.map_cons, List.mapM_cons, ofJson?_toJson, ih]
      rfl
  rw [readAll?, writeAll, Json.read?_write hplain]
  exact hitems

end SnippetDefinition

/-! ## Snippets -/

theorem Trigger.withLiteral_withoutExtra (d : SnippetDefinition) :
    Trigger.withLiteral d.withoutExtra = (Trigger.withLiteral d).withoutExtra := by
  obtain ⟨name, tabTrigger, content, trigger, guard, endTrigger, endGuard, scope, extra⟩ := d
  cases trigger with
  | some pattern => rfl
  | none =>
    cases tabTrigger with
    | none => rfl
    | some literal =>
      simp only [Trigger.withLiteral, SnippetDefinition.withoutExtra]
      cases literal.toList <;> rfl

namespace Snippet

def withoutExtra (s : Snippet) : Snippet := { s with definition := s.definition.withoutExtra }

theorem compile_withoutExtra (d : SnippetDefinition) : compile d.withoutExtra = (compile d).map withoutExtra := by
  show compile d.withoutExtra = withoutExtra <$> compile d
  unfold compile
  rw [Trigger.withLiteral_withoutExtra]
  simp only [map_bind, map_pure]
  rfl

end Snippet

namespace SnippetStore

def withoutExtra (s : SnippetStore) : SnippetStore :=
  { s with scopes := s.scopes.mapValues (·.map Snippet.withoutExtra) }

theorem dropNamed_withoutExtra (name : Option String) (snippets : List Snippet) :
    dropNamed name (snippets.map Snippet.withoutExtra) = (dropNamed name snippets).map Snippet.withoutExtra := by
  cases name with
  | none => rfl
  | some name =>
    rw [dropNamed, dropNamed, List.filter_map]
    rfl

theorem snippets_withoutExtra (s : SnippetStore) (scope : String) :
    s.withoutExtra.snippets scope = (s.snippets scope).map Snippet.withoutExtra := by
  rw [snippets, snippets, withoutExtra, Dict.get?_mapValues]
  cases s.scopes.get? scope <;> rfl

theorem add_withoutExtra (s : SnippetStore) (scope : String) (snippet : Snippet) :
    s.withoutExtra.add scope snippet.withoutExtra = (s.add scope snippet).withoutExtra := by
  have hname : snippet.withoutExtra.name? = snippet.name? := rfl
  simp only [add, snippets_withoutExtra, hname, dropNamed_withoutExtra]
  simp only [withoutExtra, Dict.mapValues_insert, List.map_append, List.map_singleton]

theorem registerFrom_cons (s : SnippetStore) (scope : String) (d : SnippetDefinition) (ds : List SnippetDefinition) :
    s.registerFrom scope (d :: ds) =
      match Snippet.compile { d with scope := some (d.scope.getD scope) } with
      | .error e => (s, some e)
      | .ok snippet => (s.add (d.scope.getD scope) snippet).registerFrom (d.scope.getD scope) ds :=
  -- In brackets it is not checked for being a definitional rewrite rule, which would unfold the compiler.
  (rfl)

theorem registerFrom_withoutExtra (ds : List SnippetDefinition) (s : SnippetStore) (scope : String) :
    s.withoutExtra.registerFrom scope (ds.map SnippetDefinition.withoutExtra) =
      ((s.registerFrom scope ds).1.withoutExtra, (s.registerFrom scope ds).2) := by
  induction ds generalizing s scope with
  | nil => rfl
  | cons d ds ih =>
    have hcompile : Snippet.compile { d.withoutExtra with scope := some (d.scope.getD scope) } =
        (Snippet.compile { d with scope := some (d.scope.getD scope) }).map Snippet.withoutExtra :=
      Snippet.compile_withoutExtra { d with scope := some (d.scope.getD scope) }
    have hscope : d.withoutExtra.scope = d.scope := rfl
    rw [List.map_cons, registerFrom_cons, registerFrom_cons, hscope, hcompile]
    cases Snippet.compile { d with scope := some (d.scope.getD scope) } with
    | error e => rfl
    | ok snippet =>
      simp only [Except.map]
      rw [add_withoutExtra, ih]

end SnippetStore

end Scribe
