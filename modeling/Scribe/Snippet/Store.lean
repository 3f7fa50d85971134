import Scribe.Snippet.Trigger

/-!
# Snippets by scope

A scope is usually the mode that its snippets are for. A mode sees its own scope first, then the scopes
included in it, then the global one. In each, the snippet registered last goes first.
-/

namespace Scribe

structure SnippetStore where
  scopes : Dict String (List Snippet) := Dict.empty
  /-- The scopes that each scope includes, in the order of inclusion. -/
  included : Dict String (List String) := Dict.empty
  deriving Repr

namespace SnippetStore

/-- The scope of the snippets that every mode has. -/
def globalScope : String := "_"

/-- The snippets of a scope in the order of registration. -/
def snippets (s : SnippetStore) (scope : String) : List Snippet := (s.scopes.get? scope).getD []

/-- The snippets that do not have this name. -/
def dropNamed (name : Option String) (snippets : List Snippet) : List Snippet :=
  match name with
  | some _ => snippets.filter (·.name? != name)
  | none => snippets

/-- Puts a snippet at the end of a scope, in place of the one of the same name. -/
def add (s : SnippetStore) (scope : String) (snippet : Snippet) : SnippetStore :=
  { s with scopes := s.scopes.insert scope (dropNamed snippet.name? (s.snippets scope) ++ [snippet]) }

/-- Registers definitions. One without a scope gets the scope of the one before it. The first error ends
it, and what was registered before stays. -/
def registerFrom (s : SnippetStore) (scope : String) :
    List SnippetDefinition → SnippetStore × Option Error
  | [] => (s, none)
  | d :: rest =>
    let scope := d.scope.getD scope
    match Snippet.compile { d with scope := some scope } with
    | .error e => (s, some e)
    | .ok snippet => (s.add scope snippet).registerFrom scope rest

/-- The scope is that of the first definition without one; `none` is the global scope. -/
def register (s : SnippetStore) (definitions : List SnippetDefinition) (scope : Option String) :
    SnippetStore × Option Error :=
  s.registerFrom (scope.getD globalScope) definitions

def unregister (s : SnippetStore) (scope name : String) : SnippetStore :=
  { s with scopes := s.scopes.modify scope (dropNamed (some name)) }

/-- A name joins a list once, at its end. -/
def addOnce (names : List String) (name : String) : List String :=
  if names.contains name then names else names ++ [name]

/-- Makes the snippets of other scopes available in a scope. -/
def includeScopes (s : SnippetStore) (scope : String) (names : List String) : SnippetStore :=
  { s with included := s.included.insert scope (names.foldl addOnce ((s.included.get? scope).getD [])) }

/-- All definitions, in order of scope. -/
def definitions (s : SnippetStore) : List SnippetDefinition :=
  s.scopes.values.flatten.map (·.definition)

/-- The scopes that a mode sees, the first one first. -/
def activeScopes (s : SnippetStore) (mode : String) : List String :=
  addOnce (((s.included.get? mode).getD []).foldl addOnce [mode]) globalScope

/-- The snippet whose trigger stands around the cursor. -/
def findTrigger? (s : SnippetStore) (scopes : List String) (before after : String) :
    Option TriggerMatch :=
  scopes.findSome? fun scope => (s.snippets scope).reverse.findSome? (·.matchAround? before after)

def findByName? (s : SnippetStore) (scopes : List String) (name : String) : Option Snippet :=
  scopes.findSome? fun scope => (s.snippets scope).find? (·.name? == some name)

end SnippetStore

end Scribe
