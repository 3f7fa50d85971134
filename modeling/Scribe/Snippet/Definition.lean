import Scribe.Dict
import Scribe.Json.Fields
import Scribe.Json.Reader
import Scribe.Text.Basic

/-!
# Definitions of snippets

What a file says about a snippet: its text, and when it is to be expanded.
-/

namespace Scribe

structure SnippetDefinition where
  name : Option String := none
  /-- The text typed before the cursor, taken literally. -/
  tabTrigger : Option String := none
  content : String := ""
  /-- A pattern for the text before the cursor; it goes before `tabTrigger`. -/
  trigger : Option String := none
  /-- A pattern that has to match right before the trigger. -/
  guard : Option String := none
  /-- A pattern for the text after the cursor. -/
  endTrigger : Option String := none
  /-- A pattern that has to match right behind the end trigger. -/
  endGuard : Option String := none
  scope : Option String := none
  /-- What else the definition says. -/
  extra : Dict String String := Dict.empty
  deriving DecidableEq, Repr, Inhabited

namespace SnippetDefinition

open Json (Record strings? fieldOr)

/-- A text, or its lines. -/
def content? (v : Json) : Option String :=
  match v with
  | .str s => s
  | _ => (strings? v).map Text.joinLines

def ofRecord? (r : Record) : Option SnippetDefinition := do
  if r.excess 8 ≠ 0 then none
  let name ← r.text? 0 ["name"]
  let tabTrigger ← r.text? 1 ["tabTrigger", "prefix"]
  let content ← fieldOr "" content? (← r.get? 2 ["content", "body"])
  let trigger ← r.text? 3 ["trigger"]
  let guard ← r.text? 4 ["guard"]
  let endTrigger ← r.text? 5 ["endTrigger"]
  let endGuard ← r.text? 6 ["endGuard"]
  let scope ← r.text? 7 ["scope"]
  return { name, tabTrigger, content, trigger, guard, endTrigger, endGuard, scope }

/-- Every field may be left out. Fields that mean nothing here are ignored. -/
def ofJson? (v : Json) : Option SnippetDefinition :=
  match v with
  | .obj fields => if fields.all (·.1.isSome) then ofRecord? (.named fields) else none
  | .arr items => ofRecord? (.listed items)
  | _ => none

/-- The fields that are told, by name; the extra ones are left out. -/
def fields (d : SnippetDefinition) : List (String × String) :=
  [("name", d.name), ("tabTrigger", d.tabTrigger), ("content", some d.content), ("trigger", d.trigger),
    ("guard", d.guard), ("endTrigger", d.endTrigger), ("endGuard", d.endGuard), ("scope", d.scope)].filterMap
    fun (key, value) => value.map fun v => (key, v)

def toJson (d : SnippetDefinition) : Json :=
  .ofFields (d.fields.map fun (key, value) => (key, .text value))

def read? (text : String) : Option SnippetDefinition := (Json.read? text).bind ofJson?

end SnippetDefinition

end Scribe
