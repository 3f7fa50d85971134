import Scribe.Highlight.Tokenizer
import Scribe.Proofs.Dict
import Scribe.Proofs.Pattern.Classes

/-!
# Renaming states

A renaming acts on the states that a table mentions, inside of inline rules too. Putting a label in front
of them is one, for the states that do not begin with the label already. Names for inline rules are made
from the name of the state that holds them, so a label in front of that name comes in front of theirs.
-/

namespace Scribe

def Jump.rename (f : String → String) : Jump → Jump
  | next state => .next (f state)
  | push state => .push (f state)
  | pop => .pop

def Rule.rename (f : String → String) (r : Rule) : Rule := { r with jump := r.jump.map (Jump.rename f) }

mutual

def Entry.rename (f : String → String) : Entry → Entry
  | .rule r => .rule (r.rename f)
  | .inline r entries => .inline r (Entry.renameAll f entries)
  | .include state => .include (f state)
  | .defaultKind kind => .defaultKind kind

def Entry.renameAll (f : String → String) : List Entry → List Entry
  | [] => []
  | e :: rest => e.rename f :: Entry.renameAll f rest

end

mutual

/-- The states that the entry leads to or takes in, by name. -/
def Entry.mentions : Entry → List String
  | .rule r => r.target?.toList
  | .inline _ entries => Entry.mentionsAll entries
  | .include state => [state]
  | .defaultKind _ => []

def Entry.mentionsAll : List Entry → List String
  | [] => []
  | e :: rest => e.mentions ++ Entry.mentionsAll rest

end

namespace Rule

variable {f g : String → String}

theorem target?_rename (f : String → String) (r : Rule) : (r.rename f).target? = r.target?.map f := by
  obtain ⟨token, regex, jump, onMatch, caseless, merge⟩ := r
  cases jump with
  | none => rfl
  | some j => cases j <;> rfl

theorem rename_eq_rename_iff (r : Rule) : r.rename f = r.rename g ↔ ∀ n ∈ r.target?.toList, f n = g n := by
  obtain ⟨token, regex, jump, onMatch, caseless, merge⟩ := r
  cases jump with
  | none => simp [rename, target?]
  | some j => cases j <;> simp [rename, target?, Jump.rename]

end Rule

namespace Entry

variable {f g : String → String}

theorem renameAll_eq_map (f : String → String) : ∀ entries, renameAll f entries = entries.map (rename f)
  | [] => rfl
  | e :: rest => by rw [renameAll, renameAll_eq_map f rest, List.map_cons]

mutual

/-- The names that an entry mentions say all about what a renaming does to it. -/
theorem rename_eq_rename_iff : ∀ e : Entry, e.rename f = e.rename g ↔ ∀ n ∈ e.mentions, f n = g n
  | .rule r => by simpa only [rename, mentions, rule.injEq] using r.rename_eq_rename_iff
  | .inline r entries => by
    simp only [rename, mentions, inline.injEq, true_and]
    exact renameAll_eq_renameAll_iff entries
  | .include state => by simp [rename, mentions]
  | .defaultKind kind => by simp [rename, mentions]

theorem renameAll_eq_renameAll_iff : ∀ entries : List Entry,
    renameAll f entries = renameAll g entries ↔ ∀ n ∈ mentionsAll entries, f n = g n
  | [] => by simp [renameAll, mentionsAll]
  | e :: rest => by
    simp only [renameAll, mentionsAll, List.cons.injEq, List.forall_mem_append]
    rw [rename_eq_rename_iff e, renameAll_eq_renameAll_iff rest]

end

mutual

theorem rename_id : ∀ e : Entry, e.rename (fun n => n) = e
  | .rule ⟨token, regex, jump, onMatch, caseless, merge⟩ => by
    cases jump with
    | none => rfl
    | some j => cases j <;> rfl
  | .inline r entries => by rw [rename, renameAll_id entries]
  | .include state => rfl
  | .defaultKind kind => rfl

theorem renameAll_id : ∀ entries : List Entry, renameAll (fun n => n) entries = entries
  | [] => rfl
  | e :: rest => by rw [renameAll, rename_id e, renameAll_id rest]

end

mutual

theorem relabel_eq_rename (label : String) : ∀ e : Entry, e.relabel label = e.rename (labelled label)
  | .rule ⟨token, regex, jump, onMatch, caseless, merge⟩ => by
    cases jump with
    | none => rfl
    | some j => cases j <;> rfl
  | .inline r entries => by rw [relabel, rename, relabelAll_eq_renameAll label entries]
  | .include state => rfl
  | .defaultKind kind => rfl

theorem relabelAll_eq_renameAll (label : String) : ∀ entries : List Entry,
    relabelAll label entries = renameAll (labelled label) entries
  | [] => rfl
  | e :: rest => by rw [relabelAll, renameAll, relabel_eq_rename label e, relabelAll_eq_renameAll label rest]

end

end Entry

/-! ## Labels -/

theorem labelled_eq_append_iff {label name : String} :
    labelled label name = label ++ name ↔ label = "" ∨ ¬ label.toList <+: name.toList := by
  unfold labelled
  split
  · rename_i hstart
    have hprefix := Pattern.startsWith_iff.mp hstart
    refine ⟨fun he => .inl ?_, ?_⟩
    · have hlen := congrArg (fun s => s.toList.length) he
      simpa using hlen
    · rintro (rfl | hnot)
      · simp
      · exact absurd hprefix hnot
  · rename_i hstart
    exact iff_of_true rfl (.inr fun h => hstart (Pattern.startsWith_iff.mpr h))

/-- The states of the table are renamed as the states it mentions are. -/
def RuleTable.rename (f : String → String) (t : RuleTable) : RuleTable :=
  ⟨t.states.mapEntries f (Entry.renameAll f)⟩

/-- The states that rules of the table lead to and that states of it take in. -/
def RuleTable.mentions (t : RuleTable) : List String := t.states.entries.flatMap fun e => Entry.mentionsAll e.2

/-! ## Named inline rules -/

namespace Entry

/-- The entry holds no other entries. -/
def Plain (e : Entry) : Prop := ∀ r entries, e ≠ .inline r entries

theorem plain_rule (r : Rule) : (Entry.rule r).Plain := fun _ _ h => nomatch h

mutual

theorem hoist_plain (owner : String) (count : Nat) : ∀ e : Entry, (e.hoist owner count).1.Plain ∧
    ∀ piece ∈ (e.hoist owner count).2.2, ∀ e' ∈ piece.2, e'.Plain
  | .inline r entries => by
    obtain ⟨hentries, hinner⟩ := hoistAll_plain (owner ++ "#" ++ toString (count + 1)) (count + 1) entries
    refine ⟨plain_rule _, fun piece hpiece => ?_⟩
    rcases List.mem_append.mp hpiece with h | h
    · exact hinner piece h
    · obtain rfl := List.mem_singleton.mp h
      exact hentries
  | .rule r => ⟨plain_rule r, fun _ h => (nomatch h)⟩
  | .include state => ⟨fun _ _ h => (nomatch h), fun _ h => (nomatch h)⟩
  | .defaultKind kind => ⟨fun _ _ h => (nomatch h), fun _ h => (nomatch h)⟩

theorem hoistAll_plain (owner : String) (count : Nat) : ∀ entries : List Entry,
    (∀ e ∈ (hoistAll owner count entries).1, e.Plain) ∧
      ∀ piece ∈ (hoistAll owner count entries).2.2, ∀ e ∈ piece.2, e.Plain
  | [] => ⟨fun _ h => (nomatch h), fun _ h => (nomatch h)⟩
  | e :: rest => by
    obtain ⟨he, hinner⟩ := hoist_plain owner count e
    obtain ⟨hrest, hmore⟩ := hoistAll_plain owner (e.hoist owner count).2.1 rest
    refine ⟨List.forall_mem_cons.mpr ⟨he, hrest⟩, fun piece hpiece => ?_⟩
    rcases List.mem_append.mp hpiece with h | h
    · exact hinner piece h
    · exact hmore piece h

end

/-- The named states of inline rules, renamed. -/
def renamePieces (f : String → String) (pieces : List (String × List Entry)) : List (String × List Entry) :=
  pieces.map fun e => (f e.1, renameAll f e.2)

mutual

/-- A label in front of the owner comes in front of all names that are made from it. -/
theorem hoist_rename (label owner : String) (count : Nat) : ∀ e : Entry,
    (e.rename (label ++ ·)).hoist (label ++ owner) count =
      ((e.hoist owner count).1.rename (label ++ ·), (e.hoist owner count).2.1,
        renamePieces (label ++ ·) (e.hoist owner count).2.2)
  | .inline r entries => by
    have hname : label ++ owner ++ "#" ++ toString (count + 1) = label ++ (owner ++ "#" ++ toString (count + 1)) := by
      simp only [String.append_assoc]
    simp only [rename, hoist, hname, hoistAll_rename label _ (count + 1) entries, renamePieces, List.map_append,
      List.map_cons, List.map_nil]
    rfl
  | .rule r => rfl
  | .include state => rfl
  | .defaultKind kind => rfl

theorem hoistAll_rename (label owner : String) (count : Nat) : ∀ entries : List Entry,
    hoistAll (label ++ owner) count (renameAll (label ++ ·) entries) =
      (renameAll (label ++ ·) (hoistAll owner count entries).1, (hoistAll owner count entries).2.1,
        renamePieces (label ++ ·) (hoistAll owner count entries).2.2)
  | [] => rfl
  | e :: rest => by
    simp only [renameAll, hoistAll, hoist_rename label owner count e, hoistAll_rename label owner _ rest, renamePieces,
      List.map_append]

end

end Entry

end Scribe
