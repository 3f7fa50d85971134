import Scribe.Proofs.Highlight.Nesting

/-!
# Embedded tables

The states of an embedded table run under their label as they run in their own table, as long as the label
gets in front of every name that the table mentions, no name made for an inline rule is taken in the other
table, and a run stays within the states it started from.
-/

namespace Scribe

namespace Tokenizer

/-! ## A table within another -/

section
variable {table table' : RuleTable} {f : String → String} {options : ScanOptions} {t t' : Tokenizer} (hf : f.Injective)
  (hstates : ∀ {name entries}, table.hoisted.get? name = some entries →
    table'.hoisted.get? (f name) = some (Entry.renameAll f entries))
  (ht : compile table options = .ok t)
include hf hstates ht

theorem compileState_of_renamed {name : String} {state : CompiledState} (h : t.states.get? name = some state) :
    ∃ entries, table.hoisted.get? name = some entries ∧
      compileState table'.hoisted (f name) (Entry.renameAll f entries) = .ok (state.rename f) := by
  obtain ⟨entries, hentries, hcompile⟩ := exists_entries_of_compile ht h
  have hlength := length_le_of_renamed hf hstates table.pairwise_hoisted
  have hcontains : table.hoisted.contains name = true := by simp [Dict.contains, hentries]
  exact ⟨entries, hentries, compileState_rename hf hstates table.plain_hoisted hlength hcontains hcompile⟩

theorem exists_compileState_of_renamed {name : String} (h : table.hoisted.contains name = true) :
    ∃ entries state, table'.hoisted.get? (f name) = some entries ∧
      compileState table'.hoisted (f name) entries = .ok state := by
  rw [← contains_of_compile ht] at h
  obtain ⟨state, hstate⟩ := Option.isSome_iff_exists.mp h
  obtain ⟨entries, hentries, hcompile⟩ := compileState_of_renamed hf hstates ht hstate
  exact ⟨_, _, hstates hentries, hcompile⟩

theorem renames_of_compile (ht' : compile table' options = .ok t') : t.Renames f t' where
  inj := hf
  state := by
    intro name state h
    obtain ⟨entries, hentries, hcompile⟩ := compileState_of_renamed hf hstates ht h
    obtain ⟨state', hstate', hcompile'⟩ := exists_state_of_compile ht' (hstates hentries)
    rw [hcompile, Except.ok.injEq] at hcompile'
    rw [hstate', hcompile']
  options := by rw [(of_compile ht).options, (of_compile ht').options]
  length := by
    rw [← (of_compile ht).rows.length_eq, ← (of_compile ht').rows.length_eq]
    exact length_le_of_renamed hf hstates table.pairwise_hoisted

end

/-! ## An embedded table -/

section
variable {host inner : RuleTable} {label : String} {options : ScanOptions} {tHost tInner : Tokenizer}
  (hhost : host.states.keys.Pairwise (· < ·)) (hinner : inner.states.keys.Pairwise (· < ·))
  (hlabel : ∀ n ∈ inner.mentions, labelled label n = label ++ n)
  (hfresh : ∀ n, inner.hoisted.contains n = true → host.hoisted.contains (label ++ n) = false)
  (htInner : compile inner options = .ok tInner)
include hhost hinner hlabel hfresh htInner

theorem renames_embed {t : Tokenizer} (ht : compile (host.embed label inner []) options = .ok t) :
    tInner.Renames (label ++ ·) t :=
  renames_of_compile (RuleTable.append_injective label)
    (RuleTable.get?_hoisted_embed_inner hhost hinner hlabel hfresh) htInner ht

/-- The table that another one is embedded in compiles as before, and so does the embedded one in it. -/
theorem exists_compile_embed (htHost : compile host options = .ok tHost) :
    ∃ t, compile (host.embed label inner []) options = .ok t := by
  -- The host lies in the result as the embedded table does, under its own names.
  have hold : ∀ {name entries}, host.hoisted.get? name = some entries →
      (host.embed label inner []).hoisted.get? name = some (Entry.renameAll (fun n => n) entries) := by
    intro name entries h
    rw [Entry.renameAll_id]
    exact RuleTable.get?_hoisted_embed_host hhost hinner hlabel hfresh h
  have hnew : ∀ {name entries}, inner.hoisted.get? name = some entries →
      (host.embed label inner []).hoisted.get? (label ++ name) = some (Entry.renameAll (label ++ ·) entries) :=
    RuleTable.get?_hoisted_embed_inner hhost hinner hlabel hfresh
  refine exists_compile options (RuleTable.contains_embed label inner (of_compile htHost).starts) ?_
  intro name entries hentries
  have hcontains : (host.embed label inner []).hoisted.contains name = true := by simp [Dict.contains, hentries]
  rcases RuleTable.contains_hoisted_embed hhost hinner hlabel hfresh hcontains with ⟨n, hn, rfl⟩ | hn
  · obtain ⟨own, state, hown, hcompile⟩ :=
      exists_compileState_of_renamed (RuleTable.append_injective label) hnew htInner hn
    rw [hown, Option.some.injEq] at hentries
    exact ⟨state, hentries ▸ hcompile⟩
  · have hid : Function.Injective (fun n : String => n) := Function.injective_id
    obtain ⟨own, state, hown, hcompile⟩ := exists_compileState_of_renamed hid hold htHost hn
    rw [hown, Option.some.injEq] at hentries
    exact ⟨state, hentries ▸ hcompile⟩

end

end Tokenizer

/-- The states of both tables stand in order of name, as dictionaries have them. Embedding renames the states of the
one and what they mention exactly if none of the names mentioned begins with the label. Then the result compiles if both
tables do and no state of the one, behind the label, is a state of the other; and from each state the embedded table
gives the tokens and, behind the label, the frames that it gives by itself, in each run that leaves the outermost frame
where it is, does not overflow, and does not come to the limit on empty matches. -/
theorem RuleTable.runs_embedded {host inner : RuleTable} {label : String}
    (hhost : host.states.keys.Pairwise (· < ·)) (hinner : inner.states.keys.Pairwise (· < ·)) :
    ((∀ s entries, inner.state? s = some entries →
        (host.embed label inner []).state? (label ++ s) = some (Entry.renameAll (label ++ ·) entries)) ↔
      label = "" ∨ ∀ n ∈ inner.mentions, ¬ label.toList <+: n.toList) ∧
    ((label = "" ∨ ∀ n ∈ inner.mentions, ¬ label.toList <+: n.toList) →
      ∀ (options : ScanOptions) (tHost tInner : Tokenizer), Tokenizer.compile host options = .ok tHost →
        Tokenizer.compile inner options = .ok tInner →
        (∀ n, tInner.hasState n = true → tHost.hasState (label ++ n) = false) →
        ∃ t, Tokenizer.compile (host.embed label inner []) options = .ok t ∧
          ∀ s, tInner.hasState s = true → ∀ lines,
            tInner.RunsWith (tInner.StaysWithin (label ++ ·) []) (.ofState s) lines →
            t.tokenizeFrom (.ofState (label ++ s)) lines =
              (tInner.tokenizeFrom (.ofState s) lines).map (LineTokens.within (label ++ ·) [])) := by
  have hlabelled : (label = "" ∨ ∀ n ∈ inner.mentions, ¬ label.toList <+: n.toList) ↔
      ∀ n ∈ inner.mentions, labelled label n = label ++ n := by
    simp only [labelled_eq_append_iff]
    by_cases hempty : label = ""
    · simp [hempty]
    · simp [hempty]
  refine ⟨(state?_embed_iff host label hinner).trans hlabelled.symm, ?_⟩
  intro hlabel options tHost tInner htHost htInner hfresh
  have hhoisted : ∀ n, inner.hoisted.contains n = true → host.hoisted.contains (label ++ n) = false := by
    intro n hn
    rw [← Tokenizer.contains_of_compile htHost]
    rw [← Tokenizer.contains_of_compile htInner] at hn
    exact hfresh n hn
  have hnames := hlabelled.mp hlabel
  obtain ⟨t, ht⟩ := Tokenizer.exists_compile_embed hhost hinner hnames hhoisted htInner htHost
  have hrenames := Tokenizer.renames_embed hhost hinner hnames hhoisted htInner ht
  refine ⟨t, ht, fun s hs lines hrun => ?_⟩
  have hknows : tInner.Knows (.ofState s) := ⟨List.cons_ne_nil _ _, by simpa [StateStack.ofState] using hs⟩
  exact Tokenizer.tokenizeFrom_within (Tokenizer.closed_of_compile htInner) hrenames hknows hrun

/-- Tags in a page. -/
def RuleTable.samplePages : RuleTable :=
  { states := Dict.ofList [
    (startState, [.defaultKind "page", .inline { token := .literal "tag", regex := "<" } [
      .rule { token := .literal "tag", regex := ">", jump := some .pop }]])] }

/-- Lists of numbers and quotes, with included rules, an inline rule, and a handler that stores a text. -/
def RuleTable.sampleLists : RuleTable :=
  { states := Dict.ofList [
    ("list", [.include startState, .rule { token := .literal "close", regex := "[)]", jump := some .pop }]),
    ("number", [.rule { token := .literal "number", regex := "[0-9]+",
                        onMatch := some fun value _ stack => ([⟨"number", value⟩], stack.setData "last" value) }]),
    (startState, [.include "number", .rule { token := .literal "open", regex := "[(]", jump := some (.push "list") },
      .inline { token := .literal "quote", regex := "'" } [.include "number", .defaultKind "string",
        .rule { token := .literal "quote", regex := "'", jump := some .pop }]])] }

theorem RuleTable.runs_embedded_lists : ∃ t, Tokenizer.compile (samplePages.embed "js-" sampleLists []) = .ok t ∧
    (t.tokenizeFrom (.ofState ("js-" ++ "start")) ["1(2", "'a3", "b')c"]).map
        (fun l => (l.tokens.map (·.value), l.state.frames)) =
      [(["1", "(", "2"], ["js-list", "js-start"]), (["'", "a", "3"], ["js-start#1", "js-list", "js-start"]),
        (["b", "'", ")", "c"], ["js-start"])] := by
  obtain ⟨tHost, htHost, hkeys⟩ : ∃ t, Tokenizer.compile samplePages = .ok t ∧ t.states.keys = ["start", "start#1"] :=
    ⟨_, rfl, by decide +kernel⟩
  obtain ⟨tInner, htInner, hstart, hapart, hrun, htokens⟩ : ∃ t, Tokenizer.compile sampleLists = .ok t ∧
      t.hasState "start" = true ∧ (∀ n ∈ t.states.keys, "js-" ++ n ∉ ["start", "start#1"]) ∧
      t.RunsWith (t.StaysWithin ("js-" ++ ·) []) (.ofState "start") ["1(2", "'a3", "b')c"] ∧
      ((t.tokenizeFrom (.ofState "start") ["1(2", "'a3", "b')c"]).map (LineTokens.within ("js-" ++ ·) [])).map
          (fun l => (l.tokens.map (·.value), l.state.frames)) =
        [(["1", "(", "2"], ["js-list", "js-start"]), (["'", "a", "3"], ["js-start#1", "js-list", "js-start"]),
          (["b", "'", ")", "c"], ["js-start"])] :=
    ⟨_, rfl, by decide +kernel, by decide +kernel, by decide +kernel, by decide +kernel⟩
  have hfresh : ∀ n, tInner.hasState n = true → tHost.hasState ("js-" ++ n) = false := by
    intro n hn
    refine Bool.eq_false_of_not_eq_true fun hc => ?_
    have hkey := Dict.contains_eq_true_iff.mp hc
    rw [hkeys] at hkey
    exact hapart n (Dict.contains_eq_true_iff.mp hn) hkey
  obtain ⟨-, hembedded⟩ := @runs_embedded samplePages sampleLists "js-"
    (Dict.pairwise_ofList (fun _ _ _ => lt_trans) String.lt_total _)
    (Dict.pairwise_ofList (fun _ _ _ => lt_trans) String.lt_total _)
  obtain ⟨t, ht, hruns⟩ := hembedded (by decide +kernel) {} tHost tInner htHost htInner hfresh
  exact ⟨t, ht, by rw [hruns "start" hstart _ hrun]; exact htokens⟩

/-- The state `string` begins with the label `s`, so it gets the label and the rule that leads to it does not. -/
theorem RuleTable.embed_leaves_target :
    let host : RuleTable := { states := Dict.ofList [(startState, [.rule { token := .literal "h", regex := "x" }])] }
    let inner : RuleTable := { states := Dict.ofList [
      (startState, [.rule { token := .literal "q", regex := "'", jump := some (.next "string") }]),
      ("string", [.rule { token := .literal "q", regex := "'", jump := some (.next startState) }])] }
    (∃ t, Tokenizer.compile host = .ok t) ∧ (∃ t, Tokenizer.compile inner = .ok t) ∧
      (∀ s ∈ inner.states.keys, host.states.contains ("s" ++ s) = false) ∧
      (host.embed "s" inner []).states.keys = ["sstart", "sstring", "start"] ∧
      (inner.rename ("s" ++ ·)).mentions = ["sstring", "sstart"] ∧
      (host.embed "s" inner []).mentions = ["string", "start"] ∧
      Tokenizer.compile (host.embed "s" inner []) = .error (.unknownState "sstart" "string") := by
  intro host inner
  exact ⟨⟨_, rfl⟩, ⟨_, rfl⟩, by decide +kernel, by decide +kernel, by decide +kernel, by decide +kernel, rfl⟩

end Scribe
