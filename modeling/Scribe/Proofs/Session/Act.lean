import Scribe.Proofs.Session.Lifecycle

/-!
# What a step is made of

A step of a run tells the session some changes, begins a session, moves it, or ends it, one after the other.
-/

namespace Scribe

/-- Whether a snippet can expand to this. -/
def ExpandedSnippet.IsExpansion (expanded : ExpandedSnippet) : Prop :=
  ∃ vars ctx options source, expandSnippet vars ctx options source = expanded

theorem ExpandedSnippet.IsExpansion.ne_nil {expanded : ExpandedSnippet} (h : expanded.IsExpansion) :
    expanded.tabstops ≠ [] := by
  obtain ⟨vars, ctx, options, source, rfl⟩ := h
  exact tabstops_expandSnippet_ne_nil vars ctx options source

theorem ExpandedSnippet.IsExpansion.ranges_ne_nil {expanded : ExpandedSnippet} (h : expanded.IsExpansion) :
    ∀ g ∈ expanded.tabstops, g.ranges ≠ [] := by
  obtain ⟨vars, ctx, options, source, rfl⟩ := h
  exact fun g hg => (group_expandSnippet vars ctx options source hg).ne_nil

namespace Scene

/-- What happens at once. -/
inductive Act : Scene → Scene → Prop
  | host {i i' : SnippetInserter} {b b' : Buffer} (ds : List Delta) :
    i'.session = i.session → KeepsMarkers b ds b' → Act (i, b) (i', b')
  | hear {i : SnippetInserter} {b : Buffer} (event : EditorEvent) : Act (i, b) (i.handle b event)
  | begin {i : SnippetInserter} {b : Buffer} {expanded : ExpandedSnippet} (origin : Position) :
    expanded.IsExpansion → Act (i, b) (i.beginSession b expanded origin)
  | move {i : SnippetInserter} {b : Buffer} (step : Int) : Act (i, b) (i.move b step)
  | cancel {i : SnippetInserter} {b : Buffer} :
    Act (i, b) ({ i with session := (i.session.detach b).1 }, (i.session.detach b).2)

abbrev Acts : Scene → Scene → Prop := Relation.ReflTransGen Act

open Session (Valid)

theorem valid_of_act {x y : Scene} (h : Act x y) (hx : Valid x.1.session x.2) : Valid y.1.session y.2 := by
  cases h with
  | host ds hs hk =>
    have := hx.host ⟨hk.markers, hk.nextMarker⟩ hk.commandsBound
    rwa [← hs] at this
  | hear event => exact SnippetInserter.valid_handle hx event
  | begin origin he =>
    dsimp only at hx
    exact SnippetInserter.valid_beginSession hx he.ne_nil he.ranges_ne_nil origin
  | move step => exact SnippetInserter.valid_move hx step
  | cancel =>
    dsimp only at hx ⊢
    exact .idle (Session.idle_of_valid_detach hx)

theorem valid_of_acts {x y : Scene} (hx : Valid x.1.session x.2) (h : Acts x y) : Valid y.1.session y.2 := by
  induction h with
  | refl => exact hx
  | tail _ hact ih => exact valid_of_act hact ih

/-! ## Steps -/

theorem act_replace (i : SnippetInserter) (b : Buffer) (r : Range) (text : String) :
    Act (i, b) (i, (b.replace r text).1) := by
  obtain ⟨lines, selections, he⟩ := Session.replace_eq b r text
  rw [he]
  exact .host [] rfl ⟨rfl, rfl, rfl⟩

theorem act_setSelections (i i' : SnippetInserter) (hs : i'.session = i.session) (b : Buffer) (new : List Selection) :
    Act (i, b) (i', b.setSelections new) := by
  obtain ⟨selections, he⟩ := Session.setSelections_eq b new
  rw [he]
  exact .host [] hs ⟨rfl, rfl, rfl⟩

theorem acts_of_changes : ∀ (ds : List Delta) (i : SnippetInserter) (b : Buffer), Acts (i, b) (i.handleChanges b ds)
  | [], _, _ => .refl
  | d :: ds, i, b => .head (.hear (.change d)) (acts_of_changes ds (i.handle b (.change d)).1 (i.handle b (.change d)).2)

theorem acts_of_insert (i : SnippetInserter) (b : Buffer) (source : String) (options : InsertOptions) :
    Acts (i, b) (i.insert b source options).2 := by
  rw [SnippetInserter.insert_eq]
  have hexpanded : (expandSnippet i.vars b.context options source).IsExpansion := ⟨_, _, _, _, rfl⟩
  generalize expandSnippet i.vars b.context options source = expanded at hexpanded ⊢
  dsimp only
  split
  · exact .refl
  · exact .tail (.head (act_replace i b _ _) (acts_of_changes _ _ _)) (.begin _ hexpanded)

theorem acts_of_expandMatch (i : SnippetInserter) (b : Buffer) (m : TriggerMatch) (options : InsertOptions) :
    Acts (i, b) (i.expandMatch b m options) := by
  rw [SnippetInserter.expandMatch_eq]
  dsimp only
  generalize Range.between _ _ = triggers
  have hheard := acts_of_changes (b.replace triggers "").2 i (b.replace triggers "").1
  generalize i.handleChanges (b.replace triggers "").1 (b.replace triggers "").2 = heard at hheard ⊢
  have hselected := act_setSelections heard.1
    { heard.1 with vars := heard.1.vars.setCaptures m.beforeCaptures m.afterCaptures } rfl heard.2
    [.cursor ⟨b.cursor.row, b.cursor.column - m.replaceBefore.length⟩]
  have hinserted := acts_of_insert
    { heard.1 with vars := heard.1.vars.setCaptures m.beforeCaptures m.afterCaptures }
    (heard.2.setSelections [.cursor ⟨b.cursor.row, b.cursor.column - m.replaceBefore.length⟩]) m.snippet.content options
  generalize SnippetInserter.insert (σ := Buffer) _ _ m.snippet.content options = inserted at hinserted ⊢
  have hcleared : Act inserted.2 ({ inserted.2.1 with vars := inserted.2.1.vars.clearCaptures }, inserted.2.2) :=
    .host [] rfl ⟨rfl, rfl, rfl⟩
  exact ((hheard.head (act_replace i b triggers "")).tail hselected).trans (hinserted.tail hcleared)

theorem acts_of_expandTrigger (i : SnippetInserter) (b : Buffer) (options : InsertOptions) :
    Acts (i, b) (i.expandTrigger b options).2 := by
  rcases i.expandTrigger_cases b options with he | ⟨m, -, he⟩
  · rw [he]
  · rw [he]
    exact acts_of_expandMatch i b m options

theorem acts_of_run (i : SnippetInserter) (b : Buffer) (command : SessionCommand) :
    Acts (i, b) (i.run b command).2 := by
  rcases i.run_cases b command with he | ⟨step, he⟩ | ⟨step, he⟩ | he | he <;> rw [he]
  · exact acts_of_expandTrigger i b {}
  · exact .tail (acts_of_expandTrigger i b {}) (.move step)
  · exact .single (.move step)
  · exact .single .cancel

theorem acts_of_step {x y : Scene} (h : Step KeepsMarkers x y) : Acts x y := by
  cases h with
  | insert source options => exact acts_of_insert _ _ source options
  | expandTrigger options => exact acts_of_expandTrigger _ _ options
  | run command => exact acts_of_run _ _ command
  | changeSelection => exact .single (.hear .changeSelection)
  | changeDocument => exact .single (.hear .changeDocument)
  | afterCommand readOnly => exact .single (.hear (.afterCommand readOnly))
  | edit he => exact .head (.host _ rfl he) (acts_of_changes _ _ _)
  | configure store vars => exact .single (.host [] rfl ⟨rfl, rfl, rfl⟩)

/-- A run is made of such acts. -/
theorem acts_of_runs {x y : Scene} (h : Runs KeepsMarkers x y) : Acts x y := by
  induction h with
  | refl => exact .refl
  | tail _ hs ih => exact ih.trans (acts_of_step hs)

end Scene

end Scribe
