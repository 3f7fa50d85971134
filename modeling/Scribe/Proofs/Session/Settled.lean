import Scribe.Proofs.Session.Begun
import Scribe.Proofs.Session.Refresh
import Scribe.Proofs.Snippet.Spelled

/-!
# Settled tabstops

A tabstop is settled if a command finds nothing to write in its linked ranges. One that has just been inserted is
settled if its default is plain text. Otherwise its linked ranges read what the primary one reads, whatever their
transforms are, and it is settled as long as these leave that text as it is.
-/

namespace Scribe

open Position (place)
open Transform (derived)
open Expansion (Default)

def Expansion.Default.isText : Default → Bool
  | .text _ => true
  | _ => false

namespace Expansion.Default

/-- With transforms that use only groups the text of an occurrence does not depend on where it is inserted. -/
theorem shown_eq {transform : Option Transform} (h : transform.all Transform.usesGroups = true) (vars : Variables)
    (ctx : EditContext) (spelled : String) (d : Default) :
    d.shown (vars.transform ctx) transform spelled = if d.isText then derived spelled transform else spelled := by
  cases d with
  | none => rfl
  | nested body => rfl
  | text s =>
    cases transform with
    | none => rfl
    | some t => exact Transform.apply_eq h _ _ spelled

end Expansion.Default

/-- What the ranges of a tabstop are like that has been inserted and not been edited. -/
structure Tabstop.Drafted (t : Tabstop) (b : Buffer) (isText : Bool) (spelled : String) : Prop where
  usesGroups : ∀ r ∈ t.ranges, r.transform.all Transform.usesGroups = true
  edited : ∀ r ∈ t.ranges, r.linked = false → r.transform = none
  reads : ∀ r ∈ t.ranges, b.textRange r.range = if isText then derived spelled r.transform else spelled

/-- The default is plain text, or the transforms leave what the primary range reads as it is. -/
def Tabstop.Settled (t : Tabstop) (b : Buffer) (isText : Bool) : Prop :=
  ∀ p ∈ t.primary?, ∀ r ∈ t.ranges, isText = true ∨ derived (b.textRange p.range) r.transform = b.textRange p.range

instance (t : Tabstop) (b : Buffer) (isText : Bool) : Decidable (t.Settled b isText) :=
  inferInstanceAs (Decidable (∀ p ∈ t.primary?, _))

theorem Tabstop.Drafted.primary {t : Tabstop} {b : Buffer} {isText : Bool} {spelled : String}
    (h : t.Drafted b isText spelled) {p : TrackedRange} (hp : t.primary? = some p) :
    b.textRange p.range = spelled := by
  obtain ⟨hpm, hl⟩ := Tabstop.mem_of_primary? hp
  rw [h.reads p hpm, h.edited p hpm hl]
  cases isText <;> rfl

namespace Session

variable {s : Session} {b : Buffer} {t : Tabstop} {isText : Bool} {spelled : String}

theorem updateLinked_of_settled (hrun : Running s b t) (hs : Steady s b b.chars) (hb : b.Sound)
    (hd : t.Drafted b isText spelled) (h : t.Settled b isText) : s.updateLinked b = (s, b) := by
  cases hp : t.primary? with
  | none => exact updateLinked_of_no_primary hrun hp
  | some p =>
    have hspelled := hd.primary hp
    refine updateLinked_of_reads hrun hs.inChange hb hp fun r hr _ => ?_
    have hreads := reads_textRange hb (hs.placed.on r (hrun.range_mem hr))
    have hsame : b.textRange r.range = derived spelled r.transform := by
      rw [hd.reads r hr]
      rcases h p hp r hr with rfl | he
      · rfl
      · rw [hspelled] at he
        rw [he, ite_self]
    rwa [mirrored_eq s _ _ (hd.usesGroups r hr), hspelled, ← hsame]

theorem settled_of_updateLinked (hrun : Running s b t) (hs : Steady s b b.chars) (hb : b.Sound)
    (hd : t.Drafted b isText spelled) (h : s.updateLinked b = (s, b)) : t.Settled b isText := by
  intro p hp r hr
  have hspelled := hd.primary hp
  cases hl : r.linked with
  | false =>
    rw [hd.edited r hr hl]
    exact .inr rfl
  | true =>
    obtain ⟨g, hg, -⟩ := updated_of_steady hrun hp hs hb hd.usesGroups
    rw [h] at hg
    -- No range has moved, so those that were written read the same before.
    have hplace : t.place g = t := Option.some.inj ((selected?_eq hg.running).symm.trans (selected?_eq hrun))
    have hranges : (t.ranges.map fun r => { r with range := g r }) = t.ranges.map id :=
      (congrArg (·.ranges) hplace).trans (List.map_id _).symm
    have hstay : g r = r.range := congrArg (·.range) (List.map_inj_left.mp hranges r hr)
    have hwritten := textRange_eq hb (hstay ▸ hg.written r hr hl)
    rw [String.ofList_toList, hd.reads r hr, hspelled] at hwritten
    cases isText with
    | true => exact .inl rfl
    | false => exact .inr (hspelled ▸ hwritten.symm)

end Session

namespace Scene

open Session (Valid Running Steady)

variable {x y z : Scene} {source : String} {options : InsertOptions}

theorem afterCommand_eq_self_iff (h : AtRest z) {t : Tabstop} (ht : z.1.session.selected? = some t) {isText : Bool}
    {spelled : String} (hd : t.Drafted z.2 isText spelled) :
    z.1.handle z.2 (.afterCommand false) = z ↔ t.Settled z.2 isText := by
  obtain ⟨i, b⟩ := z
  have hrun := Session.running_of_selected? h.steady.valid ht
  rw [SnippetInserter.handle_afterCommand hrun.active]
  constructor
  · intro he
    obtain ⟨hi, hb⟩ := Prod.mk.inj he
    exact Session.settled_of_updateLinked hrun h.steady h.sound hd (Prod.ext (congrArg (·.session) hi) hb)
  · intro hsettled
    rw [Session.updateLinked_of_settled hrun h.steady h.sound hd hsettled]

/-! ## Right after the insertion -/

/-- The tokens of a snippet as they are put into the buffer. -/
def template (x : Scene) (source : String) (options : InsertOptions) : List SnippetToken :=
  Expansion.prepare x.1.vars x.2.context options source

/-- Whether what a tabstop of a snippet holds is plain text. -/
def plainDefault (x : Scene) (source : String) (options : InsertOptions) (id : Nat) : Bool :=
  (Expansion.defaultOf (x.template source options) id).isText

/-- The ranges of a tabstop of a snippet stand in the order of the text, and each shows what the tabstop spells. -/
theorem shown_insert (h : AtRest x) (hd : options.dryRun = false)
    (hac : Expansion.Acyclic (x.template source options))
    (hactive : (x.insert source options).1.session.isActive = true) {t : Tabstop}
    (ht : t ∈ (x.insert source options).1.session.tabstops) (hkey : x.firstKey source options ≤ t.key) :
    (∃ g, Session.Tracking (x.heard source options).1.session.linkMirrors x.2.selection.toRange.start
      (x.firstKey source options) g t) ∧
    t.ranges.Pairwise (fun r r' => r.range.stop ≤ r'.range.start) ∧
    ∃ spelled : String, ∀ r ∈ t.ranges,
      r.range.Reads (x.insert source options).2.chars
        ((Expansion.defaultOf (x.template source options) t.id).shown (x.1.vars.transform x.2.context) r.transform
          spelled).toList ∧
      (r.transform = none ∨ ∃ u, .tabstop u ∈ x.template source options ∧ u.transform = r.transform) ∧
      (r.linked = false → r.transform = none) := by
  obtain ⟨m, n, hmn, hn, hrange, -, -, hrest, -, hchars⟩ := exists_heard h source options
  have hm := Nat.le_trans hmn hn
  have hinserted : (x.insert source options).2.chars = (x.heard source options).2.chars := by
    rw [insert_eq_begin x source hd]
    exact Buffer.chars_congr (SnippetInserter.lines_beginSession hrest.sound _ _)
  rcases tracking_insert h hd hactive ht with ⟨-, hold⟩ | ⟨g, hg, htracking⟩
  · omega
  · obtain ⟨spelled, hshown⟩ := Expansion.reads_shown x.1.vars x.2.context options source hac hg
    have hgroup := group_expandSnippet x.1.vars x.2.context options source hg
    rw [hrange] at htracking
    obtain ⟨b, nextKey, hranges⟩ := htracking.ranges
    refine ⟨⟨g, hrange ▸ htracking⟩, ?_, spelled, fun r' hr' => ?_⟩
    · rw [hranges]
      exact (Session.placed_trackRanges hm hgroup (x.2.chars.drop n) nextKey false).2
    · obtain ⟨r, hr, -, hrange', htransform, hlinked⟩ := htracking.exists_range hm hgroup.on hr'
      have hreads := TabstopRange.reads_offsetBy hm (hshown r hr).1 (x.2.chars.drop n)
      rw [← hchars, ← hinserted, ← hrange'] at hreads
      rw [htransform, htracking.id]
      exact ⟨hreads, (hshown r hr).2, fun hl => htransform ▸ hlinked hl⟩

theorem drafted_insert (h : AtRest x) (hd : options.dryRun = false)
    (hgroups : ∀ token ∈ x.template source options, token.usesGroups = true)
    (hac : Expansion.Acyclic (x.template source options))
    (hactive : (x.insert source options).1.session.isActive = true) {t : Tabstop}
    (ht : t ∈ (x.insert source options).1.session.tabstops) (hkey : x.firstKey source options ≤ t.key) :
    ∃ spelled, t.Drafted (x.insert source options).2 (x.plainDefault source options t.id) spelled := by
  have hsound := (h.insert source options).sound
  obtain ⟨-, -, spelled, hshown⟩ := shown_insert h hd hac hactive ht hkey
  have huses : ∀ r ∈ t.ranges, r.transform.all Transform.usesGroups = true := fun r hr => by
    obtain ⟨-, hnone | ⟨u, hu, he⟩, -⟩ := hshown r hr
    · rw [hnone]
      rfl
    · exact he ▸ hgroups _ hu
  refine ⟨spelled, huses, fun r hr => (hshown r hr).2.2, fun r hr => ?_⟩
  have htext : (x.insert source options).2.textRange r.range = _ := Session.textRange_eq hsound (hshown r hr).1
  rw [htext, String.ofList_toList, Default.shown_eq (huses r hr)]
  rfl

/-! ## Moves and commands -/

def Moves (y z : Scene) : Prop := ∃ step, z = y.move step

/-- A move, or a command at a tabstop with a key from `first` on. -/
inductive Visits (first : Nat) (y : Scene) : Scene → Prop
  | move (step : Int) : Visits first y (y.move step)
  | command {t : Tabstop} : y.1.session.selected? = some t → first ≤ t.key →
    Visits first y (y.1.handle y.2 (.afterCommand false))

/-- Moves change neither the text nor the tabstops. -/
theorem moved (h : AtRest y) (hz : Relation.ReflTransGen Moves y z) :
    AtRest z ∧ z.2.lines = y.2.lines ∧ (z.1.session.isActive = true → y.1.session.isActive = true ∧
      z.1.session.tabstops = y.1.session.tabstops) := by
  induction hz with
  | refl => exact ⟨h, rfl, fun ha => ⟨ha, rfl⟩⟩
  | @tail z _ _ hstep ih =>
    obtain ⟨step, rfl⟩ := hstep
    obtain ⟨hrest, hlines, htabstops⟩ := ih
    refine ⟨SnippetInserter.atRest_move hrest step, ?_, fun ha => ?_⟩
    · exact (Session.sound_tabNext hrest.sound step).2.trans hlines
    · obtain ⟨hbefore, hmove⟩ := tabstops_move ha
      obtain ⟨hactive, hsame⟩ := htabstops hbefore
      exact ⟨hactive, hmove.trans hsame⟩

section
variable (h : AtRest x) (hd : options.dryRun = false)
  (hgroups : ∀ token ∈ x.template source options, token.usesGroups = true)
  (hac : Expansion.Acyclic (x.template source options))
include h hd hgroups hac

theorem afterCommand_moved (hz : Relation.ReflTransGen Moves (x.insert source options) z) {t : Tabstop}
    (ht : z.1.session.selected? = some t) (hkey : x.firstKey source options ≤ t.key) :
    z.1.handle z.2 (.afterCommand false) = z ↔
      t.Settled (x.insert source options).2 (x.plainDefault source options t.id) := by
  have hinsert : AtRest (x.insert source options) := h.insert source options
  obtain ⟨hrest, hlines, htabstops⟩ := moved hinsert hz
  have hrun := Session.running_of_selected? hrest.steady.valid ht
  obtain ⟨hactive, hsame⟩ := htabstops hrun.active
  obtain ⟨spelled, hdraft⟩ := drafted_insert h hd hgroups hac hactive (hsame ▸ Session.mem_tabstops hrun) hkey
  have hread := Buffer.textRange_congr hlines
  have hdraft' : t.Drafted z.2 (x.plainDefault source options t.id) spelled :=
    ⟨hdraft.usesGroups, hdraft.edited, fun r hr => (hread r.range).trans (hdraft.reads r hr)⟩
  rw [afterCommand_eq_self_iff hrest ht hdraft']
  simp only [Tabstop.Settled, hread]

/-- As long as no command changes anything, moves and commands lead where the moves alone do. -/
theorem moves_of_visits {first : Nat} (hfirst : first = x.firstKey source options)
    (hsettled : ∀ t ∈ (x.insert source options).1.session.tabstops, first ≤ t.key →
      t.Settled (x.insert source options).2 (x.plainDefault source options t.id))
    (hz : Relation.ReflTransGen (Visits first) (x.insert source options) z) :
    Relation.ReflTransGen Moves (x.insert source options) z := by
  induction hz with
  | refl => exact .refl
  | tail _ hstep ih =>
    cases hstep with
    | move step => exact ih.tail ⟨step, rfl⟩
    | command ht hkey =>
      obtain ⟨hrest, -, htabstops⟩ := moved (h.insert source options) ih
      have hrun := Session.running_of_selected? hrest.steady.valid ht
      have hmem := (htabstops hrun.active).2 ▸ Session.mem_tabstops hrun
      rwa [(afterCommand_moved h hd hgroups hac ih ht (hfirst ▸ hkey)).mpr (hsettled _ hmem hkey)]

end

/-- Wherever moves lead to in a snippet that has just been inserted, a command changes nothing exactly if the tabstop
that is selected has plain text as its default or transforms that leave its text as it is. If all of them are like that,
no command changes the text. -/
theorem settled_iff_of_insert {x₀ x : Scene} (hx : Initial x₀) (hb : x₀.2.Sound) (hruns : Runs Buffer.Edits x₀ x)
    {source : String} {options : InsertOptions} (hd : options.dryRun = false)
    (hgroups : ∀ token ∈ x.template source options, token.usesGroups = true)
    (hac : Expansion.Acyclic (x.template source options)) :
    let y := x.insert source options
    let first := x.firstKey source options
    (y.1.session.isActive = true → ∀ t ∈ y.1.session.tabstops, first ≤ t.key →
      ∃ spelled, t.Drafted y.2 (x.plainDefault source options t.id) spelled) ∧
    (∀ z, Relation.ReflTransGen Moves y z → z.2.text = y.2.text ∧
      ∀ t, z.1.session.selected? = some t → first ≤ t.key →
        (z.1.handle z.2 (.afterCommand false) = z ↔ t.Settled y.2 (x.plainDefault source options t.id))) ∧
    ((∀ t ∈ y.1.session.tabstops, first ≤ t.key → t.Settled y.2 (x.plainDefault source options t.id)) →
      ∀ z, Relation.ReflTransGen (Visits first) y z → z.2.text = y.2.text) := by
  intro y first
  have h := atRest_of_runs hx hb hruns
  have htext : ∀ z, Relation.ReflTransGen Moves y z → z.2.text = y.2.text := fun z hz => by
    rw [Buffer.text, (moved (h.insert source options) hz).2.1]
    rfl
  refine ⟨fun hactive t ht hkey => drafted_insert h hd hgroups hac hactive ht hkey, fun z hz => ⟨htext z hz, ?_⟩, ?_⟩
  · exact fun t ht hkey => afterCommand_moved h hd hgroups hac hz ht hkey
  · exact fun hsettled z hz => htext z (moves_of_visits h hd hgroups hac rfl hsettled hz)

/-- The one default is plain text, and the other one has a tabstop in it but no character that its transform matches. -/
theorem settled_iff_of_insert_transformed :
    let x : Scene := (SnippetInserter.create { clock := ⟨2024, 3, 5, 7, 8, 9⟩ }, .ofText "")
    let source := "$\x7b1:foo\x7d $\x7b1/o/0/\x7d $\x7b2:a$3\x7d $\x7b2/b/x/\x7d"
    (x.insert source {}).2.text = "foo f0o a a" ∧
      ∀ z, Relation.ReflTransGen (Visits (x.firstKey source {})) (x.insert source {}) z → z.2.text = "foo f0o a a" := by
  intro x source
  have hx : Initial x := ⟨⟨_, _, rfl⟩, rfl, rfl⟩
  have hb : x.2.Sound := Buffer.sound_ofText ""
  have hd : ({} : InsertOptions).dryRun = false := rfl
  have hgroups : ∀ token ∈ x.template source {}, token.usesGroups = true := by decide +kernel
  have hac : Expansion.Acyclic (x.template source {}) := Expansion.acyclic_of_lt (by decide +kernel)
  have hsettled : ∀ t ∈ (x.insert source {}).1.session.tabstops, x.firstKey source {} ≤ t.key →
      t.Settled (x.insert source {}).2 (x.plainDefault source {} t.id) := by decide +kernel
  have htext : (x.insert source {}).2.text = "foo f0o a a" := by decide +kernel
  obtain ⟨-, -, hvisits⟩ := settled_iff_of_insert hx hb .refl hd hgroups hac
  exact ⟨htext, fun z hz => (hvisits hsettled z hz).trans htext⟩

/-- A default with a tabstop in it is copied to an occurrence as it is, whatever the transform. -/
theorem nested_default_unsettled :
    let x : Scene := (SnippetInserter.create { clock := ⟨2024, 3, 5, 7, 8, 9⟩ }, .ofText "")
    let source := "$\x7b1:a$2b\x7d $\x7b1/a/x/\x7d"
    let y := x.insert source {}
    Initial x ∧ x.2.Sound ∧ (∀ token ∈ x.template source {}, token.usesGroups = true) ∧
      Expansion.Acyclic (x.template source {}) ∧ y.2.text = "ab ab" ∧
      (y.1.handle y.2 (.afterCommand false)).2.text = "ab xb" := by
  intro x source y
  have hac : Expansion.Acyclic (x.template source {}) := Expansion.acyclic_of_lt (by decide +kernel)
  refine ⟨⟨⟨_, _, rfl⟩, rfl, rfl⟩, Buffer.sound_ofText "", ?_, hac, ?_, ?_⟩
  · decide +kernel
  · decide +kernel
  · decide +kernel

end Scene

end Scribe
