import Scribe.Proofs.Session.Overlap
import Scribe.Proofs.Session.Rest
import Scribe.Proofs.Snippet.Formats

/-!
# After a command

After a command the linked ranges of the selected tabstop are written from its primary range. Nothing but the linked
ranges changes, unless one of them overlaps with the primary range.
-/

namespace Scribe

/-- What an occurrence derives from the text of the primary one, with a transform that uses only groups. -/
def Transform.derived (source : String) : Option Transform → String
  | some t => t.apply (fun _ => "") source
  | none => source

namespace Session

open Transform (derived)

/-- The linked range `r` is apart from the primary range `p`, or reads already what it derives from it. -/
def Clear (b : Buffer) (p r : TrackedRange) : Prop :=
  r.range.Apart p.range ∨ b.textRange r.range = derived (b.textRange p.range) r.transform

variable {s : Session} {b : Buffer} {t : Tabstop}

theorem mirrored_eq (s : Session) (ctx : EditContext) (source : String) {transform : Option Transform}
    (h : transform.all Transform.usesGroups = true) : s.mirrored ctx source transform = derived source transform := by
  cases transform with
  | none => rfl
  | some t => exact Transform.apply_eq h _ _ source

section
variable {p : TrackedRange} (hrun : Running s b t) (hp : t.primary? = some p) (hs : Steady s b b.chars) (hb : b.Sound)
  (hgroups : ∀ r ∈ t.ranges, r.transform.all Transform.usesGroups = true)
include hrun hp hs hb hgroups

/-- Writing the linked ranges leaves what the primary range reads as it is, if it reads nothing or all of them are
clear of it. If there is only one, it does so only then. -/
theorem updated_of_steady : ∃ g, Updated s b t p (derived (b.textRange p.range))
    (∀ r ∈ t.ranges, r.linked = true → Clear b p r) (s.updateLinked b).1 (s.updateLinked b).2 g ∧
    (b.textRange p.range = "" → (s.updateLinked b).2.textRange (g p) = "") ∧
    ∀ r, t.ranges.filter (·.linked) = [r] → (s.updateLinked b).2.textRange (g p) = b.textRange p.range →
      b.textRange p.range = "" ∨ Clear b p r := by
  have hreads : ∀ r ∈ t.ranges, r.range.Reads b.chars (b.textRange r.range).toList := fun r hr =>
    reads_textRange hb (hs.placed.on r (hrun.range_mem hr))
  have hpm := (Tabstop.mem_of_primary? hp).1
  have hap : (∀ r ∈ t.ranges, r.linked = true → Clear b p r) → ∀ r ∈ t.ranges, r.linked = true →
      r.range.Apart p.range ∨ r.range.Reads b.chars (derived (b.textRange p.range) r.transform).toList := by
    intro hclear r hr hl
    rcases hclear r hr hl with hap | he
    · exact .inl hap
    · rw [← he]
      exact .inr (hreads r hr)
  have hnil : b.textRange p.range = "" → EmptyPrimary s b.chars := by
    intro he
    have hnil := hreads p hpm
    rw [he] at hnil
    exact emptyPrimary hrun hp hnil
  have hover : ∀ r, t.ranges.filter (·.linked) = [r] → b.textRange p.range ≠ "" → ¬ r.range.Apart p.range →
      StruckPrimary (b.textRange p.range).toList (b.textRange r.range).toList s b.chars := by
    intro r hr hne hover
    have hrm := (List.mem_filter.mp (hr ▸ List.mem_singleton_self r)).1
    refine struckPrimary hrun hp hr (Range.struck_of_not_apart (hreads p hpm) (hreads r hrm) ?_ hover)
    exact fun he => hne (String.toList_eq_nil_iff.mp he)
  obtain ⟨g, hg, hempty, hstruck⟩ := updated_updateLinked
    (I := fun s text => (b.textRange p.range = "" → EmptyPrimary s text) ∧
      ∀ r, t.ranges.filter (·.linked) = [r] → b.textRange p.range ≠ "" → ¬ r.range.Apart p.range →
        StruckPrimary (b.textRange p.range).toList (b.textRange r.range).toList s text)
    hrun hs.inChange hb hp hs.writing hs.placed
    (fun _ hx hl hlv hstep _ hi => ⟨fun he => (hi.1 he).rewrite hlv hx hl hstep,
      fun r hr hne hover => (hi.2 r hr hne hover).rewrite hlv hx hl hstep⟩)
    (fun inChange writing hi => ⟨fun he => (hi.1 he).set inChange writing,
      fun r hr hne hover => (hi.2 r hr hne hover).set inChange writing⟩)
    (fun ctx r hr _ => mirrored_eq s ctx (b.textRange p.range) (hgroups r hr)) hap ⟨hnil, hover⟩
  refine ⟨g, hg, fun he => ?_, fun r hr hsame => ?_⟩
  · exact textRange_eq hg.sound (hempty he _ _ _ hg.running (Tabstop.primary?_place_of hp))
  · obtain ⟨hrm, hl⟩ := List.mem_filter.mp (hr ▸ List.mem_singleton_self r)
    by_contra hnot
    rw [Clear, not_or, not_or] at hnot
    obtain ⟨hne, hover, hother⟩ := hnot
    have hon := hg.placed.on _ (hg.running.range_mem (Tabstop.mem_place_of_mem hpm))
    refine (hstruck r hr hne hover).ne hg.running hp hr (hg.written r hrm hl) (fun he => hother ?_)
      (reads_textRange hg.sound hon) (by rw [← hsame])
    exact (String.toList_inj.mp he).symm

end

end Session

namespace Scene

open Session (Running)
open Transform (derived)

/-- After a command the linked ranges read what they derive from the primary range, and the text outside of them is
the same. What the primary range reads is the same too if it reads nothing or all linked ranges are clear of it; with
one linked range it is so only then. As long as it is the same, the next command changes nothing. -/
theorem afterCommand_of_runs {x y : Scene} (hx : Initial x) (hb : x.2.Sound) (h : Runs Buffer.Edits x y) {t : Tabstop}
    (ht : y.1.session.selected? = some t)
    (hgroups : ∀ r ∈ t.ranges, r.transform.all Transform.usesGroups = true) :
    let z := y.1.handle y.2 (.afterCommand false)
    (t.primary? = none → z = y) ∧ ∀ p, t.primary? = some p →
      let source := y.2.textRange p.range
      ∃ g : TrackedRange → Range, z.1.session.selected? = some (t.place g) ∧
        outside z.2.chars (t.place g).linkedRanges = outside y.2.chars t.linkedRanges ∧
        (∀ r ∈ t.ranges, r.linked = true → z.2.textRange (g r) = derived source r.transform) ∧
        (z.2.textRange (g p) = source → z.1.handle z.2 (.afterCommand false) = z) ∧
        (source = "" ∨ (∀ r ∈ t.ranges, r.linked = true → Session.Clear y.2 p r) → z.2.textRange (g p) = source) ∧
        ∀ r, t.ranges.filter (·.linked) = [r] → z.2.textRange (g p) = source →
          source = "" ∨ Session.Clear y.2 p r := by
  obtain ⟨hs, hsound⟩ := atRest_of_runs hx hb h
  have hrun := Session.running_of_selected? hs.valid ht
  obtain ⟨i, b⟩ := y
  dsimp only at hs hsound hrun ⊢
  rw [SnippetInserter.handle_afterCommand hrun.active]
  refine ⟨fun hp => ?_, fun p hp => ?_⟩
  · rw [Session.updateLinked_of_no_primary hrun hp]
  · obtain ⟨g, hg, hempty, honly⟩ := Session.updated_of_steady hrun hp hs hsound hgroups
    refine ⟨g, Session.selected?_eq hg.running, hg.outside, fun r hr hl => ?_, fun hsource => ?_, fun hclear => ?_,
      honly⟩
    · rw [Session.textRange_eq hg.sound (hg.written r hr hl), String.ofList_toList]
    · -- The linked ranges read already what they shall read.
      have hinChange : (i.session.updateLinked b).1.inChange = false := by
        obtain ⟨tabstops, index, he⟩ := hg.session
        rw [he]
        exact hs.inChange
      have hagain := Session.updateLinked_of_reads hg.running hinChange hg.sound (Tabstop.primary?_place_of hp)
        fun r' hr' hl => by
          obtain ⟨r, hr, rfl⟩ := Tabstop.mem_place.mp hr'
          rw [hsource, Session.mirrored_eq _ _ _ (hgroups r hr)]
          exact hg.written r hr hl
      rw [SnippetInserter.handle_afterCommand hg.running.active]
      dsimp only
      rw [hagain]
    · rcases hclear with he | hclear
      · rw [he]
        exact hempty he
      · rw [Session.textRange_eq hg.sound (hg.primary hclear), String.ofList_toList]

/-- A text is typed at the end of a tabstop with a transformed occurrence behind it. -/
theorem afterCommand_of_runs_behind :
    let x : Scene := (SnippetInserter.create { clock := ⟨2024, 3, 5, 7, 8, 9⟩ }, .ofText "")
    let y := x.insertAndTypeAt "${1:foo} ${1/o/0/}" ⟨0, 3⟩ "l"
    let z := y.1.handle y.2 (.afterCommand false)
    ∃ t p, y.1.session.selected? = some t ∧ t.primary? = some p ∧ y.2.textRange p.range = "fool" ∧
      ∃ g : TrackedRange → Range, z.1.session.selected? = some (t.place g) ∧ z.2.textRange (g p) = "fool" ∧
        ∀ r ∈ t.ranges, r.linked = true → z.2.textRange (g r) = derived "fool" r.transform := by
  intro x y z
  have hx : Initial x := ⟨⟨_, _, rfl⟩, rfl, rfl⟩
  have hb : x.2.Sound := Buffer.sound_ofText ""
  have hruns := runs_insertAndTypeAt (atRest_of_initial hx hb) "${1:foo} ${1/o/0/}" ⟨0, 3⟩ "l"
  obtain ⟨t, ht⟩ := Option.isSome_iff_exists.mp (show y.1.session.selected?.isSome = true by decide +kernel)
  have hall : ∀ t ∈ y.1.session.selected?, (∀ r ∈ t.ranges, r.transform.all Transform.usesGroups = true) ∧
      ∃ p ∈ t.primary?, y.2.textRange p.range = "fool" ∧
        ∀ r ∈ t.ranges, r.linked = true → p.range.stop ≤ r.range.start := by decide +kernel
  obtain ⟨hgroups, p, hp, hsource, hbehind⟩ := hall t ht
  obtain ⟨g, ht', -, hwritten, -, hsame, -⟩ := (afterCommand_of_runs hx hb hruns ht hgroups).2 p hp
  have hprimary := hsame (.inr fun r hr hl => .inl (.inr (hbehind r hr hl)))
  rw [hsource] at hprimary hwritten
  exact ⟨t, p, ht, hp, hsource, g, ht', hprimary, hwritten⟩

/-- An empty linked range at the start of the primary range is passed over by a text that is typed there, and stands
in the primary range then. What is written into it is read again with the next command. -/
theorem afterCommand_feeds_primary :
    let x : Scene := (SnippetInserter.create { clock := ⟨2024, 3, 5, 7, 8, 9⟩ }, .ofText "")
    let y := x.insertAndTypeAt "${1/foo//}${1:foo}" ⟨0, 0⟩ "z"
    let z := y.1.handle y.2 (.afterCommand false)
    let source := fun x : Scene => (x.1.session.selected?.bind (·.primary?)).map fun p => x.2.textRange p.range
    Initial x ∧ x.2.Sound ∧ Runs Buffer.Edits x y ∧
      (∀ t ∈ y.1.session.selected?, ∀ r ∈ t.ranges, r.transform.all Transform.usesGroups = true) ∧
      source y = some "zfoo" ∧ source z = some "zzfoo" ∧ (z.1.handle z.2 (.afterCommand false)).2.text = "zzzfoo" := by
  intro x y z source
  have hx : Initial x := ⟨⟨_, _, rfl⟩, rfl, rfl⟩
  have hb : x.2.Sound := Buffer.sound_ofText ""
  refine ⟨hx, hb, runs_insertAndTypeAt (atRest_of_initial hx hb) _ _ _, ?_, ?_, ?_, ?_⟩
  · decide +kernel
  · decide +kernel
  · decide +kernel
  · decide +kernel

end Scene

end Scribe
