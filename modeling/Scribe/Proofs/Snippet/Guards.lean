import Scribe.Proofs.Snippet.Apart
import Scribe.Proofs.Snippet.Literals

/-!
# Guards beside triggers

The guarded pattern says whether a snippet applies, the pattern of the trigger alone what it replaces. Where the two are
read apart, the snippet applies if some piece at the cursor is matched by the trigger and has what the guard matches
right beside it. What is replaced is another piece: the longest one that the trigger matches before the cursor, and the
one that the end trigger matches first behind it. These are guarded as well unless the trigger can match the guard's
part too.
-/

namespace Scribe

/-! ## Pieces at the cursor -/

/-- The trigger matches the piece at the end of the text, and the guard something that reaches up to it. -/
def GuardedBefore (guard trigger : Pattern) (text : String) (piece : List Char) : Prop :=
  ∃ front guarded, text.toList = front ++ guarded ++ piece ∧
    guard.Takes (.whole text) front.length (front ++ guarded).length ∧
    trigger.Takes (.whole text) (front ++ guarded).length text.toList.length

/-- The trigger matches the piece at the start of the text, and the guard something that begins behind it. -/
def GuardedBehind (trigger guard : Pattern) (text : String) (piece : List Char) : Prop :=
  ∃ guarded rest, text.toList = piece ++ guarded ++ rest ∧ trigger.Takes (.whole text) 0 piece.length ∧
    guard.Takes (.whole text) piece.length (piece ++ guarded).length

/-- The longest piece at the end of the text that the trigger matches. -/
def LongestBefore (trigger : Pattern) (text : String) (piece : List Char) : Prop :=
  ∃ front, text.toList = front ++ piece ∧ trigger.Takes (.whole text) front.length text.toList.length ∧
    ∀ place < front.length, ¬trigger.Takes (.whole text) place text.toList.length

/-- The piece at the start of the text that the trigger tries first. -/
def FirstBehind (trigger : Pattern) (text : String) (piece : List Char) : Prop :=
  ∃ rest r, text.toList = piece ++ rest ∧ trigger.matchAt (.whole text) 0 = some r ∧ r.pos = piece.length

section
variable {p q : Pattern} {text : String} {piece piece' : List Char}

theorem size_chars (text : String) : (Text.chars text).size = text.toList.length := List.size_toArray

theorem exists_guardedBefore : (∃ piece, GuardedBefore p q text piece) ↔ ∃ start ≤ text.toList.length, ∃ place,
    p.Takes (.whole text) start place ∧ q.Takes (.whole text) place text.toList.length := by
  constructor
  · rintro ⟨piece, front, guarded, htext, hp, hq⟩
    exact ⟨front.length, by rw [htext]; simp, (front ++ guarded).length, hp, hq⟩
  · rintro ⟨start, hstart, place, hp, hq⟩
    obtain ⟨hle, hplace⟩ := hp.le ((size_chars text).symm ▸ hstart)
    rw [size_chars] at hplace
    have hsplit := Text.take_append_between text.toList hle
    refine ⟨text.toList.drop place, text.toList.take start, (text.toList.take place).drop start, ?_, ?_, ?_⟩
    · rw [hsplit, List.take_append_drop]
    · rwa [hsplit, List.length_take_of_le hstart, List.length_take_of_le hplace]
    · rwa [hsplit, List.length_take_of_le hplace]

theorem exists_guardedBehind : (∃ piece, GuardedBehind q p text piece) ↔ ∃ stop place,
    q.Takes (.whole text) 0 place ∧ p.Takes (.whole text) place stop := by
  constructor
  · rintro ⟨piece, guarded, rest, htext, hq, hp⟩
    exact ⟨_, _, hq, hp⟩
  · rintro ⟨stop, place, hq, hp⟩
    have hplace := (hq.le (Nat.zero_le _)).2
    obtain ⟨hle, hstop⟩ := hp.le hplace
    rw [size_chars] at hplace hstop
    have hsplit := Text.take_append_between text.toList hle
    refine ⟨text.toList.take place, (text.toList.take stop).drop place, text.toList.drop stop, ?_, ?_, ?_⟩
    · rw [hsplit, List.take_append_drop]
    · rwa [List.length_take_of_le hplace]
    · rwa [hsplit, List.length_take_of_le hplace, List.length_take_of_le hstop]

theorem LongestBefore.unique (h : LongestBefore q text piece) (h' : LongestBefore q text piece') : piece = piece' := by
  obtain ⟨front, htext, hq, hfirst⟩ := h
  obtain ⟨front', htext', hq', hfirst'⟩ := h'
  have hlength : front.length = front'.length :=
    Nat.le_antisymm (Nat.le_of_not_lt fun hlt => hfirst _ hlt hq') (Nat.le_of_not_lt fun hlt => hfirst' _ hlt hq)
  exact (List.append_inj (htext.symm.trans htext') hlength).2

theorem FirstBehind.unique (h : FirstBehind q text piece) (h' : FirstBehind q text piece') : piece = piece' := by
  obtain ⟨rest, r, htext, hr, hpos⟩ := h
  obtain ⟨rest', r', htext', hr', hpos'⟩ := h'
  cases hr.symm.trans hr'
  exact (List.append_inj (htext.symm.trans htext') (hpos.symm.trans hpos')).1

/-- A trigger that matches one piece at most has a guarded one only if this is. -/
theorem LongestBefore.guarded (h : LongestBefore q text piece) (h' : GuardedBefore p q text piece')
    (hone : ∀ start start', q.Takes (.whole text) start text.toList.length →
      q.Takes (.whole text) start' text.toList.length → start = start') : GuardedBefore p q text piece := by
  obtain ⟨front, htext, hq, -⟩ := h
  obtain ⟨front', guarded, htext', hguard, hq'⟩ := id h'
  rwa [(List.append_inj (htext.symm.trans htext') (hone _ _ hq hq')).2]

theorem FirstBehind.guarded (h : FirstBehind q text piece) (h' : GuardedBehind q p text piece')
    (hone : ∀ stop stop', q.Takes (.whole text) 0 stop → q.Takes (.whole text) 0 stop' → stop = stop') :
    GuardedBehind q p text piece := by
  obtain ⟨rest, r, htext, hr, hpos⟩ := h
  obtain ⟨guarded, rest', htext', hq', hguard⟩ := id h'
  have hlength := hone _ _ (hpos ▸ Pattern.takes_of_matchAt hr) hq'
  rw [List.append_assoc] at htext'
  rwa [(List.append_inj (htext.symm.trans htext') hlength).1]

end

/-! ## Around the cursor -/

namespace Trigger

open Pattern (Progress stopIf)

section
variable {name : String} {trigger guard : List Char} {p q : Pattern} {o : Option Pattern} {text : String}

theorem isSome_captures? {r : Pattern} : (captures? (some r) text).isSome = true ↔
    ∃ place ≤ text.toList.length, (r.matchAt (.whole text) place).isSome = true := by
  simp only [captures?, Pattern.captures?, Option.isSome_map, Pattern.isSome_find?_iff, Nat.zero_le, true_and,
    size_chars]

theorem takes_iff_of_compile_nil (hp : Pattern.compile (String.ofList []) = .ok p) {start stop : Nat} :
    p.Takes (.whole text) start stop ↔ start = stop := by
  cases compile_nil.symm.trans hp
  exact Pattern.isSome_stopIf

theorem eq_some_of_compile? {source : List Char} {r : Pattern} (ho : compile? name source = .ok o) (hne : source ≠ [])
    (hr : Pattern.compile (String.ofList source) = .ok r) : o = some r := by
  rcases compile?_cases ho with ⟨hnil, -⟩ | ⟨r', hr', rfl⟩
  · exact absurd hnil hne
  · cases hr.symm.trans hr'
    rfl

/-- Without a `keep` a match is reported from where it begins. -/
theorem reaches_of_run {t : Tree} (hkeep : t.hasKeep = false) {s r : Progress} {k : Pattern.After}
    (hs : s.pos ≤ text.toList.length) (h : Pattern.run (.whole text) t s k = some r) :
    ∃ u, k u = some r ∧ u.start = s.start ∧ s.pos ≤ u.pos ∧ u.pos ≤ text.toList.length := by
  obtain ⟨u, hu, hk⟩ := Pattern.run_advances (.whole text) t (fun _ : True => hkeep) False.elim s k r
    ((size_chars text).symm ▸ hs) h
  exact ⟨u, hk, hu.start trivial, hu.forward, size_chars text ▸ hu.inside⟩

/-- A pattern that takes what the trigger does, up to the end of the text, finds the longest piece. -/
theorem longestBefore_of_matchAt {r : Pattern}
    (htakes : ∀ place, (r.matchAt (.whole text) place).isSome = true ↔ q.Takes (.whole text) place text.toList.length)
    (hwhole : ∀ place v, place ≤ text.toList.length → r.matchAt (.whole text) place = some v →
      v.report.whole = ⟨place, text.toList.length⟩)
    (hexists : ∃ place ≤ text.toList.length, q.Takes (.whole text) place text.toList.length) :
    LongestBefore q text (matched (some r) text).toList := by
  obtain ⟨m, hm⟩ : ∃ m, r.find? (Text.chars text) 0 = some m := by
    obtain ⟨place, hle, htake⟩ := hexists
    refine Option.isSome_iff_exists.mp (Pattern.isSome_find?_iff.mpr ⟨place, Nat.zero_le _, ?_, (htakes place).mpr htake⟩)
    exact (size_chars text).symm ▸ hle
  obtain ⟨place, v, -, hle, hv, hfirst, rfl⟩ := Pattern.find?_eq_some_iff.mp hm
  rw [size_chars] at hle
  have hfront : (text.toList.take place).length = place := List.length_take_of_le hle
  rw [matched_of_find? hm, hwhole place v hle hv, List.take_length]
  refine ⟨text.toList.take place, (List.take_append_drop _ _).symm, ?_, fun i hlt htake => ?_⟩
  · rw [hfront, ← htakes, hv]
    rfl
  · have hnone := hfirst i (Nat.zero_le _) (hfront ▸ hlt)
    have hsome := (htakes i).mpr htake
    rw [hnone] at hsome
    cases hsome

variable (hline : '\n' ∉ text.toList)
include hline

theorem isSome_opening (h : readsBeside guard (withoutEnd trigger) = true)
    (hp : Pattern.compile (String.ofList guard) = .ok p) (hq : Pattern.compile (String.ofList trigger) = .ok q)
    (ho : compile? name (openingSource trigger guard) = .ok o) :
    (captures? o text).isSome = true ↔ ∃ piece, GuardedBefore p q text piece := by
  obtain ⟨hguard, htrigger⟩ := Bool.and_eq_true_iff.mp (Bool.and_eq_true_iff.mp h).1
  obtain ⟨q', hq', htakes⟩ := exists_withoutEnd htrigger hq
  rw [exists_guardedBefore]
  rcases openingSource_eq hguard htrigger with ⟨rfl, rfl, hs⟩ | hs
  · rw [hs] at ho
    cases ho
    exact iff_of_true rfl
      ⟨_, Nat.le_refl _, _, (takes_iff_of_compile_nil hp).mpr rfl, (takes_iff_of_compile_nil hq).mpr rfl⟩
  · obtain ⟨r, hr, hmatch⟩ := compile_beside_end h hp hq'
    obtain rfl := eq_some_of_compile? ho (by simp [hs]) (hs ▸ hr)
    rw [isSome_captures?]
    simp only [htakes text hline, hmatch text hline]

/-- Alone the trigger matches the longest piece that it can. -/
theorem longestBefore_matched (h : isUnit (withoutEnd trigger) = true)
    (hkeep : reportsWhole (withoutEnd trigger) = true)
    (hq : Pattern.compile (String.ofList trigger) = .ok q) (ho : compile? name (openingSource trigger []) = .ok o)
    (hexists : ∃ place ≤ text.toList.length, q.Takes (.whole text) place text.toList.length) :
    LongestBefore q text (matched o text).toList := by
  obtain ⟨q', hq', htakes⟩ := exists_withoutEnd h hq
  simp only [reportsWhole, hq', Except.toOption, Option.any_some, Bool.not_eq_true'] at hkeep
  rcases openingSource_eq (show isUnit [] = true from rfl) h with ⟨rfl, -, hs⟩ | hs
  · rw [hs] at ho
    cases ho
    exact ⟨text.toList, (List.append_nil _).symm, (takes_iff_of_compile_nil hq).mpr rfl, fun place hlt htake =>
      absurd ((takes_iff_of_compile_nil hq).mp htake) (Nat.ne_of_lt hlt)⟩
  · replace hs : openingSource trigger [] = wrap (withoutEnd trigger) ++ ['$'] := hs
    obtain ⟨r, hr, hmatch⟩ := compile_end h hq'
    obtain rfl := eq_some_of_compile? ho (by simp [hs]) (hs ▸ hr)
    refine longestBefore_of_matchAt (fun place => ?_) (fun place v hle hv => ?_) hexists
    · rw [(hmatch text hline place).1, htakes text hline]
      rfl
    · obtain ⟨u, hu, hstart, -, -⟩ := reaches_of_run (s := .fresh q'.groupCount place) hkeep hle
        ((hmatch text hline place).1.symm.trans hv)
      unfold stopIf at hu
      split at hu
      · rename_i hstop
        cases hu
        simp only [Progress.report, hstop, hstart, Progress.fresh, Nat.min_eq_left hle]
      · cases hu

/-- The end trigger and its guard match at the start of the text. -/
theorem isSome_closing (h : readsBeside (withoutStart trigger) (if trigger = [] then withoutStart guard else guard) = true)
    (hq : Pattern.compile (String.ofList trigger) = .ok q) (hp : Pattern.compile (String.ofList guard) = .ok p)
    (ho : compile? name (closingSource trigger guard) = .ok o) :
    (captures? o text).isSome = true ↔ ∃ piece, GuardedBehind q p text piece := by
  obtain ⟨htrigger, hguard⟩ := Bool.and_eq_true_iff.mp (Bool.and_eq_true_iff.mp h).1
  obtain ⟨q', hq', htakes⟩ := exists_withoutStart htrigger hq
  -- Behind an empty trigger the guard begins with the line.
  obtain ⟨p', hp', hbehind⟩ : ∃ p',
      Pattern.compile (String.ofList (if trigger = [] then withoutStart guard else guard)) = .ok p' ∧
        ∀ place stop, q.Takes (.whole text) 0 place →
          (p.Takes (.whole text) place stop ↔ p'.Takes (.whole text) place stop) := by
    split
    · rename_i hnil
      subst hnil
      obtain ⟨p', hp', hstart⟩ := exists_withoutStart (by simpa using hguard) hp
      refine ⟨p', hp', fun place stop hplace => ?_⟩
      obtain rfl := (takes_iff_of_compile_nil hq).mp hplace
      exact (hstart text hline).2 stop
    · exact ⟨p, hp, fun _ _ _ => .rfl⟩
  rw [exists_guardedBehind]
  rcases closingSource_eq trigger guard with ⟨rfl, rfl, hs⟩ | hs
  · rw [hs] at ho
    cases ho
    exact iff_of_true rfl ⟨0, 0, (takes_iff_of_compile_nil hq).mpr rfl, (takes_iff_of_compile_nil hp).mpr rfl⟩
  · obtain ⟨r, hr, hmatch⟩ := compile_beside_start h hq' hp'
    obtain rfl := eq_some_of_compile? ho (by simp [hs]) (hs ▸ hr)
    rw [isSome_captures?]
    simp only [hmatch text hline]
    constructor
    · rintro ⟨_, -, rfl, stop, place, hplace, hstop⟩
      have hplace := ((htakes text hline).2 place).mpr hplace
      exact ⟨stop, place, hplace, (hbehind place stop hplace).mpr hstop⟩
    · rintro ⟨stop, place, hplace, hstop⟩
      refine ⟨0, Nat.zero_le _, rfl, stop, place, ((htakes text hline).2 place).mp hplace, ?_⟩
      exact (hbehind place stop hplace).mp hstop

/-- Alone the end trigger matches what it tries first. -/
theorem firstBehind_matched (h : isUnit (withoutStart trigger) = true)
    (hkeep : reportsWhole (withoutStart trigger) = true)
    (hq : Pattern.compile (String.ofList trigger) = .ok q) (ho : compile? name (closingSource trigger []) = .ok o)
    (hexists : ∃ stop, q.Takes (.whole text) 0 stop) : FirstBehind q text (matched o text).toList := by
  obtain ⟨q', hq', htakes⟩ := exists_withoutStart h hq
  simp only [reportsWhole, hq', Except.toOption, Option.any_some, Bool.not_eq_true'] at hkeep
  obtain ⟨hsame, -⟩ := htakes text hline
  obtain ⟨v, hv⟩ : ∃ v, q.matchAt (.whole text) 0 = some v :=
    Option.isSome_iff_exists.mp ((Pattern.isSome_run_some _ _).mpr hexists)
  obtain ⟨u, hu, hstart, -, hle⟩ := reaches_of_run (s := .fresh q'.groupCount 0) hkeep (Nat.zero_le _) (hsame.symm.trans hv)
  cases hu
  have hpiece : (matched o text).toList = text.toList.take v.pos := by
    rcases closingSource_eq trigger [] with ⟨rfl, -, hs⟩ | hs
    · rw [hs] at ho
      cases ho
      cases compile_nil.symm.trans hq
      cases hv
      rfl
    · replace hs : closingSource trigger [] = '^' :: wrap (withoutStart trigger) := by
        rw [hs]
        split <;> exact congrArg _ (List.append_nil _)
      obtain ⟨r, hr, hmatch⟩ := compile_start h hq'
      obtain rfl := eq_some_of_compile? ho (by simp [hs]) (hs ▸ hr)
      have hfind : r.find? (Text.chars text) 0 = some v.report := by
        refine Pattern.find?_eq_some_iff.mpr ⟨0, v, Nat.le_refl _, Nat.zero_le _, ?_, fun i _ hlt => by omega, rfl⟩
        exact ((hmatch text hline).1 0).trans ((if_pos rfl).trans (hsame.symm.trans hv))
      rw [matched_of_find? hfind]
      have hwhole : v.report.whole = ⟨0, v.pos⟩ := by
        simp only [Progress.report, hstart, Progress.fresh, Nat.zero_min]
      rw [hwhole, List.drop_zero]
  rw [hpiece]
  exact ⟨text.toList.drop v.pos, v, (List.take_append_drop _ _).symm, hv, (List.length_take_of_le hle).symm⟩

end

end Trigger

/-- Guards and triggers are read apart on both sides of the cursor, and what a trigger matches is reported as a whole. -/
def SnippetDefinition.readsApart (d : SnippetDefinition) : Bool :=
  let field := fun f : Option String => (f.getD "").toList
  let trigger := Trigger.withoutEnd (field d.trigger)
  let endTrigger := Trigger.withoutStart (field d.endTrigger)
  let endGuard := if field d.endTrigger = [] then Trigger.withoutStart (field d.endGuard) else field d.endGuard
  Trigger.readsBeside (field d.guard) trigger && Trigger.readsBeside endTrigger endGuard &&
    Trigger.reportsWhole trigger && Trigger.reportsWhole endTrigger

/-- The patterns that a definition asks for, each by itself. -/
structure SnippetDefinition.Asks (d : SnippetDefinition) (guard trigger endTrigger endGuard : Pattern) : Prop where
  guard : Pattern.compile (d.guard.getD "") = .ok guard
  trigger : Pattern.compile (d.trigger.getD "") = .ok trigger
  endTrigger : Pattern.compile (d.endTrigger.getD "") = .ok endTrigger
  endGuard : Pattern.compile (d.endGuard.getD "") = .ok endGuard

namespace Snippet

section
variable {d : SnippetDefinition} {s : Snippet} {guard trigger endTrigger endGuard : Pattern} {before behind : String}

theorem isSome_matchAround? : (s.matchAround? before behind).isSome = true ↔ s.hasTrigger = true ∧
    (Trigger.captures? s.opening before).isSome = true ∧ (Trigger.captures? s.closing behind).isSome = true := by
  unfold matchAround?
  cases s.hasTrigger with
  | false => simp
  | true =>
    cases Trigger.captures? s.opening before with
    | none => simp
    | some _ => cases Trigger.captures? s.closing behind <;> simp

section
variable (hs : compile d = .ok s) (hread : s.definition.readsApart = true)
  (h : s.definition.Asks guard trigger endTrigger endGuard) (hbefore : '\n' ∉ before.toList)
  (hbehind : '\n' ∉ behind.toList)
include hs hread h hbefore hbehind

/-- The snippet applies where pieces at the cursor are guarded. -/
theorem isSome_matchAround?_iff : (s.matchAround? before behind).isSome = true ↔ s.hasTrigger = true ∧
    (∃ piece, GuardedBefore guard trigger before piece) ∧ ∃ piece, GuardedBehind endTrigger endGuard behind piece := by
  obtain ⟨name, hopening, -, hclosing, -⟩ := patterns_of_compile hs
  obtain ⟨⟨⟨hfront, hback⟩, -⟩, -⟩ : ((_ ∧ _) ∧ _) ∧ _ := by
    simpa only [SnippetDefinition.readsApart, Bool.and_eq_true] using hread
  rw [isSome_matchAround?]
  refine and_congr_right fun _ => and_congr ?_ ?_
  · exact Trigger.isSome_opening hbefore hfront (String.ofList_toList ▸ h.guard) (String.ofList_toList ▸ h.trigger) hopening
  · exact Trigger.isSome_closing hbehind hback (String.ofList_toList ▸ h.endTrigger) (String.ofList_toList ▸ h.endGuard)
      hclosing

/-- It replaces the longest piece before the cursor, and behind it the one that is tried first. -/
theorem replaced_of_matchAround? {m : TriggerMatch} (hm : s.matchAround? before behind = some m) :
    LongestBefore trigger before m.replaceBefore.toList ∧ FirstBehind endTrigger behind m.replaceAfter.toList := by
  obtain ⟨name, -, htrigger, -, hend⟩ := patterns_of_compile hs
  obtain ⟨⟨⟨hfront, hback⟩, hwhole⟩, hwhole'⟩ : ((_ ∧ _) ∧ _) ∧ _ := by
    simpa only [SnippetDefinition.readsApart, Bool.and_eq_true] using hread
  obtain ⟨-, hbefore', hbehind'⟩ :=
    (isSome_matchAround?_iff hs hread h hbefore hbehind).mp (Option.isSome_of_mem hm)
  obtain ⟨start, hle, place, hguard, htakes⟩ := exists_guardedBefore.mp hbefore'
  obtain ⟨stop, place', htakes', -⟩ := exists_guardedBehind.mp hbehind'
  obtain ⟨-, hreplaceBefore, hreplaceAfter⟩ := fields_of_matchAround? hm
  rw [hreplaceBefore, hreplaceAfter]
  refine ⟨Trigger.longestBefore_matched hbefore (Bool.and_eq_true_iff.mp (Bool.and_eq_true_iff.mp hfront).1).2 hwhole
    (String.ofList_toList ▸ h.trigger) htrigger ⟨place, ?_, htakes⟩, Trigger.firstBehind_matched hbehind
    (Bool.and_eq_true_iff.mp (Bool.and_eq_true_iff.mp hback).1).1 hwhole' (String.ofList_toList ▸ h.endTrigger) hend
    ⟨place', htakes'⟩⟩
  rw [← size_chars]
  exact (hguard.le (by rwa [size_chars])).2

end

/-- Guards are looked at and left alone. A snippet whose patterns are read apart applies where pieces at the cursor are
guarded; it replaces the longest one that the trigger matches before the cursor, and behind the cursor the one that the end
trigger matches first. What it replaces is guarded if and only if these pieces are, wherever some pieces are. -/
theorem matchAround?_guards_iff (hs : compile d = .ok s) (hread : s.definition.readsApart = true)
    (h : s.definition.Asks guard trigger endTrigger endGuard) :
    (∀ before behind, '\n' ∉ before.toList → '\n' ∉ behind.toList →
      ((s.matchAround? before behind).isSome = true ↔ s.hasTrigger = true ∧
        (∃ piece, GuardedBefore guard trigger before piece) ∧ ∃ piece, GuardedBehind endTrigger endGuard behind piece) ∧
      ∀ m, s.matchAround? before behind = some m →
        LongestBefore trigger before m.replaceBefore.toList ∧ FirstBehind endTrigger behind m.replaceAfter.toList) ∧
    ((∀ before behind, '\n' ∉ before.toList → '\n' ∉ behind.toList → ∀ m, s.matchAround? before behind = some m →
        GuardedBefore guard trigger before m.replaceBefore.toList ∧
          GuardedBehind endTrigger endGuard behind m.replaceAfter.toList) ↔
      ∀ before behind, '\n' ∉ before.toList → '\n' ∉ behind.toList → s.hasTrigger = true →
        (∃ piece, GuardedBefore guard trigger before piece) → (∃ piece, GuardedBehind endTrigger endGuard behind piece) →
        (∀ piece, LongestBefore trigger before piece → GuardedBefore guard trigger before piece) ∧
          ∀ piece, FirstBehind endTrigger behind piece → GuardedBehind endTrigger endGuard behind piece) := by
  refine ⟨fun before behind hbefore hbehind => ⟨isSome_matchAround?_iff hs hread h hbefore hbehind, fun m hm =>
    replaced_of_matchAround? hs hread h hbefore hbehind hm⟩,
    fun hguarded before behind hbefore hbehind hhas hfront hback => ?_,
    fun hpieces before behind hbefore hbehind m hm => ?_⟩
  · obtain ⟨m, hm⟩ := Option.isSome_iff_exists.mp
      ((isSome_matchAround?_iff hs hread h hbefore hbehind).mpr ⟨hhas, hfront, hback⟩)
    obtain ⟨hlongest, hfirst⟩ := replaced_of_matchAround? hs hread h hbefore hbehind hm
    obtain ⟨hguardedBefore, hguardedBehind⟩ := hguarded before behind hbefore hbehind m hm
    exact ⟨fun piece hpiece => hlongest.unique hpiece ▸ hguardedBefore,
      fun piece hpiece => hfirst.unique hpiece ▸ hguardedBehind⟩
  · obtain ⟨hhas, hfront, hback⟩ := (isSome_matchAround?_iff hs hread h hbefore hbehind).mp (Option.isSome_of_mem hm)
    obtain ⟨hlongest, hfirst⟩ := replaced_of_matchAround? hs hread h hbefore hbehind hm
    obtain ⟨hbeforeAll, hbehindAll⟩ := hpieces before behind hbefore hbehind hhas hfront hback
    exact ⟨hbeforeAll _ hlongest, hbehindAll _ hfirst⟩

end

theorem stop_of_literal {source : String} {text : List Char} {count : Nat} {input : Pattern.Input} {start stop : Nat}
    (h : Pattern.Takes ⟨source, .literal text false, count⟩ input start stop) : stop = start + text.length := by
  unfold Pattern.Takes at h
  simp only [Pattern.run, Bool.false_eq_true, if_false] at h
  split at h
  · rename_i place hplace
    rw [← Pattern.isSome_stopIf.mp h, (Pattern.literalEnd_eq_some_iff.mp hplace).2]
    rfl
  · cases h

/-- A trigger of one length leaves its guard alone. -/
theorem matchAround?_guards_iff_literal :
    let d : SnippetDefinition :=
      { name := some "n", guard := some "(?:^|<)", trigger := some "ab", endTrigger := some ">", content := "C" }
    ∃ s guard trigger endTrigger endGuard, compile d = .ok s ∧ s.definition.readsApart = true ∧
      s.definition.Asks guard trigger endTrigger endGuard ∧ ∀ before behind, '\n' ∉ before.toList → '\n' ∉ behind.toList →
        ∀ m, s.matchAround? before behind = some m → GuardedBefore guard trigger before m.replaceBefore.toList ∧
          GuardedBehind endTrigger endGuard behind m.replaceAfter.toList := by
  intro d
  have hok : (compile d).toOption.isSome = true := by decide +kernel
  have hread : d.readsApart = true := by decide +kernel
  cases hs : compile d with
  | error e => rw [hs] at hok; cases hok
  | ok s =>
    have hd : s.definition = d := definition_of_compile hs
    have hasks : d.Asks ⟨"(?:^|<)", .alt (.anchor .lineStart) (.literal ['<'] false), 0⟩
        ⟨"ab", .literal ['a', 'b'] false, 0⟩ ⟨">", .literal ['>'] false, 0⟩ ⟨"", .empty, 0⟩ :=
      ⟨show Pattern.compile "(?:^|<)" = _ from rfl, show Pattern.compile "ab" = _ from rfl,
        show Pattern.compile ">" = _ from rfl, show Pattern.compile "" = _ from rfl⟩
    refine ⟨s, _, _, _, _, rfl, hd ▸ hread, hd ▸ hasks,
      (matchAround?_guards_iff hs (hd ▸ hread) (hd ▸ hasks)).2.mpr fun before behind _ _ _ hfront hback => ⟨?_, ?_⟩⟩
    · obtain ⟨piece, hpiece⟩ := hfront
      refine fun _ h => h.guarded hpiece fun start start' h h' => ?_
      have := stop_of_literal h
      have := stop_of_literal h'
      omega
    · obtain ⟨piece, hpiece⟩ := hback
      exact fun _ h => h.guarded hpiece fun stop stop' h h' => (stop_of_literal h).trans (stop_of_literal h').symm

/-- The trigger matches what the guard matches too, and both are replaced. -/
theorem guard_is_replaced :
    let d : SnippetDefinition := { name := some "n", guard := some "a", trigger := some "a+", content := "C" }
    ∃ s guard trigger m, compile d = .ok s ∧ Pattern.compile "a" = .ok guard ∧ Pattern.compile "a+" = .ok trigger ∧
      s.matchAround? "aaa" "" = some m ∧ m.replaceBefore = "aaa" ∧ GuardedBefore guard trigger "aaa" ['a', 'a'] ∧
      ¬GuardedBefore guard trigger "aaa" m.replaceBefore.toList := by
  intro d
  have hfound : ((compile d).toOption.bind fun s => (s.matchAround? "aaa" "").map (·.replaceBefore)) = some "aaa" := by
    decide +kernel
  cases hs : compile d with
  | error e => rw [hs] at hfound; cases hfound
  | ok s =>
    rw [hs] at hfound
    obtain ⟨m, hm, hreplaced⟩ := Option.map_eq_some_iff.mp hfound
    refine ⟨s, ⟨"a", .literal ['a'] false, 0⟩, ⟨"a+", .repetition (.literal ['a'] false) 1 none true, 0⟩, m,
      rfl, rfl, rfl, hm, hreplaced, ⟨[], ['a'], rfl, by decide +kernel, by decide +kernel⟩, ?_⟩
    rintro ⟨front, guarded, htext, hguard, -⟩
    rw [hreplaced] at htext
    obtain ⟨hfront, hguarded⟩ := List.append_eq_nil_iff.mp (List.self_eq_append_left.mp htext)
    subst hfront hguarded
    exact absurd hguard (by decide +kernel)

end Snippet

end Scribe
