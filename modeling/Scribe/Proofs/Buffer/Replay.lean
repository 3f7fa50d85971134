import Scribe.Proofs.Buffer.Typing

/-!
# Changes as plain edits

A change tells where it happens, so it can be made in a plain text. The changes that a buffer answers with lead from
its old text to its new one, and each of them is true of the text in which it is made.
-/

namespace Scribe

open Position (after place)

namespace Position

/-- How many characters stand before a position in a text. A row that is too short counts up to its end. -/
def offset : List Char → Position → Nat
  | [], _ => 0
  | _ :: _, ⟨0, 0⟩ => 0
  | c :: text, ⟨0, column + 1⟩ => if c = '\n' then 0 else offset text ⟨0, column⟩ + 1
  | c :: text, ⟨row + 1, column⟩ => offset text (if c = '\n' then ⟨row, column⟩ else ⟨row + 1, column⟩) + 1

theorem place_cons (c : Char) (text : List Char) (n : Nat) :
    place (c :: text) (n + 1) = (place text n).offsetBy (step {} c) := by
  rw [place, place, offsetBy_after, List.take_succ_cons]
  rfl

theorem offset_place : ∀ {text : List Char} {n : Nat}, n ≤ text.length → offset text (place text n) = n
  | [], n, h => (Nat.le_zero.mp h).symm
  | _ :: _, 0, _ => rfl
  | c :: text, n + 1, h => by
    have ih := offset_place (Nat.le_of_succ_le_succ h)
    rw [place_cons]
    generalize place text n = p at ih ⊢
    obtain ⟨row, column⟩ := p
    unfold offsetBy step
    by_cases hc : c = '\n'
    · cases row <;> simp [offset, hc, ih, Nat.add_comm 1]
    · cases row <;> simp [offset, hc, ih, Nat.add_comm 1]

end Position

namespace Delta

/-- A change as an edit of a text: what it inserts stands at its start, what it removes stands between its ends. -/
def edit (text : List Char) (d : Delta) : List Char :=
  match d.action with
  | .insert => text.take (d.start.offset text) ++ d.text.toList ++ text.drop (d.start.offset text)
  | .remove => text.take (d.start.offset text) ++ text.drop (d.stop.offset text)

/-- The text after the changes, made one after the other. -/
def replay (text : List Char) (ds : List Delta) : List Char := ds.foldl edit text

/-- What a change tells is true of the text in which it is made: it begins in the text, what it inserts ends where its
end is, and what it removes stands between its ends. -/
structure Fits (text : List Char) (d : Delta) : Prop where
  start : ∃ n ≤ text.length, d.start = place text n
  inserted : d.action = .insert → d.stop = d.start.advance d.text.toList
  removed : d.action = .remove → Range.Reads text ⟨d.start, d.stop⟩ d.text.toList

section
variable {text text' : List Char} {d : Delta}

theorem Applies.edit (h : Applies text d text') : Delta.edit text d = text' := by
  cases h with
  | @insertion n new hn =>
    show text.take ((place text n).offset text) ++ new.toList ++ text.drop ((place text n).offset text) = _
    rw [Position.offset_place hn]
  | @removal n m hnm hm =>
    show text.take ((place text n).offset text) ++ text.drop ((place text m).offset text) = _
    rw [Position.offset_place hm, Position.offset_place (Nat.le_trans hnm hm)]

theorem Applies.start_le_stop (h : Applies text d text') : d.start ≤ d.stop := by
  cases h with
  | @insertion n new hn => exact Position.le_advance _ _
  | @removal n m hnm hm => exact (Position.place_le_iff (Nat.le_trans hnm hm) hm).mpr hnm

theorem Applies.fits (h : Applies text d text') : d.Fits text := by
  cases h with
  | @insertion n new hn => exact ⟨⟨n, hn, rfl⟩, fun _ => rfl, nofun⟩
  | @removal n m hnm hm =>
    exact ⟨⟨n, Nat.le_trans hnm hm, rfl⟩, nofun, fun _ => ⟨n, m, hnm, hm, rfl, String.toList_ofList.symm⟩⟩

end

section
variable {text text' : List Char} {ds before behind : List Delta} {d : Delta}

theorem Chain.replay (h : Chain text ds text') : Delta.replay text ds = text' := by
  induction h with
  | nil => rfl
  | cons happ _ ih => rw [Delta.replay, List.foldl_cons, happ.edit]; exact ih

theorem Chain.split : ∀ {before : List Delta} {text : List Char}, Chain text (before ++ behind) text' →
    ∃ mid, Chain text before mid ∧ Chain mid behind text'
  | [], text, h => ⟨text, .nil, h⟩
  | d :: before, text, h => by
    cases h with
    | cons happ h =>
      obtain ⟨mid, hbefore, hbehind⟩ := h.split
      exact ⟨mid, .cons happ hbefore, hbehind⟩

/-- Each of the changes is made in the text to which the changes before it lead. -/
theorem Chain.applies (h : Chain text ds text') (hds : ds = before ++ d :: behind) :
    Applies (Delta.replay text before) d (Delta.replay text (before ++ [d])) := by
  subst hds
  obtain ⟨mid, hbefore, hrest⟩ := h.split
  cases hrest with
  | cons happ _ =>
    have hafter := (hbefore.append (.cons happ .nil)).replay
    rwa [hafter, hbefore.replay]

end

end Delta

namespace Buffer

/-- An edit of a buffer, with the changes that it answers with and what it becomes. -/
inductive Step (b : Buffer) : List Delta → Buffer → Prop
  | replace {r : Range} (text : String) : r.start ≤ r.stop → Step b (b.replace r text).2 (b.replace r text).1
  | typeText (text : String) : Step b (b.typeText text).2 (b.typeText text).1

/-- A buffer that was made from a text and then used. Whatever else is done to a buffer leaves its lines and its
selections alone. -/
inductive Made : Buffer → Prop
  | ofText (text : String) : Made (ofText text)
  | edit {b b' : Buffer} {ds : List Delta} : Made b → b.Step ds b' → Made b'
  | setCursor {b : Buffer} (p : Position) : Made b → Made (b.setCursor p)
  | select {b : Buffer} (r : Range) : Made b → Made (b.select r)
  | setSelections {b : Buffer} (selections : List Selection) : Made b → Made (b.setSelections selections)
  | other {b b' : Buffer} : Made b → b'.lines = b.lines → b'.selections = b.selections → Made b'

section
variable {b b' : Buffer} {ds : List Delta}

theorem Step.chain (h : b.Step ds b') (hb : b.Sound) : b'.Sound ∧ Delta.Chain b.chars ds b'.chars := by
  cases h with
  | replace text hr =>
    obtain ⟨_, _, -, hsound, hchain⟩ := replace_chain hb hr text
    exact ⟨hsound, hchain⟩
  | typeText text => exact typeText_chain hb text

theorem Made.sound (h : b.Made) : b.Sound := by
  induction h with
  | ofText text => exact sound_ofText text
  | edit _ hstep ih => exact (hstep.chain ih).1
  | setCursor p _ ih => exact sound_setCursor ih p
  | select r _ ih => exact sound_select ih r
  | setSelections selections _ ih => exact sound_setSelections ih selections
  | other _ hlines hselections ih => exact ih.congr hlines hselections

/-- The last position of the buffer that is not behind `p`. -/
def Nearest (b : Buffer) (p q : Position) : Prop := b.Has q ∧ q ≤ p ∧ ∀ x, b.Has x → x ≤ p → x ≤ q

theorem clamp_le_self (b : Buffer) (p : Position) : b.clamp p ≤ p := by
  unfold clamp
  dsimp only
  split
  · rename_i hrow
    exact .inl hrow
  · exact .inr ⟨rfl, Nat.min_le_left _ _⟩

theorem nearest_clamp (hb : b.WellFormed) (p : Position) : b.Nearest p (b.clamp p) :=
  ⟨has_clamp hb p, b.clamp_le_self p, fun _ hx hle => clamp_of_has hx ▸ clamp_le hb hle⟩

/-- Replacing a range, as far as the buffer has it, replaces a piece of the text. -/
theorem replace_splices (hb : b.Made) {r : Range} (hr : r.start ≤ r.stop) (text : String) :
    let replaced := (b.replace r text).1
    let deltas := (b.replace r text).2
    (∃ m n, m ≤ n ∧ n ≤ b.chars.length ∧ b.Nearest r.start (place b.chars m) ∧ b.Nearest r.stop (place b.chars n) ∧
      replaced.chars = b.chars.take m ++ text.toList ++ b.chars.drop n) ∧
    replaced.WellFormed ∧
    Delta.replay b.chars deltas = replaced.chars ∧
    (∀ before d behind, deltas = before ++ d :: behind → d.Fits (Delta.replay b.chars before)) ∧
    ∀ s ∈ replaced.selections, replaced.Has s.anchor ∧ replaced.Has s.lead := by
  have hs := hb.sound
  obtain ⟨hsound, hchain⟩ := (Step.replace text hr).chain hs
  refine ⟨?_, hsound.wellFormed, hchain.replay, fun _ _ _ hds => (hchain.applies hds).fits, hsound.selections⟩
  obtain ⟨m, n, hmn, hn, hclamp⟩ := exists_places hs.wellFormed hr
  obtain ⟨_, _, he, -, hchars⟩ := replace_place hs hmn hn text
  have hnearest := nearest_clamp hs.wellFormed
  obtain ⟨hstart, hstop⟩ := Range.mk.inj hclamp
  refine ⟨m, n, hmn, hn, hstart ▸ hnearest r.start, hstop ▸ hnearest r.stop, ?_⟩
  rw [← replace_clampRange hs.wellFormed, hclamp, he]
  exact hchars

/-- From the middle of one row to behind the end of the last one. -/
theorem replace_splices_rows :
    let b := (Buffer.ofText "häus\n\nxy").setSelections [⟨⟨0, 2⟩, ⟨2, 2⟩⟩]
    let r : Range := ⟨⟨0, 1⟩, ⟨7, 0⟩⟩
    b.Made ∧ r.start ≤ r.stop ∧ (b.replace r "é\n").1.text = "hé\n" ∧
      Delta.replay b.chars (b.replace r "é\n").2 = (b.replace r "é\n").1.chars ∧
      (b.replace r "é\n").1.selections = [⟨⟨0, 1⟩, ⟨0, 1⟩⟩] := by
  intro b r
  have hb : b.Made := .setSelections _ (.ofText _)
  have hr : r.start ≤ r.stop := by decide
  exact ⟨hb, hr, by decide +kernel, (replace_splices hb hr "é\n").2.2.1, by decide +kernel⟩

end

end Buffer

end Scribe
