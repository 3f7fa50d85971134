import Scribe.Proofs.Snippet.Lookahead

/-!
# Transforms without an end

A source may end inside of a transform. Up to the `$` of the placeholder that the transform belongs to, the source
was read as if it ended there, so that taking back what was written since then, and adding the rest as it stands,
gives the snippet in front with a text behind it.
-/

namespace Scribe

namespace SnippetParser

/-! ## Between lexemes -/

section
variable (st : State) (c : Char) (cs : List Char)

theorem used_stepBody : (stepBody st c cs).2.2 = (Lexeme.body c cs).2 := by
  unfold stepBody
  dsimp only
  split <;> rfl

theorem used_stepFormat : (stepFormat st c cs).2.2 = (Lexeme.format c cs).2 := by
  unfold stepFormat
  dsimp only
  split <;> first | rfl | (split <;> rfl)

theorem used_stepAfterName : (stepAfterName st cs).2.2 = (Lexeme.afterName cs).2 := by
  unfold stepAfterName
  dsimp only
  split <;> rfl

theorem used_stepAfterReference : (stepAfterReference st cs).2.2 = (Lexeme.afterReference cs).2 := by
  unfold stepAfterReference
  dsimp only
  split <;> rfl

end

theorem parseFrom_drop (st : State) (mode : Mode) : ∀ (n : Nat) (cs : List Char),
    parseFrom st mode n cs = parseFrom st mode 0 (cs.drop n)
  | 0, _ => rfl
  | _ + 1, [] => rfl
  | n + 1, _ :: cs => parseFrom_drop st mode n cs

/-- Reading the source, the parser comes to this state between two lexemes; the last argument is what is left. -/
inductive Reached (source : List Char) : State → Mode → List Char → Prop
  | start : Reached source {} (.inside .body) source
  | inside {st : State} {r : Region} {c : Char} {rest : List Char} (h : Reached source st (.inside r) (c :: rest)) :
      Reached source (stepInside st r c rest).1 (stepInside st r c rest).2.1 (rest.drop (stepInside st r c rest).2.2)
  | opened {st : State} {r : Region} {c : Char} {rest : List Char} (h : Reached source st (.opened r) (c :: rest)) :
      Reached source (stepOpened st r (c :: rest)).1 (.inside (stepOpened st r (c :: rest)).2.1)
        ((c :: rest).drop (stepOpened st r (c :: rest)).2.2)

theorem parseFrom_inside (st : State) (r : Region) (c : Char) (rest : List Char) :
    parseFrom st (.inside r) 0 (c :: rest) =
      parseFrom (stepInside st r c rest).1 (stepInside st r c rest).2.1 0 (rest.drop (stepInside st r c rest).2.2) :=
  parseFrom_drop _ _ _ rest

theorem parseFrom_opened (st : State) (r : Region) (c : Char) (rest : List Char) :
    parseFrom st (.opened r) 0 (c :: rest) =
      parseFrom (stepOpened st r (c :: rest)).1 (.inside (stepOpened st r (c :: rest)).2.1) 0
        ((c :: rest).drop (stepOpened st r (c :: rest)).2.2) := by
  rw [parseFrom]
  obtain ⟨st', r', n⟩ := stepOpened st r (c :: rest)
  cases n with
  | zero => rfl
  | succ n => exact parseFrom_drop _ _ n rest

namespace Reached

variable {source cs : List Char} {st : State} {mode : Mode}

theorem parseFrom_eq (h : Reached source st mode cs) :
    parseFrom {} (.inside .body) 0 source = parseFrom st mode 0 cs := by
  induction h with
  | start => rfl
  | inside _ ih => rw [ih, parseFrom_inside]
  | opened _ ih => rw [ih, parseFrom_opened]

theorem exists_end : ∀ (cs : List Char) (st : State) (mode : Mode) (skip : Nat),
    Reached source st mode (cs.drop skip) → ∃ mode', Reached source (parseFrom st mode skip cs) mode' []
  | [], _, mode, _, h => ⟨mode, by simpa [parseFrom] using h⟩
  | _ :: rest, st, mode, skip + 1, h => exists_end rest st mode skip h
  | _ :: rest, _, .inside _, 0, h => exists_end rest _ _ _ (inside h)
  | c :: rest, st, .opened r, 0, h => by
    have ho := opened h
    rw [parseFrom]
    rcases hstep : stepOpened st r (c :: rest) with ⟨st', r', n⟩
    rw [hstep] at ho
    cases n with
    | zero => exact exists_end rest _ _ _ (inside ho)
    | succ n => exact exists_end rest _ _ n ho

end Reached

/-! ## With more in sight -/

/-- The state in which the source of each open placeholder goes on with these characters. -/
def State.followedBy (st : State) (more : List Char) : State :=
  { st with frames := st.frames.map fun f => { f with source := f.source ++ more } }

namespace State

variable (st : State) (more : List Char)

theorem followedBy_pushText (s : String) : (st.followedBy more).pushText s = (st.pushText s).followedBy more := by
  unfold pushText
  split
  · rfl
  · simp only [followedBy]
    split <;> rfl

theorem followedBy_close (transform : Option Transform) :
    (st.followedBy more).close transform = (st.close transform).followedBy more := by
  unfold close
  cases hf : st.frames with
  | nil => simp [followedBy, hf]
  | cons f rest => simp [followedBy, hf]

theorem followedBy_endTransform (flags : String) :
    (st.followedBy more).endTransform flags = (st.endTransform flags).followedBy more :=
  followedBy_close { st with transform := none } more _

theorem transform_followedBy : (st.followedBy more).transform = st.transform := rfl

theorem isEmpty_frames_followedBy : (st.followedBy more).frames.isEmpty = st.frames.isEmpty := by
  simp [followedBy]

end State

variable (st : State) (u : List Char)

theorem stepBody_followedBy {c : Char} {rest : List Char}
    (h : (stepBody (st.followedBy ('$' :: u)) c (rest ++ '$' :: u)).2.2 ≤ rest.length) :
    stepBody (st.followedBy ('$' :: u)) c (rest ++ '$' :: u) =
      ((stepBody st c rest).1.followedBy ('$' :: u), (stepBody st c rest).2) := by
  have hlexeme := Lexeme.body_append (used_stepBody _ _ _ ▸ h)
  unfold stepBody
  rw [hlexeme]
  dsimp only
  split
  · rw [State.followedBy_pushText, State.isEmpty_frames_followedBy]
  · rw [State.isEmpty_frames_followedBy, State.followedBy_pushText, State.followedBy_close]
    split <;> rfl
  · rfl
  · rfl
  · rw [State.followedBy_pushText]

theorem stepFormat_followedBy {c : Char} {rest : List Char}
    (h : (stepFormat (st.followedBy ('$' :: u)) c (rest ++ '$' :: u)).2.2 ≤ rest.length) :
    stepFormat (st.followedBy ('$' :: u)) c (rest ++ '$' :: u) =
      ((stepFormat st c rest).1.followedBy ('$' :: u), (stepFormat st c rest).2) := by
  have hlexeme := Lexeme.format_append (used_stepFormat _ _ _ ▸ h)
  unfold stepFormat
  rw [hlexeme]
  dsimp only
  split
  · rfl
  · rfl
  · rw [State.followedBy_endTransform]
  · rfl
  · rfl
  · rw [State.followedBy_endTransform, State.transform_followedBy]
    split <;> rfl
  · rfl

theorem stepAfterName_followedBy {cs : List Char}
    (h : (stepAfterName (st.followedBy ('$' :: u)) (cs ++ '$' :: u)).2.2 ≤ cs.length) :
    stepAfterName (st.followedBy ('$' :: u)) (cs ++ '$' :: u) =
      ((stepAfterName st cs).1.followedBy ('$' :: u), (stepAfterName st cs).2) := by
  have hlexeme := Lexeme.afterName_append (used_stepAfterName _ _ ▸ h)
  unfold stepAfterName
  rw [hlexeme]
  dsimp only
  split
  · rw [← State.followedBy_pushText]
    cases hf : st.frames <;> simp [State.followedBy, hf]
  · rfl
  · rfl

theorem stepAfterReference_followedBy {cs : List Char}
    (h : (stepAfterReference (st.followedBy ('$' :: u)) (cs ++ '$' :: u)).2.2 ≤ cs.length) :
    stepAfterReference (st.followedBy ('$' :: u)) (cs ++ '$' :: u) =
      ((stepAfterReference st cs).1.followedBy ('$' :: u), (stepAfterReference st cs).2) := by
  have hlexeme := Lexeme.afterReference_append (used_stepAfterReference _ _ ▸ h)
  unfold stepAfterReference
  rw [hlexeme]
  dsimp only
  split <;> rfl

theorem stepInside_followedBy {r : Region} {c : Char} {rest : List Char}
    (h : (stepInside (st.followedBy ('$' :: u)) r c (rest ++ '$' :: u)).2.2 ≤ rest.length) :
    stepInside (st.followedBy ('$' :: u)) r c (rest ++ '$' :: u) =
      ((stepInside st r c rest).1.followedBy ('$' :: u), (stepInside st r c rest).2) := by
  cases r with
  | body => exact stepBody_followedBy st u h
  | format => exact stepFormat_followedBy st u h

theorem stepOpened_followedBy {r : Region} {cs : List Char}
    (h : (stepOpened (st.followedBy ('$' :: u)) r (cs ++ '$' :: u)).2.2 ≤ cs.length) :
    stepOpened (st.followedBy ('$' :: u)) r (cs ++ '$' :: u) =
      ((stepOpened st r cs).1.followedBy ('$' :: u), (stepOpened st r cs).2) := by
  cases r with
  | body => exact stepAfterName_followedBy st u h
  | format => exact stepAfterReference_followedBy st u h

/-- Behind a name something is read where a `$` stands. -/
theorem stepOpened_dollar_pos (r : Region) : 0 < (stepOpened st r ('$' :: u)).2.2 := by
  have hpos := Lexeme.skipLength_dollar_pos u
  cases r with
  | body => exact hpos
  | format => exact hpos

theorem exists_of_drop_eq_append {n : Nat} {cs q more : List Char} (hmore : more ≠ []) (h : cs.drop n = q ++ more) :
    ∃ front, cs = front ++ more ∧ front.drop n = q ∧ n ≤ front.length := by
  have hlt : n < cs.length := List.length_lt_of_drop_ne_nil (by simp [h, hmore])
  have hlength : (cs.take n).length = n := List.length_take_of_le hlt.le
  refine ⟨cs.take n ++ q, ?_, List.drop_left' hlength, ?_⟩
  · rw [List.append_assoc, ← h, List.take_append_drop]
  · rw [List.length_append, hlength]
    exact Nat.le_add_right _ _

namespace Reached

variable {source cs u : List Char} {st : State} {mode : Mode}

/-- Up to a `$` where a lexeme begins, a source is read as without what begins there. -/
theorem front (h : Reached source st mode cs) : ∀ q : List Char, cs = q ++ '$' :: u →
    ∃ p st', source = p ++ '$' :: u ∧ Reached p st' mode q ∧ st = st'.followedBy ('$' :: u) := by
  induction h with
  | start =>
    rintro q rfl
    exact ⟨q, {}, rfl, .start, rfl⟩
  | @inside st r c rest h ih =>
    intro q hq
    obtain ⟨front, rfl, hdrop, hle⟩ := exists_of_drop_eq_append (List.cons_ne_nil _ _) hq
    obtain ⟨p, st', hp, hreached, rfl⟩ := ih (c :: front) rfl
    rw [stepInside_followedBy st' u hle] at hdrop ⊢
    exact ⟨p, _, hp, hdrop ▸ hreached.inside, rfl⟩
  | @opened st r c rest h ih =>
    intro q hq
    obtain ⟨front, hfront, hdrop, hle⟩ := exists_of_drop_eq_append (List.cons_ne_nil _ _) hq
    obtain ⟨p, st', hp, hreached, rfl⟩ := ih front hfront
    rw [hfront] at hle hdrop ⊢
    have hpos : front ≠ [] := by
      rintro rfl
      exact absurd hle (Nat.not_le.mpr (stepOpened_dollar_pos _ u r))
    obtain ⟨d, more, rfl⟩ := List.exists_cons_of_ne_nil hpos
    rw [stepOpened_followedBy st' u hle] at hdrop ⊢
    exact ⟨p, _, hp, hdrop ▸ hreached.opened, rfl⟩

end Reached

/-! ## The placeholder of the transform -/

/-- The innermost placeholder begins with `u`; it was opened in the body, and since then one token is written. -/
def Opens (source : List Char) (st : State) (u : List Char) : Prop :=
  ∃ before mark, Reached source before (.inside .body) u ∧ before.transform = none ∧
    st.frames = ⟨before.tokens.size, u⟩ :: before.frames ∧ st.tokens = before.tokens.push mark

/-- What the parser knows of the transform being read, between two lexemes. -/
def Tracks (source : List Char) (st : State) : Mode → List Char → Prop
  | .inside .body, _ => st.transform = none
  | .opened .body, cs => st.transform = none ∧ ∃ name, Opens source st ('$' :: '\x7b' :: (name ++ cs))
  | _, _ => st.transform.isSome = true ∧
    ∃ name guard format, Opens source st ('$' :: '\x7b' :: (name ++ '/' :: (guard ++ '/' :: format)))

section
variable {source rest cs : List Char} {st : State} {c : Char}

theorem transform_pushText (s : String) : (st.pushText s).transform = st.transform := by
  unfold State.pushText
  split
  · rfl
  · split <;> rfl

theorem transform_close (transform : Option Transform) : (st.close transform).transform = st.transform := by
  unfold State.close
  split <;> rfl

theorem transform_endTransform (flags : String) : (st.endTransform flags).transform = none :=
  transform_close _

theorem eq_of_body_opening {name : List Char} (h : (Lexeme.body c rest).1 = .opening name) :
    c :: rest = '$' :: '\x7b' :: (name ++ rest.drop (Lexeme.body c rest).2) := by
  obtain ⟨hbegins, hlength⟩ := Lexeme.spelled_body c rest
  have hsplit := List.prefix_iff_eq_append.mp hbegins
  rw [hlength, List.drop_succ_cons, h] at hsplit
  exact hsplit.symm

theorem exists_of_quotedUntil? {stop : Char} (hstop : stop ≠ '\\') {inside : List Char}
    (h : Lexeme.quotedUntil? stop cs = some inside) : ∃ more, cs = inside ++ stop :: more := by
  rw [Lexeme.quotedUntil?_eq hstop] at h
  split at h
  · rename_i hhead
    cases h
    obtain ⟨more, hmore⟩ := List.head?_eq_some_iff.mp hhead
    exact ⟨more, by rw [← hmore, List.take_append_drop]⟩
  · cases h

theorem exists_of_afterName_guard {guard : List Char} (h : (Lexeme.afterName cs).1 = .guard guard) :
    ∃ format, cs = '/' :: (guard ++ '/' :: format) := by
  unfold Lexeme.afterName at h
  split at h
  · split at h <;> cases h
  · split at h
    · cases h
    · cases h
    · rename_i inside _ hinside
      cases h
      obtain ⟨more, rfl⟩ := exists_of_quotedUntil? (by decide) hinside
      exact ⟨more, rfl⟩
  · cases h

theorem tracks_body (hreached : Reached source st (.inside .body) (c :: rest)) (h : st.transform = none) :
    Tracks source (stepBody st c rest).1 (stepBody st c rest).2.1 (rest.drop (stepBody st c rest).2.2) := by
  unfold stepBody
  dsimp only
  split
  · exact (transform_pushText _).trans h
  · dsimp only
    split
    · exact (transform_pushText _).trans h
    · exact (transform_close _).trans h
  · exact h
  · rename_i name hname
    refine ⟨h, name, ?_⟩
    dsimp only
    rw [← eq_of_body_opening hname]
    exact ⟨st, _, hreached, h, rfl, rfl⟩
  · exact (transform_pushText _).trans h

theorem tracks_afterName (h : Tracks source st (.opened .body) cs) :
    Tracks source (stepAfterName st cs).1 (.inside (stepAfterName st cs).2.1) (cs.drop (stepAfterName st cs).2.2) := by
  obtain ⟨hnone, name, hopens⟩ := h
  unfold stepAfterName
  dsimp only
  split
  · exact (transform_pushText _).trans hnone
  · rename_i guard hguard
    obtain ⟨format, rfl⟩ := exists_of_afterName_guard hguard
    exact ⟨rfl, name, guard, format, hopens⟩
  · exact hnone

theorem isSome_mapTransform (f : OpenTransform → OpenTransform) (h : st.transform.isSome = true) :
    (st.mapTransform f).transform.isSome = true := by
  simpa [State.mapTransform] using h

theorem tracks_format (h : Tracks source st (.inside .format) (c :: rest)) :
    Tracks source (stepFormat st c rest).1 (stepFormat st c rest).2.1 (rest.drop (stepFormat st c rest).2.2) := by
  obtain ⟨hsome, hopens⟩ := h
  unfold stepFormat
  dsimp only
  split
  · exact ⟨isSome_mapTransform _ hsome, hopens⟩
  · exact ⟨isSome_mapTransform _ hsome, hopens⟩
  · exact transform_endTransform _
  · exact ⟨isSome_mapTransform _ hsome, hopens⟩
  · exact ⟨isSome_mapTransform _ hsome, hopens⟩
  · split
    · exact transform_endTransform _
    · exact ⟨isSome_mapTransform _ hsome, hopens⟩
  · exact ⟨isSome_mapTransform _ hsome, hopens⟩

theorem tracks_afterReference (h : Tracks source st (.opened .format) cs) :
    Tracks source (stepAfterReference st cs).1 (.inside (stepAfterReference st cs).2.1)
      (cs.drop (stepAfterReference st cs).2.2) := by
  obtain ⟨hsome, hopens⟩ := h
  unfold stepAfterReference
  dsimp only
  split
  · exact ⟨isSome_mapTransform _ hsome, hopens⟩
  · exact ⟨isSome_mapTransform _ hsome, hopens⟩
  · exact ⟨isSome_mapTransform _ hsome, hopens⟩
  · exact ⟨isSome_mapTransform _ hsome, hopens⟩
  · exact ⟨hsome, hopens⟩

end

theorem Reached.tracks {source cs : List Char} {st : State} {mode : Mode} (h : Reached source st mode cs) :
    Tracks source st mode cs := by
  induction h with
  | start => rfl
  | @inside st r c rest h ih =>
    cases r with
    | body => exact tracks_body h ih
    | format => exact tracks_format ih
  | @opened st r c rest h ih =>
    cases r with
    | body => exact tracks_afterName ih
    | format => exact tracks_afterReference ih

/-- At the end of a source that ends inside of a transform. -/
theorem Reached.opens {source : List Char} {st : State} {mode : Mode} (h : Reached source st mode [])
    (ht : st.transform.isSome = true) :
    ∃ name guard format, Opens source st ('$' :: '\x7b' :: (name ++ '/' :: (guard ++ '/' :: format))) := by
  have htracks := h.tracks
  match mode with
  | .inside .body =>
    rw [show st.transform = none from htracks] at ht
    cases ht
  | .opened .body =>
    rw [htracks.1] at ht
    cases ht
  | .inside .format => exact htracks.2
  | .opened .format => exact htracks.2

/-- The state at the end of the source, with its last transform still open if it does not end. -/
def atEnd (source : String) : State := parseFrom {} (.inside .body) 0 source.toList

end SnippetParser

/-! ## The snippet in front -/

/-- A text behind a snippet goes on with the text at its end, if there is one. -/
def SnippetToken.withText (tokens : List SnippetToken) (s : String) : List SnippetToken :=
  match tokens.getLast? with
  | some (.text t) => tokens.dropLast ++ [.text (t ++ s)]
  | _ => tokens ++ [.text s]

open SnippetToken (withText)

namespace SnippetParser

theorem toList_pushText (st : State) {s : String} (hs : s ≠ "") :
    (st.pushText s).tokens.toList = withText st.tokens.toList s := by
  have hlast : st.tokens.toList.getLast? = st.tokens.back? := Array.getLast?_toList _
  unfold State.pushText withText
  rw [if_neg (by simpa using hs), hlast]
  generalize st.tokens.back? = last?
  match last? with
  | some (.text t) => simp
  | some (.tabstop _) => simp
  | some (.var _) => simp
  | none => simp

theorem settle_of_none {st : State} (h : st.transform = none) : st.settle = st := by
  unfold State.settle
  rw [h]

/-- What was written since the placeholder of the transform began is taken back, and its source is a text. -/
theorem toList_settle {st before : State} {u : List Char} {mark : SnippetToken} (ht : st.transform.isSome = true)
    (hframes : st.frames = ⟨before.tokens.size, u⟩ :: before.frames) (htokens : st.tokens = before.tokens.push mark)
    (hu : u ≠ []) : st.settle.tokens.toList = withText before.tokens.toList (String.ofList u) := by
  obtain ⟨t, ht⟩ := Option.isSome_iff_exists.mp ht
  unfold State.settle
  rw [ht, hframes]
  dsimp only
  rw [toList_pushText _ (by simpa using hu), htokens]
  simp

end SnippetParser

open SnippetParser (atEnd Opens)

/-- A source that ends inside of a transform is the source in front of the placeholder that the transform belongs to,
and that placeholder. It parses to the snippet of the one, with the other as a text behind it. -/
theorem parseSnippet_of_unfinished {source : String} (h : (atEnd source).transform.isSome = true) :
    ∃ p name guard format : List Char,
      let u := '$' :: '\x7b' :: (name ++ '/' :: (guard ++ '/' :: format))
      source.toList = p ++ u ∧ Opens source.toList (atEnd source) u ∧
        parseSnippet source = withText (parseSnippet (String.ofList p)) (String.ofList u) := by
  obtain ⟨mode, hend⟩ := SnippetParser.Reached.exists_end source.toList {} (.inside .body) 0 .start
  obtain ⟨name, guard, format, hopens⟩ := hend.opens h
  obtain ⟨before, mark, hbefore, hnone, hframes, htokens⟩ := hopens
  obtain ⟨p, st, hp, hfront, rfl⟩ := hbefore.front [] rfl
  have hrun : SnippetParser.parseFrom {} (.inside .body) 0 p = st := hfront.parseFrom_eq
  have hparse : parseSnippet (String.ofList p) = st.tokens.toList := by
    rw [parseSnippet, String.toList_ofList, hrun, SnippetParser.settle_of_none (show st.transform = none from hnone)]
  refine ⟨p, name, guard, format, hp, ⟨_, mark, hbefore, hnone, hframes, htokens⟩, ?_⟩
  rw [hparse]
  have hsettle := SnippetParser.toList_settle h hframes htokens (List.cons_ne_nil _ _)
  exact hsettle

theorem parseSnippet_of_unfinished_nested :
    let source := "a $\x7b1:b $\x7bX/(x)\\/y/\\u$1$\x7b2:?z:\\\x7d"
    (atEnd source).transform.isSome = true ∧
      parseSnippet source = withText (parseSnippet "a $\x7b1:b ") "$\x7bX/(x)\\/y/\\u$1$\x7b2:?z:\\\x7d" := by
  intro source
  have ht : (atEnd source).transform.isSome = true := by decide +kernel
  obtain ⟨p, name, guard, format, hp, ⟨before, mark, -, -, hframes, -⟩, hparse⟩ := parseSnippet_of_unfinished ht
  have hu : (atEnd source).frames.head?.map (·.source) = some "$\x7bX/(x)\\/y/\\u$1$\x7b2:?z:\\\x7d".toList := by
    decide +kernel
  rw [hframes] at hu
  replace hu := Option.some.inj hu
  have hfront : source.toList = "a $\x7b1:b ".toList ++ "$\x7bX/(x)\\/y/\\u$1$\x7b2:?z:\\\x7d".toList := by decide +kernel
  dsimp only at hu
  rw [hu] at hp hparse
  obtain rfl := List.append_cancel_right (hp.symm.trans hfront)
  refine ⟨ht, ?_⟩
  simpa using hparse

end Scribe
