import Scribe.Proofs.Snippet.Grammar
import Scribe.Proofs.Snippet.Unfinished

/-!
# Rules and lexemes

A rule of the grammar matches exactly where its lexeme is read and takes the same characters, and what it does with them is
what the parser does with the lexeme. Characters at which no rule matches are text.
-/

namespace Scribe

namespace Lexeme

open SnippetParser (Action)

/-! ## The rule of a lexeme -/

def Body.action? : Body → Option Action
  | .escape _ => some .escape
  | .close => some .close
  | .reference _ => some .reference
  | .opening _ => some .opening
  | .plain _ => none

def Format.action? : Format → Option Action
  | .colon => some .formatColon
  | .escape _ => some .formatEscape
  | .finish _ => some .endTransform
  | .reference _ => some .formatReference
  | .opening _ => some .formatOpening
  | .close => some .formatClose
  | .plain _ => none

def AfterName.action : AfterName → Action
  | .choices _ => .choices
  | .guard _ => .guard
  | .skip => .skipToBody

def AfterReference.action : AfterReference → Action
  | .function _ => .formatFunction
  | .ifSet | .ifElse | .otherwise => .conditionalKind
  | .skip => .skipToFormat

end Lexeme

namespace SnippetParser

open Pattern

section
variable {p : Char → Bool} {cs rest : List Char} {least : Nat}

theorem nameLength?_of_isEmpty (h : (cs.takeWhile p).isEmpty = true) : nameLength? p cs = none := by
  rw [nameLength?, List.isEmpty_iff.mp h]
  rfl

theorem nameLength?_of_not_isEmpty (h : ¬(cs.takeWhile p).isEmpty = true) :
    nameLength? p cs = some (cs.takeWhile p).length := by
  have hpos : ¬(cs.takeWhile p).length < 1 := by simpa [Nat.lt_one_iff] using h
  rw [nameLength?, if_neg hpos]

theorem closedWordLength?_of_brace (h : cs.drop (cs.takeWhile Unicode.isWord).length = '\x7d' :: rest)
    (hleast : least ≤ (cs.takeWhile Unicode.isWord).length) :
    closedWordLength? least cs = some ((cs.takeWhile Unicode.isWord).length + 1) := by
  simp only [closedWordLength?, h, List.head?_cons, if_true, if_neg (Nat.not_lt.mpr hleast)]

theorem closedWordLength?_of_not_brace
    (h : ∀ rest, cs.drop (cs.takeWhile Unicode.isWord).length = '\x7d' :: rest → False) :
    closedWordLength? least cs = none := by
  have hhead : (cs.drop (cs.takeWhile Unicode.isWord).length).head? ≠ some '\x7d' := by
    intro hhead
    obtain ⟨rest, hrest⟩ := List.head?_eq_some_iff.mp hhead
    exact h rest hrest
  simp only [closedWordLength?, if_neg hhead, ite_self]

theorem front?_body (c : Char) (rest : List Char) : front? (.inside .body) (c :: rest) =
    (Lexeme.body c rest).1.action?.map fun a => (a, (Lexeme.body c rest).2 + 1) := by
  simp only [front?, actions, List.findSome?_cons, List.findSome?_nil, Action.length?]
  fun_cases Lexeme.body c rest with
  | case1 | case3 | case4 => rfl
  | case2 d rest hd => simp [nextIs, hd, Lexeme.Body.action?]
  | case5 rest name hname => simp [behind?_of_ne, hname, Lexeme.Body.action?]
  | case6 rest name hname href => simp [behind?_of_ne, href, nameLength?_of_isEmpty hname, Lexeme.Body.action?]
  | case7 rest name hname href => simp [behind?_of_ne, href, nameLength?_of_not_isEmpty hname, Lexeme.Body.action?, name]
  | case8 rest href hbrace => simp [behind?_of_ne, href, behind?_eq_none hbrace, Lexeme.Body.action?]
  | case9 c rest hb hc hd => simp [behind?_of_ne hb, behind?_of_ne hc, behind?_of_ne hd, Lexeme.Body.action?]

theorem front?_format (c : Char) (rest : List Char) : front? (.inside .format) (c :: rest) =
    (Lexeme.format c rest).1.action?.map fun a => (a, (Lexeme.format c rest).2 + 1) := by
  simp only [front?, actions, List.findSome?_cons, List.findSome?_nil, Action.length?]
  fun_cases Lexeme.format c rest with
  | case1 | case2 | case4 | case11 => rfl
  | case3 d rest hd => simp [behind?_of_ne, nextIs, hd, Lexeme.Format.action?]
  | case5 rest flags more hmore =>
    simp [behind?_of_ne, closedWordLength?_of_brace hmore (Nat.zero_le _), Lexeme.Format.action?, flags]
  | case6 rest flags hmore => simp [behind?_of_ne, closedWordLength?_of_not_brace hmore, Lexeme.Format.action?]
  | case7 rest name hname => simp [behind?_of_ne, hname, Lexeme.Format.action?]
  | case8 rest name hname href => simp [behind?_of_ne, href, nameLength?_of_isEmpty hname, Lexeme.Format.action?]
  | case9 rest name hname href =>
    simp [behind?_of_ne, href, nameLength?_of_not_isEmpty hname, Lexeme.Format.action?, name]
  | case10 rest href hbrace => simp [behind?_of_ne, href, behind?_eq_none hbrace, Lexeme.Format.action?]
  | case12 c rest hcolon hb hs hd hc =>
    simp [behind?_of_ne hcolon, behind?_of_ne hb, behind?_of_ne hs, behind?_of_ne hd, behind?_of_ne hc,
      Lexeme.Format.action?]

theorem front?_afterName (cs : List Char) : front? (.opened .body) cs =
    some ((Lexeme.afterName cs).1.action, (Lexeme.afterName cs).2) := by
  simp only [front?, actions, List.findSome?_cons, List.findSome?_nil, Action.length?]
  fun_cases Lexeme.afterName cs with
  | case1 rest inside hinside => simp [hinside, Lexeme.AfterName.action]
  | case2 rest hinside => simp [behind?_of_ne, hinside, Lexeme.AfterName.action]
  | case3 rest hinside => simp [behind?_of_ne, hinside, Lexeme.AfterName.action]
  | case4 rest hinside => simp [behind?_of_ne, hinside, Lexeme.AfterName.action]
  | case5 rest inside hne hinside =>
    have hne' : inside ≠ [] := hne
    simp [behind?_of_ne, hinside, hne', Lexeme.AfterName.action]
  | case6 cs hbar hslash => simp [behind?_eq_none hbar, behind?_eq_none hslash, Lexeme.AfterName.action]

/-- The name of a function between a slash and a brace. -/
def functionName? (cs : List Char) : Option (List Char) :=
  match cs with
  | '/' :: rest =>
    let name := rest.takeWhile Unicode.isWord
    match rest.drop name.length with
    | '\x7d' :: _ => if name.isEmpty then none else some name
    | _ => none
  | _ => none

theorem behind?_functionName (cs : List Char) :
    behind? ['/'] (closedWordLength? 1) cs = (functionName? cs).map fun name => name.length + 2 := by
  unfold functionName?
  split
  · rename_i rest
    rw [behind?_cons, behind?_nil]
    dsimp only
    split
    · rename_i hmore
      split
      · rename_i hname
        simp [closedWordLength?, List.isEmpty_iff.mp hname]
      · rename_i hname
        rw [closedWordLength?_of_brace hmore (List.length_pos_iff.mpr (by simpa using hname))]
        rfl
    · rename_i hmore
      rw [closedWordLength?_of_not_brace hmore]
      rfl
  · rename_i hslash
    exact behind?_eq_none hslash

theorem nextIs_isKindSign (hplus : ∀ more, rest = '+' :: more → False) (hquestion : ∀ more, rest = '?' :: more → False)
    (hminus : ∀ more, rest = '-' :: more → False) : nextIs isKindSign rest = false := by
  match rest with
  | [] => rfl
  | d :: rest =>
    have hplus : d ≠ '+' := fun hd => hplus rest (hd ▸ rfl)
    have hquestion : d ≠ '?' := fun hd => hquestion rest (hd ▸ rfl)
    have hminus : d ≠ '-' := fun hd => hminus rest (hd ▸ rfl)
    simp [nextIs, isKindSign, hplus, hquestion, hminus]

theorem front?_afterReference (cs : List Char) : front? (.opened .format) cs =
    some ((Lexeme.afterReference cs).1.action, (Lexeme.afterReference cs).2) := by
  simp only [front?, actions, List.findSome?_cons, List.findSome?_nil, Action.length?]
  fun_cases Lexeme.afterReference cs with
  | case1 rest function? name hname =>
    have hword : behind? ['/'] (closedWordLength? 1) rest = some (name.length + 2) :=
      (behind?_functionName rest).trans (congrArg (Option.map _) hname)
    simp [hword, Lexeme.AfterReference.action]
  | case2 rest | case3 rest | case4 rest =>
    simp [behind?_of_ne, nextIs, isKindSign, Lexeme.AfterReference.action]
  | case5 rest function? hnone hplus hquestion hminus =>
    have hword : behind? ['/'] (closedWordLength? 1) rest = none :=
      (behind?_functionName rest).trans (congrArg (Option.map _) hnone)
    simp [hword, nextIs_isKindSign hplus hquestion hminus, Lexeme.AfterReference.action]
  | case6 cs hcolon => simp [behind?_eq_none hcolon, Lexeme.AfterReference.action]

end

/-! ## What the rules do -/

/-- A text between two matches. -/
def literal (st : State) : Mode → List Char → State
  | .inside .body, cs => st.pushText (String.ofList cs)
  | .inside .format, cs => if cs.isEmpty then st else st.mapTransform (·.pushText (String.ofList cs))
  | .opened _, _ => st

/-- What a rule does with its match; `source` is the snippet from the match on. -/
def act (st : State) (value source : List Char) : Action → State × Mode
  | .escape =>
    let escaped := value.drop 1
    let bare := (escaped = ['\x7d'] && !st.frames.isEmpty) || escaped = ['\x60'] || escaped = ['$'] || escaped = ['\\']
    (st.pushText (String.ofList (if bare then escaped else value)), .inside .body)
  | .close => (if st.frames.isEmpty then st.pushText (String.ofList value) else st.close none, .inside .body)
  | .reference => (st.pushReference (value.drop 1), .inside .body)
  | .opening =>
    let frame := { token := st.tokens.size, source : Frame }
    ({ st.pushReference (value.drop 2) with frames := frame :: st.frames }, .opened .body)
  | .choices =>
    let found := SnippetParser.choices (value.drop 1).dropLast
    let tokens := match st.frames with
      | f :: _ => st.tokens.modify f.token (SnippetToken.withChoices found)
      | [] => st.tokens
    ({ st with tokens }.pushText (found.head?.getD ""), .inside .body)
  | .guard => ({ st with transform := some { guard := String.ofList (value.drop 1).dropLast } }, .inside .format)
  | .skipToBody => (st, .inside .body)
  | .formatColon => (st.mapTransform (·.colon), .inside .format)
  | .formatEscape => (st.mapTransform (·.escape (value[1]?.getD '\\')), .inside .format)
  | .endTransform => (st.endTransform (String.ofList (value.drop 1).dropLast), .inside .body)
  | .formatReference => (st.mapTransform (·.push (.ref (String.ofList (value.drop 1)))), .inside .format)
  | .formatOpening => (st.mapTransform (·.openRef (String.ofList (value.drop 2))), .opened .format)
  | .formatClose =>
    if (st.transform.map (·.frames.isEmpty)).getD true then (st.endTransform "", .inside .body)
    else (st.mapTransform (·.closeFrame), .inside .format)
  | .formatFunction => (st.mapTransform (·.function (String.ofList (value.drop 2).dropLast)), .inside .format)
  | .conditionalKind =>
    let kind := match value[1]? with
      | some '+' => BranchKind.ifSet
      | some '?' => .ifElse false
      | _ => .otherwise
    (st.mapTransform (·.setKind kind), .inside .format)
  | .skipToFormat => (st, .inside .format)

section
variable (st : State)

theorem act_body {c : Char} {rest : List Char} {a : Action} (h : (Lexeme.body c rest).1.action? = some a) :
    act st (Lexeme.body c rest).1.spelled (c :: rest) a = ((stepBody st c rest).1, (stepBody st c rest).2.1) := by
  have hspelled := (Lexeme.spelled_body c rest).1
  unfold stepBody
  generalize Lexeme.body c rest = x at h hspelled
  obtain ⟨lexeme, used⟩ := x
  cases lexeme with
  | escape e =>
    cases h
    simp [act, Lexeme.Body.spelled]
  | close =>
    cases h
    obtain ⟨rfl, -⟩ := List.cons_prefix_cons.mp hspelled
    rfl
  | reference name | opening name =>
    cases h
    rfl
  | plain d => cases h

theorem act_format {c : Char} {rest : List Char} {a : Action} (h : (Lexeme.format c rest).1.action? = some a) :
    act st (Lexeme.format c rest).1.spelled (c :: rest) a = ((stepFormat st c rest).1, (stepFormat st c rest).2.1) := by
  unfold stepFormat
  generalize Lexeme.format c rest = x at h
  obtain ⟨lexeme, used⟩ := x
  cases lexeme with
  | colon | escape e | reference name | opening name =>
    cases h
    rfl
  | finish flags =>
    cases h
    simp [act, Lexeme.Format.spelled]
  | close =>
    cases h
    simp only [act]
    split <;> rfl
  | plain d => cases h

/-- Inside of a body or a format, a match is a lexeme. -/
theorem act_inside {r : Region} {c : Char} {rest : List Char} {a : Action} {n : Nat}
    (h : front? (.inside r) (c :: rest) = some (a, n)) :
    act st ((c :: rest).take n) (c :: rest) a = ((stepInside st r c rest).1, (stepInside st r c rest).2.1) ∧
      n = (stepInside st r c rest).2.2 + 1 := by
  cases r with
  | body =>
    rw [front?_body] at h
    obtain ⟨b, hb, hpair⟩ := Option.map_eq_some_iff.mp h
    cases hpair
    obtain ⟨hbegins, hlength⟩ := Lexeme.spelled_body c rest
    rw [← hlength, ← List.prefix_iff_eq_take.mp hbegins, hlength]
    exact ⟨act_body st hb, congrArg (· + 1) (used_stepBody st c rest).symm⟩
  | format =>
    rw [front?_format] at h
    obtain ⟨b, hb, hpair⟩ := Option.map_eq_some_iff.mp h
    cases hpair
    obtain ⟨hbegins, hlength⟩ := Lexeme.spelled_format c rest
    rw [← hlength, ← List.prefix_iff_eq_take.mp hbegins, hlength]
    exact ⟨act_format st hb, congrArg (· + 1) (used_stepFormat st c rest).symm⟩

/-- Where nothing matches stands a plain character. -/
theorem stepInside_of_front?_none {r : Region} {c : Char} {rest : List Char} (h : front? (.inside r) (c :: rest) = none) :
    stepInside st r c rest = (literal st (.inside r) [c], .inside r, 0) := by
  cases r with
  | body =>
    rw [front?_body, Option.map_eq_none_iff] at h
    obtain ⟨hbegins, hlength⟩ := Lexeme.spelled_body c rest
    rw [stepInside, stepBody]
    generalize Lexeme.body c rest = x at h hbegins hlength
    obtain ⟨lexeme, used⟩ := x
    cases lexeme with
    | plain d =>
      obtain ⟨rfl, -⟩ := List.cons_prefix_cons.mp hbegins
      obtain rfl : 0 = used := Nat.succ.inj hlength
      rfl
    | _ => cases h
  | format =>
    rw [front?_format, Option.map_eq_none_iff] at h
    obtain ⟨hbegins, hlength⟩ := Lexeme.spelled_format c rest
    rw [stepInside, stepFormat]
    generalize Lexeme.format c rest = x at h hbegins hlength
    obtain ⟨lexeme, used⟩ := x
    cases lexeme with
    | plain d =>
      obtain ⟨rfl, -⟩ := List.cons_prefix_cons.mp hbegins
      obtain rfl : 0 = used := Nat.succ.inj hlength
      rfl
    | _ => cases h

theorem inside_of_quotedUntil? {stop c : Char} (hstop : stop ≠ '\\') {rest inside : List Char}
    (h : Lexeme.quotedUntil? stop rest = some inside) :
    (((c :: rest).take (inside.length + 2)).drop 1).dropLast = inside := by
  obtain ⟨more, rfl⟩ := exists_of_quotedUntil? hstop h
  rw [List.take_succ_cons, List.take_length_add_append]
  simp

theorem act_afterName (cs : List Char) :
    act st (cs.take (Lexeme.afterName cs).2) cs (Lexeme.afterName cs).1.action =
      ((stepAfterName st cs).1, .inside (stepAfterName st cs).2.1) := by
  unfold stepAfterName
  fun_cases Lexeme.afterName cs with
  | case1 rest inside hinside =>
    have hread := inside_of_quotedUntil? (c := '|') (by decide) hinside
    cases hframes : st.frames with
    | nil => simp only [Lexeme.AfterName.action, act, hread, hframes]
    | cons f more => simp only [Lexeme.AfterName.action, act, hread, hframes]
  | case5 rest inside hne hinside =>
    simp only [Lexeme.AfterName.action, act, inside_of_quotedUntil? (by decide) hinside]
  | _ => rfl

theorem exists_of_functionName? {cs name : List Char} (h : functionName? cs = some name) :
    ∃ more, cs = '/' :: (name ++ '\x7d' :: more) := by
  unfold functionName? at h
  split at h
  · rename_i rest
    dsimp only at h
    split at h
    · rename_i more hmore
      split at h
      · cases h
      · cases h
        refine ⟨more, ?_⟩
        rw [← hmore, List.prefix_iff_eq_append.mp (List.takeWhile_prefix _)]
    · cases h
  · cases h

theorem act_afterReference (cs : List Char) :
    act st (cs.take (Lexeme.afterReference cs).2) cs (Lexeme.afterReference cs).1.action =
      ((stepAfterReference st cs).1, .inside (stepAfterReference st cs).2.1) := by
  unfold stepAfterReference
  fun_cases Lexeme.afterReference cs with
  | case1 rest function? name hname =>
    obtain ⟨more, hrest⟩ := exists_of_functionName? hname
    have hvalue : (((':' :: rest).take (name.length + 3)).drop 2).dropLast = name := by
      rw [hrest, List.take_succ_cons, List.take_succ_cons, List.take_length_add_append]
      simp
    simp only [Lexeme.AfterReference.action, act, hvalue]
  | _ => rfl

/-- Behind a name, a match is a lexeme too. -/
theorem act_opened {r : Region} {cs : List Char} {a : Action} {n : Nat} (h : front? (.opened r) cs = some (a, n)) :
    act st (cs.take n) cs a = ((stepOpened st r cs).1, .inside (stepOpened st r cs).2.1) ∧
      n = (stepOpened st r cs).2.2 := by
  cases r with
  | body =>
    rw [front?_afterName] at h
    cases h
    exact ⟨act_afterName st cs, (used_stepAfterName st cs).symm⟩
  | format =>
    rw [front?_afterReference] at h
    cases h
    exact ⟨act_afterReference st cs, (used_stepAfterReference st cs).symm⟩

end

/-! ## What the parser does there -/

theorem literal_nil (st : State) (mode : Mode) : literal st mode [] = st := by
  match mode with
  | .inside .body => simp [literal, State.pushText]
  | .inside .format => rfl
  | .opened _ => rfl

theorem literal_append (st : State) (mode : Mode) (xs ys : List Char) :
    literal (literal st mode xs) mode ys = literal st mode (xs ++ ys) := by
  match mode with
  | .inside .body =>
    simp only [literal, State.pushText_pushText, String.ofList_append]
  | .inside .format =>
    cases xs with
    | nil => rfl
    | cons x xs =>
      cases ys with
      | nil => simp [literal]
      | cons y ys =>
        simp only [literal, List.isEmpty_cons, List.cons_append, Bool.false_eq_true, if_false, State.mapTransform,
          Option.map_map]
        rw [← List.cons_append, String.ofList_append]
        refine congrArg (fun t => { st with transform := t }) (congrArg (Option.map · _) (funext fun t => ?_))
        exact OpenTransform.pushText_pushText t _ _
  | .opened _ => rfl

/-- Behind a name something always matches, if only nothing. -/
theorem front?_opened_ne_none (r : Region) (cs : List Char) : front? (.opened r) cs ≠ none := by
  cases r with
  | body =>
    rw [front?_afterName]
    exact Option.some_ne_none _
  | format =>
    rw [front?_afterReference]
    exact Option.some_ne_none _

/-- Characters at which nothing matches are text. -/
theorem parseFrom_literal (mode : Mode) : ∀ (n : Nat) (st : State) {cs : List Char}, n ≤ cs.length →
    (∀ q < n, front? mode (cs.drop q) = none) →
    parseFrom st mode 0 cs = parseFrom (literal st mode (cs.take n)) mode 0 (cs.drop n)
  | 0, st, cs, _, _ => by rw [List.take_zero, List.drop_zero, literal_nil]
  | n + 1, st, [], h, _ => absurd h (Nat.not_succ_le_zero n)
  | n + 1, st, c :: cs, h, hnone => by
    cases mode with
    | opened r => exact absurd (hnone 0 (Nat.succ_pos n)) (front?_opened_ne_none r _)
    | inside r =>
      have hstep := stepInside_of_front?_none st (hnone 0 (Nat.succ_pos n))
      have ih := parseFrom_literal (.inside r) n (literal st (.inside r) [c]) (Nat.le_of_succ_le_succ h) fun q hq =>
        hnone (q + 1) (Nat.succ_lt_succ hq)
      rw [parseFrom_inside, hstep, List.drop_zero, ih, literal_append]
      rfl

/-- Where a rule matches, it does what the parser does there. -/
theorem parseFrom_act {mode : Mode} {cs : List Char} {a : Action} {n : Nat} (h : front? mode cs = some (a, n))
    (st : State) :
    parseFrom st mode 0 cs =
      parseFrom (act st (cs.take n) cs a).1 (act st (cs.take n) cs a).2 0 (cs.drop n) := by
  cases mode with
  | inside r =>
    cases cs with
    | nil => cases r <;> cases h
    | cons c rest =>
      obtain ⟨hact, rfl⟩ := act_inside st h
      rw [parseFrom_inside, hact, List.drop_succ_cons]
  | opened r =>
    obtain ⟨hact, rfl⟩ := act_opened st h
    rw [hact]
    cases cs with
    | nil => cases r <;> rfl
    | cons c rest => exact parseFrom_opened st r c rest

end SnippetParser

end Scribe
