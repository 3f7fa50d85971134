import Scribe.Proofs.Pattern.Greedy
import Scribe.Proofs.Pattern.Union
import Scribe.Proofs.Snippet.Lookahead

/-!
# The grammar of snippets

The syntax of snippets written as patterns: each mode has some rules, and where the first of them matches it acts. Here
is what each of the patterns takes of the coming characters, and which rule comes next.
-/

namespace Scribe

namespace SnippetParser

open Pattern

/-- What the rules do. -/
inductive Action where
  | escape | close | reference | opening
  | choices | guard | skipToBody
  | formatColon | formatEscape | endTransform | formatReference | formatOpening | formatClose
  | formatFunction | conditionalKind | skipToFormat
  deriving DecidableEq, Repr

/-- The actions of a mode, in the order in which their patterns are tried. -/
def actions : Mode → List Action
  | .inside .body => [.escape, .close, .reference, .opening]
  | .opened .body => [.choices, .guard, .skipToBody]
  | .inside .format => [.formatColon, .formatEscape, .endTransform, .formatReference, .formatOpening, .formatClose]
  | .opened .format => [.formatFunction, .conditionalKind, .skipToFormat]

namespace Action

def pattern : Action → String
  | .escape | .formatEscape => "\\\\."
  | .close | .formatClose => "\\\x7d"
  | .reference | .formatReference => "\\$(?:\\d+|\\w+)"
  | .opening => "\\$\\\x7b[\\dA-Za-z_]+"
  | .choices => "\\|(?:\\\\.|[^\\\\|])*\\|"
  | .guard => "/((?:\\\\.|[^\\\\/])+)/"
  | .skipToBody | .skipToFormat => "(?:\\\\.|[^:\x7d\\\\])*:?"
  | .formatColon => ":"
  | .endTransform => "/\\w*\\\x7d"
  | .formatOpening => "\\$\\\x7b\\w+"
  | .formatFunction => ":/(\\w+)\\\x7d"
  | .conditionalKind => ":[?\\-+]?"

def rule (a : Action) : RulePattern := ⟨a.pattern, false⟩

end Action

def grammar (mode : Mode) : PatternUnion :=
  match PatternUnion.compile ((actions mode).map (·.rule)) with
  | .ok u => u
  | .error _ => ⟨[], none⟩

/-! ## The patterns as trees -/

/-- A backslash with any character but a line end, or a character out of a set. -/
def pieceTree (set : CharSet) : Tree :=
  .alt (.seq (.literal ['\\'] false) (.set (.compl (.single '\n')))) (.set (.compl set))

def Action.tree : Action → Tree
  | .escape | .formatEscape => .seq (.literal ['\\'] false) (.set (.compl (.single '\n')))
  | .close | .formatClose => .literal ['\x7d'] false
  | .reference | .formatReference =>
    .seq (.literal ['$'] false)
      (.alt (.repetition (.set (.kind .digit)) 1 none true) (.repetition (.set (.kind .word)) 1 none true))
  | .opening =>
    .seq (.literal ['$', '\x7b'] false)
      (.repetition (.set (.union (.union (.union (.kind .digit) (.range 65 90)) (.range 97 122)) (.single '_'))) 1 none
        true)
  | .choices =>
    .seq (.literal ['|'] false)
      (.seq (.repetition (pieceTree (.union (.single '\\') (.single '|'))) 0 none true) (.literal ['|'] false))
  | .guard =>
    .seq (.literal ['/'] false)
      (.seq (.group 1 (.repetition (pieceTree (.union (.single '\\') (.single '/'))) 1 none true))
        (.literal ['/'] false))
  | .skipToBody | .skipToFormat =>
    .seq (.repetition (pieceTree (.union (.union (.single ':') (.single '\x7d')) (.single '\\'))) 0 none true)
      (.repetition (.literal [':'] false) 0 (some 1) true)
  | .formatColon => .literal [':'] false
  | .endTransform =>
    .seq (.literal ['/'] false) (.seq (.repetition (.set (.kind .word)) 0 none true) (.literal ['\x7d'] false))
  | .formatOpening => .seq (.literal ['$', '\x7b'] false) (.repetition (.set (.kind .word)) 1 none true)
  | .formatFunction =>
    .seq (.literal [':', '/'] false)
      (.seq (.group 1 (.repetition (.set (.kind .word)) 1 none true)) (.literal ['\x7d'] false))
  | .conditionalKind =>
    .seq (.literal [':'] false)
      (.repetition (.set (.union (.union (.single '?') (.single '-')) (.single '+'))) 0 (some 1) true)

theorem exists_tree (a : Action) : ∃ p, Pattern.compile a.rule.source a.rule.caseless = .ok p ∧ p.tree = a.tree := by
  have htree : ∃ p ∈ (Pattern.compile a.pattern).toOption, p.tree = a.tree := by
    cases a <;> decide +kernel
  obtain ⟨p, hp, ht⟩ := htree
  exact ⟨p, eq_ok_of_mem_toOption hp, ht⟩

theorem hasKeep_tree (a : Action) : a.tree.hasKeep = false := by
  cases a <;> rfl

theorem allMoveWell_rules (mode : Mode) : PatternUnion.allMoveWell 1 ((actions mode).map (·.rule)) = true := by
  rcases mode with (r | r) <;> cases r <;> decide +kernel

theorem triesEach_grammar (mode : Mode) :
    PatternUnion.compile ((actions mode).map (·.rule)) = .ok (grammar mode) ∧
      (grammar mode).TriesEach ((actions mode).map (·.rule)) := by
  have hcompile : ∀ rule ∈ (actions mode).map (·.rule), ∃ p, Pattern.compile rule.source rule.caseless = .ok p := by
    intro rule hrule
    obtain ⟨a, -, rfl⟩ := List.mem_map.mp hrule
    exact (exists_tree a).imp fun _ h => h.1
  obtain ⟨u, hu, htries⟩ := PatternUnion.exists_triesEach hcompile (allMoveWell_rules mode)
  have hgrammar : grammar mode = u := by rw [grammar, hu]
  rw [hgrammar]
  exact ⟨hu, htries⟩

/-! ## What the patterns take -/

/-- Characters of a kind, one at least. -/
def nameLength? (p : Char → Bool) (cs : List Char) : Option Nat :=
  if (cs.takeWhile p).length < 1 then none else some (cs.takeWhile p).length

/-- A word of so many characters at least, and a closing brace. -/
def closedWordLength? (least : Nat) (cs : List Char) : Option Nat :=
  let n := (cs.takeWhile Unicode.isWord).length
  if n < least then none else if (cs.drop n).head? = some '\x7d' then some (n + 1) else none

def isKindSign (c : Char) : Bool := c == '?' || c == '-' || c == '+'

/-- How many of the coming characters the pattern takes, if it matches. -/
def Action.length? : Action → List Char → Option Nat
  | .escape | .formatEscape => behind? ['\\'] fun cs => if nextIs (· != '\n') cs then some 1 else none
  | .close | .formatClose => behind? ['\x7d'] fun _ => some 0
  | .reference | .formatReference => behind? ['$'] fun cs => (Lexeme.reference? cs).map (·.length)
  | .opening => behind? ['$', '\x7b'] (nameLength? Lexeme.isNameChar)
  | .choices => behind? ['|'] fun cs => (Lexeme.quotedUntil? '|' cs).map (·.length + 1)
  | .guard => behind? ['/'] fun cs =>
    (Lexeme.quotedUntil? '/' cs).bind fun inside => if inside.isEmpty then none else some (inside.length + 1)
  | .skipToBody | .skipToFormat => fun cs => some (Lexeme.skipLength cs)
  | .formatColon => behind? [':'] fun _ => some 0
  | .endTransform => behind? ['/'] (closedWordLength? 0)
  | .formatOpening => behind? ['$', '\x7b'] (nameLength? Unicode.isWord)
  | .formatFunction => behind? [':', '/'] (closedWordLength? 1)
  | .conditionalKind => behind? [':'] fun cs => some (if nextIs isKindSign cs then 1 else 0)

section
variable {input : Input} {stops : Char → Bool} {set : CharSet}

theorem holds_single (c d : Char) : (CharSet.single c).holds d = (d == c) := by
  rw [Bool.eq_iff_iff]
  simp only [CharSet.single, CharSet.holds, Bool.and_eq_true, decide_eq_true_eq, beq_iff_eq]
  constructor
  · rintro ⟨hle, hge⟩
    exact Char.toNat_inj.mp (Nat.le_antisymm hge hle)
  · rintro rfl
    exact ⟨Nat.le_refl _, Nat.le_refl _⟩

/-- How many characters a piece takes that goes on up to one of the `stops`. -/
def pieceLength? (stops : Char → Bool) : List Char → Option Nat
  | '\\' :: d :: _ => if d = '\n' then none else some 2
  | c :: _ => if stops c || c == '\\' then none else some 1
  | [] => none

theorem oneWay_escape :
    OneWay input (Action.length? .escape) (run input (.seq (.literal ['\\'] false) (.set (.compl (.single '\n'))))) := by
  have hset : CharSet.holds (.compl (.single '\n')) = (· != '\n') := by
    funext c
    simp only [CharSet.holds, holds_single, bne]
  rw [Action.length?, ← hset]
  exact (oneWay_set _).behind ['\\']

theorem oneWay_piece (hset : ∀ c, set.holds c = (stops c || c == '\\')) :
    OneWay input (pieceLength? stops) (run input (pieceTree set)) := by
  have hplain (c : Char) (hc : c ≠ '\\') (cs : List Char) : (Action.length? .escape) (c :: cs) = none := by
    rw [Action.length?, behind?_of_ne hc]
  refine (oneWay_escape.alt (oneWay_set _) fun cs hcs => ?_).congr fun cs => ?_
  · cases cs with
    | nil => rfl
    | cons c cs =>
      have hc : c = '\\' := by
        by_contra hc
        exact hcs (hplain c hc cs)
      simp [nextIs, CharSet.holds, hset, hc]
  · cases cs with
    | nil => rfl
    | cons c cs =>
      by_cases hc : c = '\\'
      · subst hc
        cases cs with
        | nil => simp [Action.length?, pieceLength?, nextIs, CharSet.holds, hset]
        | cons d cs => by_cases hd : d = '\n' <;> simp [Action.length?, pieceLength?, nextIs, CharSet.holds, hset, hd]
      · rw [hplain c hc]
        cases hs : stops c <;> simp [pieceLength?, nextIs, CharSet.holds, hset, hc, hs]

theorem addsUp_lengthUntil (stops : Char → Bool) : AddsUp (pieceLength? stops) (Lexeme.lengthUntil stops) where
  bounds {cs n} h := by
    unfold pieceLength? at h
    split at h <;> first | (split at h <;> cases h <;> simp) | cases h
  ends {cs} h := by
    revert h
    fun_cases pieceLength? stops cs with
    | case1 cs => simp [Lexeme.lengthUntil]
    | case2 | case4 =>
      intro h
      cases h
    | case3 c cs _ hc => simp [Lexeme.lengthUntil, hc]
    | case5 => simp [Lexeme.lengthUntil]
  goes {cs n} h := by
    revert h
    fun_cases pieceLength? stops cs with
    | case1 | case3 | case5 =>
      intro h
      cases h
    | case2 d cs hd =>
      rintro ⟨⟩
      rw [Lexeme.lengthUntil_escaped hd, Nat.add_comm]
      rfl
    | case4 c cs _ hc =>
      rintro ⟨⟩
      simp only [Bool.or_eq_true, beq_iff_eq, not_or, Bool.not_eq_true] at hc
      rw [Lexeme.lengthUntil_plain hc.1 hc.2, Nat.add_comm]
      rfl

theorem longestWay_quoted (hset : ∀ c, set.holds c = (stops c || c == '\\')) :
    LongestWay input (fun cs => (pieceLength? stops cs).isSome) (fun cs => some (Lexeme.lengthUntil stops cs))
      (run input (.repetition (pieceTree set) 0 none true)) :=
  longestWay_pieces (oneWay_piece hset) rfl (addsUp_lengthUntil stops)

theorem longestWay_quoted_one (hset : ∀ c, set.holds c = (stops c || c == '\\')) :
    LongestWay input (fun cs => (pieceLength? stops cs).isSome)
      (fun cs => if Lexeme.lengthUntil stops cs = 0 then none else some (Lexeme.lengthUntil stops cs))
      (run input (.repetition (pieceTree set) 1 none true)) :=
  longestWay_pieces_one (oneWay_piece hset) rfl (addsUp_lengthUntil stops)

theorem firstWay_reference : FirstWay input (Action.length? .reference) Action.reference.tree := by
  rw [Action.length?]
  refine (((longestWay_set _ 1).firstWay.alt (longestWay_set _ 1).firstWay).congr fun cs => ?_).behind ['$']
  have hdigits : CharSet.holds (.kind .digit) = Unicode.isDecimal := rfl
  have hword : CharSet.holds (.kind .word) = Unicode.isWord := rfl
  simp only [Lexeme.reference?, hdigits, hword]
  generalize cs.takeWhile Unicode.isDecimal = digits, cs.takeWhile Unicode.isWord = word
  cases digits <;> cases word <;> simp

theorem length_take_lengthUntil (stops : Char → Bool) (cs : List Char) :
    (cs.take (Lexeme.lengthUntil stops cs)).length = Lexeme.lengthUntil stops cs :=
  List.length_take_of_le (Lexeme.lengthUntil_le cs)

theorem holds_quoted (stop c : Char) :
    CharSet.holds (.union (.single '\\') (.single stop)) c = (c == stop || c == '\\') := by
  simp only [CharSet.holds, holds_single, Bool.or_comm]

theorem firstWay_choices : FirstWay input (Action.length? .choices) Action.choices.tree := by
  rw [Action.length?]
  refine (((longestWay_quoted (holds_quoted '|')).firstWay_stop fun cs => ?_).congr fun cs => ?_).behind ['|']
  · simp [pieceLength?]
  · rw [Lexeme.quotedUntil?_eq (by decide), Option.bind_some]
    split
    · rw [Option.map_some, length_take_lengthUntil]
    · rfl

theorem firstWay_guard : FirstWay input (Action.length? .guard) Action.guard.tree := by
  rw [Action.length?]
  refine (((longestWay_quoted_one (holds_quoted '/')).firstWay_group_stop (fun cs => ?_) 1).congr fun cs => ?_).behind ['/']
  · simp [pieceLength?]
  · -- a guard that is empty is none, as there has to be one piece
    have hempty : (cs.take (Lexeme.lengthUntil (· == '/') cs)).isEmpty = true ↔ Lexeme.lengthUntil (· == '/') cs = 0 := by
      rw [List.isEmpty_iff_length_eq_zero, length_take_lengthUntil]
    rw [Lexeme.quotedUntil?_eq (by decide)]
    by_cases hzero : Lexeme.lengthUntil (· == '/') cs = 0
    · rw [if_pos hzero]
      split
      · rw [Option.bind_some, if_pos (hempty.mpr hzero)]
        rfl
      · rfl
    · rw [if_neg hzero, Option.bind_some]
      split
      · rw [Option.bind_some, if_neg (mt hempty.mp hzero), length_take_lengthUntil]
      · rfl

theorem firstWay_skip : FirstWay input (Action.length? .skipToBody) Action.skipToBody.tree := by
  have hset (c : Char) : CharSet.holds (.union (.union (.single ':') (.single '\x7d')) (.single '\\')) c =
      (Lexeme.endsSkip c || c == '\\') := by
    simp only [CharSet.holds, holds_single, Lexeme.endsSkip]
  rw [Action.length?]
  refine ((longestWay_quoted hset).firstWay_seq (firstWay_optional rfl)).congr fun cs => ?_
  rw [Lexeme.skipLength_eq, Option.map_some]
  congr 2
  generalize cs.drop (Lexeme.lengthUntil Lexeme.endsSkip cs) = rest
  cases rest <;> simp [nextIs]

/-- A word in front of a closing brace, which ends it. -/
theorem longestWay_word (least : Nat) :
    LongestWay input (nextIs Unicode.isWord)
      (fun cs => if (cs.takeWhile Unicode.isWord).length < least then none else some (cs.takeWhile Unicode.isWord).length)
      (run input (.repetition (.set (.kind .word)) least none true)) :=
  longestWay_set (.kind .word) least

theorem bind_closedWord (least : Nat) (cs : List Char) :
    ((if (cs.takeWhile Unicode.isWord).length < least then none else some (cs.takeWhile Unicode.isWord).length).bind
      fun n => if (cs.drop n).head? = some '\x7d' then some (n + 1) else none) = closedWordLength? least cs := by
  unfold closedWordLength?
  dsimp only
  split <;> rfl

theorem firstWay_kind : FirstWay input (Action.length? .conditionalKind) Action.conditionalKind.tree := by
  have hset : CharSet.holds (.union (.union (.single '?') (.single '-')) (.single '+')) = isKindSign := by
    funext c
    simp only [CharSet.holds, holds_single, isKindSign]
  rw [Action.length?, ← hset]
  exact (firstWay_optional rfl).behind [':']

theorem isAlpha_eq (c : Char) :
    (c.toNat < 0x80 && c.isAlpha) = ((65 ≤ c.toNat && c.toNat ≤ 90) || (97 ≤ c.toNat && c.toNat ≤ 122)) := by
  have hc : c.toNat = c.val.toNat := rfl
  have halpha : c.isAlpha = (decide (65 ≤ c.val ∧ c.val ≤ 90) || (decide (97 ≤ c.val) && decide (c.val ≤ 122))) := rfl
  rw [Bool.eq_iff_iff, halpha, hc]
  simp only [Bool.or_eq_true, Bool.and_eq_true, decide_eq_true_eq, UInt32.le_iff_toNat_le, UInt32.reduceToNat]
  omega

theorem holds_nameChar :
    CharSet.holds (.union (.union (.union (.kind .digit) (.range 65 90)) (.range 97 122)) (.single '_')) =
      Lexeme.isNameChar := by
  funext c
  simp only [CharSet.holds, CharKind.holds, holds_single, Lexeme.isNameChar, isAlpha_eq, Bool.or_assoc]

/-- Each pattern takes what `length?` says. -/
theorem firstWay_tree (a : Action) : FirstWay input a.length? a.tree := by
  cases a with
  | escape | formatEscape => exact oneWay_escape.firstWay
  | close | formatClose | formatColon => exact (oneWay_literal _).firstWay
  | reference | formatReference => exact firstWay_reference
  | opening =>
    rw [Action.length?, ← holds_nameChar]
    exact (longestWay_set _ 1).firstWay.behind _
  | choices => exact firstWay_choices
  | guard => exact firstWay_guard
  | skipToBody | skipToFormat => exact firstWay_skip
  | endTransform => exact (((longestWay_word 0).firstWay_stop fun _ => rfl).congr (bind_closedWord 0)).behind _
  | formatOpening => exact (longestWay_word 1).firstWay.behind _
  | formatFunction => exact (((longestWay_word 1).firstWay_group_stop (fun _ => rfl) 1).congr (bind_closedWord 1)).behind _
  | conditionalKind => exact firstWay_kind

end

/-- Only what passes over can take nothing. -/
theorem length?_pos {a : Action} {cs : List Char} {n : Nat} (h : a.length? cs = some n) (hbody : a ≠ .skipToBody)
    (hformat : a ≠ .skipToFormat) : 0 < n := by
  cases a with
  | skipToBody => exact absurd rfl hbody
  | skipToFormat => exact absurd rfl hformat
  | _ =>
    rw [Action.length?] at h
    exact Nat.lt_of_lt_of_le (Nat.succ_pos _) (le_of_behind? h)

/-! ## The next rule -/

/-- The first rule that matches in front of these characters, and how many of them it takes. -/
def front? (mode : Mode) (cs : List Char) : Option (Action × Nat) :=
  (actions mode).findSome? fun a => (a.length? cs).map fun n => (a, n)

/-- The next match of a rule from this place on. -/
def next? (mode : Mode) (text : Array Char) (pos : Nat) : Option (Action × Span) := do
  let m ← (grammar mode).find? text pos
  let a ← (actions mode)[m.rule]?
  return (a, m.whole)

theorem pos_matchAt (a : Action) (text : Array Char) (origin place : Nat) :
    (a.rule.matchAt ⟨text, origin⟩ place).map Progress.pos = (a.length? (text.toList.drop place)).map (place + ·) := by
  obtain ⟨p, hp, ht⟩ := exists_tree a
  rw [RulePattern.matchAt_of_compile hp, Pattern.matchAt, ht]
  exact firstWay_tree a _

theorem matchAt_eq_none_iff (a : Action) (text : Array Char) (origin place : Nat) :
    a.rule.matchAt ⟨text, origin⟩ place = none ↔ a.length? (text.toList.drop place) = none := by
  rw [← Option.map_eq_none_iff (f := Progress.pos), pos_matchAt, Option.map_eq_none_iff]

/-- Inside of a body or a format every match takes something. -/
theorem isEmpty_of_find? {r : Region} {a : Action} (ha : a ∈ actions (.inside r)) {text : Array Char} {start : Nat}
    {m : Match} (h : a.rule.find? text start = some m) : m.whole.isEmpty = false := by
  obtain ⟨place, own, -, hin, hown, -, rfl⟩ := RulePattern.find?_eq_some_iff.mp h
  obtain ⟨p, hp, ht⟩ := exists_tree a
  have hstart : own.report.whole.start = place :=
    start_report (ht ▸ hasKeep_tree a) hin ((RulePattern.matchAt_of_compile hp _ _).symm.trans hown)
  have hlength := pos_matchAt a text start place
  rw [hown] at hlength
  obtain ⟨n, hn, hsum⟩ := Option.map_eq_some_iff.mp hlength.symm
  have hbody : .skipToBody ∉ actions (.inside r) := by cases r <;> decide
  have hformat : .skipToFormat ∉ actions (.inside r) := by cases r <;> decide
  have hpos : 0 < n := length?_pos hn (fun he => hbody (he ▸ ha)) (fun he => hformat (he ▸ ha))
  have hstop : own.report.whole.stop = place + n := hsum.symm
  rw [Span.isEmpty, hstart, hstop, decide_eq_false_iff_not]
  omega

theorem front?_eq_none_iff {mode : Mode} {cs : List Char} :
    front? mode cs = none ↔ ∀ a ∈ actions mode, a.length? cs = none := by
  simp [front?, List.findSome?_eq_none_iff]

section
variable {mode : Mode} {text : Array Char} {pos : Nat}

theorem front?_of_next?_none (h : next? mode text pos = none) :
    ∀ q, pos ≤ q → q ≤ text.size → front? mode (text.toList.drop q) = none := by
  intro q hle hin
  refine front?_eq_none_iff.mpr fun a ha => ?_
  rcases (triesEach_grammar mode).2 text pos with ⟨-, hrules⟩ | ⟨m, place, rule, own, hm, hfound⟩
  · have hrule := hrules a.rule (List.mem_map_of_mem ha)
    exact (matchAt_eq_none_iff a text pos q).mp (RulePattern.find?_eq_none_iff.mp hrule q hle hin)
  · have hindex := hfound.getElem
    rw [List.getElem?_map] at hindex
    obtain ⟨b, hb, -⟩ := Option.map_eq_some_iff.mp hindex
    simp [next?, hm, hb] at h

theorem front?_of_getElem? {cs : List Char} {i n : Nat} {a : Action} (ha : (actions mode)[i]? = some a)
    (hlength : a.length? cs = some n) (hbefore : ∀ b ∈ (actions mode).take i, b.length? cs = none) :
    front? mode cs = some (a, n) := by
  obtain ⟨hi, ha⟩ := List.getElem?_eq_some_iff.mp ha
  have hsplit : actions mode = (actions mode).take i ++ a :: (actions mode).drop (i + 1) := by
    rw [← ha, ← List.drop_eq_getElem_cons hi, List.take_append_drop]
  refine List.findSome?_eq_some_iff.mpr ⟨_, a, _, hsplit, by rw [hlength]; rfl, fun b hb => ?_⟩
  rw [hbefore b hb]
  rfl

/-- A match stands where a rule matches first, it is that rule which matches there, and the match lies in the text. -/
theorem front?_of_next? {a : Action} {span : Span} (h : next? mode text pos = some (a, span)) :
    pos ≤ span.start ∧ span.start ≤ span.stop ∧ span.stop ≤ text.size ∧
      front? mode (text.toList.drop span.start) = some (a, span.stop - span.start) ∧
      ∀ q, pos ≤ q → q < span.start → front? mode (text.toList.drop q) = none := by
  simp only [next?, Option.bind_eq_bind, Option.bind_eq_some_iff] at h
  obtain ⟨m, hm, b, hb, hpair⟩ := h
  cases hpair
  obtain ⟨hstop, hsize⟩ : m.whole.start ≤ m.whole.stop ∧ m.whole.stop ≤ text.size := by
    obtain ⟨-, p, m', -, hfind, hwhole⟩ := PatternUnion.find?_eq_some hm
    rw [hwhole]
    exact find?_bounds hfind
  obtain ⟨place, rule, own, hfound⟩ := (triesEach_grammar mode).2.found hm
  have hrule := hfound.getElem
  rw [List.getElem?_map, hb] at hrule
  cases hrule
  obtain ⟨p, hp, ht⟩ := exists_tree a
  have hstart : m.whole.start = place :=
    (congrArg Span.start hfound.whole).trans (hfound.start_eq hp (ht ▸ hasKeep_tree a))
  have hpos : m.whole.stop = own.pos := congrArg Span.stop hfound.whole
  have hlength : (a.length? (text.toList.drop place)).map (place + ·) = some own.pos := by
    rw [← pos_matchAt a text pos, hfound.hit]
    rfl
  obtain ⟨n, hn, hsum⟩ := Option.map_eq_some_iff.mp hlength
  rw [hstart] at hstop ⊢
  refine ⟨hfound.begins, hstop, hsize, ?_, fun q hle hlt => front?_eq_none_iff.mpr fun b hb => ?_⟩
  · have hwidth : m.whole.stop - place = n := by
      rw [hpos, ← hsum]
      exact Nat.add_sub_cancel_left _ _
    rw [hwidth]
    refine front?_of_getElem? hb hn fun b hb => ?_
    refine (matchAt_eq_none_iff b text pos place).mp (hfound.before b.rule ?_)
    rw [← List.map_take]
    exact List.mem_map_of_mem hb
  · exact (matchAt_eq_none_iff b text pos q).mp (hfound.earlier b.rule (List.mem_map_of_mem hb) q hle hlt)

end

end SnippetParser

end Scribe
