import Scribe.Snippet.Parser
import Mathlib.Data.List.TakeWhile

/-!
# Snippets written out

A snippet is a tree of texts and of placeholders that hold a snippet in turn. Written out, with a backslash
before each character that would mean something else, it parses to the tokens of the tree: a placeholder opens,
holds what is in it and closes, and the markers count the openings.
-/

namespace Scribe

inductive SnippetNode where
  | text (s : String)
  | tabstop (id : Nat) (body : List SnippetNode)
  | choice (id : Nat) (choices : List String)
  | var (name : String) (body : List SnippetNode)
  deriving Repr

/-- A name in ASCII that no digit begins. -/
def isIdentifier : List Char → Bool
  | [] => false
  | c :: rest => (c.isAlpha || c == '_') && rest.all fun d => d.isAlphanum || d == '_'

namespace SnippetNode

def isText : SnippetNode → Bool
  | .text _ => true
  | _ => false

mutual

/-- Texts are not empty and stand apart, numbers have 64 bits, and there is something to choose from. -/
def Proper : SnippetNode → Prop
  | .text s => s ≠ ""
  | .tabstop id body => id < Nat.pow 2 64 ∧ ProperAll body
  | .choice id choices => id < Nat.pow 2 64 ∧ choices ≠ []
  | .var name body => isIdentifier name.toList = true ∧ ProperAll body

def ProperAll : List SnippetNode → Prop
  | [] => True
  | n :: rest => n.Proper ∧ (∀ m ∈ rest.head?, n.isText = true → m.isText = false) ∧ ProperAll rest

end

/-- A backslash before each special character. -/
def escaped (special : Char → Bool) (text : List Char) : List Char :=
  text.flatMap fun c => if special c then ['\\', c] else [c]

/-- What has a meaning in a body, the closing brace only inside of a placeholder. -/
def isSpecial (inside : Bool) (c : Char) : Bool := c == '\\' || c == '$' || (inside && c == '\x7d')

def isSpecialInChoice (c : Char) : Bool := c == '\\' || c == ',' || c == '|'

def writtenChoices (choices : List String) : List Char :=
  Text.joinWith [','] (choices.map fun s => escaped isSpecialInChoice s.toList)

mutual

def written (inside : Bool) : SnippetNode → List Char
  | .text s => escaped (isSpecial inside) s.toList
  | .tabstop id body => '$' :: '\x7b' :: (Nat.toDigits 10 id ++ ':' :: (writtenAll true body ++ ['\x7d']))
  | .choice id choices => '$' :: '\x7b' :: (Nat.toDigits 10 id ++ '|' :: (writtenChoices choices ++ ['|', '\x7d']))
  | .var name body => '$' :: '\x7b' :: (name.toList ++ ':' :: (writtenAll true body ++ ['\x7d']))

def writtenAll (inside : Bool) : List SnippetNode → List Char
  | [] => []
  | n :: rest => n.written inside ++ writtenAll inside rest

end

mutual

/-- How many placeholders there are, nested ones counted. -/
def openings : SnippetNode → Nat
  | .text _ => 0
  | .tabstop _ body | .var _ body => openingsAll body + 1
  | .choice _ _ => 1

def openingsAll : List SnippetNode → Nat
  | [] => 0
  | n :: rest => n.openings + openingsAll rest

end

mutual

/-- The tokens, their markers from `marker` on. -/
def tokens (marker : Nat) : SnippetNode → List SnippetToken
  | .text s => [.text s]
  | .tabstop id body =>
    .tabstop { marker, id } :: (tokensAll (marker + 1) body ++ [.tabstop { marker, id }])
  | .choice id choices =>
    let mark := .tabstop { marker, id, choices := some choices }
    let first := choices.head?.getD ""
    mark :: ((if first.isEmpty then [] else [.text first]) ++ [mark])
  | .var name body => .var { marker, name } :: (tokensAll (marker + 1) body ++ [.var { marker, name }])

def tokensAll (marker : Nat) : List SnippetNode → List SnippetToken
  | [] => []
  | n :: rest => n.tokens marker ++ tokensAll (marker + n.openings) rest

end

end SnippetNode

namespace SnippetParser

open SnippetNode

/-! ## Characters and texts -/

theorem parseFrom_skip (st : State) (mode : Mode) (rest : List Char) :
    ∀ xs : List Char, parseFrom st mode xs.length (xs ++ rest) = parseFrom st mode 0 rest
  | [] => rfl
  | _ :: xs => parseFrom_skip st mode rest xs

theorem parseFrom_body (st : State) (c : Char) (rest : List Char) :
    parseFrom st (.inside .body) 0 (c :: rest) =
      parseFrom (stepBody st c rest).1 (stepBody st c rest).2.1 (stepBody st c rest).2.2 rest := rfl

namespace State

/-- Whether a text would join the last token. -/
def EndsInText (st : State) : Prop := ∃ t, st.tokens.back? = some (.text t)

theorem pushText_of_not_endsInText {st : State} (h : ¬st.EndsInText) {s : String} (hs : s ≠ "") :
    st.pushText s = st.push (.text s) := by
  unfold pushText
  rw [if_neg (by simpa using hs)]
  split
  · rename_i t ht
    exact absurd ⟨t, ht⟩ h
  · rfl

theorem pushText_of_endsInText {st : State} {s t : String} (h : st.tokens.back? = some (.text t)) (hs : s ≠ "") :
    st.pushText s = { st with tokens := st.tokens.pop.push (.text (t ++ s)) } := by
  unfold pushText
  rw [if_neg (by simpa using hs), h]

theorem pushText_pushText (st : State) (s t : String) : (st.pushText s).pushText t = st.pushText (s ++ t) := by
  by_cases hs : s = ""
  · simp [hs, pushText]
  by_cases ht : t = ""
  · simp [ht, pushText]
  have hst : s ++ t ≠ "" := by simp [hs]
  by_cases h : st.EndsInText
  · obtain ⟨u, hu⟩ := h
    rw [pushText_of_endsInText hu hs, pushText_of_endsInText hu hst,
      pushText_of_endsInText (t := u ++ s) (by simp) ht]
    simp [String.append_assoc]
  · rw [pushText_of_not_endsInText h hs, pushText_of_not_endsInText h hst,
      pushText_of_endsInText (t := s) (by simp [State.push]) ht]
    simp [State.push]

theorem frames_pushText (st : State) (s : String) : (st.pushText s).frames = st.frames := by
  unfold pushText
  split
  · rfl
  · split <;> rfl

end State

theorem stepBody_plain {c : Char} (h : c ≠ '\\') (h' : c ≠ '$') (st : State) (rest : List Char)
    (hclose : c = '\x7d' → st.frames = []) :
    stepBody st c rest = (st.pushText (String.ofList [c]), .inside .body, 0) := by
  by_cases hc : c = '\x7d'
  · subst hc
    simp [stepBody, Lexeme.body, hclose rfl]
  · simp [stepBody, Lexeme.body]

theorem stepBody_escape {c : Char} (st : State) (rest : List Char) (h : isSpecial (!st.frames.isEmpty) c = true) :
    stepBody st '\\' (c :: rest) = (st.pushText (String.ofList [c]), .inside .body, 1) := by
  simp only [isSpecial, Bool.or_eq_true, beq_iff_eq, Bool.and_eq_true] at h
  rcases h with (rfl | rfl) | ⟨hf, rfl⟩
  · simp [stepBody, Lexeme.body]
  · simp [stepBody, Lexeme.body]
  · simp [stepBody, Lexeme.body, hf]

theorem escaped_cons (special : Char → Bool) (c : Char) (cs : List Char) :
    escaped special (c :: cs) = (if special c then ['\\', c] else [c]) ++ escaped special cs := rfl

theorem parseFrom_escaped (inside : Bool) (rest : List Char) : ∀ (cs : List Char) (st : State),
    inside = !st.frames.isEmpty →
    parseFrom st (.inside .body) 0 (escaped (isSpecial inside) cs ++ rest) =
      parseFrom (st.pushText (String.ofList cs)) (.inside .body) 0 rest
  | [], st, _ => rfl
  | c :: cs, st, hin => by
    have ih := parseFrom_escaped inside rest cs (st.pushText (String.ofList [c])) (by rw [hin, State.frames_pushText])
    rw [State.pushText_pushText, ← String.ofList_append] at ih
    rw [escaped_cons, List.append_assoc]
    refine .trans ?_ ih
    by_cases hc : isSpecial inside c
    · rw [if_pos hc]
      show parseFrom st (.inside .body) 0 ('\\' :: c :: _) = _
      rw [parseFrom_body, stepBody_escape st _ (hin ▸ hc)]
      rfl
    · rw [if_neg hc]
      simp only [isSpecial, Bool.or_eq_true, beq_iff_eq, Bool.and_eq_true, not_or, not_and] at hc
      show parseFrom st (.inside .body) 0 (c :: _) = _
      have hclose (h : c = '\x7d') : st.frames = [] := by
        have hout : inside ≠ true := fun hi => hc.2 hi h
        simpa [hin] using hout
      rw [parseFrom_body, stepBody_plain hc.1.1 hc.1.2 st _ hclose]
      rfl

/-! ## Placeholders -/

theorem reference?_brace (rest : List Char) : Lexeme.reference? ('\x7b' :: rest) = none := by
  simp [Lexeme.reference?, Unicode.isDecimal, Unicode.isWord]

/-- A name, with what ends it. -/
theorem takeWhile_name {p : Char → Bool} {name : List Char} (h : ∀ c ∈ name, p c = true) {stop : Char}
    (hstop : p stop = false) (rest : List Char) : (name ++ stop :: rest).takeWhile p = name := by
  rw [List.takeWhile_append_of_pos h, List.takeWhile_cons_of_neg (by simp [hstop]), List.append_nil]

def State.opened (st : State) (name source : List Char) : State :=
  { st.pushReference name with frames := ⟨st.tokens.size, source⟩ :: st.frames }

theorem parseFrom_opening (st : State) {name : List Char} (hne : name ≠ [])
    (h : ∀ c ∈ name, Lexeme.isNameChar c = true) {stop : Char} (hstop : Lexeme.isNameChar stop = false)
    (rest : List Char) : ∃ source,
    parseFrom st (.inside .body) 0 ('$' :: '\x7b' :: (name ++ stop :: rest)) =
      parseFrom (st.opened name source) (.opened .body) 0 (stop :: rest) := by
  refine ⟨'$' :: '\x7b' :: (name ++ stop :: rest), ?_⟩
  have hlex : Lexeme.body '$' ('\x7b' :: (name ++ stop :: rest)) = (.opening name, name.length + 1) := by
    simp [Lexeme.body, reference?_brace, takeWhile_name h hstop, hne]
  rw [parseFrom_body, stepBody, hlex]
  exact parseFrom_skip _ _ (stop :: rest) ('\x7b' :: name)

/-- The closing brace writes the opening token again. -/
theorem parseFrom_close {st : State} {f : Frame} {outer : List Frame} (hf : st.frames = f :: outer)
    {opening : SnippetToken} (ho : st.tokens[f.token]? = some opening) (rest : List Char) :
    parseFrom st (.inside .body) 0 ('\x7d' :: rest) =
      parseFrom { st with tokens := st.tokens.push opening, frames := outer } (.inside .body) 0 rest := by
  have hstep : stepBody st '\x7d' rest =
      ({ st with tokens := st.tokens.push opening, frames := outer }, .inside .body, 0) := by
    simp [stepBody, Lexeme.body, hf, State.close, ho]
  rw [parseFrom_body, hstep]

theorem parseFrom_colon (st : State) (rest : List Char) :
    parseFrom st (.opened .body) 0 (':' :: rest) = parseFrom st (.inside .body) 0 rest := rfl

/-! ## Names -/

theorem isNameChar_of_isDigit {c : Char} (h : c.isDigit = true) : Lexeme.isNameChar c = true := by
  have hc : c.toNat < 0x80 := by
    simp only [Char.isDigit, Bool.and_eq_true, decide_eq_true_eq] at h
    have := UInt32.le_iff_toNat_le.mp h.2
    simp only [Char.toNat]
    exact Nat.lt_of_le_of_lt this (by decide)
  simp [Lexeme.isNameChar, Unicode.isDecimal, hc, h]

theorem isNameChar_toDigits (id : Nat) : ∀ c ∈ Nat.toDigits 10 id, Lexeme.isNameChar c = true :=
  fun _ hc => isNameChar_of_isDigit (Nat.isDigit_of_mem_toDigits (by decide) (by decide) hc)

theorem digits64?_toDigits {id : Nat} (h : id < Nat.pow 2 64) : Text.digits64? (Nat.toDigits 10 id) = some id := by
  have hall : (Nat.toDigits 10 id).all Char.isDigit = true :=
    List.all_eq_true.mpr fun c hc => Nat.isDigit_of_mem_toDigits (by decide) (by decide) hc
  have hvalue : (Nat.toDigits 10 id).foldl (fun n d => 10 * n + (d.toNat - 48)) 0 = id := by
    have := Nat.ofDigitChars_toDigits (b := 10) (n := id) (by decide) (by decide)
    rwa [Nat.ofDigitChars_eq_foldl] at this
  simp only [Text.digits64?, hall, hvalue, if_pos h]
  simp [Nat.toDigits_ne_nil]

theorem isAscii_of_isAlpha {c : Char} (h : c.isAlpha = true) : c.toNat < 0x80 ∧ c.isDigit = false := by
  have h' : (decide (c.val ≥ 'A'.val ∧ c.val ≤ 'Z'.val) || (decide (c.val ≥ 'a'.val) && decide (c.val ≤ 'z'.val))) =
    true := h
  simp only [Bool.or_eq_true, Bool.and_eq_true, decide_eq_true_eq, UInt32.le_iff_toNat_le, ge_iff_le] at h'
  simp only [Char.isDigit, Bool.and_eq_false_iff, decide_eq_false_iff_not, UInt32.le_iff_toNat_le, ge_iff_le]
  have hc : c.toNat = c.val.toNat := rfl
  have hz : 'z'.val.toNat = 122 := rfl
  have hZ : 'Z'.val.toNat = 90 := rfl
  have hA : 'A'.val.toNat = 65 := rfl
  have ha : 'a'.val.toNat = 97 := rfl
  have h9 : '9'.val.toNat = 57 := rfl
  omega

theorem isNameChar_of_isAlpha {c : Char} (h : c.isAlpha = true) : Lexeme.isNameChar c = true := by
  simp [Lexeme.isNameChar, h, (isAscii_of_isAlpha h).1]

theorem name_of_isIdentifier : ∀ {name : List Char}, isIdentifier name = true →
    name ≠ [] ∧ (∀ c ∈ name, Lexeme.isNameChar c = true) ∧ Text.digits64? name = none
  | [], h => by cases h
  | c :: name, h => by
    simp only [isIdentifier, Bool.and_eq_true, Bool.or_eq_true, beq_iff_eq, List.all_eq_true,
      Char.isAlphanum] at h
    obtain ⟨hfirst, hrest⟩ := h
    have hdigit : c.isDigit = false := by
      rcases hfirst with h | rfl
      · exact (isAscii_of_isAlpha h).2
      · rfl
    refine ⟨by simp, fun d hd => ?_, by simp [Text.digits64?, hdigit]⟩
    rcases List.mem_cons.mp hd with rfl | hd
    · rcases hfirst with h | rfl
      · exact isNameChar_of_isAlpha h
      · rfl
    · rcases hrest d hd with (h | h) | rfl
      · exact isNameChar_of_isAlpha h
      · exact isNameChar_of_isDigit h
      · rfl

/-! ## Choices -/

theorem quotedUntil?_escaped (rest : List Char) : ∀ cs : List Char,
    Lexeme.quotedUntil? '|' (escaped isSpecialInChoice cs ++ rest) =
      (Lexeme.quotedUntil? '|' rest).map (escaped isSpecialInChoice cs ++ ·)
  | [] => by simp [escaped]
  | c :: cs => by
    have ih := quotedUntil?_escaped rest cs
    rw [escaped_cons, List.append_assoc]
    by_cases hc : isSpecialInChoice c
    · have hne : c ≠ '\n' := by
        rintro rfl
        revert hc
        decide
      simp [hc, Lexeme.quotedUntil?, hne, ih, Option.map_map, Function.comp_def]
    · simp only [isSpecialInChoice, Bool.or_eq_true, beq_iff_eq, not_or] at hc
      have hspecial : isSpecialInChoice c = false := by simp [isSpecialInChoice, hc]
      simp [hspecial, Lexeme.quotedUntil?, hc, ih, Option.map_map, Function.comp_def]

theorem writtenChoices_cons (s t : String) (more : List String) :
    writtenChoices (s :: t :: more) =
      escaped isSpecialInChoice s.toList ++ ',' :: writtenChoices (t :: more) := by
  simp [writtenChoices, Text.joinWith]

theorem quotedUntil?_choices (rest : List Char) : ∀ choices : List String,
    Lexeme.quotedUntil? '|' (writtenChoices choices ++ '|' :: rest) = some (writtenChoices choices)
  | [] => by simp [writtenChoices, Text.joinWith, Lexeme.quotedUntil?]
  | [s] => by
    have := quotedUntil?_escaped ('|' :: rest) s.toList
    simpa [writtenChoices, Text.joinWith, Lexeme.quotedUntil?] using this
  | s :: t :: more => by
    have ih := quotedUntil?_choices rest (t :: more)
    rw [writtenChoices_cons, List.append_assoc, quotedUntil?_escaped]
    simp [Lexeme.quotedUntil?, ih]

theorem choicesFrom_escaped (rest : List Char) : ∀ (cs current : List Char),
    choicesFrom current (escaped isSpecialInChoice cs ++ rest) = choicesFrom (cs.reverse ++ current) rest
  | [], _ => rfl
  | c :: cs, current => by
    have ih := choicesFrom_escaped rest cs (c :: current)
    rw [escaped_cons, List.append_assoc, List.reverse_cons, List.append_assoc, List.singleton_append, ← ih]
    by_cases hc : isSpecialInChoice c
    · rw [if_pos hc]
      simp only [isSpecialInChoice, Bool.or_eq_true, beq_iff_eq] at hc
      rcases hc with (rfl | rfl) | rfl <;> simp [choicesFrom]
    · simp only [isSpecialInChoice, Bool.or_eq_true, beq_iff_eq, not_or] at hc
      have hspecial : isSpecialInChoice c = false := by simp [isSpecialInChoice, hc]
      simp [hspecial, choicesFrom, hc]

theorem choices_writtenChoices : ∀ choices : List String, choices ≠ [] →
    SnippetParser.choices (writtenChoices choices) = choices
  | [], h => absurd rfl h
  | [s], _ => by
    have := choicesFrom_escaped [] s.toList []
    simpa [writtenChoices, Text.joinWith, SnippetParser.choices, choicesFrom] using this
  | s :: t :: more, _ => by
    have ih := choices_writtenChoices (t :: more) (by simp)
    rw [writtenChoices_cons, SnippetParser.choices, choicesFrom_escaped, List.append_nil]
    have hcomma : choicesFrom s.toList.reverse (',' :: writtenChoices (t :: more)) =
        s :: SnippetParser.choices (writtenChoices (t :: more)) := by
      simp [choicesFrom, SnippetParser.choices]
    rw [hcomma, ih]

theorem stepAfterName_choices {st : State} {f : Frame} {outer : List Frame} (hf : st.frames = f :: outer)
    {choices : List String} (hne : choices ≠ []) (rest : List Char) :
    stepAfterName st ('|' :: (writtenChoices choices ++ '|' :: rest)) =
      (({ st with tokens := st.tokens.modify f.token (SnippetToken.withChoices choices) } : State).pushText
        (choices.head?.getD ""), .body, (writtenChoices choices).length + 2) := by
  simp [stepAfterName, Lexeme.afterName, quotedUntil?_choices, choices_writtenChoices choices hne, hf]

theorem parseFrom_choices {st : State} {f : Frame} {outer : List Frame} (hf : st.frames = f :: outer)
    {choices : List String} (hne : choices ≠ []) (rest : List Char) :
    parseFrom st (.opened .body) 0 ('|' :: (writtenChoices choices ++ '|' :: rest)) =
      parseFrom (({ st with tokens := st.tokens.modify f.token (SnippetToken.withChoices choices) } : State).pushText
        (choices.head?.getD "")) (.inside .body) 0 rest := by
  have hstep : stepOpened st .body ('|' :: (writtenChoices choices ++ '|' :: rest)) = _ :=
    stepAfterName_choices hf hne rest
  rw [parseFrom, hstep]
  have hskip := fun st => parseFrom_skip st (.inside .body) rest (writtenChoices choices ++ ['|'])
  simpa using hskip _

/-! ## Trees -/

/-- The state once these tokens have been read. -/
def State.wrote (st : State) (out : List SnippetToken) (openings : Nat) : State :=
  { st with tokens := st.tokens ++ out.toArray, nextMarker := st.nextMarker + openings }

theorem State.wrote_wrote (st : State) (out more : List SnippetToken) (openings others : Nat) :
    (st.wrote out openings).wrote more others = st.wrote (out ++ more) (openings + others) := by
  simp [State.wrote, Nat.add_assoc]

theorem State.not_endsInText_push (st : State) {token : SnippetToken} (h : token.text? = none) :
    ¬(st.push token).EndsInText := by
  rintro ⟨t, ht⟩
  simp only [State.push, Array.back?_push, Option.some.injEq] at ht
  simp [ht, SnippetToken.text?] at h

section
variable {st : State} {name : List Char} {token : SnippetToken}

/-- The token that a name stands for. -/
def State.Refers (st : State) (name : List Char) (token : SnippetToken) : Prop :=
  token.text? = none ∧ st.pushReference name = { st.push token with nextMarker := st.nextMarker + 1 }

theorem State.refers_tabstop (st : State) {id : Nat} (h : id < Nat.pow 2 64) :
    st.Refers (Nat.toDigits 10 id) (.tabstop { marker := st.nextMarker, id }) :=
  ⟨rfl, by simp [State.pushReference, digits64?_toDigits h]⟩

theorem State.opened_tabstop (st : State) {id : Nat} (h : id < Nat.pow 2 64) (source : List Char) :
    st.opened (Nat.toDigits 10 id) source =
      { st.push (.tabstop { marker := st.nextMarker, id }) with
        nextMarker := st.nextMarker + 1, frames := ⟨st.tokens.size, source⟩ :: st.frames } := by
  rw [State.opened, (st.refers_tabstop h).2]

theorem State.refers_var (st : State) {name : String} (h : isIdentifier name.toList = true) :
    st.Refers name.toList (.var { marker := st.nextMarker, name }) :=
  ⟨rfl, by simp [State.pushReference, (name_of_isIdentifier h).2.2]⟩

/-- A placeholder opens, holds what is in it and closes. -/
theorem parseFrom_placeholder (hne : name ≠ []) (h : ∀ c ∈ name, Lexeme.isNameChar c = true)
    (ht : st.Refers name token) {body : List Char} {out : List SnippetToken} {openings : Nat}
    (hbody : ∀ (st' : State) (rest : List Char), st'.frames ≠ [] → ¬st'.EndsInText →
      st'.nextMarker = st.nextMarker + 1 →
      parseFrom st' (.inside .body) 0 (body ++ rest) =
        parseFrom (st'.wrote out openings) (.inside .body) 0 rest) (rest : List Char) :
    parseFrom st (.inside .body) 0 ('$' :: '\x7b' :: (name ++ ':' :: (body ++ ['\x7d'])) ++ rest) =
      parseFrom (st.wrote (token :: (out ++ [token])) (openings + 1)) (.inside .body) 0 rest := by
  obtain ⟨source, hopen⟩ := parseFrom_opening st hne h (show Lexeme.isNameChar ':' = false from rfl)
    (body ++ '\x7d' :: rest)
  have hopened : st.opened name source =
      { st.push token with nextMarker := st.nextMarker + 1, frames := ⟨st.tokens.size, source⟩ :: st.frames } := by
    rw [State.opened, ht.2]
  have hin := hbody (st.opened name source) ('\x7d' :: rest) (by simp [State.opened])
    (by rw [hopened]; exact State.not_endsInText_push st ht.1) (by rw [hopened])
  have hframes : ((st.opened name source).wrote out openings).frames = ⟨st.tokens.size, source⟩ :: st.frames := rfl
  have htoken : ((st.opened name source).wrote out openings).tokens[st.tokens.size]? = some token := by
    simp [State.wrote, hopened, State.push]
  have hend : { (st.opened name source).wrote out openings with
      tokens := ((st.opened name source).wrote out openings).tokens.push token, frames := st.frames } =
      st.wrote (token :: (out ++ [token])) (openings + 1) := by
    simp [State.wrote, hopened, State.push, Nat.add_assoc, Nat.add_comm 1]
  calc parseFrom st (.inside .body) 0 ('$' :: '\x7b' :: (name ++ ':' :: (body ++ ['\x7d'])) ++ rest)
      = parseFrom st (.inside .body) 0 ('$' :: '\x7b' :: (name ++ ':' :: (body ++ '\x7d' :: rest))) := by simp
    _ = parseFrom (st.opened name source) (.inside .body) 0 (body ++ '\x7d' :: rest) :=
      hopen.trans (parseFrom_colon _ _)
    _ = parseFrom ((st.opened name source).wrote out openings) (.inside .body) 0 ('\x7d' :: rest) := hin
    _ = parseFrom (st.wrote (token :: (out ++ [token])) (openings + 1)) (.inside .body) 0 rest := by
      rw [parseFrom_close hframes htoken, hend]

end

theorem modify_push (tokens : Array SnippetToken) (token : SnippetToken) (f : SnippetToken → SnippetToken) :
    (tokens.push token).modify tokens.size f = tokens.push (f token) := by
  apply Array.ext
  · simp
  · intro i _ h
    have hi : i < tokens.size ∨ i = tokens.size := by
      simp only [Array.size_push] at h
      omega
    rcases hi with hi | rfl
    · simp [Array.getElem_modify, Array.getElem_push, hi, Nat.ne_of_gt hi]
    · simp [Array.getElem_modify]

/-- A choice holds the text of its first one. -/
theorem parseFrom_choice (st : State) {id : Nat} (hid : id < Nat.pow 2 64) {choices : List String}
    (hne : choices ≠ []) (inside : Bool) (rest : List Char) :
    parseFrom st (.inside .body) 0 ((SnippetNode.choice id choices).written inside ++ rest) =
      parseFrom (st.wrote ((SnippetNode.choice id choices).tokens st.nextMarker) 1) (.inside .body) 0 rest := by
  let mark : SnippetToken := .tabstop { marker := st.nextMarker, id, choices := some choices }
  let first := choices.head?.getD ""
  let out : List SnippetToken := if first.isEmpty then [] else [.text first]
  obtain ⟨source, hopen⟩ := parseFrom_opening st (Nat.toDigits_ne_nil (b := 10) (n := id)) (isNameChar_toDigits id)
    (show Lexeme.isNameChar '|' = false from rfl) (writtenChoices choices ++ '|' :: '\x7d' :: rest)
  let st' : State := { st.push mark with
    nextMarker := st.nextMarker + 1, frames := ⟨st.tokens.size, source⟩ :: st.frames }
  have hmodify : { st.opened (Nat.toDigits 10 id) source with
      tokens := (st.opened (Nat.toDigits 10 id) source).tokens.modify st.tokens.size
        (SnippetToken.withChoices choices) } = st' := by
    simp [st', mark, st.opened_tabstop hid source, State.push, SnippetToken.withChoices, modify_push]
  have hfirst : st'.pushText first = st'.wrote out 0 := by
    by_cases h : first = ""
    · simp [State.pushText, State.wrote, out, h]
    · have hapart : ¬st'.EndsInText := State.not_endsInText_push st (show mark.text? = none from rfl)
      rw [State.pushText_of_not_endsInText hapart h]
      simp [State.push, State.wrote, out, h]
  have hframes : (st.opened (Nat.toDigits 10 id) source).frames = ⟨st.tokens.size, source⟩ :: st.frames := rfl
  have hframes' : (st'.wrote out 0).frames = ⟨st.tokens.size, source⟩ :: st.frames := rfl
  have hmark : (st'.wrote out 0).tokens[st.tokens.size]? = some mark := by
    simp [st', State.wrote, State.push]
  have hend : { st'.wrote out 0 with tokens := (st'.wrote out 0).tokens.push mark, frames := st.frames } =
      st.wrote ((SnippetNode.choice id choices).tokens st.nextMarker) 1 := by
    simp [st', State.wrote, State.push, tokens, mark, out, first]
  calc parseFrom st (.inside .body) 0 ((SnippetNode.choice id choices).written inside ++ rest)
      = parseFrom st (.inside .body) 0
          ('$' :: '\x7b' :: (Nat.toDigits 10 id ++ '|' :: (writtenChoices choices ++ '|' :: '\x7d' :: rest))) := by
        simp [written]
    _ = parseFrom (st.opened (Nat.toDigits 10 id) source) (.opened .body) 0
          ('|' :: (writtenChoices choices ++ '|' :: '\x7d' :: rest)) := hopen
    _ = parseFrom (st'.wrote out 0) (.inside .body) 0 ('\x7d' :: rest) := by
        rw [parseFrom_choices hframes hne, hmodify, ← hfirst]
    _ = parseFrom (st.wrote ((SnippetNode.choice id choices).tokens st.nextMarker) 1) (.inside .body) 0 rest := by
        rw [parseFrom_close hframes' hmark, hend]

theorem State.not_endsInText_wrote {n : SnippetNode} (h : n.isText = false) (st : State) (marker openings : Nat) :
    ¬(st.wrote (n.tokens marker) openings).EndsInText := by
  rintro ⟨t, ht⟩
  cases n <;> simp [isText, State.wrote, SnippetNode.tokens, List.getLast?_cons] at h ht

mutual

theorem parseFrom_written (inside : Bool) (rest : List Char) : ∀ (n : SnippetNode) (st : State), n.Proper →
    inside = !st.frames.isEmpty → (n.isText = true → ¬st.EndsInText) →
    parseFrom st (.inside .body) 0 (n.written inside ++ rest) =
      parseFrom (st.wrote (n.tokens st.nextMarker) n.openings) (.inside .body) 0 rest
  | .text s, st, hn, hin, hst => by
    have hwrote : st.pushText s = st.wrote [.text s] 0 := by
      rw [State.pushText_of_not_endsInText (hst rfl) hn]
      simp [State.push, State.wrote]
    rw [written, parseFrom_escaped inside rest s.toList st hin, String.ofList_toList, hwrote]
    rfl
  | .tabstop id body, st, hn, _, _ =>
    parseFrom_placeholder Nat.toDigits_ne_nil (isNameChar_toDigits id) (st.refers_tabstop hn.1)
      (fun st' rest hframes hend hmark => hmark ▸ parseFrom_writtenAll true rest body st' hn.2
        (by simpa using hframes) (fun _ _ _ => hend)) rest
  | .choice _ _, st, hn, _, _ => parseFrom_choice st hn.1 hn.2 inside rest
  | .var _ body, st, hn, _, _ =>
    have hname := name_of_isIdentifier hn.1
    parseFrom_placeholder hname.1 hname.2.1 (st.refers_var hn.1)
      (fun st' rest hframes hend hmark => hmark ▸ parseFrom_writtenAll true rest body st' hn.2
        (by simpa using hframes) (fun _ _ _ => hend)) rest

theorem parseFrom_writtenAll (inside : Bool) (rest : List Char) : ∀ (body : List SnippetNode) (st : State),
    ProperAll body → inside = !st.frames.isEmpty → (∀ n ∈ body.head?, n.isText = true → ¬st.EndsInText) →
    parseFrom st (.inside .body) 0 (writtenAll inside body ++ rest) =
      parseFrom (st.wrote (tokensAll st.nextMarker body) (openingsAll body)) (.inside .body) 0 rest
  | [], st, _, _, _ => by simp [writtenAll, tokensAll, openingsAll, State.wrote]
  | n :: more, st, hn, hin, hst => by
    have hnode := parseFrom_written inside (writtenAll inside more ++ rest) n st hn.1 hin (hst n rfl)
    have hmore := parseFrom_writtenAll inside rest more (st.wrote (n.tokens st.nextMarker) n.openings) hn.2.2 hin
      fun m hm ht => State.not_endsInText_wrote (Bool.eq_false_iff.mpr fun h => by simpa [ht] using hn.2.1 m hm h) st _ _
    rw [writtenAll, List.append_assoc, hnode, hmore, State.wrote_wrote]
    rfl

end

end SnippetParser

/-- A snippet written out parses to its own tokens, and any text at all can be written so. -/
theorem parseSnippet_written :
    (∀ nodes : List SnippetNode, SnippetNode.ProperAll nodes →
      parseSnippet (String.ofList (SnippetNode.writtenAll false nodes)) = SnippetNode.tokensAll 0 nodes) ∧
    ∀ s : String, s ≠ "" →
      parseSnippet (String.ofList ((SnippetNode.text s).written false)) = [.text s] := by
  have htree (nodes : List SnippetNode) (h : SnippetNode.ProperAll nodes) :
      parseSnippet (String.ofList (SnippetNode.writtenAll false nodes)) = SnippetNode.tokensAll 0 nodes := by
    have hend : ¬({} : SnippetParser.State).EndsInText := by
      rintro ⟨t, ht⟩
      simp at ht
    have hrun := SnippetParser.parseFrom_writtenAll false [] nodes {} h rfl fun _ _ _ => hend
    rw [List.append_nil] at hrun
    rw [parseSnippet, String.toList_ofList, hrun]
    simp [SnippetParser.parseFrom, SnippetParser.State.settle, SnippetParser.State.wrote]
  refine ⟨htree, fun s hs => ?_⟩
  have hone := htree [.text s] ⟨hs, by simp, trivial⟩
  simpa [SnippetNode.writtenAll, SnippetNode.tokensAll, SnippetNode.tokens] using hone

theorem parseSnippet_written_nested :
    parseSnippet "cost: \\$5 $\x7b1:in $\x7buser:\\\x7d\x7d\x7d$\x7b2|a\\,b,c|\x7d" =
      [.text "cost: $5 ", .tabstop { marker := 0, id := 1 }, .text "in ",
        .var { marker := 1, name := "user" }, .text "\x7d", .var { marker := 1, name := "user" },
        .tabstop { marker := 0, id := 1 },
        .tabstop { marker := 2, id := 2, choices := some ["a,b", "c"] }, .text "a,b",
        .tabstop { marker := 2, id := 2, choices := some ["a,b", "c"] }] := by
  have hsource : String.ofList (SnippetNode.writtenAll false
      [.text "cost: $5 ", .tabstop 1 [.text "in ", .var "user" [.text "\x7d"]], .choice 2 ["a,b", "c"]]) =
      "cost: \\$5 $\x7b1:in $\x7buser:\\\x7d\x7d\x7d$\x7b2|a\\,b,c|\x7d" := by decide +kernel
  have h := parseSnippet_written.1
    [.text "cost: $5 ", .tabstop 1 [.text "in ", .var "user" [.text "\x7d"]], .choice 2 ["a,b", "c"]]
    (by
      have hname : isIdentifier ['u', 's', 'e', 'r'] = true := by decide
      simp [SnippetNode.ProperAll, SnippetNode.Proper, SnippetNode.isText, hname])
  rw [hsource] at h
  simpa [SnippetNode.tokensAll, SnippetNode.tokens, SnippetNode.openings, SnippetNode.openingsAll] using h

end Scribe
