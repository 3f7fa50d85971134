import Scribe.Proofs.Snippet.RoundTrip

/-!
# Transforms written out

A format is a tree: a branch holds a format for each of its sides. Written out, with a backslash before each
character of a text that would mean something else, a transform is read back as it was, whatever stands in its
guard.
-/

namespace Scribe

/-- A name of letters, marks, digits and connectors. -/
def isWordName (name : List Char) : Bool := !name.isEmpty && name.all Unicode.isWord

theorem isWordName_iff {name : List Char} :
    isWordName name = true ↔ name ≠ [] ∧ ∀ c ∈ name, Unicode.isWord c = true := by
  simp [isWordName]

/-- The inside of a guard: a slash only behind a backslash, and a backslash before anything but a line end. -/
inductive IsGuard : List Char → Prop
  | nil : IsGuard []
  | escaped {c : Char} {rest : List Char} : c ≠ '\n' → IsGuard rest → IsGuard ('\\' :: c :: rest)
  | plain {c : Char} {rest : List Char} : c ≠ '\\' → c ≠ '/' → IsGuard rest → IsGuard (c :: rest)

namespace FormatToken

def isText : FormatToken → Bool
  | .text _ => true
  | _ => false

mutual

/-- Texts are not empty and stand apart, and references have names. -/
def Proper : FormatToken → Prop
  | .text s => s ≠ ""
  | .ref name => isWordName name.toList = true
  | .case _ => True
  | .function name _ => isWordName name.toList = true
  | .branch name ifSet ifEmpty => isWordName name.toList = true ∧ ProperAll ifSet ∧ ProperAll ifEmpty

def ProperAll : List FormatToken → Prop
  | [] => True
  | t :: rest => t.Proper ∧ (∀ u ∈ rest.head?, t.isText = true → u.isText = false) ∧ ProperAll rest

end

/-- What has a meaning in a format, at its top or on either side of a branch. -/
def isSpecial (c : Char) : Bool := ['\\', '$', '\x60', '\x7d', '/', ':'].contains c

mutual

def written : FormatToken → List Char
  | .text s => SnippetNode.escaped isSpecial s.toList
  | .ref name => '$' :: '\x7b' :: (name.toList ++ ['\x7d'])
  | .case change => ['\\', change.letter]
  | .function name f => '$' :: '\x7b' :: (name.toList ++ ':' :: '/' :: (f.name.toList ++ ['\x7d']))
  | .branch name ifSet ifEmpty =>
    '$' :: '\x7b' :: (name.toList ++ ':' :: '?' :: (writtenAll ifSet ++ ':' :: (writtenAll ifEmpty ++ ['\x7d'])))

def writtenAll : List FormatToken → List Char
  | [] => []
  | t :: rest => t.written ++ writtenAll rest

end

end FormatToken

namespace Transform

/-- There is a guard, the format is in normal form, and the flags are a word or nothing. -/
structure Proper (t : Transform) : Prop where
  guard : IsGuard t.guard.toList
  guard_ne : t.guard ≠ ""
  format : FormatToken.ProperAll t.format
  flags : ∀ c ∈ t.flags.toList, Unicode.isWord c = true

def written (t : Transform) (id : Nat) : List Char :=
  '$' :: '\x7b' :: (Nat.toDigits 10 id ++ '/' :: (t.guard.toList ++ '/' ::
    (FormatToken.writtenAll t.format ++ '/' :: (t.flags.toList ++ ['\x7d']))))

end Transform

namespace SnippetParser

open FormatToken (isSpecial)
open SnippetNode (escaped)

/-! ## What is being read -/

theorem appendText_appendText (s u : String) (tokens : List FormatToken) :
    appendText u (appendText s tokens) = appendText (s ++ u) tokens := by
  unfold appendText
  cases tokens with
  | nil => rfl
  | cons token rest => cases token <;> simp [String.append_assoc]

namespace FormatFrame

/-- The side that is being filled, the last token first. -/
def part (f : FormatFrame) : List FormatToken := if f.fillsEmpty then f.ifEmpty else f.ifSet

variable (f : FormatFrame) (g h : List FormatToken → List FormatToken)

theorem fillsEmpty_update : (f.update g).fillsEmpty = f.fillsEmpty := by
  unfold update
  split <;> rfl

theorem part_update : (f.update g).part = g f.part := by
  unfold part
  rw [fillsEmpty_update]
  unfold update
  split <;> rfl

theorem update_update : (f.update g).update h = f.update (h ∘ g) := by
  rw [update, fillsEmpty_update]
  unfold update
  split <;> rfl

theorem update_congr {g h : List FormatToken → List FormatToken} (he : g f.part = h f.part) :
    f.update g = f.update h := by
  unfold part at he
  unfold update
  split <;> simp_all

end FormatFrame

namespace OpenTransform

def part (t : OpenTransform) : List FormatToken :=
  match t.frames with
  | f :: _ => f.part
  | [] => t.format

variable (t : OpenTransform)

theorem update_update (g h : List FormatToken → List FormatToken) : (t.update g).update h = t.update (h ∘ g) := by
  obtain ⟨guard, format, frames⟩ := t
  cases frames with
  | nil => rfl
  | cons f rest => simp [update, FormatFrame.update_update]

theorem update_congr {g h : List FormatToken → List FormatToken} (he : g t.part = h t.part) :
    t.update g = t.update h := by
  obtain ⟨guard, format, frames⟩ := t
  cases frames with
  | nil => simpa [update, part] using he
  | cons f rest => simp [update, FormatFrame.update_congr f he]

theorem part_update (g : List FormatToken → List FormatToken) : (t.update g).part = g t.part := by
  obtain ⟨guard, format, frames⟩ := t
  cases frames with
  | nil => rfl
  | cons f rest => exact f.part_update g

/-- Whether a text would join the last token. -/
def EndsInText : Prop := ∃ s rest, t.part = .text s :: rest

def pushAll (tokens : List FormatToken) : OpenTransform := t.update (tokens.reverse ++ ·)

theorem pushAll_nil : t.pushAll [] = t := by
  obtain ⟨guard, format, frames⟩ := t
  cases frames with
  | nil => rfl
  | cons f rest => simp [pushAll, update, FormatFrame.update]

theorem pushAll_cons (token : FormatToken) (rest : List FormatToken) :
    t.pushAll (token :: rest) = (t.push token).pushAll rest := by
  unfold pushAll push
  rw [update_update]
  exact t.update_congr (by simp)

theorem pushText_pushText (s u : String) : (t.pushText s).pushText u = t.pushText (s ++ u) := by
  unfold pushText
  rw [update_update]
  exact t.update_congr (appendText_appendText s u t.part)

theorem pushText_of_not_endsInText {t : OpenTransform} (h : ¬t.EndsInText) (s : String) :
    t.pushText s = t.push (.text s) := by
  refine t.update_congr ?_
  unfold appendText
  split
  · rename_i u rest hpart
    exact absurd ⟨u, rest, hpart⟩ h
  · rfl

theorem not_endsInText_push {token : FormatToken} (h : token.isText = false) : ¬(t.push token).EndsInText := by
  rintro ⟨s, rest, hs⟩
  rw [push, part_update] at hs
  cases hs
  cases h

end OpenTransform

/-- The state in which a transform is read as far as this. -/
def State.reading (st : State) (t : OpenTransform) : State := { st with transform := some t }

theorem parseFrom_format (st : State) (c : Char) (rest : List Char) :
    parseFrom st (.inside .format) 0 (c :: rest) =
      parseFrom (stepFormat st c rest).1 (stepFormat st c rest).2.1 (stepFormat st c rest).2.2 rest := rfl

/-! ## Texts and changes of case -/

section
variable (st : State) (t : OpenTransform) (rest : List Char)

theorem parseFrom_formatChar (c : Char) :
    parseFrom (st.reading t) (.inside .format) 0 ((if isSpecial c then ['\\', c] else [c]) ++ rest) =
      parseFrom (st.reading (t.pushText (String.ofList [c]))) (.inside .format) 0 rest := by
  by_cases hc : isSpecial c
  · rw [if_pos hc]
    have hescape : t.escape c = t.pushText (String.ofList [c]) := by
      simp only [isSpecial, List.contains_eq_mem, decide_eq_true_eq, List.mem_cons, List.not_mem_nil, or_false] at hc
      rcases hc with rfl | rfl | rfl | rfl | rfl | rfl <;> rfl
    have hne : c ≠ '\n' := by
      rintro rfl
      revert hc
      decide
    show parseFrom (st.reading t) (.inside .format) 0 ('\\' :: c :: rest) = _
    rw [parseFrom_format, ← hescape]
    simp [stepFormat, Lexeme.format, hne]
    rfl
  · rw [if_neg hc]
    simp only [isSpecial, List.contains_eq_mem, decide_eq_true_eq, List.mem_cons, List.not_mem_nil, or_false,
      not_or] at hc
    obtain ⟨h₁, h₂, -, h₃, h₄, h₅⟩ := hc
    have hlex : Lexeme.format c rest = (.plain c, 0) := by
      unfold Lexeme.format
      split <;> first | contradiction | rfl
    show parseFrom (st.reading t) (.inside .format) 0 (c :: rest) = _
    rw [parseFrom_format, stepFormat, hlex]
    rfl

theorem parseFrom_formatText : ∀ (cs : List Char) (s : String),
    parseFrom (st.reading (t.pushText s)) (.inside .format) 0 (escaped isSpecial cs ++ rest) =
      parseFrom (st.reading (t.pushText (s ++ String.ofList cs))) (.inside .format) 0 rest
  | [], s => by simp [escaped]
  | c :: cs, s => by
    have ih := parseFrom_formatText cs (s ++ String.ofList [c])
    rw [escaped_cons, List.append_assoc, parseFrom_formatChar, OpenTransform.pushText_pushText, ih,
      String.append_assoc, ← String.ofList_append]
    rfl

theorem parseFrom_writtenText {s : String} (hs : s ≠ "") (h : ¬t.EndsInText) :
    parseFrom (st.reading t) (.inside .format) 0 (escaped isSpecial s.toList ++ rest) =
      parseFrom (st.reading (t.push (.text s))) (.inside .format) 0 rest := by
  rw [← OpenTransform.pushText_of_not_endsInText h]
  cases hcs : s.toList with
  | nil => exact absurd (String.toList_eq_nil_iff.mp hcs) hs
  | cons c cs =>
    have hjoin : String.ofList [c] ++ String.ofList cs = s := by
      rw [← String.ofList_append, List.singleton_append, ← hcs, String.ofList_toList]
    rw [escaped_cons, List.append_assoc, parseFrom_formatChar, parseFrom_formatText, hjoin]

theorem parseFrom_writtenCase (change : CaseChange) :
    parseFrom (st.reading t) (.inside .format) 0 ((FormatToken.case change).written ++ rest) =
      parseFrom (st.reading (t.push (.case change))) (.inside .format) 0 rest := by
  cases change <;> rfl

/-! ## References -/

theorem parseFrom_formatOpening {name : List Char} (hname : isWordName name = true) {stop : Char}
    (hstop : Unicode.isWord stop = false) :
    parseFrom (st.reading t) (.inside .format) 0 ('$' :: '\x7b' :: (name ++ stop :: rest)) =
      parseFrom (st.reading (t.openRef (String.ofList name))) (.opened .format) 0 (stop :: rest) := by
  have hlex : Lexeme.format '$' ('\x7b' :: (name ++ stop :: rest)) = (.opening name, name.length + 1) := by
    obtain ⟨hne, hword⟩ := isWordName_iff.mp hname
    simp [Lexeme.format, reference?_brace, takeWhile_name hword hstop, hne]
  rw [parseFrom_format, stepFormat, hlex]
  exact parseFrom_skip _ _ (stop :: rest) ('\x7b' :: name)

/-- Without a colon behind the name, the placeholder is a plain reference. -/
theorem parseFrom_formatName :
    parseFrom (st.reading t) (.opened .format) 0 ('\x7d' :: rest) =
      parseFrom (st.reading t) (.inside .format) 0 ('\x7d' :: rest) := rfl

theorem parseFrom_formatClose {f : FormatFrame} {outer : List FormatFrame} (hf : t.frames = f :: outer) :
    parseFrom (st.reading t) (.inside .format) 0 ('\x7d' :: rest) =
      parseFrom (st.reading t.closeFrame) (.inside .format) 0 rest := by
  have hstep : stepFormat (st.reading t) '\x7d' rest = (st.reading t.closeFrame, .inside .format, 0) := by
    simp [stepFormat, Lexeme.format, State.reading, State.mapTransform, hf]
  rw [parseFrom_format, hstep]

theorem parseFrom_writtenRef {name : String} (hname : isWordName name.toList = true) :
    parseFrom (st.reading t) (.inside .format) 0 ((FormatToken.ref name).written ++ rest) =
      parseFrom (st.reading (t.push (.ref name))) (.inside .format) 0 rest := by
  have hopen := parseFrom_formatOpening st t rest hname (show Unicode.isWord '\x7d' = false from rfl)
  have hclose : (t.openRef name).closeFrame = t.push (.ref name) := rfl
  rw [parseFrom_formatName, parseFrom_formatClose _ _ _ rfl, String.ofList_toList, hclose] at hopen
  simpa [FormatToken.written] using hopen

theorem ofName?_name (f : CaseFunction) : CaseFunction.ofName? f.name = some f := by
  cases f <;> rfl

theorem isWordName_name (f : CaseFunction) : isWordName f.name.toList = true := by
  cases f <;> decide

theorem parseFrom_formatFunction (name : String) (f : CaseFunction) :
    parseFrom (st.reading (t.openRef name)) (.opened .format) 0 (':' :: '/' :: (f.name.toList ++ '\x7d' :: rest)) =
      parseFrom (st.reading (t.push (.function name f))) (.inside .format) 0 rest := by
  obtain ⟨hne, hname⟩ := isWordName_iff.mp (isWordName_name f)
  have hword := takeWhile_name hname (show Unicode.isWord '\x7d' = false from rfl) rest
  have hstep : stepOpened (st.reading (t.openRef name)) .format (':' :: '/' :: (f.name.toList ++ '\x7d' :: rest)) =
      (st.reading (t.push (.function name f)), .format, f.name.toList.length + 3) := by
    simp only [stepOpened, stepAfterReference, Lexeme.afterReference, hword, List.drop_left,
      List.isEmpty_eq_false_iff.mpr hne, Bool.false_eq_true, if_false, String.ofList_toList]
    simp [State.mapTransform, State.reading, OpenTransform.function, OpenTransform.openRef, ofName?_name]
  rw [parseFrom, hstep]
  simpa using parseFrom_skip (st.reading (t.push (.function name f))) (.inside .format) rest
    ('/' :: (f.name.toList ++ ['\x7d']))

theorem parseFrom_writtenFunction {name : String} (hname : isWordName name.toList = true) (f : CaseFunction) :
    parseFrom (st.reading t) (.inside .format) 0 ((FormatToken.function name f).written ++ rest) =
      parseFrom (st.reading (t.push (.function name f))) (.inside .format) 0 rest := by
  have hopen := parseFrom_formatOpening st t ('/' :: (f.name.toList ++ '\x7d' :: rest)) hname
    (show Unicode.isWord ':' = false from rfl)
  rw [String.ofList_toList, parseFrom_formatFunction] at hopen
  simpa [FormatToken.written] using hopen

/-! ## Branches -/

/-- A branch on this name is open, and this much of its sides is read. -/
def OpenTransform.inBranch (name : String) (inElse : Bool) (ifSet ifEmpty : List FormatToken) : OpenTransform :=
  { t with frames := ⟨name, some (.ifElse inElse), ifSet.reverse, ifEmpty.reverse⟩ :: t.frames }

theorem parseFrom_formatBranch (name : String) :
    parseFrom (st.reading (t.openRef name)) (.opened .format) 0 (':' :: '?' :: rest) =
      parseFrom (st.reading (t.inBranch name false [] [])) (.inside .format) 0 rest := rfl

theorem parseFrom_formatColon (name : String) (ifSet ifEmpty : List FormatToken) :
    parseFrom (st.reading (t.inBranch name false ifSet ifEmpty)) (.inside .format) 0 (':' :: rest) =
      parseFrom (st.reading (t.inBranch name true ifSet ifEmpty)) (.inside .format) 0 rest := rfl

theorem pushAll_inBranch (name : String) (ifSet : List FormatToken) :
    (t.inBranch name false [] []).pushAll ifSet = t.inBranch name false ifSet [] := by
  simp [OpenTransform.pushAll, OpenTransform.update, OpenTransform.inBranch, FormatFrame.update,
    FormatFrame.fillsEmpty]

theorem pushAll_inElse (name : String) (ifSet ifEmpty : List FormatToken) :
    (t.inBranch name true ifSet []).pushAll ifEmpty = t.inBranch name true ifSet ifEmpty := by
  simp [OpenTransform.pushAll, OpenTransform.update, OpenTransform.inBranch, FormatFrame.update,
    FormatFrame.fillsEmpty]

theorem closeFrame_inBranch (name : String) (ifSet ifEmpty : List FormatToken) :
    (t.inBranch name true ifSet ifEmpty).closeFrame = t.push (.branch name ifSet ifEmpty) := by
  simp [OpenTransform.closeFrame, OpenTransform.inBranch, FormatFrame.finish]

/-- Neither side of a branch that has just been reached ends in a text. -/
theorem not_endsInText_inBranch (name : String) (inElse : Bool) (ifSet : List FormatToken)
    (h : inElse = false → ifSet = []) : ¬(t.inBranch name inElse ifSet []).EndsInText := by
  rintro ⟨s, more, hs⟩
  cases inElse with
  | false => simp [OpenTransform.part, OpenTransform.inBranch, FormatFrame.part, FormatFrame.fillsEmpty, h] at hs
  | true => simp [OpenTransform.part, OpenTransform.inBranch, FormatFrame.part, FormatFrame.fillsEmpty] at hs

end

mutual

theorem parseFrom_writtenToken (st : State) (rest : List Char) : ∀ (token : FormatToken) (t : OpenTransform),
    token.Proper → (token.isText = true → ¬t.EndsInText) →
    parseFrom (st.reading t) (.inside .format) 0 (token.written ++ rest) =
      parseFrom (st.reading (t.push token)) (.inside .format) 0 rest
  | .text _, t, hn, hend => parseFrom_writtenText st t rest hn (hend rfl)
  | .ref _, t, hn, _ => parseFrom_writtenRef st t rest hn
  | .case change, t, _, _ => parseFrom_writtenCase st t rest change
  | .function _ f, t, hn, _ => parseFrom_writtenFunction st t rest hn f
  | .branch name ifSet ifEmpty, t, hn, _ => by
    have hset := parseFrom_writtenFormat st (':' :: (FormatToken.writtenAll ifEmpty ++ '\x7d' :: rest)) ifSet
      (t.inBranch name false [] []) hn.2.1 fun _ _ _ => not_endsInText_inBranch t name false [] fun _ => rfl
    have hempty := parseFrom_writtenFormat st ('\x7d' :: rest) ifEmpty (t.inBranch name true ifSet []) hn.2.2
      fun _ _ _ => not_endsInText_inBranch t name true ifSet fun h => by cases h
    rw [pushAll_inBranch] at hset
    rw [pushAll_inElse, parseFrom_formatClose _ _ _ rfl, closeFrame_inBranch] at hempty
    calc parseFrom (st.reading t) (.inside .format) 0 ((FormatToken.branch name ifSet ifEmpty).written ++ rest)
        = parseFrom (st.reading t) (.inside .format) 0 ('$' :: '\x7b' :: (name.toList ++ ':' :: '?' ::
            (FormatToken.writtenAll ifSet ++ ':' :: (FormatToken.writtenAll ifEmpty ++ '\x7d' :: rest)))) := by
          simp [FormatToken.written]
      _ = parseFrom (st.reading (t.openRef name)) (.opened .format) 0 (':' :: '?' ::
            (FormatToken.writtenAll ifSet ++ ':' :: (FormatToken.writtenAll ifEmpty ++ '\x7d' :: rest))) := by
          rw [parseFrom_formatOpening st t _ hn.1 rfl, String.ofList_toList]
      _ = parseFrom (st.reading (t.inBranch name false ifSet [])) (.inside .format) 0
            (':' :: (FormatToken.writtenAll ifEmpty ++ '\x7d' :: rest)) := by rw [parseFrom_formatBranch, hset]
      _ = parseFrom (st.reading (t.push (.branch name ifSet ifEmpty))) (.inside .format) 0 rest := by
          rw [parseFrom_formatColon, hempty]

theorem parseFrom_writtenFormat (st : State) (rest : List Char) : ∀ (tokens : List FormatToken) (t : OpenTransform),
    FormatToken.ProperAll tokens → (∀ u ∈ tokens.head?, u.isText = true → ¬t.EndsInText) →
    parseFrom (st.reading t) (.inside .format) 0 (FormatToken.writtenAll tokens ++ rest) =
      parseFrom (st.reading (t.pushAll tokens)) (.inside .format) 0 rest
  | [], t, _, _ => by rw [OpenTransform.pushAll_nil, FormatToken.writtenAll, List.nil_append]
  | token :: more, t, hn, hend => by
    have htoken := parseFrom_writtenToken st (FormatToken.writtenAll more ++ rest) token t hn.1 (hend token rfl)
    -- A text comes next only behind a token that is none.
    have hmore := parseFrom_writtenFormat st rest more (t.push token) hn.2.2 fun u hu ht =>
      OpenTransform.not_endsInText_push t (Bool.eq_false_iff.mpr fun h => by simpa [ht] using hn.2.1 u hu h)
    rw [FormatToken.writtenAll, List.append_assoc, htoken, hmore, OpenTransform.pushAll_cons]

end

/-! ## Transforms -/

theorem quotedUntil?_guard {guard : List Char} (h : IsGuard guard) (rest : List Char) :
    Lexeme.quotedUntil? '/' (guard ++ '/' :: rest) = some guard := by
  induction h with
  | nil => simp [Lexeme.quotedUntil?]
  | escaped hc _ ih => simp [Lexeme.quotedUntil?, hc, ih]
  | plain hb hs _ ih => simp [Lexeme.quotedUntil?, hb, hs, ih]

theorem parseFrom_guard (st : State) {guard : List Char} (h : IsGuard guard) (hne : guard ≠ []) (rest : List Char) :
    parseFrom st (.opened .body) 0 ('/' :: (guard ++ '/' :: rest)) =
      parseFrom (st.reading { guard := String.ofList guard }) (.inside .format) 0 rest := by
  have hstep : stepOpened st .body ('/' :: (guard ++ '/' :: rest)) =
      (st.reading { guard := String.ofList guard }, .format, guard.length + 2) := by
    simp [stepOpened, stepAfterName, Lexeme.afterName, quotedUntil?_guard h, State.reading]
  rw [parseFrom, hstep]
  simpa using parseFrom_skip (st.reading { guard := String.ofList guard }) (.inside .format) rest (guard ++ ['/'])

theorem parseFrom_flags (st : State) (t : OpenTransform) {flags : List Char}
    (h : ∀ c ∈ flags, Unicode.isWord c = true) (rest : List Char) :
    parseFrom (st.reading t) (.inside .format) 0 ('/' :: (flags ++ '\x7d' :: rest)) =
      parseFrom ((st.reading t).endTransform (String.ofList flags)) (.inside .body) 0 rest := by
  have hlex : Lexeme.format '/' (flags ++ '\x7d' :: rest) = (.finish flags, flags.length + 1) := by
    simp only [Lexeme.format, takeWhile_name h (show Unicode.isWord '\x7d' = false from rfl) rest, List.drop_left]
  rw [parseFrom_format, stepFormat, hlex]
  simpa using parseFrom_skip ((st.reading t).endTransform (String.ofList flags)) (.inside .body) rest
    (flags ++ ['\x7d'])

/-- The tabstop that is open gets the transform, and closes. -/
theorem parseFrom_transform (st : State) {id : Nat} (hid : id < Nat.pow 2 64) {t : Transform} (ht : t.Proper)
    (htransform : st.transform = none) (rest : List Char) :
    let mark : SnippetToken := .tabstop { marker := st.nextMarker, id, transform := some t }
    parseFrom st (.inside .body) 0 (t.written id ++ rest) =
      parseFrom (st.wrote [mark, mark] 1) (.inside .body) 0 rest := by
  intro mark
  let start : OpenTransform := { guard := t.guard }
  let flags := '/' :: (t.flags.toList ++ '\x7d' :: rest)
  obtain ⟨source, hopen⟩ := parseFrom_opening st (Nat.toDigits_ne_nil (b := 10) (n := id)) (isNameChar_toDigits id)
    (show Lexeme.isNameChar '/' = false from rfl)
    (t.guard.toList ++ '/' :: (FormatToken.writtenAll t.format ++ flags))
  have hguard := parseFrom_guard (st.opened (Nat.toDigits 10 id) source) ht.guard
    (fun h => ht.guard_ne (String.toList_eq_nil_iff.mp h)) (FormatToken.writtenAll t.format ++ flags)
  rw [String.ofList_toList] at hguard
  have hformat := parseFrom_writtenFormat (st.opened (Nat.toDigits 10 id) source) flags t.format start ht.format
    fun u hu _ => by rintro ⟨s, more, hs⟩; cases hs
  have hflags := parseFrom_flags (st.opened (Nat.toDigits 10 id) source) (start.pushAll t.format) ht.flags rest
  have hfinish : (start.pushAll t.format).finish t.flags = t := by
    simp [OpenTransform.pushAll, OpenTransform.update, OpenTransform.finish, OpenTransform.closed, start]
  have hend : ((st.opened (Nat.toDigits 10 id) source).reading (start.pushAll t.format)).endTransform t.flags =
      st.wrote [mark, mark] 1 := by
    rw [st.opened_tabstop hid]
    simp [State.reading, State.endTransform, State.close, State.push, State.wrote, hfinish, modify_push,
      SnippetToken.withTransform, htransform, mark, ← Array.toList_inj]
  calc parseFrom st (.inside .body) 0 (t.written id ++ rest)
      = parseFrom st (.inside .body) 0 ('$' :: '\x7b' :: (Nat.toDigits 10 id ++ '/' ::
          (t.guard.toList ++ '/' :: (FormatToken.writtenAll t.format ++ flags)))) := by
        simp [Transform.written, flags]
    _ = parseFrom (st.opened (Nat.toDigits 10 id) source) (.opened .body) 0
          ('/' :: (t.guard.toList ++ '/' :: (FormatToken.writtenAll t.format ++ flags))) := hopen
    _ = parseFrom ((st.opened (Nat.toDigits 10 id) source).reading start) (.inside .format) 0
          (FormatToken.writtenAll t.format ++ flags) := hguard
    _ = parseFrom ((st.opened (Nat.toDigits 10 id) source).reading (start.pushAll t.format)) (.inside .format) 0
          flags := hformat
    _ = parseFrom (st.wrote [mark, mark] 1) (.inside .body) 0 rest := by
        rw [hflags, String.ofList_toList, hend]

end SnippetParser

/-- A tabstop with a transform, written out, parses to its two tokens, which hold the transform as it was. -/
theorem parseSnippet_writtenTransform {id : Nat} (hid : id < Nat.pow 2 64) {t : Transform} (ht : t.Proper) :
    parseSnippet (String.ofList (t.written id)) =
      [.tabstop { marker := 0, id, transform := some t }, .tabstop { marker := 0, id, transform := some t }] := by
  have hrun := SnippetParser.parseFrom_transform {} hid ht rfl []
  rw [List.append_nil] at hrun
  rw [parseSnippet, String.toList_ofList, hrun]
  simp [SnippetParser.parseFrom, SnippetParser.State.settle, SnippetParser.State.wrote]

theorem parseSnippet_writtenTransform_nested :
    let t : Transform := ⟨"(a|\\/\n)", [.text "x:$", .case .upper, .ref "1",
      .branch "2" [.text "\x7d", .branch "VAR" [] [.function "1" .capitalize, .text "/"]] [.case .stop]], "gi"⟩
    let source := "$\x7b12/(a|\\/\n)/x\\:\\$\\U$\x7b1\x7d" ++
      "$\x7b2:?\\\x7d$\x7bVAR:?:$\x7b1:/capitalize\x7d\\/\x7d:\\E\x7d/gi\x7d"
    let mark : SnippetToken := .tabstop { marker := 0, id := 12, transform := some t }
    t.Proper ∧ String.ofList (t.written 12) = source ∧ parseSnippet source = [mark, mark] := by
  intro t source mark
  have ht : t.Proper := by
    refine ⟨?_, by decide, ?_, List.all_eq_true.mp (by decide)⟩
    · have hguard : t.guard.toList = ['(', 'a', '|', '\\', '/', '\n', ')'] := by simp [t]
      rw [hguard]
      iterate 3 refine .plain (by decide) (by decide) ?_
      refine .escaped (by decide) ?_
      iterate 2 refine .plain (by decide) (by decide) ?_
      exact .nil
    · simp only [t, FormatToken.ProperAll, FormatToken.Proper]
      simp [FormatToken.isText]
      decide
  have hsource : String.ofList (t.written 12) = source := by decide +kernel
  exact ⟨ht, hsource, hsource ▸ parseSnippet_writtenTransform (by decide) ht⟩

end Scribe
