import Scribe.Proofs.Highlight.Lossless
import Scribe.Proofs.Snippet.Tree
import Mathlib.Data.List.Chain

/-!
# Resolving variables is substitution

On the tree of a snippet the values of the variables are put in by recursion: a value that is not empty stands for
the whole placeholder, an empty one leaves its default. What is written of it depends on the values alone where
they are text, and on nothing but whether they are empty where the tabstops are concerned.
-/

namespace Scribe

open Expansion (markers markers_append bodyLength?_eq_none)

/-- Puts a text in front of tokens. -/
def glue (s : String) : List SnippetToken → List SnippetToken
  | .text t :: rest => .text (s ++ t) :: rest
  | rest => if s.isEmpty then rest else .text s :: rest

/-- Puts a token in front of tokens, joining texts. -/
def joinTo (token : SnippetToken) (rest : List SnippetToken) : List SnippetToken :=
  match token with
  | .text s => glue s rest
  | token => token :: rest

/-- Texts that stand side by side are one, and an empty text is nothing. -/
def joined (tokens : List SnippetToken) : List SnippetToken := tokens.foldr joinTo []

/-- The text of tokens, without their marks. -/
def plainText (tokens : List SnippetToken) : List Char := tokens.flatMap fun t => (t.text?.getD "").toList

/-- The text behind the last line end. -/
def currentLine (text : List Char) : List Char := (Text.cutAt '\n' text).getLastD []

@[simp] theorem plainText_nil : plainText [] = [] := rfl

@[simp] theorem plainText_append (xs ys : List SnippetToken) : plainText (xs ++ ys) = plainText xs ++ plainText ys :=
  List.flatMap_append

@[simp] theorem plainText_text (s : String) (rest : List SnippetToken) :
    plainText (.text s :: rest) = s.toList ++ plainText rest := rfl

@[simp] theorem plainText_tabstop (t : TabstopMark) (rest : List SnippetToken) :
    plainText (.tabstop t :: rest) = plainText rest := rfl

@[simp] theorem plainText_token (m : SnippetMark) (rest : List SnippetToken) :
    plainText (m.token :: rest) = plainText rest := by
  cases m <;> rfl

namespace SnippetTree

/-- The value of an occurrence of a variable, by the text written before it. -/
abbrev Values := List Char → VariableMark → String

/-- The tree with the values in the place of its variables, behind what is written before. -/
def filled (value : Values) (before : List Char) : SnippetTree → SnippetTree
  | nil => nil
  | text s rest => text s (rest.filled value (before ++ s.toList))
  | alone (.tabstop t) rest => alone (.tabstop t) (rest.filled value before)
  | alone (.var v) rest =>
    let x := value before v
    text x (rest.filled value (before ++ x.toList))
  | around (.tabstop t) body rest =>
    let body := body.filled value before
    around (.tabstop t) body (rest.filled value (before ++ plainText body.tokens))
  | around (.var v) body rest =>
    let x := value before v
    let body := if x.isEmpty then body.filled value before else text x nil
    body.append (rest.filled value (before ++ plainText body.tokens))

/-- The values that are asked for, with the markers of their variables. A default that is not used asks for none. -/
def asked (value : Values) (before : List Char) : SnippetTree → List (Nat × String)
  | nil => []
  | text s rest => rest.asked value (before ++ s.toList)
  | alone (.tabstop _) rest => rest.asked value before
  | alone (.var v) rest =>
    let x := value before v
    (v.marker, x) :: rest.asked value (before ++ x.toList)
  | around (.tabstop _) body rest =>
    body.asked value before ++ rest.asked value (before ++ plainText (body.filled value before).tokens)
  | around (.var v) body rest =>
    let x := value before v
    if x.isEmpty then
      (v.marker, x) ::
        (body.asked value before ++ rest.asked value (before ++ plainText (body.filled value before).tokens))
    else (v.marker, x) :: rest.asked value (before ++ x.toList)

section
variable {value : Values} {before : List Char} {v : VariableMark} (body rest : SnippetTree)

theorem filled_of_empty (h : value before v = "") : (around (.var v) body rest).filled value before =
    (body.filled value before).append
      (rest.filled value (before ++ plainText (body.filled value before).tokens)) := by
  simp [filled, h]

theorem filled_of_nonempty (h : value before v ≠ "") : (around (.var v) body rest).filled value before =
    text (value before v) (rest.filled value (before ++ (value before v).toList)) := by
  simp [filled, h, tokens, append]

theorem asked_of_empty (h : value before v = "") : (around (.var v) body rest).asked value before =
    (v.marker, "") :: (body.asked value before ++
      rest.asked value (before ++ plainText (body.filled value before).tokens)) := by
  simp [asked, h]

theorem asked_of_nonempty (h : value before v ≠ "") : (around (.var v) body rest).asked value before =
    (v.marker, value before v) :: rest.asked value (before ++ (value before v).toList) := by
  simp [asked, h]

theorem mem_asked_around : (v.marker, value before v) ∈ (around (.var v) body rest).asked value before := by
  by_cases h : value before v = ""
  · rw [asked_of_empty body rest h, h]
    exact List.mem_cons_self
  · rw [asked_of_nonempty body rest h]
    exact List.mem_cons_self

end

theorem sublist_marks_filled (tree : SnippetTree) (value : Values) (before : List Char) :
    (tree.filled value before).marks.Sublist tree.marks := by
  induction tree generalizing before with
  | nil => exact List.Sublist.refl _
  | text s rest ih => exact ih _
  | alone mark rest ih =>
    cases mark with
    | tabstop t => exact (ih _).cons_cons _
    | var v => exact (ih _).cons _
  | around mark body rest ihb ihr =>
    cases mark with
    | tabstop t => exact ((ihb _).append (ihr _)).cons_cons _
    | var v =>
      rw [filled, marks_append]
      refine List.Sublist.cons _ (List.Sublist.append ?_ (ihr _))
      split
      · exact ihb _
      · exact List.nil_sublist _

end SnippetTree

/-! ## Joining texts -/

theorem glue_empty : ∀ rest : List SnippetToken, glue "" rest = rest
  | [] => rfl
  | .text t :: rest => by simp [glue]
  | .tabstop _ :: _ => rfl
  | .var _ :: _ => rfl

theorem glue_of_head {rest : List SnippetToken} (h : ∀ t ∈ rest.head?, t.text? = none) (s : String) :
    glue s rest = if s.isEmpty then rest else .text s :: rest := by
  cases rest with
  | nil => rfl
  | cons t rest =>
    cases t with
    | text u => exact absurd (h _ rfl) (Option.some_ne_none u)
    | tabstop t => rfl
    | var v => rfl

theorem glue_glue (s t : String) : ∀ rest : List SnippetToken, glue s (glue t rest) = glue (s ++ t) rest
  | .text u :: rest => by simp [glue, String.append_assoc]
  | [] => by by_cases ht : t = "" <;> simp [glue, ht]
  | .tabstop u :: rest => by by_cases ht : t = "" <;> simp [glue, ht]
  | .var v :: rest => by by_cases ht : t = "" <;> simp [glue, ht]

theorem joinTo_token (m : SnippetMark) (rest : List SnippetToken) : joinTo m.token rest = m.token :: rest := by
  cases m <;> rfl

theorem joined_token (m : SnippetMark) (rest : List SnippetToken) :
    joined (m.token :: rest) = m.token :: joined rest := joinTo_token m _

theorem glue_append_token (s : String) (m : SnippetMark) (ys : List SnippetToken) : ∀ xs : List SnippetToken,
    glue s (xs ++ m.token :: ys) = glue s xs ++ m.token :: ys
  | [] => by cases m <;> simp only [SnippetMark.token, List.nil_append, glue] <;> split <;> rfl
  | .text _ :: _ => rfl
  | .tabstop _ :: _ => by simp only [List.cons_append, glue]; split <;> rfl
  | .var _ :: _ => by simp only [List.cons_append, glue]; split <;> rfl

theorem joined_append_token (m : SnippetMark) (xs ys : List SnippetToken) :
    joined (xs ++ m.token :: ys) = joined xs ++ m.token :: joined ys := by
  induction xs with
  | nil => exact joined_token m ys
  | cons x xs ih =>
    have hcons : ∀ zs, joined (x :: zs) = joinTo x (joined zs) := fun _ => rfl
    rw [List.cons_append, hcons, hcons, ih]
    cases x with
    | text s => exact glue_append_token s m _ (joined xs)
    | tabstop t => rfl
    | var v => rfl

/-- Joining the texts leaves every placeholder around its body. -/
theorem SnippetTree.exists_joined (tree : SnippetTree) :
    ∃ tree' : SnippetTree, tree'.tokens = joined tree.tokens ∧ tree'.marks = tree.marks := by
  induction tree with
  | nil => exact ⟨nil, rfl, rfl⟩
  | text s rest ih =>
    obtain ⟨tree', ht, hm⟩ := ih
    have hglue : joined (text s rest).tokens = glue s tree'.tokens := by rw [ht]; rfl
    have halone : (∀ t ∈ tree'.tokens.head?, t.text? = none) →
        ∃ tree'' : SnippetTree, tree''.tokens = glue s tree'.tokens ∧ tree''.marks = tree'.marks := fun h => by
      rw [glue_of_head h]
      split
      · exact ⟨tree', rfl, rfl⟩
      · exact ⟨text s tree', rfl, rfl⟩
    rw [hglue, marks, ← hm]
    cases tree' with
    | nil => exact halone fun t h => by cases h
    | text u rest' => exact ⟨text (s ++ u) rest', rfl, rfl⟩
    | alone mark rest' => exact halone fun t h => by cases mark <;> cases h <;> rfl
    | around mark body rest' => exact halone fun t h => by cases mark <;> cases h <;> rfl
  | alone mark rest ih =>
    obtain ⟨tree', ht, hm⟩ := ih
    exact ⟨alone mark tree', by rw [tokens, tokens, joined_token, ht], by rw [marks, marks, hm]⟩
  | around mark body rest ihb ihr =>
    obtain ⟨body', hb, hbm⟩ := ihb
    obtain ⟨rest', hr, hrm⟩ := ihr
    exact ⟨around mark body' rest', by rw [tokens, tokens, joined_token, joined_append_token, hb, hr],
      by rw [marks, marks, hbm, hrm]⟩

/-- Of two neighbours one is no text. -/
abbrev Apart (a b : SnippetToken) : Prop := a.text? = none ∨ b.text? = none

theorem joined_eq_self {tokens : List SnippetToken} (hne : .text "" ∉ tokens) (hc : tokens.IsChain Apart) :
    joined tokens = tokens := by
  induction tokens with
  | nil => rfl
  | cons t rest ih =>
    have hrest := ih (fun h => hne (List.mem_cons_of_mem _ h)) hc.of_cons
    have hcons : joined (t :: rest) = joinTo t (joined rest) := rfl
    rw [hcons, hrest]
    cases t with
    | tabstop t => rfl
    | var v => rfl
    | text s =>
      have hs : s.isEmpty = false := by
        rw [Bool.eq_false_iff]
        exact fun h => hne (by rw [String.isEmpty_iff.mp h]; exact List.mem_cons_self)
      have hhead : ∀ u ∈ rest.head?, u.text? = none := fun u hu => by
        cases rest with
        | nil => cases hu
        | cons b rest =>
          cases hu
          exact (List.isChain_cons_cons.mp hc).1.resolve_left (Option.some_ne_none s)
      exact (glue_of_head hhead s).trans (by simp [hs])

/-! ## The current line -/

theorem cutAt_append_eq (sep : Char) (b : List Char) : ∀ a : List Char, ∃ ps p q qs,
    Text.cutAt sep a = ps ++ [p] ∧ Text.cutAt sep b = q :: qs ∧ Text.cutAt sep (a ++ b) = ps ++ (p ++ q) :: qs
  | [] => by
    obtain ⟨q, qs, h⟩ := List.exists_cons_of_ne_nil (Text.cutAt_ne_nil sep b)
    exact ⟨[], [], q, qs, rfl, h, h⟩
  | c :: a => by
    obtain ⟨ps, p, q, qs, ha, hb, hab⟩ := cutAt_append_eq sep b a
    by_cases hc : c = sep
    · exact ⟨[] :: ps, p, q, qs, by simp [Text.cutAt, hc, ha], hb, by simp [Text.cutAt, hc, hab]⟩
    · cases ps with
      | nil => exact ⟨[], c :: p, q, qs, by simp [Text.cutAt, hc, ha], hb, by simp [Text.cutAt, hc, hab]⟩
      | cons x ps => exact ⟨(c :: x) :: ps, p, q, qs, by simp [Text.cutAt, hc, ha], hb, by simp [Text.cutAt, hc, hab]⟩

theorem lastLine_currentLine (before text : List Char) :
    Variables.lastLine (currentLine before) text = currentLine (before ++ text) := by
  obtain ⟨ps, p, q, qs, ha, hb, hab⟩ := cutAt_append_eq '\n' text before
  unfold Variables.lastLine currentLine
  rw [ha, hb, hab]
  cases qs with
  | nil => simp
  | cons x qs => simp [List.getLast?_cons]

/-! ## Resolving -/

namespace Variables

/-- The value of an occurrence: a selection goes on at the indentation of the line. -/
def valueAt (vars : Variables) (ctx : EditContext) : SnippetTree.Values := fun before v =>
  vars.occurrenceValue ctx (Text.indentation (currentLine before)) v

@[simp] theorem Resolved.met_pushText (r : Resolved) (s : String) : (r.pushText s).met = r.met := by
  unfold Resolved.pushText
  split <;> rfl

theorem Resolved.pushText_empty (r : Resolved) : r.pushText "" = r := by
  have hline : lastLine r.line "".toList = r.line := by simp [lastLine, Text.cutAt]
  unfold Resolved.pushText
  split
  · rename_i t rest hr
    rw [hline, String.append_empty, ← hr]
  · rw [hline]
    rfl

/-- What is resolved so far are these tokens, their texts joined. -/
structure Resolved.Holds (r : Resolved) (written : List SnippetToken) : Prop where
  tokens : ∀ rest, r.tokens.reverse.foldr joinTo rest = written.foldr joinTo rest
  line : r.line = currentLine (plainText written)
  full : .text "" ∉ r.tokens
  apart : r.tokens.IsChain Apart

namespace Resolved.Holds

variable {r : Resolved} {written : List SnippetToken}

theorem joined_eq (h : r.Holds written) : r.tokens.reverse = joined written := by
  rw [joined, ← h.tokens]
  refine (joined_eq_self (fun hm => h.full (List.mem_reverse.mp hm)) ?_).symm
  exact List.isChain_reverse.mpr (h.apart.imp fun _ _ => Or.symm)

theorem met (h : r.Holds written) (met : List Nat) : Resolved.Holds { r with met } written :=
  ⟨h.tokens, h.line, h.full, h.apart⟩

theorem tabstop (h : r.Holds written) (t : TabstopMark) :
    Resolved.Holds { r with tokens := .tabstop t :: r.tokens } (written ++ [.tabstop t]) where
  tokens rest := by rw [List.reverse_cons, List.foldr_append, h.tokens, List.foldr_append]
  line := by rw [h.line, plainText_append]; simp [plainText, SnippetToken.text?]
  full hm := by
    rcases List.mem_cons.mp hm with hm | hm
    · cases hm
    · exact h.full hm
  apart := by
    cases hr : r.tokens with
    | nil => exact List.isChain_singleton _
    | cons b rest => exact List.isChain_cons_cons.mpr ⟨.inl rfl, hr ▸ h.apart⟩

theorem pushText (h : r.Holds written) (s : String) : (r.pushText s).Holds (written ++ [.text s]) := by
  have hline : lastLine r.line s.toList = currentLine (plainText (written ++ [.text s])) := by
    rw [h.line, lastLine_currentLine, plainText_append]
    simp [plainText, SnippetToken.text?]
  have hwritten : ∀ rest, (written ++ [SnippetToken.text s]).foldr joinTo rest =
      r.tokens.reverse.foldr joinTo (glue s rest) :=
    fun rest => by rw [List.foldr_append, h.tokens]; rfl
  unfold Resolved.pushText
  split
  · rename_i t rest hr
    have hne : t ≠ "" := fun he => h.full (by rw [hr, he]; exact List.mem_cons_self)
    refine ⟨fun xs => ?_, hline, ?_, ?_⟩
    · rw [hwritten, hr, List.reverse_cons, List.foldr_append, List.reverse_cons, List.foldr_append]
      exact congrArg (rest.reverse.foldr joinTo ·) (glue_glue t s xs).symm
    · intro hm
      rcases List.mem_cons.mp hm with hm | hm
      · exact hne (String.append_eq_empty_iff.mp (SnippetToken.text.inj hm).symm).1
      · exact h.full (hr ▸ List.mem_cons_of_mem _ hm)
    · have hc := h.apart
      rw [hr] at hc
      cases rest with
      | nil => exact List.isChain_singleton _
      | cons b rest =>
        obtain ⟨ha, hc⟩ := List.isChain_cons_cons.mp hc
        exact List.isChain_cons_cons.mpr ⟨.inr (ha.resolve_left (Option.some_ne_none t)), hc⟩
  · rename_i hhead
    by_cases hs : s = ""
    · subst hs
      exact ⟨fun xs => by rw [hwritten, glue_empty]; rfl, hline, h.full, h.apart⟩
    · simp only [String.isEmpty_iff, hs, if_false]
      refine ⟨fun xs => ?_, hline, ?_, ?_⟩
      · rw [hwritten, List.reverse_cons, List.foldr_append]
        rfl
      · intro hm
        rcases List.mem_cons.mp hm with hm | hm
        · exact hs (SnippetToken.text.inj hm).symm
        · exact h.full hm
      · cases hr : r.tokens with
        | nil => exact List.isChain_singleton _
        | cons b rest =>
          refine List.isChain_cons_cons.mpr ⟨.inr ?_, hr ▸ h.apart⟩
          cases b with
          | text t => exact absurd hr (hhead t rest)
          | tabstop t => rfl
          | var v => rfl

end Resolved.Holds

variable (vars : Variables) (ctx : EditContext)

theorem resolveFrom_append : ∀ (xs rest : List SnippetToken) (r : Resolved),
    vars.resolveFrom ctx r xs.length (xs ++ rest) = vars.resolveFrom ctx r 0 rest
  | [], _, _ => rfl
  | _ :: xs, rest, r => resolveFrom_append xs rest r

theorem resolveFrom_met {r : Resolved} {v : VariableMark} (h : v.marker ∈ r.met) (rest : List SnippetToken) :
    vars.resolveFrom ctx r 0 (.var v :: rest) = vars.resolveFrom ctx r 0 rest := by
  simp [resolveFrom, h]

/-- A variable that is met for the first time. -/
theorem resolveFrom_var {r : Resolved} {written : List SnippetToken} (h : r.Holds written) {v : VariableMark}
    (hv : v.marker ∉ r.met) (rest : List SnippetToken) :
    let x := vars.valueAt ctx (plainText written) v
    vars.resolveFrom ctx r 0 (.var v :: rest) =
      vars.resolveFrom ctx (Resolved.pushText { r with met := v.marker :: r.met } x)
        (if x.isEmpty then 0 else ((bodyLength? v.marker rest).map (· + 1)).getD 0) rest := by
  simp only [resolveFrom, valueAt, ← h.line, List.contains_eq_mem, decide_eq_true_eq, hv, if_false]
  split
  · rename_i hx
    rw [String.isEmpty_iff.mp hx, Resolved.pushText_empty]
  · rfl

theorem bodyLength?_append {v : VariableMark} {body : List SnippetToken} (h : v.marker ∉ markers body)
    (rest : List SnippetToken) : bodyLength? v.marker (body ++ .var v :: rest) = some body.length := by
  have hb := bodyLength?_eq_none h
  unfold bodyLength? at hb ⊢
  rw [List.findIdx?_append, hb, List.findIdx?_cons, if_pos (by simp [SnippetToken.marker?])]
  simp

/-- Resolving goes from one state to another over a tree: what the tree comes to is written, and only its own marks
are met. -/
structure Passes (vars : Variables) (ctx : EditContext) (r : Resolved) (written : List SnippetToken)
    (tree : SnippetTree) (rest : List SnippetToken) (r' : Resolved) : Prop where
  run : vars.resolveFrom ctx r 0 (tree.tokens ++ rest) = vars.resolveFrom ctx r' 0 rest
  holds : r'.Holds (written ++ (tree.filled (vars.valueAt ctx) (plainText written)).tokens)
  kept : r.met ⊆ r'.met
  only : ∀ m ∈ r'.met, m ∈ r.met ∨ m ∈ tree.marks

/-- Resolving passes the tree wherever its marks are new and do not come again. -/
def Passable (vars : Variables) (ctx : EditContext) (tree : SnippetTree) : Prop :=
  ∀ {r : Resolved} {written : List SnippetToken}, r.Holds written → tree.marks.Nodup →
    ∀ rest : List SnippetToken, (∀ m ∈ tree.marks, m ∉ r.met ∧ m ∉ markers rest) →
      ∃ r', Passes vars ctx r written tree rest r'

section
variable {vars : Variables} {ctx : EditContext} {body after : SnippetTree}

theorem passable_text (s : String) (ih : Passable vars ctx after) : Passable vars ctx (.text s after) := by
  intro r written h hn rest hfree
  obtain ⟨r', hp⟩ := ih (h.pushText s) hn rest (by simpa [SnippetTree.marks] using hfree)
  have hkept := hp.kept
  have honly := hp.only
  rw [Resolved.met_pushText] at hkept honly
  refine ⟨r', hp.run, ?_, hkept, honly⟩
  simpa [SnippetTree.filled, SnippetTree.tokens] using hp.holds

theorem passable_alone_tabstop (t : TabstopMark) (ih : Passable vars ctx after) :
    Passable vars ctx (.alone (.tabstop t) after) := by
  intro r written h hn rest hfree
  obtain ⟨r', hp⟩ := ih (h.tabstop t) (List.nodup_cons.mp hn).2 rest fun m hm => hfree m (List.mem_cons_of_mem _ hm)
  refine ⟨r', hp.run, ?_, hp.kept, fun m hm => (hp.only m hm).imp_right (List.mem_cons_of_mem _)⟩
  simpa [SnippetTree.filled, SnippetTree.tokens, SnippetMark.token] using hp.holds

/-- Behind a placeholder the marks of what follows are still new. -/
theorem exists_passes_after (mark : SnippetMark) (body : SnippetTree) (ih : Passable vars ctx after) {r r₁ : Resolved}
    {written : List SnippetToken} (h : r₁.Holds written) (hn : (SnippetTree.around mark body after).marks.Nodup)
    {rest : List SnippetToken}
    (hfree : ∀ m ∈ (SnippetTree.around mark body after).marks, m ∉ r.met ∧ m ∉ markers rest)
    (hkept : r.met ⊆ r₁.met) (honly : ∀ m ∈ r₁.met, m ∈ r.met ∨ m ∈ mark.marker :: body.marks) :
    ∃ r₂, vars.resolveFrom ctx r₁ 0 (after.tokens ++ rest) = vars.resolveFrom ctx r₂ 0 rest ∧
      r₂.Holds (written ++ (after.filled (vars.valueAt ctx) (plainText written)).tokens) ∧ r.met ⊆ r₂.met ∧
      ∀ m ∈ r₂.met, m ∈ r.met ∨ m ∈ (SnippetTree.around mark body after).marks := by
  have hn' : ((mark.marker :: body.marks) ++ after.marks).Nodup := hn
  obtain ⟨-, hna, hapart⟩ := List.nodup_append.mp hn'
  obtain ⟨r₂, hp⟩ := ih h hna rest fun m hm => by
    obtain ⟨hmet, hrest⟩ := hfree m (List.mem_append_right (mark.marker :: body.marks) hm)
    exact ⟨fun hm₁ => (honly m hm₁).elim hmet fun hm' => hapart m hm' m hm rfl, hrest⟩
  refine ⟨r₂, hp.run, hp.holds, List.Subset.trans hkept hp.kept, fun m hm => ?_⟩
  rcases hp.only m hm with hm | hm
  · exact (honly m hm).imp_right (List.mem_append_left after.marks)
  · exact .inr (List.mem_append_right (mark.marker :: body.marks) hm)

/-- Within a placeholder no mark is met that stands behind it. -/
theorem not_mem_behind {mark : SnippetMark} {met : List Nat} {rest : List SnippetToken}
    (hn : (SnippetTree.around mark body after).marks.Nodup)
    (hfree : ∀ m ∈ (SnippetTree.around mark body after).marks, m ∉ met ∧ m ∉ markers rest) :
    ∀ m ∈ body.marks, m ≠ mark.marker ∧ m ∉ met ∧ m ∉ markers (mark.token :: (after.tokens ++ rest)) := by
  intro m hm
  obtain ⟨hmark, hn'⟩ := List.nodup_cons.mp hn
  have hne : m ≠ mark.marker := fun he => hmark (List.mem_append_left _ (he ▸ hm))
  have ha : m ∉ after.marks := fun ha => (List.nodup_append.mp hn').2.2 m hm m ha rfl
  obtain ⟨hmet, hrest⟩ := hfree m (List.mem_cons_of_mem _ (List.mem_append_left _ hm))
  exact ⟨hne, hmet, by simpa [SnippetTree.mem_marks] using ⟨hne, ha, hrest⟩⟩

theorem passable_around_tabstop (t : TabstopMark) (ihb : Passable vars ctx body) (iha : Passable vars ctx after) :
    Passable vars ctx (.around (.tabstop t) body after) := by
  intro r written h hn rest hfree
  have hnb : body.marks.Nodup := (List.nodup_append.mp (List.nodup_cons.mp hn).2).1
  obtain ⟨r₁, hp⟩ := ihb (h.tabstop t) hnb _ fun m hm => (not_mem_behind hn hfree m hm).2
  obtain ⟨r₂, hrun, hholds, hkept, honly⟩ := exists_passes_after (.tabstop t) body iha (hp.holds.tabstop t) hn hfree hp.kept
    fun m hm => (hp.only m hm).imp_right (List.mem_cons_of_mem _)
  refine ⟨r₂, ?_, ?_, hkept, honly⟩
  · rw [SnippetTree.tokens, List.cons_append, List.append_assoc, List.cons_append]
    exact hp.run.trans hrun
  · simpa [SnippetTree.filled, SnippetTree.tokens, SnippetMark.token] using hholds

theorem passable_alone_var (v : VariableMark) (ih : Passable vars ctx after) :
    Passable vars ctx (.alone (.var v) after) := by
  intro r written h hn rest hfree
  obtain ⟨hmet, hrest⟩ := hfree v.marker List.mem_cons_self
  have hnone : bodyLength? v.marker (after.tokens ++ rest) = none :=
    bodyLength?_eq_none (by simpa [SnippetTree.mem_marks] using ⟨(List.nodup_cons.mp hn).1, hrest⟩)
  have hvar := resolveFrom_var vars ctx h hmet (after.tokens ++ rest)
  simp only [hnone, Option.map_none, Option.getD_none, ite_self] at hvar
  obtain ⟨r', hrun, hholds, hkept, honly⟩ := exists_passes_after (.var v) .nil ih
    ((h.met (v.marker :: r.met)).pushText (vars.valueAt ctx (plainText written) v)) hn hfree
    (by simp) (by simp [SnippetTree.marks, SnippetMark.marker]; tauto)
  refine ⟨r', hvar.trans hrun, ?_, hkept, honly⟩
  simpa [SnippetTree.filled, SnippetTree.tokens] using hholds

theorem passable_around_var (v : VariableMark) (ihb : Passable vars ctx body) (iha : Passable vars ctx after) :
    Passable vars ctx (.around (.var v) body after) := by
  intro r written h hn rest hfree
  have hmark : v.marker ∉ markers body.tokens := fun hm =>
    (List.nodup_cons.mp hn).1 (List.mem_append_left _ (SnippetTree.mem_marks.mp hm))
  have hvar := resolveFrom_var vars ctx h (hfree v.marker List.mem_cons_self).1
    (body.tokens ++ .var v :: (after.tokens ++ rest))
  rw [bodyLength?_append hmark] at hvar
  have htokens : (SnippetTree.around (.var v) body after).tokens ++ rest =
      .var v :: (body.tokens ++ .var v :: (after.tokens ++ rest)) := by
    simp [SnippetTree.tokens, SnippetMark.token]
  have hmet := h.met (v.marker :: r.met)
  by_cases hx : vars.valueAt ctx (plainText written) v = ""
  · -- The default is passed, and the mark behind it is met by then.
    simp only [hx, Resolved.pushText_empty, String.isEmpty_iff, if_true] at hvar
    have hnb : body.marks.Nodup := (List.nodup_append.mp (List.nodup_cons.mp hn).2).1
    obtain ⟨r₁, hp⟩ := ihb hmet hnb (.var v :: (after.tokens ++ rest)) fun m hm => by
      obtain ⟨hne, hm, hrest⟩ := not_mem_behind hn hfree m hm
      exact ⟨by simpa using ⟨hne, hm⟩, hrest⟩
    have hknown := resolveFrom_met vars ctx (hp.kept List.mem_cons_self) (after.tokens ++ rest)
    obtain ⟨r₂, hrun, hholds, hkept, honly⟩ := exists_passes_after (.var v) body iha hp.holds hn hfree
      (List.Subset.trans (List.subset_cons_self _ _) hp.kept)
      fun m hm => by simpa [SnippetMark.marker, or_assoc, or_left_comm] using hp.only m hm
    refine ⟨r₂, ?_, ?_, hkept, honly⟩
    · rw [htokens, hvar]
      exact hp.run.trans (hknown.trans hrun)
    · simpa [SnippetTree.filled_of_empty body after hx] using hholds
  · -- The value stands for the default, and the mark behind it is passed over.
    have hskip := resolveFrom_append vars ctx (body.tokens ++ [.var v]) (after.tokens ++ rest)
      (Resolved.pushText { r with met := v.marker :: r.met } (vars.valueAt ctx (plainText written) v))
    obtain ⟨r₂, hrun, hholds, hkept, honly⟩ := exists_passes_after (.var v) body iha
      (hmet.pushText (vars.valueAt ctx (plainText written) v)) hn hfree
      (by simp) (by simp [SnippetMark.marker]; tauto)
    refine ⟨r₂, ?_, ?_, hkept, honly⟩
    · rw [htokens, hvar]
      simp only [List.append_assoc, List.length_append, List.length_singleton, List.singleton_append] at hskip
      simp only [String.isEmpty_iff, hx, if_false, Option.map_some, Option.getD_some, hskip]
      exact hrun
    · simpa [SnippetTree.filled_of_nonempty body after hx, SnippetTree.tokens] using hholds

end

theorem passable (vars : Variables) (ctx : EditContext) (tree : SnippetTree) : Passable vars ctx tree := by
  induction tree with
  | nil =>
    intro r written h _ rest _
    exact ⟨r, rfl, by simpa [SnippetTree.filled, SnippetTree.tokens] using h, fun _ hm => hm, fun _ hm => .inl hm⟩
  | text s after ih => exact passable_text s ih
  | alone mark after ih =>
    cases mark with
    | tabstop t => exact passable_alone_tabstop t ih
    | var v => exact passable_alone_var v ih
  | around mark body after ihb iha =>
    cases mark with
    | tabstop t => exact passable_around_tabstop t ihb iha
    | var v => exact passable_around_var v ihb iha

theorem resolve_tokens (vars : Variables) (ctx : EditContext) {tree : SnippetTree} (hn : tree.marks.Nodup) :
    vars.resolve ctx tree.tokens = joined (tree.filled (vars.valueAt ctx) []).tokens := by
  have hstart : Resolved.Holds {} [] := ⟨fun _ => rfl, rfl, List.not_mem_nil, List.IsChain.nil⟩
  obtain ⟨r, hp⟩ := passable vars ctx tree hstart hn [] fun m _ => by simp
  have hrun := hp.run
  rw [List.append_nil] at hrun
  rw [resolve, hrun]
  exact hp.holds.joined_eq

end Variables

/-! ## What depends on the values -/

/-- The tabstops among tokens, in order. -/
def tabstopMarks (tokens : List SnippetToken) : List TabstopMark :=
  tokens.filterMap fun
    | .tabstop t => some t
    | _ => none

/-- No variable is empty in one list and not in the other. -/
def AlikeEmpty (asked asked' : List (Nat × String)) : Prop :=
  ∀ p ∈ asked, ∀ p' ∈ asked', p.1 = p'.1 → p.2.isEmpty = p'.2.isEmpty

theorem tabstopMarks_joined (tokens : List SnippetToken) : tabstopMarks (joined tokens) = tabstopMarks tokens := by
  induction tokens with
  | nil => rfl
  | cons t rest ih =>
    have hcons : joined (t :: rest) = joinTo t (joined rest) := rfl
    have hglue : ∀ s xs, tabstopMarks (glue s xs) = tabstopMarks xs := fun s xs => by
      unfold glue
      split
      · rfl
      · split <;> rfl
    rw [hcons]
    cases t with
    | text s => exact (hglue s _).trans ih
    | tabstop t => exact congrArg (t :: ·) ih
    | var v => exact ih

@[simp] theorem tabstopMarks_append (xs ys : List SnippetToken) :
    tabstopMarks (xs ++ ys) = tabstopMarks xs ++ tabstopMarks ys := List.filterMap_append

@[simp] theorem tabstopMarks_text (s : String) (rest : List SnippetToken) :
    tabstopMarks (.text s :: rest) = tabstopMarks rest := rfl

@[simp] theorem tabstopMarks_tabstop (t : TabstopMark) (rest : List SnippetToken) :
    tabstopMarks (.tabstop t :: rest) = t :: tabstopMarks rest := rfl

theorem AlikeEmpty.mono {asked asked' part part' : List (Nat × String)} (h : AlikeEmpty asked asked')
    (hp : part ⊆ asked) (hp' : part' ⊆ asked') : AlikeEmpty part part' :=
  fun p hm p' hm' => h p (hp hm) p' (hp' hm')

/-- A default is used with both values or with none, so the same tabstops are left. -/
theorem SnippetTree.tabstopMarks_filled (tree : SnippetTree) : ∀ {value value' : Values} {before before' : List Char},
    AlikeEmpty (tree.asked value before) (tree.asked value' before') →
    tabstopMarks (tree.filled value before).tokens = tabstopMarks (tree.filled value' before').tokens := by
  induction tree with
  | nil => intro _ _ _ _ _; rfl
  | text s rest ih => intro _ _ _ _ h; exact ih h
  | alone mark rest ih =>
    intro _ _ _ _ h
    cases mark with
    | tabstop t => exact congrArg (t :: ·) (ih h)
    | var v => exact ih (h.mono (List.subset_cons_self _ _) (List.subset_cons_self _ _))
  | around mark body rest ihb ihr =>
    intro value value' before before' h
    cases mark with
    | tabstop t =>
      have hb := ihb (h.mono (List.subset_append_left _ _) (List.subset_append_left _ _))
      have hr := ihr (h.mono (List.subset_append_right _ _) (List.subset_append_right _ _))
      simp [filled, tokens, SnippetMark.token, hb, hr]
    | var v =>
      have hempty : (value before v).isEmpty = (value' before' v).isEmpty :=
        h _ (mem_asked_around body rest) _ (mem_asked_around body rest) rfl
      by_cases hx : value before v = ""
      · have hx' : value' before' v = "" := String.isEmpty_iff.mp (hempty ▸ String.isEmpty_iff.mpr hx)
        rw [asked_of_empty body rest hx, asked_of_empty body rest hx'] at h
        have h := h.mono (List.subset_cons_self _ _) (List.subset_cons_self _ _)
        have hb := ihb (h.mono (List.subset_append_left _ _) (List.subset_append_left _ _))
        have hr := ihr (h.mono (List.subset_append_right _ _) (List.subset_append_right _ _))
        simp [filled_of_empty body rest hx, filled_of_empty body rest hx', hb, hr]
      · have hx' : value' before' v ≠ "" := fun he =>
          hx (String.isEmpty_iff.mp (hempty ▸ String.isEmpty_iff.mpr he))
        rw [asked_of_nonempty body rest hx, asked_of_nonempty body rest hx'] at h
        rw [filled_of_nonempty body rest hx, filled_of_nonempty body rest hx']
        exact ihr (h.mono (List.subset_cons_self _ _) (List.subset_cons_self _ _))

/-- A snippet is one tree of placeholders. Resolving puts the values into it, leaves no variable and keeps each
placeholder around its body; and values that are empty in the same places leave the same tabstops. -/
theorem Variables.resolve_substitutes (source : String) :
    ∃ tree : SnippetTree, tree.tokens = parseSnippet source ∧ tree.marks.Nodup ∧
      (∀ other : SnippetTree, other.tokens = parseSnippet source → other.marks.Nodup → other = tree) ∧
      (∀ (vars : Variables) (ctx : EditContext),
        vars.resolve ctx (parseSnippet source) = joined (tree.filled (vars.valueAt ctx) []).tokens ∧
        (∀ v, .var v ∉ vars.resolve ctx (parseSnippet source)) ∧
        ∃ nested : SnippetTree, nested.tokens = vars.resolve ctx (parseSnippet source) ∧ nested.marks.Nodup) ∧
      ∀ (vars vars' : Variables) (ctx ctx' : EditContext),
        AlikeEmpty (tree.asked (vars.valueAt ctx) []) (tree.asked (vars'.valueAt ctx') []) →
          tabstopMarks (vars.resolve ctx (parseSnippet source)) =
            tabstopMarks (vars'.resolve ctx' (parseSnippet source)) := by
  obtain ⟨tree, ht, hn⟩ := exists_tree_parseSnippet source
  have hresolve : ∀ (vars : Variables) (ctx : EditContext),
      vars.resolve ctx (parseSnippet source) = joined (tree.filled (vars.valueAt ctx) []).tokens := fun vars ctx => by
    rw [← ht, resolve_tokens vars ctx hn]
  refine ⟨tree, ht, hn, ?_, ?_, ?_⟩
  · intro other ho hno
    exact SnippetTree.eq_of_tokens_eq hno hn (ho.trans ht.symm)
  · intro vars ctx
    obtain ⟨nested, htokens, hmarks⟩ := (tree.filled (vars.valueAt ctx) []).exists_joined
    refine ⟨hresolve vars ctx, not_var_mem_resolve vars ctx _, nested, htokens.trans (hresolve vars ctx).symm, ?_⟩
    rw [hmarks]
    exact (tree.sublist_marks_filled _ _).nodup hn
  · intro vars vars' ctx ctx' h
    rw [hresolve, hresolve, tabstopMarks_joined, tabstopMarks_joined]
    exact tree.tabstopMarks_filled h

/-- A value that looks like a placeholder leaves the tabstops that any other text leaves. -/
theorem Variables.resolve_substitutes_inert (ctx : EditContext) :
    let clock : Clock := ⟨2020, 1, 1, 0, 0, 0⟩
    tabstopMarks (Variables.resolve { custom := ⟨[("X", "y")]⟩, clock } ctx (parseSnippet "${X:a$1}$2")) =
      tabstopMarks (Variables.resolve { custom := ⟨[("X", "$3")]⟩, clock } ctx (parseSnippet "${X:a$1}$2")) := by
  obtain ⟨tree, -, -, hone, -, hsame⟩ := Variables.resolve_substitutes "${X:a$1}$2"
  have htree := hone (.around (.var { marker := 0, name := "X" })
    (.text "a" (.alone (.tabstop { marker := 1, id := 1 }) .nil))
    (.alone (.tabstop { marker := 2, id := 2 }) .nil)) rfl (by decide)
  subst htree
  refine hsame { custom := ⟨[("X", "y")]⟩, clock := ⟨2020, 1, 1, 0, 0, 0⟩ }
    { custom := ⟨[("X", "$3")]⟩, clock := ⟨2020, 1, 1, 0, 0, 0⟩ } ctx ctx ?_
  intro p hp p' hp' _
  obtain rfl : p = (0, "y") := List.mem_singleton.mp hp
  obtain rfl : p' = (0, "$3") := List.mem_singleton.mp hp'
  rfl

end Scribe
