import Scribe.Proofs.Snippet.Layout

/-!
# The pieces of a snippet

What a snippet without variables comes to are pieces: its literal texts and, where a tabstop occurs with a transform, what
this makes of the default. Where the characters of the literal texts are written in another way, with an indentation behind a
line end or spaces for a tab, the pieces stay the same, and a transform is given the default as it is written.
-/

namespace Scribe

/-- The text with its characters written by `spell`. -/
def spelledText (spell : Char → List Char) (s : String) : String := String.ofList (s.toList.flatMap spell)

def SnippetToken.spelled (spell : Char → List Char) : SnippetToken → SnippetToken
  | .text s => .text (spelledText spell s)
  | token => token

namespace Expansion

def Default.spelled (spell : Char → List Char) : Default → Default
  | .none => .none
  | .text s => .text (spelledText spell s)
  | .nested body => .nested (body.map (·.spelled spell))

def Placeholder.spelled (spell : Char → List Char) (p : Placeholder) : Placeholder :=
  { p with default := p.default.spelled spell }

end Expansion

section
variable (spell : Char → List Char)

@[simp] theorem toList_spelledText (s : String) : (spelledText spell s).toList = s.toList.flatMap spell :=
  String.toList_ofList

theorem spelledText_append (s t : String) : spelledText spell (s ++ t) = spelledText spell s ++ spelledText spell t :=
  String.toList_inj.mp (by simp)

theorem spelledText_join (ss : List String) :
    spelledText spell (String.join ss) = String.join (ss.map (spelledText spell)) :=
  String.toList_inj.mp (by simp [List.flatMap_assoc, List.flatMap_map])

theorem spelledText_isEmpty (hspell : ∀ c, spell c ≠ []) (s : String) : (spelledText spell s).isEmpty = s.isEmpty := by
  rw [Bool.eq_iff_iff, String.isEmpty_iff, String.isEmpty_iff, ← String.toList_eq_nil_iff, ← String.toList_eq_nil_iff,
    toList_spelledText, List.flatMap_eq_nil_iff]
  refine ⟨fun h => List.eq_nil_iff_forall_not_mem.mpr fun c hc => hspell c (h c hc), fun h c hc => ?_⟩
  rw [h] at hc
  cases hc

namespace SnippetToken

@[simp] theorem spelled_text (s : String) : (text s).spelled spell = .text (spelledText spell s) := rfl

@[simp] theorem spelled_tabstop (t : TabstopMark) : (tabstop t).spelled spell = .tabstop t := rfl

@[simp] theorem marker?_spelled (token : SnippetToken) : (token.spelled spell).marker? = token.marker? := by
  cases token <;> rfl

theorem filterMap_text?_spelled (tokens : List SnippetToken) :
    (tokens.map (·.spelled spell)).filterMap (·.text?) = (tokens.filterMap (·.text?)).map (spelledText spell) := by
  rw [List.filterMap_map, List.map_filterMap]
  refine List.filterMap_congr fun token _ => ?_
  cases token <;> rfl

end SnippetToken

/-! ## Resolving -/

namespace Variables

/-- Where there is no text before it, a text is a token of its own. -/
theorem Resolved.tokens_pushText {r : Resolved} (h : ∀ before rest, r.tokens ≠ .text before :: rest) (s : String) :
    (r.pushText s).tokens = if s.isEmpty then r.tokens else .text s :: r.tokens := by
  unfold pushText
  split
  · exact absurd ‹_› (h _ _)
  · rfl

section
variable (hspell : ∀ c, spell c ≠ [])
include hspell

theorem tokens_pushText_spelled {r r' : Resolved} (h : r.tokens = r'.tokens.map (·.spelled spell)) (s : String) :
    (r.pushText (spelledText spell s)).tokens = (r'.pushText s).tokens.map (·.spelled spell) := by
  obtain ⟨tokens, line, met⟩ := r'
  obtain ⟨tokens', line', met'⟩ := r
  obtain rfl : tokens' = tokens.map (·.spelled spell) := h
  have halone (hlast : ∀ before rest, tokens ≠ .text before :: rest) :
      (Resolved.pushText ⟨tokens.map (·.spelled spell), line', met'⟩ (spelledText spell s)).tokens =
        (Resolved.pushText ⟨tokens, line, met⟩ s).tokens.map (·.spelled spell) := by
    have hspelled (before : String) (rest : List SnippetToken) :
        tokens.map (·.spelled spell) ≠ .text before :: rest := by
      intro h
      obtain ⟨token, rest', rfl, htoken, -⟩ := List.map_eq_cons_iff.mp h
      cases token with
      | text before => exact hlast before rest' rfl
      | tabstop t => cases htoken
      | var v => cases htoken
    rw [Resolved.tokens_pushText hspelled, Resolved.tokens_pushText hlast, spelledText_isEmpty spell hspell]
    split <;> rfl
  rcases tokens with _ | ⟨before | t | v, rest⟩
  · exact halone (by simp)
  · show SnippetToken.text _ :: _ = SnippetToken.text _ :: _
    rw [spelledText_append]
  · exact halone (by simp)
  · exact halone (by simp)

theorem tokens_resolveFrom_spelled {tokens : List SnippetToken} (hv : ∀ v, .var v ∉ tokens) (vars vars' : Variables)
    (ctx ctx' : EditContext) {r r' : Resolved} (h : r.tokens = r'.tokens.map (·.spelled spell)) :
    (vars.resolveFrom ctx r 0 (tokens.map (·.spelled spell))).tokens =
      (vars'.resolveFrom ctx' r' 0 tokens).tokens.map (·.spelled spell) := by
  induction tokens generalizing r r' with
  | nil => exact h
  | cons token rest ih =>
    have hrest {r r' : Resolved} := @ih (fun v hmem => hv v (List.mem_cons_of_mem _ hmem)) r r'
    cases token with
    | text s => exact hrest (tokens_pushText_spelled spell hspell h s)
    | tabstop t =>
      refine hrest ?_
      rw [h]
      rfl
    | var v => exact absurd List.mem_cons_self (hv v)

/-- Where there is no variable, resolving asks for no value. -/
theorem resolve_spelled {tokens : List SnippetToken} (hv : ∀ v, .var v ∉ tokens) (vars vars' : Variables)
    (ctx ctx' : EditContext) :
    vars.resolve ctx (tokens.map (·.spelled spell)) = (vars'.resolve ctx' tokens).map (·.spelled spell) := by
  have hstart : ({} : Resolved).tokens = ({} : Resolved).tokens.map (·.spelled spell) := rfl
  rw [resolve, resolve, tokens_resolveFrom_spelled spell hspell hv vars vars' ctx ctx' hstart, List.map_reverse]

end

end Variables

theorem Variables.tabstop_mem_resolve {tokens : List SnippetToken} (hv : ∀ v, .var v ∉ tokens) (vars : Variables)
    (ctx : EditContext) {t : TabstopMark} (ht : .tabstop t ∈ vars.resolve ctx tokens) : .tabstop t ∈ tokens := by
  have hpush : ∀ (r : Resolved) (s : String), .tabstop t ∈ (r.pushText s).tokens → .tabstop t ∈ r.tokens := by
    intro r s h
    unfold Resolved.pushText at h
    dsimp only at h
    split at h
    · rename_i before rest hr
      rw [hr]
      rcases List.mem_cons.mp h with h | h
      · cases h
      · exact List.mem_cons_of_mem _ h
    · dsimp only at h
      split at h
      · exact h
      · exact (List.mem_cons.mp h).resolve_left fun h => nomatch h
  have hfrom : ∀ r : Resolved, .tabstop t ∈ (vars.resolveFrom ctx r 0 tokens).tokens →
      .tabstop t ∈ r.tokens ∨ .tabstop t ∈ tokens := by
    clear ht
    induction tokens with
    | nil => exact fun r h => .inl h
    | cons token rest ih =>
      intro r h
      have hrest := ih fun v hmem => hv v (List.mem_cons_of_mem _ hmem)
      cases token with
      | text s => exact (hrest _ h).imp (hpush r s) (List.mem_cons_of_mem _)
      | tabstop u =>
        rcases hrest _ h with h | h
        · rcases List.mem_cons.mp h with h | h
          · exact .inr (h ▸ List.mem_cons_self)
          · exact .inl h
        · exact .inr (List.mem_cons_of_mem _ h)
      | var v => exact absurd List.mem_cons_self (hv v)
  exact (hfrom {} (List.mem_reverse.mp ht)).resolve_left List.not_mem_nil

/-! ## Collecting -/

namespace Expansion

theorem bodyLength?_spelled (marker : Nat) (rest : List SnippetToken) :
    bodyLength? marker (rest.map (·.spelled spell)) = bodyLength? marker rest := by
  simp [bodyLength?, List.findIdx?_map, Function.comp_def]

theorem behindBody_spelled (marker : Nat) (rest : List SnippetToken) :
    behindBody marker (rest.map (·.spelled spell)) = (behindBody marker rest).map (·.spelled spell) := by
  rw [behindBody, behindBody, bodyLength?_spelled, List.map_drop]

theorem withBody_spelled (p : Placeholder) (body : List SnippetToken) :
    (p.spelled spell).withBody (body.map (·.spelled spell)) = (p.withBody body).spelled spell := by
  obtain ⟨default, choices⟩ := p
  have hmarks : (body.map (·.spelled spell)).any (·.marker?.isSome) = body.any (·.marker?.isSome) := by
    simp [List.any_map, Function.comp_def]
  have htext : String.join ((body.map (·.spelled spell)).filterMap (·.text?)) =
      spelledText spell (String.join (body.filterMap (·.text?))) := by
    rw [SnippetToken.filterMap_text?_spelled, spelledText_join]
  unfold Placeholder.withBody
  rw [hmarks, htext, List.isEmpty_map]
  repeat' split
  all_goals cases default <;> simp_all [Placeholder.spelled, Default.spelled]

theorem note_spelled (p : Placeholder) (t : TabstopMark) (rest : List SnippetToken) :
    (p.spelled spell).note t (rest.map (·.spelled spell)) = (p.note t rest).spelled spell := by
  unfold Placeholder.note
  rw [bodyLength?_spelled]
  dsimp only
  split
  · rw [← List.map_take]
    exact withBody_spelled spell { p with choices := p.choices <|> t.choices } _
  · rfl

theorem collect_spelled (tokens : List SnippetToken) (found : Dict Nat Placeholder) (met : List Nat) :
    collect (found.mapValues (·.spelled spell)) met (tokens.map (·.spelled spell)) =
      (collect found met tokens).mapValues (·.spelled spell) := by
  induction tokens generalizing found met with
  | nil => rfl
  | cons token rest ih =>
    cases token with
    | text s => exact ih found met
    | var v => exact ih found met
    | tabstop t =>
      rw [List.map_cons, SnippetToken.spelled_tabstop, collect, collect]
      split
      · exact ih found met
      · dsimp only
        have hnew : ((found.mapValues (·.spelled spell)).get? t.id).getD {} =
            ((found.get? t.id).getD {}).spelled spell := by
          rw [Dict.get?_mapValues]
          cases found.get? t.id <;> rfl
        rw [hnew, note_spelled, ← Dict.mapValues_insert]
        exact ih _ _

/-! ## Filling -/

theorem markers_spelled (tokens : List SnippetToken) : markers (tokens.map (·.spelled spell)) = markers tokens := by
  simp [markers, List.filterMap_map]

theorem freshMarker_spelled (tokens : List SnippetToken) :
    freshMarker (tokens.map (·.spelled spell)) = freshMarker tokens := by
  simp [freshMarker, List.foldl_map]

theorem renumbered_spelled (next : Nat) (tokens : List SnippetToken) :
    renumbered next (tokens.map (·.spelled spell)) = (renumbered next tokens).map (·.spelled spell) := by
  simp only [renumbered, markers_spelled, List.map_map]
  refine List.map_congr_left fun token _ => ?_
  cases token <;> rfl

theorem filter_keeps_spelled (opened : List Nat) (tokens : List SnippetToken) :
    (tokens.map (·.spelled spell)).filter (keeps opened) = (tokens.filter (keeps opened)).map (·.spelled spell) := by
  rw [List.filter_map]
  refine congrArg (List.map _) (List.filter_congr fun token _ => ?_)
  cases token <;> rfl

/-- A default with tabstops in it is put in with its texts spelled. -/
theorem value_spelled_nested (transform : Transform → String → String) (t : TabstopMark) (opened : List Nat) (next : Nat)
    (body : List SnippetToken) :
    ((Default.nested body).spelled spell).value transform t opened next =
      (((Default.nested body).value transform t opened next).1.map (·.spelled spell),
        ((Default.nested body).value transform t opened next).2) := by
  simp only [Default.spelled, Default.value, filter_keeps_spelled, renumbered_spelled, markers_spelled]

end Expansion

end

open Expansion

/-- Literal text, or what a transform makes of it. -/
structure Piece where
  text : String
  transform : Option Transform

namespace Piece

def spelled (transform : Transform → String → String) (spell : Char → List Char) (p : Piece) : List Char :=
  match p.transform with
  | none => p.text.toList.flatMap spell
  | some f => (transform f (spelledText spell p.text)).toList

/-- These pieces make up the text of the filled tokens, however the literal texts are spelled. -/
structure Fills (pieces : List Piece) (last : Nat) (filled : (Transform → String → String) → (Char → List Char) → Filled) :
    Prop where
  nextMarker : ∀ transform spell, (filled transform spell).nextMarker = last
  written : ∀ transform spell, written (filled transform spell).tokens = pieces.flatMap (·.spelled transform spell)

/-- These pieces make up what tokens mean, with the transforms of these tabstops. -/
structure MakeUp (pieces : List Piece) (found : Dict Nat Placeholder) (opened : List Nat) (next last : Nat)
    (tokens : List SnippetToken) : Prop where
  le : next ≤ last
  transforms : ∀ p ∈ pieces, ∀ f ∈ p.transform, ∃ t, .tabstop t ∈ tokens ∧ t.transform = some f
  fills : Fills pieces last fun transform spell =>
    meaning (found.mapValues (·.spelled spell)) transform opened next (tokens.map (·.spelled spell))

section
variable {found : Dict Nat Placeholder} {opened : List Nat} {next : Nat} {rest : List SnippetToken}

theorem makeUp_nil : MakeUp [] found opened next next [] where
  le := Nat.le_refl _
  transforms _ h := nomatch h
  fills := ⟨fun _ _ => by rw [List.map_nil, meaning_nil], fun _ _ => by rw [List.map_nil, meaning_nil]; rfl⟩

theorem MakeUp.text {pieces : List Piece} {last : Nat} (h : MakeUp pieces found opened next last rest) (s : String) :
    MakeUp (⟨s, none⟩ :: pieces) found opened next last (.text s :: rest) where
  le := h.le
  transforms p hp f hf := by
    rcases List.mem_cons.mp hp with rfl | hp
    · cases hf
    · obtain ⟨t, ht, htf⟩ := h.transforms p hp f hf
      exact ⟨t, List.mem_cons_of_mem _ ht, htf⟩
  fills := by
    refine ⟨fun transform spell => ?_, fun transform spell => ?_⟩
    · rw [List.map_cons, SnippetToken.spelled_text, meaning_text]
      exact h.fills.nextMarker transform spell
    · rw [List.map_cons, SnippetToken.spelled_text, meaning_text, List.flatMap_cons, ← h.fills.written transform spell]
      show (spelledText spell s).toList ++ _ = _
      rw [toList_spelledText]
      rfl

section
variable {t : TabstopMark} {p : Placeholder}

/-- What stands in an occurrence. A copy of a default has no transform in it. -/
theorem exists_fills_value {transform₀ : Transform → String → String}
    (hvalue : next ≤ (p.default.value transform₀ t (t.id :: opened) next).2)
    (hinner : ∃ pieces last, MakeUp pieces found (t.id :: opened) (p.default.value transform₀ t (t.id :: opened) next).2 last
      (p.default.value transform₀ t (t.id :: opened) next).1) :
    ∃ pieces last, next ≤ last ∧ (∀ q ∈ pieces, ∀ f ∈ q.transform, t.transform = some f) ∧
      Fills pieces last fun transform spell =>
        let value := (p.spelled spell).default.value transform t (t.id :: opened) next
        meaning (found.mapValues (·.spelled spell)) transform (t.id :: opened) value.2 value.1 := by
  cases hp : p.default with
  | none =>
    refine ⟨[], next, Nat.le_refl _, fun _ h => (nomatch h), fun transform spell => ?_, fun transform spell => ?_⟩
    · simp only [Placeholder.spelled, hp, Default.spelled, Default.value, meaning_nil]
    · simp only [Placeholder.spelled, hp, Default.spelled, Default.value, meaning_nil]
      rfl
  | text s =>
    refine ⟨[⟨s, t.transform⟩], next, Nat.le_refl _, ?_, fun transform spell => ?_, fun transform spell => ?_⟩
    · intro q hq f hf
      rw [List.mem_singleton.mp hq] at hf
      exact hf
    · simp only [Placeholder.spelled, hp, Default.spelled, Default.value]
      split <;> rw [meaning_text, meaning_nil]
    · simp only [Placeholder.spelled, hp, Default.spelled, Default.value]
      cases ht : t.transform with
      | none =>
        rw [meaning_text, meaning_nil]
        simp [Expansion.written, SnippetToken.text?, spelled]
      | some f =>
        rw [meaning_text, meaning_nil]
        simp [Expansion.written, SnippetToken.text?, spelled]
  | nested body =>
    rw [hp] at hvalue hinner
    obtain ⟨pieces, last, hmake⟩ := hinner
    refine ⟨pieces, last, Nat.le_trans hvalue hmake.le, fun q hq f hf => ?_, fun transform spell => ?_,
      fun transform spell => ?_⟩
    · obtain ⟨u, hu, huf⟩ := hmake.transforms q hq f hf
      obtain ⟨token, -, htoken⟩ := List.mem_map.mp hu
      cases token with
      | text s => cases htoken
      | var v => cases htoken
      | tabstop v =>
        cases htoken
        cases huf
    all_goals
      have hspelled := value_spelled_nested spell transform t (t.id :: opened) next body
      simp only [Placeholder.spelled, hp, hspelled]
    · exact hmake.fills.nextMarker transform spell
    · exact hmake.fills.written transform spell

theorem exists_makeUp_tabstop {transform₀ : Transform → String → String} (hid : t.id ∉ opened)
    (hp : found.get? t.id = some p) (hvalue : next ≤ (p.default.value transform₀ t (t.id :: opened) next).2)
    (hinner : ∃ pieces last, MakeUp pieces found (t.id :: opened) (p.default.value transform₀ t (t.id :: opened) next).2 last
      (p.default.value transform₀ t (t.id :: opened) next).1)
    (houter : ∀ next', next ≤ next' → ∃ pieces last, MakeUp pieces found opened next' last (behindBody t.marker rest)) :
    ∃ pieces last, MakeUp pieces found opened next last (.tabstop t :: rest) := by
  obtain ⟨inner, mid, hle, htransform, hinner⟩ := exists_fills_value hvalue hinner
  obtain ⟨outer, last, hmake⟩ := houter mid hle
  have hfound (spell : Char → List Char) :
      (found.mapValues (·.spelled spell)).get? t.id = some (p.spelled spell) := by
    rw [Dict.get?_mapValues, hp]
    rfl
  refine ⟨inner ++ outer, last, Nat.le_trans hle hmake.le, fun q hq f hf => ?_, fun transform spell => ?_,
    fun transform spell => ?_⟩
  · rcases List.mem_append.mp hq with hq | hq
    · exact ⟨t, List.mem_cons_self, htransform q hq f hf⟩
    · obtain ⟨u, hu, huf⟩ := hmake.transforms q hq f hf
      exact ⟨u, List.mem_cons_of_mem _ ((behindBody_sublist _ _).subset hu), huf⟩
  all_goals
    rw [List.map_cons, SnippetToken.spelled_tabstop, meaning_tabstop transform hid (hfound spell)]
    have hmid := hinner.nextMarker transform spell
    dsimp only at hmid ⊢
    rw [hmid, behindBody_spelled]
  · exact hmake.fills.nextMarker transform spell
  · rw [List.flatMap_append, ← hinner.written transform spell, ← hmake.fills.written transform spell]
    simp [Expansion.written, SnippetToken.text?]

end

end

theorem exists_makeUp {found : Dict Nat Placeholder} (hd : SoundDefaults found) {opened : List Nat} {next : Nat}
    {tokens : List SnippetToken} (h : Fillable found opened next tokens) :
    ∃ pieces last, MakeUp pieces found opened next last tokens :=
  Fillable.induct hd (fun _ s => s) (motive := fun opened next tokens => ∃ pieces last, MakeUp pieces found opened next last tokens)
    (fun _ _ => ⟨[], _, makeUp_nil⟩) (fun _ _ s _ ⟨_, _, ih⟩ => ⟨_, _, ih.text s⟩)
    (fun opened next t _ _ h hp ihi iho => exists_makeUp_tabstop (h.closed t List.mem_cons_self) hp
      (fillable_value hd _ hp t (t.id :: opened) next).2.1 ihi iho)
    opened next tokens h

end Piece

/-! ## Expanding -/

/-- The whitespace at the start of the line, as far as this place. -/
def EditContext.indentationAt (ctx : EditContext) (at_ : Position) : List Char :=
  (Text.indentation (ctx.lineOr at_.row).toList).take at_.column

def EditContext.expandTabs (ctx : EditContext) (text : List Char) : List Char :=
  Text.replaceChar '\t' ctx.tabString.toList text

/-- How literal text is written: with an indentation behind each line end, and without tabs if these are soft. -/
def EditContext.spelling (ctx : EditContext) (indentation : List Char) (c : Char) : List Char :=
  if c = '\n' then '\n' :: ctx.expandTabs indentation else if c = '\t' then ctx.tabString.toList else [c]

/-- The tokens of a template. -/
def templateTokens (source : String) : List SnippetToken := parseSnippet (String.ofList (source.toList.filter (· ≠ '\r')))

theorem prepare_spelled {source : String} (hv : ∀ v, .var v ∉ templateTokens source) (vars vars' : Variables)
    (ctx ctx' : EditContext) (options : InsertOptions) : prepare vars ctx options source =
      (vars'.resolve ctx' (templateTokens source)).map
        (·.spelled (ctx.spelling (if options.excludeIndent then [] else ctx.indentation))) := by
  generalize hind : (if options.excludeIndent then [] else ctx.indentation) = indentation
  let lineEnd (c : Char) : List Char := if c = '\n' then '\n' :: indentation else [c]
  let tab (c : Char) : List Char := if c = '\t' then ctx.tabString.toList else [c]
  have hmap (old : Char) (new : List Char) (token : SnippetToken) :
      token.mapText (Text.replaceChar old new) = token.spelled fun c => if c = old then new else [c] := by
    cases token <;> rfl
  have hresolve := Variables.resolve_spelled lineEnd (by intro c; dsimp only [lineEnd]; split <;> simp) hv vars vars' ctx ctx'
  have hprepare : prepare vars ctx options source =
      ((vars'.resolve ctx' (templateTokens source)).map (·.spelled lineEnd)).map (·.spelled tab) := by
    rw [← hresolve]
    unfold prepare
    simp only [hind, hmap]
    rfl
  rw [hprepare, List.map_map]
  refine List.map_congr_left fun token _ => ?_
  cases token with
  | tabstop t => rfl
  | var v => rfl
  | text s =>
    refine congrArg SnippetToken.text (String.toList_inj.mp ?_)
    rw [toList_spelledText, toList_spelledText, toList_spelledText, List.flatMap_assoc]
    refine List.flatMap_congr fun c _ => ?_
    dsimp only [lineEnd, tab, EditContext.spelling]
    by_cases hline : c = '\n'
    · rw [if_pos hline, if_pos hline, List.flatMap_cons, if_neg (by decide)]
      rfl
    · rw [if_neg hline, if_neg hline, List.flatMap_singleton]

/-- What a template without variables comes to are the same pieces wherever it is expanded, spelled as it is fit there. -/
theorem exists_pieces {source : String} (hv : ∀ v, .var v ∉ templateTokens source) :
    ∃ pieces : List Piece,
      (∀ p ∈ pieces, ∀ f ∈ p.transform, ∃ t, .tabstop t ∈ templateTokens source ∧ t.transform = some f) ∧
      ∀ vars ctx options, (expandSnippet vars ctx options source).text.toList = pieces.flatMap
        (·.spelled (vars.transform ctx) (ctx.spelling (if options.excludeIndent then [] else ctx.indentation))) := by
  -- Where it is resolved does not matter.
  let vars₀ : Variables := { clock := ⟨0, 0, 0, 0, 0, 0⟩ }
  generalize htokens : vars₀.resolve default (templateTokens source) = tokens
  have hlabels (spell : Char → List Char) : SnippetToken.labels (tokens.map (·.spelled spell)) =
      SnippetToken.labels tokens := by
    rw [SnippetToken.labels, SnippetToken.labels, List.filterMap_map]
    refine List.filterMap_congr fun token _ => ?_
    cases token <;> rfl
  have hprepare (vars : Variables) (ctx : EditContext) (options : InsertOptions) :=
    htokens ▸ prepare_spelled hv vars vars₀ ctx default options
  have hw : WellMarked (SnippetToken.labels tokens) := by
    have hw := wellMarked_prepare vars₀ default {} source
    rwa [hprepare, hlabels] at hw
  have hnovar : ∀ v, .var v ∉ tokens := htokens ▸ Variables.not_var_mem_resolve vars₀ default _
  obtain ⟨pieces, last, hmake⟩ := Piece.exists_makeUp (soundDefaults_collect hw hnovar) (fillable_collect hw hnovar)
  refine ⟨pieces, fun p hp f hf => ?_, fun vars ctx options => ?_⟩
  · obtain ⟨t, ht, htf⟩ := hmake.transforms p hp f hf
    exact ⟨t, Variables.tabstop_mem_resolve hv vars₀ default (htokens ▸ ht), htf⟩
  · have hmeaning := instantiate_eq_meaning (wellMarked_prepare vars ctx options source)
      (not_var_mem_prepare vars ctx options source) (vars.transform ctx)
    rw [expandSnippet_eq_layout, text_layout, filledSnippet, hmeaning, hprepare, ← hmake.fills.written,
      freshMarker_spelled]
    exact congrArg (fun found => written (meaning found _ _ _ _).tokens) (collect_spelled _ tokens Dict.empty [])

end Scribe
