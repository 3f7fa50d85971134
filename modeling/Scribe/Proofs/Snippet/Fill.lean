import Scribe.Proofs.Snippet.Meaning

/-!
# Filled snippets

Filling the tabstops of a snippet gives properly nested tokens: each occurrence is closed in the body that it
was opened in, and no tabstop occurs in itself.
-/

namespace Scribe

namespace Expansion

/-- The text of tokens. -/
def written (tokens : List SnippetToken) : List Char := tokens.flatMap fun t => (t.text?.getD "").toList

/-- An occurrence with the tabstops around it, the text before its start and the text before its end. -/
structure Field where
  occurrence : Occurrence
  around : List Nat
  before : List Char
  upto : List Char

/-- Nested tokens behind the text `before`. They end behind the text `after`, and `opened` are the tabstops
around them. -/
inductive Laid : List Char → List Nat → List SnippetToken → List Char → List Field → Prop
  | nil {before : List Char} {opened : List Nat} : Laid before opened [] before []
  | text {before after : List Char} {opened : List Nat} {s : String} {rest : List SnippetToken}
      {fields : List Field} :
    Laid (before ++ s.toList) opened rest after fields → Laid before opened (.text s :: rest) after fields
  | field {before mid after : List Char} {opened : List Nat} {t : TabstopMark} {inner rest : List SnippetToken}
      {fields more : List Field} :
    t.id ∉ opened → Laid before (t.id :: opened) inner mid fields → Laid mid opened rest after more →
    Laid before opened (.tabstop t :: inner ++ .tabstop t :: rest) after
      (⟨⟨t.id, t.marker, t.transform⟩, opened, before, mid⟩ :: fields ++ more)

/-! ## Nesting -/

namespace Laid

variable {before after : List Char} {opened : List Nat} {tokens : List SnippetToken} {fields : List Field}

theorem after_eq (h : Laid before opened tokens after fields) : after = before ++ written tokens := by
  induction h with
  | nil => simp [written]
  | text _ ih =>
    rw [ih]
    simp [written, SnippetToken.text?]
  | field _ _ _ ihi ihr =>
    rw [ihr, ihi]
    simp [written, SnippetToken.text?]

theorem isPrefix (h : Laid before opened tokens after fields) : before <+: after :=
  h.after_eq ▸ List.prefix_append _ _

theorem bounds (h : Laid before opened tokens after fields) :
    ∀ f ∈ fields, before <+: f.before ∧ f.before <+: f.upto ∧ f.upto <+: after := by
  induction h with
  | nil => intro f hf; cases hf
  | text _ ih =>
    intro f hf
    obtain ⟨h₁, h₂, h₃⟩ := ih f hf
    exact ⟨(List.prefix_append _ _).trans h₁, h₂, h₃⟩
  | field _ hi hr ihi ihr =>
    intro f hf
    rcases List.mem_cons.mp hf with rfl | hf
    · exact ⟨List.prefix_rfl, hi.isPrefix, hr.isPrefix⟩
    · rcases List.mem_append.mp hf with hf | hf
      · obtain ⟨h₁, h₂, h₃⟩ := ihi f hf
        exact ⟨h₁, h₂, h₃.trans hr.isPrefix⟩
      · obtain ⟨h₁, h₂, h₃⟩ := ihr f hf
        exact ⟨hi.isPrefix.trans h₁, h₂, h₃⟩

/-- Two tokens stand under the marker of a field, and none under any other. -/
theorem count_markers (h : Laid before opened tokens after fields) (m : Nat) :
    (markers tokens).count m = 2 * (fields.map (·.occurrence.marker)).count m := by
  induction h with
  | nil => rfl
  | text _ ih => exact ih
  | field _ _ _ ihi ihr =>
    simp only [List.cons_append, markers_tabstop, markers_append, List.map_cons, List.map_append, List.count_cons,
      List.count_append, ihi, ihr]
    split <;> omega

theorem around (h : Laid before opened tokens after fields) :
    ∀ f ∈ fields, opened <:+ f.around ∧ f.occurrence.id ∉ f.around := by
  induction h with
  | nil => intro f hf; cases hf
  | text _ ih => exact ih
  | field hid _ _ ihi ihr =>
    intro f hf
    rcases List.mem_cons.mp hf with rfl | hf
    · exact ⟨List.suffix_rfl, hid⟩
    · rcases List.mem_append.mp hf with hf | hf
      · exact ⟨(List.suffix_cons _ _).trans (ihi f hf).1, (ihi f hf).2⟩
      · exact ihr f hf

/-- Of two fields the one that opens first ends before the other begins, or is around it. -/
def Follows (f g : Field) : Prop :=
  f.upto <+: g.before ∨ f.occurrence.id ∈ g.around ∧ f.before <+: g.before ∧ g.upto <+: f.upto

theorem pairwise_follows (h : Laid before opened tokens after fields) : fields.Pairwise Follows := by
  induction h with
  | nil => exact .nil
  | text _ ih => exact ih
  | field _ hi hr ihi ihr =>
    refine List.pairwise_cons.mpr ⟨fun g hg => ?_, List.pairwise_append.mpr ⟨ihi, ihr, fun f hf g hg => ?_⟩⟩
    · rcases List.mem_append.mp hg with hg | hg
      · refine .inr ⟨(hi.around g hg).1.subset List.mem_cons_self, ?_⟩
        exact ⟨(hi.bounds g hg).1, (hi.bounds g hg).2.2⟩
      · exact .inl (hr.bounds g hg).1
    · exact .inl ((hi.bounds f hf).2.2.trans (hr.bounds g hg).1)

/-- The occurrences of one tabstop stand one behind the other. -/
theorem pairwise_of_id (h : Laid before opened tokens after fields) (id : Nat) :
    (fields.filter (·.occurrence.id == id)).Pairwise fun f g => f.upto <+: g.before := by
  refine (List.Pairwise.and_mem.mp (h.pairwise_follows.filter _)).imp fun {f g} hfg => ?_
  obtain ⟨hf, hg, hfg⟩ := hfg
  have hfid := (List.mem_filter.mp hf).2
  have hgid := (List.mem_filter.mp hg).2
  simp only [beq_iff_eq] at hfid hgid
  rcases hfg with hfg | ⟨hmem, -⟩
  · exact hfg
  · exact absurd (hgid ▸ hfid ▸ hmem) (h.around g (List.mem_filter.mp hg).1).2

end Laid

/-! ## Filling -/

/-- What filling gives: nested tokens, and an occurrence for each pair of them, under markers of its own. -/
structure Fills (opened : List Nat) (next : Nat) (tokens : List SnippetToken) (f : Filled) : Prop where
  laid : ∀ before, ∃ fields, Laid before opened f.tokens (before ++ written f.tokens) fields ∧
    fields.map (·.occurrence) = f.occurrences ∧ f.closings.Perm (fields.map fun x => (x.occurrence.id, x.around))
  lt : ∀ o ∈ f.occurrences, o.marker < f.nextMarker
  fresh : ∀ o ∈ f.occurrences, o.marker ∈ markers tokens ∨ next ≤ o.marker
  nodup : (f.occurrences.map (·.marker)).Nodup

theorem nodup_nested {m next mid : Nat} {ms ns : List Nat} (hm : m < next) (hle : next ≤ mid)
    (hms : ∀ k ∈ ms, next ≤ k ∧ k < mid) (hns : ∀ k ∈ ns, (k < next ∧ k ≠ m) ∨ mid ≤ k) (hn : ms.Nodup)
    (hn' : ns.Nodup) : (m :: ms ++ ns).Nodup := by
  refine List.nodup_cons.mpr ⟨fun hmem => ?_, List.nodup_append.mpr ⟨hn, hn', fun k hk k' hk' he => ?_⟩⟩
  · rcases List.mem_append.mp hmem with hmem | hmem
    · have := (hms m hmem).1
      omega
    · rcases hns m hmem with ⟨-, hne⟩ | hge
      · exact hne rfl
      · omega
  · subst he
    have := hms k hk
    rcases hns k hk' with ⟨hlt, -⟩ | hge <;> omega

section
variable {found : Dict Nat Placeholder} {transform : Transform → String → String} {opened : List Nat} {next : Nat}
  {rest : List SnippetToken}

theorem fills_nil : Fills opened next [] (meaning found transform opened next []) := by
  rw [meaning_nil]
  exact ⟨fun before => ⟨[], by simpa [written] using Laid.nil, rfl, .refl _⟩, fun o ho => (by cases ho),
    fun o ho => (by cases ho), List.nodup_nil⟩

theorem Fills.text (h : Fills opened next rest (meaning found transform opened next rest)) (s : String) :
    Fills opened next (.text s :: rest) (meaning found transform opened next (.text s :: rest)) := by
  rw [meaning_text]
  refine ⟨fun before => ?_, h.lt, h.fresh, h.nodup⟩
  obtain ⟨fields, hl, he, hc⟩ := h.laid (before ++ s.toList)
  refine ⟨fields, ?_, he, hc⟩
  simpa [written, SnippetToken.text?] using Laid.text hl

theorem Fills.tabstop (hd : SoundDefaults found) {t : TabstopMark} {p : Placeholder}
    (hf : Fillable found opened next (.tabstop t :: rest)) (hp : found.get? t.id = some p)
    (hin : Fills (t.id :: opened) (p.default.value transform t (t.id :: opened) next).2
      (p.default.value transform t (t.id :: opened) next).1
      (meaning found transform (t.id :: opened) (p.default.value transform t (t.id :: opened) next).2
        (p.default.value transform t (t.id :: opened) next).1))
    (hout : ∀ next', next ≤ next' → Fills opened next' (behindBody t.marker rest)
      (meaning found transform opened next' (behindBody t.marker rest))) :
    Fills opened next (.tabstop t :: rest) (meaning found transform opened next (.tabstop t :: rest)) := by
  have hid := hf.closed t List.mem_cons_self
  have hmark : t.marker < next := hf.lt t.marker (by simp)
  have hsub : (behindBody t.marker rest).Sublist (.tabstop t :: rest) := (behindBody_sublist t.marker rest).cons _
  have hgone : t.marker ∉ markers (behindBody t.marker rest) := by
    have := hf.paired t.marker
    rw [markers_tabstop, List.count_cons_self] at this
    exact not_mem_markers_behindBody (Nat.le_of_succ_le_succ this)
  rw [meaning_tabstop transform hid hp]
  obtain ⟨hvalue, hle, hnew⟩ := fillable_value hd transform hp t (t.id :: opened) next
  have hle' := Nat.le_trans hle (next_le_meaning hd transform hvalue)
  generalize p.default.value transform t (t.id :: opened) next = value at *
  generalize meaning found transform (t.id :: opened) value.2 value.1 = inner at *
  have hafter := hout inner.nextMarker hle'
  have hge := next_le_meaning hd transform (hf.sublist hsub hle')
  generalize meaning found transform opened inner.nextMarker (behindBody t.marker rest) = outer at *
  -- The markers of the default are new, and those behind the occurrence are not its own.
  have hins : ∀ o ∈ inner.occurrences, next ≤ o.marker := fun o ho =>
    (hin.fresh o ho).elim (hnew o.marker) (Nat.le_trans hle)
  have hold : ∀ o ∈ outer.occurrences, (o.marker < next ∧ o.marker ≠ t.marker) ∨ inner.nextMarker ≤ o.marker :=
    fun o ho => (hafter.fresh o ho).imp_left fun hm =>
      ⟨hf.lt o.marker ((hsub.filterMap _).subset hm), fun he => hgone (he ▸ hm)⟩
  refine ⟨fun before => ?_, fun o ho => ?_, fun o ho => ?_, ?_⟩
  · obtain ⟨fields, hl, he, hc⟩ := hin.laid before
    obtain ⟨more, hl', he', hc'⟩ := hafter.laid (before ++ written inner.tokens)
    refine ⟨(⟨⟨t.id, t.marker, t.transform⟩, opened, before, before ++ written inner.tokens⟩ : Field) ::
      fields ++ more, ?_, ?_, ?_⟩
    · simpa [written, SnippetToken.text?] using Laid.field hid hl hl'
    · simp [he, he']
    · rw [List.map_append, List.map_cons]
      exact List.perm_middle.trans ((hc.append hc').cons _)
  · rcases List.mem_append.mp ho with ho | ho
    · rcases List.mem_cons.mp ho with rfl | ho
      · exact Nat.lt_of_lt_of_le hmark (Nat.le_trans hle' hge)
      · exact Nat.lt_of_lt_of_le (hin.lt o ho) hge
    · exact hafter.lt o ho
  · rcases List.mem_append.mp ho with ho | ho
    · rcases List.mem_cons.mp ho with rfl | ho
      · exact .inl (by simp)
      · exact .inr (hins o ho)
    · exact (hafter.fresh o ho).imp (fun hm => (hsub.filterMap _).subset hm) (Nat.le_trans hle')
  · rw [List.map_append, List.map_cons]
    refine nodup_nested hmark hle' (fun m hm => ?_) (fun m hm => ?_) hin.nodup hafter.nodup
    · obtain ⟨o, ho, rfl⟩ := List.mem_map.mp hm
      exact ⟨hins o ho, hin.lt o ho⟩
    · obtain ⟨o, ho, rfl⟩ := List.mem_map.mp hm
      exact hold o ho

theorem fills_meaning (hd : SoundDefaults found) {tokens : List SnippetToken}
    (h : Fillable found opened next tokens) : Fills opened next tokens (meaning found transform opened next tokens) :=
  Fillable.induct hd transform
    (motive := fun opened next tokens => Fills opened next tokens (meaning found transform opened next tokens))
    (fun _ _ => fills_nil) (fun _ _ s _ ih => ih.text s) (fun _ _ _ _ _ hf hp hin hout => .tabstop hd hf hp hin hout)
    opened next tokens h

end

theorem fills_instantiate {tokens : List SnippetToken} (hw : WellMarked (SnippetToken.labels tokens))
    (hv : ∀ v, .var v ∉ tokens) (transform : Transform → String → String) :
    Fills [] (freshMarker tokens) tokens (instantiate (collect Dict.empty [] tokens) transform tokens) :=
  instantiate_eq_meaning hw hv transform ▸ fills_meaning (soundDefaults_collect hw hv) (fillable_collect hw hv)

theorem Fills.count_markers {opened : List Nat} {next : Nat} {tokens : List SnippetToken} {f : Filled}
    (h : Fills opened next tokens f) : ∀ m ∈ markers f.tokens, (markers f.tokens).count m = 2 := by
  intro m hm
  obtain ⟨fields, hlaid, hocc, -⟩ := h.laid []
  have hcount := hlaid.count_markers m
  have hpos := List.count_pos_iff.mpr hm
  have hle : (fields.map (·.occurrence.marker)).count m ≤ 1 := by
    have := List.nodup_iff_count.mp h.nodup m
    rwa [← hocc, List.map_map] at this
  omega

/-- A snippet with its tabstops filled, as it is laid out. -/
def filledSnippet (vars : Variables) (ctx : EditContext) (options : InsertOptions) (source : String) : Filled :=
  let tokens := prepare vars ctx options source
  instantiate (collect Dict.empty [] tokens) (vars.transform ctx) tokens

section
variable (vars : Variables) (ctx : EditContext) (options : InsertOptions) (source : String)

theorem expandSnippet_eq_layout : expandSnippet vars ctx options source =
    layout (collect Dict.empty [] (prepare vars ctx options source)) (filledSnippet vars ctx options source) := rfl

theorem fills_filledSnippet :
    Fills [] (freshMarker (prepare vars ctx options source)) (prepare vars ctx options source)
      (filledSnippet vars ctx options source) :=
  fills_instantiate (wellMarked_prepare vars ctx options source) (not_var_mem_prepare vars ctx options source) _

theorem known_filledSnippet : ∀ o ∈ (filledSnippet vars ctx options source).occurrences,
    ∃ p, (collect Dict.empty [] (prepare vars ctx options source)).get? o.id = some p := by
  have hw := wellMarked_prepare vars ctx options source
  have hv := not_var_mem_prepare vars ctx options source
  unfold filledSnippet
  rw [instantiate_eq_meaning hw hv]
  exact known_occurrences (soundDefaults_collect hw hv) _ (fillable_collect hw hv)

/-- Filling a snippet ends, whatever its defaults refer to. Its tokens are what the recursion gives, each marker
stands on two of them, and the text of the expansion is theirs. -/
theorem filledSnippet_eq_meaning :
    let tokens := prepare vars ctx options source
    let found := collect Dict.empty [] tokens
    let filled := filledSnippet vars ctx options source
    (∃ last, Walk.Reaches found (vars.transform ctx) (Walk.start tokens) last ∧ last.ahead = [] ∧
      last.filled = filled) ∧
    filled.tokens = (meaning found (vars.transform ctx) [] (freshMarker tokens) tokens).tokens ∧
    (∀ m ∈ markers filled.tokens, (markers filled.tokens).count m = 2) ∧
    (expandSnippet vars ctx options source).text = String.join (filled.tokens.filterMap (·.text?)) := by
  intro tokens found filled
  obtain ⟨last, hreach, hlast, hfilled, hmeaning⟩ := reaches_instantiate (wellMarked_prepare vars ctx options source)
    (not_var_mem_prepare vars ctx options source) (vars.transform ctx)
  refine ⟨⟨last, hreach, hlast, hfilled⟩, ?_, (fills_filledSnippet vars ctx options source).count_markers, rfl⟩
  exact congrArg Filled.tokens (hfilled.symm.trans hmeaning)

end

end Expansion

end Scribe
