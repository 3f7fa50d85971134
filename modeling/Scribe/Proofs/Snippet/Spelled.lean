import Scribe.Proofs.Snippet.Formats
import Scribe.Proofs.Snippet.Occurrences

/-!
# What tabstops spell

Where no tabstop stands in itself, all its occurrences hold the same text. With a transform an occurrence holds what
the transform makes of that text if the default is plain text, and the text as it is if the default has tabstops in it
or there is none.
-/

namespace Scribe

namespace SnippetToken

def id? : SnippetToken → Option Nat
  | tabstop t => some t.id
  | _ => none

/-- Whether its transform uses nothing but groups. -/
def usesGroups : SnippetToken → Bool
  | tabstop t => t.transform.all Transform.usesGroups
  | _ => true

end SnippetToken

namespace Expansion

/-! ## Tabstops in defaults -/

/-- The tabstops with those that stand in their placeholders. -/
def nestings : List SnippetToken → List (Nat × Nat)
  | [] => []
  | .tabstop t :: rest =>
    ((rest.take ((bodyLength? t.marker rest).getD 0)).filterMap (·.id?)).map (t.id, ·) ++ nestings rest
  | _ :: rest => nestings rest

/-- No tabstop stands in itself, directly or in others. -/
def Acyclic (tokens : List SnippetToken) : Prop :=
  ∀ id, ¬ Relation.TransGen (fun outer inner => (outer, inner) ∈ nestings tokens) id id

theorem acyclic_of_lt {tokens : List SnippetToken} (h : ∀ e ∈ nestings tokens, e.1 < e.2) : Acyclic tokens := by
  intro id hid
  have hlt : Relation.TransGen (· < ·) id id := Relation.TransGen.mono (fun _ _ hab => h _ hab) id id hid
  rw [Relation.transGen_eq_self] at hlt
  exact Nat.lt_irrefl id hlt

theorem nestings_append (front rest : List SnippetToken) : nestings rest ⊆ nestings (front ++ rest) := by
  induction front with
  | nil => exact List.Subset.refl _
  | cons token front ih =>
    cases token with
    | text s => exact ih
    | var v => exact ih
    | tabstop t => exact fun e he => List.mem_append_right _ (ih he)

/-- The default of the one tabstop holds the other one. -/
def Holds (found : Dict Nat Placeholder) (outer inner : Nat) : Prop :=
  ∃ p body t, found.get? outer = some p ∧ p.default = .nested body ∧ .tabstop t ∈ body ∧ t.id = inner

theorem mem_nestings_of_holds {tokens : List SnippetToken} {outer inner : Nat}
    (h : Holds (collect Dict.empty [] tokens) outer inner) : (outer, inner) ∈ nestings tokens := by
  obtain ⟨p, body, u, hp, hb, hu, rfl⟩ := h
  rcases default_collect hp hb with ⟨front, t, rest, n, rfl, rfl, hn, rfl⟩ | ⟨p', hp', -⟩
  · refine nestings_append front _ (List.mem_append_left _ (List.mem_map_of_mem ?_))
    rw [hn]
    exact List.mem_filterMap.mpr ⟨_, hu, rfl⟩
  · cases hp'

theorem Acyclic.holds {tokens : List SnippetToken} (h : Acyclic tokens) (id : Nat) :
    ¬ Relation.TransGen (Holds (collect Dict.empty [] tokens)) id id :=
  fun hid => h id (Relation.TransGen.mono (fun _ _ hab => mem_nestings_of_holds hab) id id hid)

/-! ## Spelling -/

def Default.tokens : Default → List SnippetToken
  | .none => []
  | .text s => [.text s]
  | .nested body => body

/-- What an occurrence shows whose tabstop spells this. -/
def Default.shown (apply : Transform → String → String) (transform : Option Transform) (spelled : String) :
    Default → String
  | .text _ => (transform.map (apply · spelled)).getD spelled
  | _ => spelled

theorem Default.shown_none (apply : Transform → String → String) (spelled : String) (d : Default) :
    d.shown apply Option.none spelled = spelled := by
  cases d <;> rfl

/-- The text of tokens in which each tabstop gives way to its default. -/
inductive Spells (found : Dict Nat Placeholder) : List SnippetToken → List Char → Prop
  | nil : Spells found [] []
  | text {s : String} {rest : List SnippetToken} {after : List Char} :
    Spells found rest after → Spells found (.text s :: rest) (s.toList ++ after)
  | tabstop {t : TabstopMark} {p : Placeholder} {rest : List SnippetToken} {value after : List Char} :
    found.get? t.id = some p → Spells found p.default.tokens value → Spells found (behindBody t.marker rest) after →
    Spells found (.tabstop t :: rest) (value ++ after)

section
variable {found : Dict Nat Placeholder}

theorem Spells.unique {tokens : List SnippetToken} {text text' : List Char} (h : Spells found tokens text)
    (h' : Spells found tokens text') : text = text' := by
  induction h generalizing text' with
  | nil => cases h'; rfl
  | text _ ih =>
    cases h' with
    | text h' => rw [ih h']
  | tabstop hp _ _ ihv ihr =>
    cases h' with
    | tabstop hp' hv hr =>
      obtain rfl := Option.some.inj (hp.symm.trans hp')
      rw [ihv hv, ihr hr]

theorem bodyLength?_map {f : Nat → Nat} {marker : Nat} : ∀ {rest : List SnippetToken}, (∀ v, .var v ∉ rest) →
    (∀ m ∈ markers rest, f m = f marker → m = marker) →
    bodyLength? (f marker) (rest.map (remarked f)) = bodyLength? marker rest
  | [], _, _ => rfl
  | token :: rest, hv, hf => by
    have ih := @bodyLength?_map f marker rest (fun v hm => hv v (List.mem_cons_of_mem _ hm)) fun m hm => by
      refine hf m ?_
      cases token with
      | text s => exact hm
      | _ => exact List.mem_cons_of_mem _ hm
    have hsame : ((remarked f token).marker? == some (f marker)) = (token.marker? == some marker) := by
      cases token with
      | text s => rfl
      | var v => exact absurd List.mem_cons_self (hv v)
      | tabstop t =>
        have := hf t.marker List.mem_cons_self
        rw [Bool.eq_iff_iff]
        simp only [remarked, SnippetToken.marker?, beq_iff_eq, Option.some.injEq]
        exact ⟨this, congrArg f⟩
    simp only [bodyLength?] at ih ⊢
    rw [List.map_cons, List.findIdx?_cons, List.findIdx?_cons, hsame, ih]

/-- Tokens spell the same under other markers. -/
theorem Spells.of_map {f : Nat → Nat} {copy : List SnippetToken} {text : List Char} (h : Spells found copy text) :
    ∀ {tokens : List SnippetToken}, tokens.map (remarked f) = copy → (∀ v, .var v ∉ tokens) →
    (∀ m ∈ markers tokens, ∀ n ∈ markers tokens, f m = f n → m = n) → Spells found tokens text := by
  induction h with
  | nil =>
    intro tokens he _ _
    rw [List.map_eq_nil_iff.mp he]
    exact .nil
  | text _ ih =>
    intro tokens he hv hf
    obtain ⟨token, rest, rfl, htoken, hrest⟩ := List.map_eq_cons_iff.mp he
    cases token with
    | text s =>
      cases htoken
      exact .text (ih hrest (fun v hm => hv v (List.mem_cons_of_mem _ hm)) hf)
    | var v => cases htoken
    | tabstop t => cases htoken
  | tabstop hp hvalue _ _ ih =>
    intro tokens he hv hf
    obtain ⟨token, rest, rfl, htoken, rfl⟩ := List.map_eq_cons_iff.mp he
    cases token with
    | text s => cases htoken
    | var v => cases htoken
    | tabstop t =>
      cases htoken
      have hv' : ∀ v, .var v ∉ rest := fun v hm => hv v (List.mem_cons_of_mem _ hm)
      have hsub : markers (behindBody t.marker rest) ⊆ markers (.tabstop t :: rest) :=
        (((behindBody_sublist t.marker rest).cons _).filterMap _).subset
      refine .tabstop hp hvalue (ih ?_ (fun v hm => hv' v ((behindBody_sublist _ _).subset hm)) fun m hm n hn =>
        hf m (hsub hm) n (hsub hn))
      show _ = behindBody (f t.marker) (rest.map (remarked f))
      rw [behindBody, behindBody, bodyLength?_map hv' fun m hm => hf m (List.mem_cons_of_mem _ hm) _ List.mem_cons_self,
        List.map_drop]

end

/-! ## What is written -/

/-- Each of these tabstops holds all the tokens. -/
def Under (found : Dict Nat Placeholder) (opened : List Nat) (tokens : List SnippetToken) : Prop :=
  ∀ id ∈ opened, ∀ t, .tabstop t ∈ tokens → Relation.TransGen (Holds found) id t.id

def Plain (tokens : List SnippetToken) : Prop := ∀ t, .tabstop t ∈ tokens → t.transform = none

theorem Under.subset {found : Dict Nat Placeholder} {opened : List Nat} {tokens tokens' : List SnippetToken}
    (h : Under found opened tokens) (hs : tokens' ⊆ tokens) : Under found opened tokens' :=
  fun id hid t ht => h id hid t (hs ht)

section
variable {found : Dict Nat Placeholder} {opened : List Nat} {next : Nat} {rest : List SnippetToken} {t : TabstopMark}
  {p : Placeholder} (transform : Transform → String → String)

/-- Copies have no transforms. -/
theorem plain_value (opened : List Nat) (next : Nat) :
    Plain (p.default.value transform t opened next).1 := by
  intro u hu
  cases hb : p.default with
  | none => simp [hb, Default.value] at hu
  | text s => cases ht : t.transform <;> simp [hb, ht, Default.value] at hu
  | nested body =>
    rw [hb] at hu
    obtain ⟨token, -, he⟩ := List.mem_map.mp hu
    cases token <;> cases he
    rfl

section
variable (hac : ∀ id, ¬ Relation.TransGen (Holds found) id id) (hp : found.get? t.id = some p)
  (hu : Under found opened (.tabstop t :: rest))
include hac hp hu

/-- A default holds none of the tabstops that are open around it, so a copy of it leaves out nothing. -/
theorem under_body {body : List SnippetToken} (hb : p.default = .nested body) :
    Under found (t.id :: opened) body ∧ body.filter (keeps (t.id :: opened)) = body := by
  have hunder : Under found (t.id :: opened) body := by
    intro id hid u hu'
    have hholds : Holds found t.id u.id := ⟨p, body, u, hp, hb, hu', rfl⟩
    rcases List.mem_cons.mp hid with rfl | hid
    · exact .single hholds
    · exact (hu id hid t List.mem_cons_self).tail hholds
  refine ⟨hunder, List.filter_eq_self.mpr fun token htoken => ?_⟩
  cases token with
  | text s => rfl
  | var v => rfl
  | tabstop u =>
    have hout : u.id ∉ t.id :: opened := fun hmem => hac u.id (hunder u.id hmem u htoken)
    simpa only [keeps, List.contains_eq_mem, Bool.not_eq_true', decide_eq_false_iff_not] using hout

theorem under_value (next : Nat) :
    Under found (t.id :: opened) (p.default.value transform t (t.id :: opened) next).1 := by
  intro id hid u hu'
  cases hb : p.default with
  | none => simp [hb, Default.value] at hu'
  | text s => cases ht : t.transform <;> simp [hb, ht, Default.value] at hu'
  | nested body =>
    obtain ⟨hunder, hkept⟩ := under_body hac hp hu hb
    simp only [hb, Default.value, hkept] at hu'
    obtain ⟨v, hv, he⟩ := mem_renumbered hu'
    exact he ▸ hunder id hid v hv

/-- A copy spells what the default does. -/
theorem spells_default (hs : SoundDefaults found) (ht : t.transform = none ∨ ∀ s, p.default ≠ .text s) {next : Nat}
    {value : List Char} (h : Spells found (p.default.value transform t (t.id :: opened) next).1 value) :
    Spells found p.default.tokens value := by
  cases hb : p.default with
  | none => simpa only [hb, Default.value, Default.tokens] using h
  | text s =>
    have hnone : t.transform = none := ht.resolve_right fun hne => hne s hb
    simpa only [hb, Default.value, hnone, Default.tokens] using h
  | nested body =>
    obtain ⟨-, hkept⟩ := under_body hac hp hu hb
    obtain ⟨_, hf⟩ := hs t.id p body hp hb
    simp only [hb, Default.value, hkept] at h
    refine h.of_map rfl hf.noVar fun m hm n hn he => ?_
    exact (List.idxOf_inj (List.mem_eraseDups.mpr hm)).mp (Nat.add_left_cancel he)

end

/-- Among the tokens stands an occurrence, and shows what its tabstop spells. -/
def Shows (found : Dict Nat Placeholder) (transform : Transform → String → String) (o : Occurrence)
    (tokens : List SnippetToken) : Prop :=
  ∃ front inner behind t p value, tokens = front ++ .tabstop t :: inner ++ .tabstop t :: behind ∧
    t.marker = o.marker ∧ found.get? o.id = some p ∧ Spells found p.default.tokens value ∧
    written inner = (p.default.shown transform o.transform (String.ofList value)).toList

variable {transform} in
theorem Shows.append {o : Occurrence} {tokens : List SnippetToken} (h : Shows found transform o tokens)
    (front behind : List SnippetToken) : Shows found transform o (front ++ tokens ++ behind) := by
  obtain ⟨xs, inner, ys, t, p, value, rfl, hshows⟩ := h
  exact ⟨front ++ xs, inner, ys ++ behind, t, p, value, by simp, hshows⟩

section
variable (hs : SoundDefaults found) (hac : ∀ id, ¬ Relation.TransGen (Holds found) id id)
include hs hac

/-- Without transforms, filling gives the text that is spelled. -/
theorem spells_meaning {tokens : List SnippetToken} (h : Fillable found opened next tokens) :
    Under found opened tokens → Plain tokens →
    Spells found tokens (written (meaning found transform opened next tokens).tokens) := by
  refine Fillable.induct hs transform
    (motive := fun opened next tokens => Under found opened tokens → Plain tokens →
      Spells found tokens (written (meaning found transform opened next tokens).tokens))
    (fun _ _ _ _ => ?_) (fun _ _ s rest ih hu hplain => ?_)
    (fun opened next t p rest hf hp ihi iho hu hplain => ?_) opened next tokens h
  · rw [meaning_nil]
    exact .nil
  · rw [meaning_text, written_text]
    exact .text (ih (hu.subset (List.subset_cons_self _ _)) fun t ht => hplain t (List.mem_cons_of_mem _ ht))
  · have hnone : t.transform = none := hplain t List.mem_cons_self
    have hbehind : behindBody t.marker rest ⊆ .tabstop t :: rest := ((behindBody_sublist _ _).cons _).subset
    obtain ⟨hvalue, hle, -⟩ := fillable_value hs transform hp t (t.id :: opened) next
    have hinner := ihi (under_value transform hac hp hu next) (plain_value transform _ next)
    have houter := iho _ (Nat.le_trans hle (next_le_meaning hs transform hvalue)) (hu.subset hbehind)
      fun u hu' => hplain u (hbehind hu')
    rw [meaning_tabstop transform (hf.closed t List.mem_cons_self) hp, List.cons_append, written_tabstop,
      written_append, written_tabstop]
    exact .tabstop hp (spells_default transform hac hp hu hs (.inl hnone) hinner) houter

/-- An occurrence is filled with what it shows of what its tabstop spells. -/
theorem exists_spelled (hp : found.get? t.id = some p) (hu : Under found opened (.tabstop t :: rest)) (next : Nat) :
    let value := p.default.value transform t (t.id :: opened) next
    ∃ spelled, Spells found p.default.tokens spelled ∧
      written (meaning found transform (t.id :: opened) value.2 value.1).tokens =
        (p.default.shown transform t.transform (String.ofList spelled)).toList := by
  intro value
  obtain ⟨hvalue, -, -⟩ := fillable_value hs transform hp t (t.id :: opened) next
  have hfilled : Spells found value.1 (written (meaning found transform (t.id :: opened) value.2 value.1).tokens) :=
    spells_meaning transform hs hac hvalue (under_value transform hac hp hu next) (plain_value transform _ next)
  by_cases hd : ∃ s, p.default = .text s
  · obtain ⟨s, hd⟩ := hd
    refine ⟨s.toList, by simpa [hd, Default.tokens] using Spells.text (s := s) .nil, ?_⟩
    cases ht : t.transform <;>
      simp [value, hd, ht, Default.value, Default.shown, meaning_text, meaning_nil, written, SnippetToken.text?]
  · rw [not_exists] at hd
    refine ⟨_, spells_default transform hac hp hu hs (.inr hd) hfilled, ?_⟩
    have hshown : ∀ spelled, p.default.shown transform t.transform spelled = spelled := fun spelled => by
      cases hb : p.default with
      | text s => exact absurd hb (hd s)
      | _ => rfl
    rw [hshown, String.toList_ofList]

theorem shows_meaning {tokens : List SnippetToken} (h : Fillable found opened next tokens) :
    Under found opened tokens → ∀ o ∈ (meaning found transform opened next tokens).occurrences,
      Shows found transform o (meaning found transform opened next tokens).tokens := by
  refine Fillable.induct hs transform
    (motive := fun opened next tokens => Under found opened tokens →
      ∀ o ∈ (meaning found transform opened next tokens).occurrences,
        Shows found transform o (meaning found transform opened next tokens).tokens)
    (fun _ _ _ o ho => ?_) (fun _ _ s rest ih hu o ho => ?_)
    (fun opened next t p rest hf hp ihi iho hu => ?_) opened next tokens h
  · rw [meaning_nil] at ho
    cases ho
  · rw [meaning_text] at ho ⊢
    simpa using (ih (hu.subset (List.subset_cons_self _ _)) o ho).append [.text s] []
  · have hbehind : behindBody t.marker rest ⊆ .tabstop t :: rest := ((behindBody_sublist _ _).cons _).subset
    obtain ⟨hvalue, hle, -⟩ := fillable_value hs transform hp t (t.id :: opened) next
    have hinner := ihi (under_value transform hac hp hu next)
    have houter := iho _ (Nat.le_trans hle (next_le_meaning hs transform hvalue)) (hu.subset hbehind)
    obtain ⟨spelled, hspelled, hwritten⟩ := exists_spelled transform hs hac hp hu next
    rw [meaning_tabstop transform (hf.closed t List.mem_cons_self) hp]
    dsimp only
    generalize meaning found transform (t.id :: opened) _ _ = inner at *
    generalize meaning found transform opened _ _ = outer at *
    intro o ho
    rcases List.mem_append.mp ho with ho | ho
    · rcases List.mem_cons.mp ho with rfl | ho
      · exact ⟨[], inner.tokens, outer.tokens, t, p, spelled, rfl, rfl, hp, hspelled, hwritten⟩
      · simpa using (hinner o ho).append [.tabstop t] (.tabstop t :: outer.tokens)
    · have := (houter o ho).append (.tabstop t :: inner.tokens ++ [.tabstop t]) []
      rwa [List.append_nil, List.append_assoc] at this

end

/-- Copies have no transforms, so that of an occurrence is that of its token. -/
theorem transform_occurrences (hs : SoundDefaults found) {tokens : List SnippetToken}
    (h : Fillable found opened next tokens) : ∀ o ∈ (meaning found transform opened next tokens).occurrences,
      o.transform = none ∨ ∃ t, .tabstop t ∈ tokens ∧ t.transform = o.transform := by
  refine Fillable.induct hs transform
    (motive := fun opened next tokens => ∀ o ∈ (meaning found transform opened next tokens).occurrences,
      o.transform = none ∨ ∃ t, .tabstop t ∈ tokens ∧ t.transform = o.transform)
    (fun _ _ o ho => ?_) (fun _ _ s rest ih o ho => ?_) (fun opened next t p rest hf hp ihi iho => ?_)
    opened next tokens h
  · rw [meaning_nil] at ho
    cases ho
  · rw [meaning_text] at ho
    exact (ih o ho).imp_right fun ⟨t, ht, he⟩ => ⟨t, List.mem_cons_of_mem _ ht, he⟩
  · obtain ⟨hvalue, hle, -⟩ := fillable_value hs transform hp t (t.id :: opened) next
    have houter := iho _ (Nat.le_trans hle (next_le_meaning hs transform hvalue))
    rw [meaning_tabstop transform (hf.closed t List.mem_cons_self) hp]
    intro o ho
    rcases List.mem_append.mp ho with ho | ho
    · rcases List.mem_cons.mp ho with rfl | ho
      · exact .inr ⟨t, List.mem_cons_self, rfl⟩
      · rcases ihi o ho with hnone | ⟨u, hu, he⟩
        · exact .inl hnone
        · exact .inl (he ▸ plain_value transform _ next u hu)
    · refine (houter o ho).imp_right fun ⟨u, hu, he⟩ => ⟨u, ?_, he⟩
      exact List.mem_cons_of_mem _ ((behindBody_sublist t.marker rest).subset hu)

end

/-! ## Expansions -/

section
variable {t : TabstopMark} {front inner behind : List SnippetToken}

theorem behindBody_eq (h : t.marker ∉ markers front) (rest : List SnippetToken) :
    bodyLength? t.marker (front ++ .tabstop t :: rest) = some front.length ∧
      behindBody t.marker (front ++ .tabstop t :: rest) = rest := by
  have hlength : bodyLength? t.marker (front ++ .tabstop t :: rest) = some front.length := by
    have hnone := bodyLength?_eq_none h
    unfold bodyLength? at hnone ⊢
    rw [List.findIdx?_append, hnone, List.findIdx?_cons]
    simp [SnippetToken.marker?]
  refine ⟨hlength, ?_⟩
  rw [behindBody, hlength, List.append_cons front, List.drop_left' (by simp)]

/-- What stands between the only two tokens of a marker. -/
theorem between_eq (h : (markers (front ++ .tabstop t :: inner ++ .tabstop t :: behind)).count t.marker ≤ 2) :
    let rest := behindBody t.marker (front ++ .tabstop t :: inner ++ .tabstop t :: behind)
    rest.take ((bodyLength? t.marker rest).getD 0) = inner := by
  simp only [List.append_assoc, List.cons_append, markers_append, markers_tabstop, List.count_append,
    List.count_cons_self] at h ⊢
  have hfront : t.marker ∉ markers front := List.count_eq_zero.mp (by omega)
  have hinner : t.marker ∉ markers inner := List.count_eq_zero.mp (by omega)
  rw [(behindBody_eq hfront _).2, (behindBody_eq hinner _).1]
  exact List.take_left

end

section
variable {before after : List Char} {opened : List Nat} {tokens : List SnippetToken} {fields : List Field} {f : Field}

theorem Laid.upto_of_shows {found : Dict Nat Placeholder} {transform : Transform → String → String}
    (h : Laid before opened tokens after fields) (hf : f ∈ fields) (hcount : (markers tokens).count f.marker ≤ 2)
    (hs : Shows found transform f.occurrence tokens) : ∃ p value, found.get? f.occurrence.id = some p ∧
      Spells found p.default.tokens value ∧
      f.upto = f.before ++ (p.default.shown transform f.occurrence.transform (String.ofList value)).toList := by
  obtain ⟨front, inner, behind, t, p, value, rfl, hm, hp, hspells, hwritten⟩ := hs
  obtain ⟨front', inner', behind', t', he, hm', -, hu⟩ := h.split f hf
  have hm : t.marker = f.marker := hm
  have hinner := between_eq (hm.symm ▸ hcount)
  rw [hm, he, ← hm'] at hinner
  rw [he, ← hm'] at hcount
  refine ⟨p, value, hp, hspells, ?_⟩
  rw [hu, ← hwritten, ← hinner, between_eq hcount]

theorem Laid.reads {piece : List Char} (h : Laid [] opened tokens after fields) (hf : f ∈ fields)
    (hu : f.upto = f.before ++ piece) : f.range.range.Reads after piece := by
  obtain ⟨-, hbefore, hupto⟩ := h.bounds f hf
  refine ⟨f.before.length, f.upto.length, hbefore.length_le, hupto.length_le, ?_, ?_⟩
  · rw [← Position.after_eq_place hupto, ← Position.after_eq_place (hbefore.trans hupto)]
    rfl
  · rw [← List.prefix_iff_eq_take.mp hupto, hu, List.drop_left]

end

/-- What a tabstop holds wherever it occurs. -/
def defaultOf (tokens : List SnippetToken) (id : Nat) : Default :=
  ((collect Dict.empty [] tokens).get? id).elim .none (·.default)

/-- All ranges of a tabstop show what it spells, each under its transform. -/
theorem reads_shown (vars : Variables) (ctx : EditContext) (options : InsertOptions) (source : String)
    (hac : Acyclic (prepare vars ctx options source)) {g : TabstopGroup}
    (hg : g ∈ (expandSnippet vars ctx options source).tabstops) :
    let tokens := prepare vars ctx options source
    ∃ spelled : String, ∀ r ∈ g.ranges,
      r.range.Reads (expandSnippet vars ctx options source).text.toList
        ((defaultOf tokens g.id).shown (vars.transform ctx) r.transform spelled).toList ∧
      (r.transform = none ∨ ∃ t, .tabstop t ∈ tokens ∧ t.transform = r.transform) := by
  intro tokens
  have hw := wellMarked_prepare vars ctx options source
  have hv := not_var_mem_prepare vars ctx options source
  obtain ⟨fields, hlaid, -, hocc, hdraws⟩ := laid_filledSnippet vars ctx options source
  have hcount := (fills_filledSnippet vars ctx options source).count_markers
  have hmeaning := instantiate_eq_meaning hw hv (vars.transform ctx)
  have hsound := soundDefaults_collect hw hv
  have hfill := fillable_collect hw hv
  have hshows := shows_meaning (vars.transform ctx) hsound hac.holds hfill fun id hid => nomatch hid
  have htransform := transform_occurrences (vars.transform ctx) hsound hfill
  have hfilled : filledSnippet vars ctx options source =
    meaning (collect Dict.empty [] tokens) (vars.transform ctx) [] (freshMarker tokens) tokens := hmeaning
  rw [← hfilled, ← hocc] at hshows htransform
  cases hdraws g hg with
  | fields hf hranges _ =>
    have hfield : ∀ f ∈ fields, ∃ p value, (collect Dict.empty [] tokens).get? f.occurrence.id = some p ∧
        Spells (collect Dict.empty [] tokens) p.default.tokens value ∧ f.upto = f.before ++
          (p.default.shown (vars.transform ctx) f.occurrence.transform (String.ofList value)).toList := fun f hf => by
      have hs := hshows _ (List.mem_map_of_mem hf)
      refine hlaid.upto_of_shows hf ?_ hs
      obtain ⟨_, _, _, t, _, _, he, hm, -⟩ := hs
      have hmark : f.marker ∈ markers (filledSnippet vars ctx options source).tokens :=
        (show t.marker = f.marker from hm) ▸ mem_markers (by simp [he])
      exact Nat.le_of_eq (hcount _ hmark)
    obtain ⟨f₀, hf₀, hid₀⟩ := hf
    obtain ⟨p, value, hp, hspells, -⟩ := hfield f₀ hf₀
    refine ⟨String.ofList value, fun r hr => ?_⟩
    rw [hranges] at hr
    obtain ⟨f, hf, rfl⟩ := List.mem_map.mp hr
    obtain ⟨hf, hid⟩ := List.mem_filter.mp hf
    have hid : f.occurrence.id = g.id := by simpa using hid
    obtain ⟨p', value', hp', hspells', hu⟩ := hfield f hf
    rw [hid₀] at hp
    rw [hid, hp] at hp'
    obtain rfl := Option.some.inj hp'
    obtain rfl := hspells.unique hspells'
    have hdefault : defaultOf tokens g.id = p.default := by
      rw [defaultOf, hp]
      rfl
    rw [hdefault]
    exact ⟨hlaid.reads hf hu, htransform _ (List.mem_map_of_mem hf)⟩
  | final _ =>
    refine ⟨"", fun r hr => ?_⟩
    obtain rfl := List.mem_singleton.mp hr
    refine ⟨?_, .inl rfl⟩
    obtain ⟨piece, hpiece⟩ := ((group_expandSnippet vars ctx options source hg).on _ hr).reads
    obtain rfl := hpiece.nil_iff.mpr rfl
    rw [Default.shown_none]
    exact hpiece

end Expansion

end Scribe
