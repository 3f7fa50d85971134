import Scribe.Snippet.Expansion
import Mathlib.Data.List.ReduceOption

/-!
# Markers of parsed snippets

A marker stands for one placeholder. Among the tokens of a snippet it stands at most twice, before and after
the body, and both times with the same name. Resolving the variables leaves out markers and adds none.
-/

namespace Scribe

namespace SnippetToken

/-- The marker and, for a tabstop, its number. -/
abbrev Label := Nat × Option Nat

def label? : SnippetToken → Option Label
  | text _ => none
  | tabstop t => some (t.marker, some t.id)
  | var v => some (v.marker, none)

def labels (tokens : List SnippetToken) : List Label := tokens.filterMap label?

theorem label?_withTransform (transform : Transform) (token : SnippetToken) :
    (token.withTransform transform).label? = token.label? := by
  cases token <;> rfl

theorem label?_withChoices (choices : List String) (token : SnippetToken) :
    (token.withChoices choices).label? = token.label? := by
  cases token <;> rfl

theorem label?_mapText (f : List Char → List Char) (token : SnippetToken) :
    (token.mapText f).label? = token.label? := by
  cases token <;> rfl

theorem marker?_eq (token : SnippetToken) : token.marker? = token.label?.map (·.1) := by
  cases token <;> rfl

theorem labels_map_mapText (f : List Char → List Char) (tokens : List SnippetToken) :
    labels (tokens.map (·.mapText f)) = labels tokens := by
  simp only [labels, List.filterMap_map, Function.comp_def, label?_mapText]

end SnippetToken

open SnippetToken (Label)

/-- No marker stands more than twice, and never for two different placeholders. -/
structure WellMarked (labels : List Label) : Prop where
  paired : ∀ m, (labels.map (·.1)).count m ≤ 2
  same : ∀ l ∈ labels, ∀ l' ∈ labels, l.1 = l'.1 → l = l'

theorem WellMarked.sublist {ls ls' : List Label} (h : WellMarked ls) (hs : ls'.Sublist ls) : WellMarked ls' where
  paired m := Nat.le_trans ((hs.map _).count_le m) (h.paired m)
  same l hl l' hl' := h.same l (hs.subset hl) l' (hs.subset hl')

/-! ## Parsing -/

namespace SnippetParser

/-- What the parser keeps about the labels written so far, the places of the open ones among them, and the
next marker. An open placeholder counts as if it were closed already. -/
structure Outline (written : List (Option Label)) (opened : List Nat) (next : Nat) : Prop where
  lt : ∀ l, some l ∈ written → l.1 < next
  placed : ∀ k ∈ opened, k < written.length
  paired : ∀ m, ((written.reduceOption).map (·.1)).count m +
    (((opened.map fun k => written[k]?.join).reduceOption).map (·.1)).count m ≤ 2
  same : ∀ l, some l ∈ written → ∀ l', some l' ∈ written → l.1 = l'.1 → l = l'

namespace Outline

variable {written : List (Option Label)} {opened : List Nat} {next : Nat}

theorem nil : Outline [] [] 0 where
  lt _ hl := by cases hl
  placed _ hk := by cases hk
  paired m := by simp
  same _ hl := by cases hl

theorem count_append_fresh (id : Option Nat) (m : Nat) :
    (((written ++ [some (next, id)]).reduceOption).map (·.1)).count m =
      ((written.reduceOption).map (·.1)).count m + if next = m then 1 else 0 := by
  rw [List.reduceOption_append, List.map_append, List.count_append]
  by_cases hm : next = m
  · subst hm; simp [List.reduceOption]
  · simp [List.reduceOption, hm]

section
variable (h : Outline written opened next)
include h

theorem opened_append (l : Option Label) :
    (opened.map fun k => (written ++ [l])[k]?.join) = opened.map fun k => written[k]?.join :=
  List.map_congr_left fun k hk => by rw [List.getElem?_append_left (h.placed k hk)]

theorem count_next : ((written.reduceOption).map (·.1)).count next = 0 := by
  refine List.count_eq_zero.mpr fun hm => ?_
  obtain ⟨l, hl, he⟩ := List.mem_map.mp hm
  exact Nat.ne_of_lt (h.lt l (List.reduceOption_mem_iff.mp hl)) he

theorem count_opened_next :
    (((opened.map fun k => written[k]?.join).reduceOption).map (·.1)).count next = 0 := by
  refine List.count_eq_zero.mpr fun hm => ?_
  obtain ⟨l, hl, he⟩ := List.mem_map.mp hm
  obtain ⟨k, -, hk⟩ := List.mem_map.mp (List.reduceOption_mem_iff.mp hl)
  have hmem : some l ∈ written := by
    cases hw : written[k]? with
    | none => rw [hw] at hk; cases hk
    | some l' =>
      rw [hw] at hk
      exact (show l' = some l from hk) ▸ List.mem_of_getElem? hw
  exact Nat.ne_of_lt (h.lt l hmem) he

theorem text : Outline (written ++ [none]) opened next where
  lt l hl := h.lt l (by simpa using hl)
  placed k hk := by have := h.placed k hk; simp; omega
  paired m := by
    rw [h.opened_append, List.reduceOption_append]
    simpa using h.paired m
  same l hl l' hl' := h.same l (by simpa using hl) l' (by simpa using hl')

theorem lt_append_fresh (id : Option Nat) : ∀ l, some l ∈ written ++ [some (next, id)] → l.1 < next + 1 := by
  intro l hl
  rcases List.mem_append.mp hl with hl | hl
  · exact Nat.lt_succ_of_lt (h.lt l hl)
  · cases List.mem_singleton.mp hl
    exact Nat.lt_succ_self next

theorem same_append_fresh (id : Option Nat) : ∀ l, some l ∈ written ++ [some (next, id)] →
    ∀ l', some l' ∈ written ++ [some (next, id)] → l.1 = l'.1 → l = l' := by
  intro l hl l' hl' he
  rcases List.mem_append.mp hl with hl | hl <;> rcases List.mem_append.mp hl' with hl' | hl'
  · exact h.same l hl l' hl' he
  · cases List.mem_singleton.mp hl'
    exact absurd he (Nat.ne_of_lt (h.lt l hl))
  · cases List.mem_singleton.mp hl
    exact absurd he.symm (Nat.ne_of_lt (h.lt l' hl'))
  · rw [List.mem_singleton] at hl hl'
    exact Option.some.inj (hl.trans hl'.symm)

theorem reference (id : Option Nat) : Outline (written ++ [some (next, id)]) opened (next + 1) where
  lt := h.lt_append_fresh id
  placed k hk := by have := h.placed k hk; simp; omega
  paired m := by
    rw [h.opened_append, count_append_fresh]
    by_cases hm : next = m
    · subst hm
      rw [h.count_next, h.count_opened_next]; simp
    · simpa [hm] using h.paired m
  same := h.same_append_fresh id

theorem opening (id : Option Nat) :
    Outline (written ++ [some (next, id)]) (written.length :: opened) (next + 1) where
  lt := h.lt_append_fresh id
  placed k hk := by
    rcases List.mem_cons.mp hk with rfl | hk
    · simp
    · have := h.placed k hk; simp; omega
  paired m := by
    rw [List.map_cons, h.opened_append, count_append_fresh]
    simp only [List.getElem?_concat_length, Option.join_some, List.reduceOption_cons_of_some, List.map_cons,
      List.count_cons]
    by_cases hm : next = m
    · subst hm
      rw [h.count_next, h.count_opened_next]; simp
    · simpa [hm] using h.paired m
  same := h.same_append_fresh id

end

/-- The innermost placeholder is closed: its label is written again. -/
theorem close {k : Nat} {l : Option Label} (h : Outline written (k :: opened) next) (hl : written[k]? = some l) :
    Outline (written ++ [l]) opened next where
  lt l' hl' := by
    rcases List.mem_append.mp hl' with hl' | hl'
    · exact h.lt l' hl'
    · cases List.mem_singleton.mp hl'
      exact h.lt l' (List.mem_of_getElem? hl)
  placed k' hk' := by
    have := h.placed k' (List.mem_cons_of_mem k hk')
    simp; omega
  paired m := by
    have hopen : (opened.map fun k => (written ++ [l])[k]?.join) = opened.map fun k => written[k]?.join :=
      List.map_congr_left fun k' hk' => by
        rw [List.getElem?_append_left (h.placed k' (List.mem_cons_of_mem k hk'))]
    have := h.paired m
    rw [List.map_cons, hl] at this
    rw [hopen, List.reduceOption_append, List.map_append, List.count_append]
    cases l with
    | none => simpa using this
    | some l =>
      simp only [Option.join_some, List.reduceOption_cons_of_some, List.map_cons, List.count_cons,
        List.reduceOption_nil, List.map_nil, List.count_nil] at this ⊢
      omega
  same l₁ h₁ l₂ h₂ := by
    have hmem : ∀ l', some l' ∈ written ++ [l] → some l' ∈ written := fun l' hl' => by
      rcases List.mem_append.mp hl' with hl' | hl'
      · exact hl'
      · exact List.mem_singleton.mp hl' ▸ List.mem_of_getElem? hl
    exact h.same l₁ (hmem l₁ h₁) l₂ (hmem l₂ h₂)

theorem popped {k : Nat} (h : Outline written (k :: opened) next) : Outline written opened next where
  lt := h.lt
  placed k' hk' := h.placed k' (List.mem_cons_of_mem k hk')
  paired m := by
    have := h.paired m
    rw [List.map_cons] at this
    cases hk : written[k]?.join with
    | none => simpa [hk] using this
    | some l =>
      rw [hk] at this
      simp only [List.reduceOption_cons_of_some, List.map_cons, List.count_cons] at this
      omega
  same := h.same

theorem wellMarked (h : Outline written opened next) : WellMarked written.reduceOption where
  paired m := Nat.le_trans (Nat.le_add_right _ _) (h.paired m)
  same l hl l' hl' := h.same l (List.reduceOption_mem_iff.mp hl) l' (List.reduceOption_mem_iff.mp hl')

end Outline

namespace State

def labels (st : State) : List (Option Label) := st.tokens.toList.map SnippetToken.label?

/-- The state between two lexemes. -/
def Sound (st : State) : Prop := Outline st.labels (st.frames.map (·.token)) st.nextMarker

theorem labels_pushText (st : State) (s : String) :
    (st.pushText s).labels = st.labels ∨ (st.pushText s).labels = st.labels ++ [none] := by
  unfold pushText
  split
  · exact .inl rfl
  · split
    · rename_i t hb
      left
      have hlast : st.tokens.toList.getLast? = some (.text t) := by simpa using hb
      obtain ⟨front, hfront⟩ := List.getLast?_eq_some_iff.mp hlast
      simp only [labels, Array.toList_push, Array.toList_pop, hfront, List.dropLast_concat, List.map_append]
      rfl
    · right
      unfold labels
      rw [Array.toList_push, List.map_append]
      rfl

section
variable {st : State} (h : st.Sound)
include h

theorem sound_pushText (s : String) : (st.pushText s).Sound := by
  have hkeep : (st.pushText s).frames = st.frames ∧ (st.pushText s).nextMarker = st.nextMarker := by
    unfold pushText
    split
    · exact ⟨rfl, rfl⟩
    · split <;> exact ⟨rfl, rfl⟩
  unfold Sound
  rw [hkeep.1, hkeep.2]
  rcases labels_pushText st s with hl | hl
  · rw [hl]
    exact h
  · rw [hl]
    exact h.text

theorem sound_pushReference (name : List Char) : (st.pushReference name).Sound := by
  unfold pushReference
  dsimp only
  unfold Sound labels State.push
  rw [Array.toList_push, List.map_append]
  split
  · exact h.reference _
  · exact h.reference _

theorem sound_open (name source : List Char) :
    ({ st.pushReference name with
       frames := { token := st.tokens.size, source } :: (st.pushReference name).frames } : State).Sound := by
  have hsize : st.tokens.size = st.labels.length := by simp [labels]
  unfold pushReference
  dsimp only
  unfold Sound labels State.push
  rw [Array.toList_push, List.map_append, List.map_cons, hsize]
  split
  · exact h.opening _
  · exact h.opening _

theorem sound_modify {f : SnippetToken → SnippetToken} (hf : ∀ t, (f t).label? = t.label?) (k : Nat) :
    ({ st with tokens := st.tokens.modify k f } : State).Sound := by
  have hl : ({ st with tokens := st.tokens.modify k f } : State).labels = st.labels := by
    simp only [labels, Array.toList_modify]
    refine List.ext_getElem? fun i => ?_
    simp only [List.getElem?_map, List.getElem?_modify]
    cases st.tokens.toList[i]? with
    | none => rfl
    | some t =>
      by_cases hi : k = i
      · simp [hi, hf]
      · simp [hi]
  unfold Sound
  rw [hl]
  exact h

theorem sound_close (transform : Option Transform) : (st.close transform).Sound := by
  unfold close
  split
  · exact h
  · rename_i f rest hframes
    have hmod : ∀ st' : State, st'.Sound → st'.frames = f :: rest →
        ({ st' with frames := rest } : State).Sound ∧
          ∀ opening, st'.tokens[f.token]? = some opening →
            ({ st' with tokens := st'.tokens.push opening, frames := rest } : State).Sound := by
      intro st' h' hf'
      unfold Sound at h'
      rw [hf', List.map_cons] at h'
      refine ⟨h'.popped, fun opening hopen => ?_⟩
      unfold Sound labels
      rw [Array.toList_push, List.map_append]
      refine h'.close ?_
      simp only [labels, List.getElem?_map, Array.getElem?_toList, hopen, Option.map_some]
    -- The transform changes the opening token under its label.
    cases transform with
    | none =>
      dsimp only
      split
      · rename_i opening hopen
        exact (hmod st h hframes).2 opening hopen
      · exact (hmod st h hframes).1
    | some t =>
      have hst := sound_modify h (SnippetToken.label?_withTransform t) f.token
      dsimp only
      split
      · rename_i opening hopen
        exact (hmod _ hst hframes).2 opening hopen
      · exact (hmod _ hst hframes).1

end

/-! ### What every operation keeps -/

/-- Whatever the parser does to its state keeps this of it. -/
structure Kept (P : State → Prop) : Prop where
  pushText : ∀ {st : State}, P st → ∀ s, P (st.pushText s)
  pushReference : ∀ {st : State}, P st → ∀ name, P (st.pushReference name)
  opening : ∀ {st : State}, P st → ∀ name source,
    P { st.pushReference name with
        frames := { token := st.tokens.size, source } :: (st.pushReference name).frames }
  close : ∀ {st : State}, P st → ∀ transform, P (st.close transform)
  choices : ∀ {st : State}, P st → ∀ {f : Frame} {rest : List Frame}, st.frames = f :: rest → ∀ found,
    P { st with tokens := st.tokens.modify f.token (SnippetToken.withChoices found) }
  transform : ∀ {st : State}, P st → ∀ t, P { st with transform := t }

theorem sound_kept : Kept Sound where
  pushText h s := sound_pushText h s
  pushReference h name := sound_pushReference h name
  opening h name source := sound_open h name source
  close h transform := sound_close h transform
  choices h _ _ _ found := sound_modify h (SnippetToken.label?_withChoices found) _
  transform h _ := h

namespace Kept

variable {P : State → Prop} (kept : Kept P) {st : State}
include kept

theorem endTransform (h : P st) (flags : String) : P (st.endTransform flags) :=
  kept.close (kept.transform h none) _

theorem mapTransform (h : P st) (f : OpenTransform → OpenTransform) : P (st.mapTransform f) :=
  kept.transform h _

theorem stepBody (h : P st) (c : Char) (rest : List Char) : P (stepBody st c rest).1 := by
  unfold SnippetParser.stepBody
  dsimp only
  split
  · exact kept.pushText h _
  · dsimp only
    split
    · exact kept.pushText h _
    · exact kept.close h none
  · exact kept.pushReference h _
  · exact kept.opening h _ _
  · exact kept.pushText h _

theorem stepAfterName (h : P st) (cs : List Char) : P (stepAfterName st cs).1 := by
  unfold SnippetParser.stepAfterName
  dsimp only
  split
  · refine kept.pushText ?_ _
    split
    · rename_i hf
      exact kept.choices h hf _
    · exact h
  · exact kept.transform h _
  · exact h

theorem stepFormat (h : P st) (c : Char) (rest : List Char) : P (stepFormat st c rest).1 := by
  unfold SnippetParser.stepFormat
  dsimp only
  split
  · exact kept.mapTransform h _
  · exact kept.mapTransform h _
  · exact kept.endTransform h _
  · exact kept.mapTransform h _
  · exact kept.mapTransform h _
  · split
    · exact kept.endTransform h _
    · exact kept.mapTransform h _
  · exact kept.mapTransform h _

theorem stepAfterReference (h : P st) (cs : List Char) : P (stepAfterReference st cs).1 := by
  unfold SnippetParser.stepAfterReference
  dsimp only
  split <;> first | exact kept.mapTransform h _ | exact h

theorem stepInside (h : P st) (r : Region) (c : Char) (rest : List Char) : P (stepInside st r c rest).1 := by
  cases r with
  | body => exact kept.stepBody h c rest
  | format => exact kept.stepFormat h c rest

theorem stepOpened (h : P st) (r : Region) (cs : List Char) : P (stepOpened st r cs).1 := by
  cases r with
  | body => exact kept.stepAfterName h cs
  | format => exact kept.stepAfterReference h cs

theorem parseFrom : ∀ (cs : List Char) {st : State} (mode : Mode) (skip : Nat), P st →
    P (parseFrom st mode skip cs)
  | [], _, _, _, h => h
  | c :: rest, st, mode, n + 1, h => parseFrom rest mode n h
  | c :: rest, st, .inside r, 0, h => by
    unfold SnippetParser.parseFrom
    exact parseFrom rest _ _ (kept.stepInside h r c rest)
  | c :: rest, st, .opened r, 0, h => by
    have ho := kept.stepOpened h r (c :: rest)
    unfold SnippetParser.parseFrom
    dsimp only
    split
    · rename_i heq
      rw [heq] at ho
      exact parseFrom rest _ _ ho
    · rename_i heq
      rw [heq] at ho
      exact parseFrom rest _ _ (kept.stepInside ho _ c rest)

end Kept

end State

theorem labels_toList (st : State) : SnippetToken.labels st.tokens.toList = st.labels.reduceOption := by
  simp only [SnippetToken.labels, State.labels, List.reduceOption, List.filterMap_map]
  rfl

theorem wellMarked_settle {st : State} (h : st.Sound) :
    WellMarked (SnippetToken.labels st.settle.tokens.toList) := by
  rw [labels_toList]
  unfold State.settle
  split
  · rename_i f rest _ _
    have htake : ({ st with tokens := st.tokens.take f.token, frames := rest } : State).labels =
        st.labels.take f.token := by
      simp [State.labels, List.map_take]
    have hsub : ((st.labels.take f.token).reduceOption).Sublist st.labels.reduceOption :=
      (List.take_sublist _ _).filterMap _
    rcases State.labels_pushText
        { st with tokens := st.tokens.take f.token, frames := rest } (String.ofList f.source) with hl | hl
    · rw [hl, htake]
      exact h.wellMarked.sublist hsub
    · rw [hl, htake, List.reduceOption_append]
      simpa using h.wellMarked.sublist hsub
  · exact h.wellMarked

end SnippetParser

theorem wellMarked_parseSnippet (source : String) : WellMarked (SnippetToken.labels (parseSnippet source)) :=
  SnippetParser.wellMarked_settle (SnippetParser.State.sound_kept.parseFrom _ _ _ SnippetParser.Outline.nil)

/-! ## Resolving -/

namespace Variables

theorem labels_pushText (r : Resolved) (text : String) :
    SnippetToken.labels (r.pushText text).tokens = SnippetToken.labels r.tokens := by
  unfold Resolved.pushText
  dsimp only
  split
  · rename_i before rest h
    rw [h]
    rfl
  · dsimp only
    split <;> rfl

theorem labels_resolveFrom (vars : Variables) (ctx : EditContext) : ∀ (tokens : List SnippetToken) (r : Resolved)
    (skip : Nat), ∃ ls : List Label, ls.Sublist (SnippetToken.labels tokens) ∧
      (SnippetToken.labels (vars.resolveFrom ctx r skip tokens).tokens).reverse =
        (SnippetToken.labels r.tokens).reverse ++ ls
  | [], r, _ => ⟨[], List.nil_sublist _, by simp [resolveFrom]⟩
  | token :: rest, r, n + 1 => by
    obtain ⟨ls, hs, he⟩ := labels_resolveFrom vars ctx rest r n
    exact ⟨ls, hs.trans ((List.sublist_cons_self _ _).filterMap _), he⟩
  | .text s :: rest, r, 0 => by
    obtain ⟨ls, hs, he⟩ := labels_resolveFrom vars ctx rest (r.pushText s) 0
    rw [labels_pushText] at he
    exact ⟨ls, hs, he⟩
  | .tabstop t :: rest, r, 0 => by
    obtain ⟨ls, hs, he⟩ := labels_resolveFrom vars ctx rest { r with tokens := .tabstop t :: r.tokens } 0
    refine ⟨(t.marker, some t.id) :: ls, hs.cons_cons _, ?_⟩
    rw [resolveFrom, he]
    simp [SnippetToken.labels, SnippetToken.label?]
  | .var v :: rest, r, 0 => by
    have hsub : (SnippetToken.labels rest).Sublist (SnippetToken.labels (.var v :: rest)) :=
      (List.sublist_cons_self _ _).filterMap _
    unfold resolveFrom
    dsimp only
    split
    · obtain ⟨ls, hs, he⟩ := labels_resolveFrom vars ctx rest r 0
      exact ⟨ls, hs.trans hsub, he⟩
    · split
      · obtain ⟨ls, hs, he⟩ := labels_resolveFrom vars ctx rest { r with met := v.marker :: r.met } 0
        exact ⟨ls, hs.trans hsub, he⟩
      · obtain ⟨ls, hs, he⟩ := labels_resolveFrom vars ctx rest
          (({ r with met := v.marker :: r.met } : Resolved).pushText
            (vars.occurrenceValue ctx (Text.indentation r.line) v))
          (((bodyLength? v.marker rest).map (· + 1)).getD 0)
        rw [labels_pushText] at he
        exact ⟨ls, hs.trans hsub, he⟩

theorem labels_resolve (vars : Variables) (ctx : EditContext) (tokens : List SnippetToken) :
    (SnippetToken.labels (vars.resolve ctx tokens)).Sublist (SnippetToken.labels tokens) := by
  obtain ⟨ls, hs, he⟩ := labels_resolveFrom vars ctx tokens {} 0
  have : SnippetToken.labels (vars.resolve ctx tokens) = ls := by
    rw [resolve, SnippetToken.labels, List.filterMap_reverse]
    exact he
  rw [this]
  exact hs

theorem not_var_mem_pushText {r : Resolved} (h : ∀ v, .var v ∉ r.tokens) (text : String) :
    ∀ v, .var v ∉ (r.pushText text).tokens := by
  intro v hv
  unfold Resolved.pushText at hv
  dsimp only at hv
  split at hv
  · rename_i before rest hr
    rcases List.mem_cons.mp hv with hv | hv
    · cases hv
    · exact h v (hr ▸ List.mem_cons_of_mem _ hv)
  · dsimp only at hv
    split at hv
    · exact h v hv
    · rcases List.mem_cons.mp hv with hv | hv
      · cases hv
      · exact h v hv

theorem not_var_mem_resolveFrom (vars : Variables) (ctx : EditContext) : ∀ (tokens : List SnippetToken)
    (r : Resolved) (skip : Nat), (∀ v, .var v ∉ r.tokens) →
      ∀ v, .var v ∉ (vars.resolveFrom ctx r skip tokens).tokens
  | [], _, _, h => h
  | _ :: rest, r, n + 1, h => not_var_mem_resolveFrom vars ctx rest r n h
  | .text s :: rest, r, 0, h => not_var_mem_resolveFrom vars ctx rest _ 0 (not_var_mem_pushText h s)
  | .tabstop t :: rest, r, 0, h =>
    not_var_mem_resolveFrom vars ctx rest _ 0 fun v hv => by
      rcases List.mem_cons.mp hv with hv | hv
      · cases hv
      · exact h v hv
  | .var v :: rest, r, 0, h => by
    unfold resolveFrom
    dsimp only
    split
    · exact not_var_mem_resolveFrom vars ctx rest r 0 h
    · split
      · exact not_var_mem_resolveFrom vars ctx rest _ 0 h
      · have hr : ∀ w, .var w ∉ ({ r with met := v.marker :: r.met } : Resolved).tokens := h
        exact not_var_mem_resolveFrom vars ctx rest _ _ (not_var_mem_pushText hr _)

theorem not_var_mem_resolve (vars : Variables) (ctx : EditContext) (tokens : List SnippetToken) :
    ∀ v, .var v ∉ vars.resolve ctx tokens := by
  intro v hv
  exact not_var_mem_resolveFrom vars ctx tokens {} 0 (fun v hv => by cases hv) v (List.mem_reverse.mp hv)

end Variables

/-! ## Before the tabstops are filled -/

namespace Expansion

/-- The tokens of a snippet without variables, with the line ends and tabs of the place where it goes. -/
def prepare (vars : Variables) (ctx : EditContext) (options : InsertOptions) (source : String) :
    List SnippetToken :=
  let lineEnd := '\n' :: (if options.excludeIndent then [] else ctx.indentation)
  let tokens := (parseSnippet (String.ofList (source.toList.filter (· ≠ '\r')))).map
    (·.mapText (Text.replaceChar '\n' lineEnd))
  (vars.resolve ctx tokens).map (·.mapText (Text.replaceChar '\t' ctx.tabString.toList))

theorem expandSnippet_eq (vars : Variables) (ctx : EditContext) (options : InsertOptions) (source : String) :
    expandSnippet vars ctx options source =
      let tokens := prepare vars ctx options source
      let found := collect Dict.empty [] tokens
      layout found (instantiate found (vars.transform ctx) tokens) := rfl

variable (vars : Variables) (ctx : EditContext) (options : InsertOptions) (source : String)

theorem wellMarked_prepare : WellMarked (SnippetToken.labels (prepare vars ctx options source)) := by
  unfold prepare
  rw [SnippetToken.labels_map_mapText]
  refine (wellMarked_parseSnippet (String.ofList (source.toList.filter (· ≠ '\r')))).sublist ?_
  have := Variables.labels_resolve vars ctx
    ((parseSnippet (String.ofList (source.toList.filter (· ≠ '\r')))).map
      (·.mapText (Text.replaceChar '\n' ('\n' :: (if options.excludeIndent then [] else ctx.indentation)))))
  rwa [SnippetToken.labels_map_mapText] at this

theorem not_var_mem_prepare : ∀ v, .var v ∉ prepare vars ctx options source := by
  intro v hv
  obtain ⟨token, hmem, he⟩ := List.mem_map.mp hv
  cases token with
  | text => cases he
  | tabstop => cases he
  | var w => exact Variables.not_var_mem_resolve _ _ _ w hmem

end Expansion

end Scribe
