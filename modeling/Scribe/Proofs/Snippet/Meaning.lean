import Scribe.Proofs.Dict
import Scribe.Proofs.Snippet.Markers
import Mathlib.Logic.Relation

/-!
# The meaning of a snippet

What filling a snippet comes to is a recursion: an occurrence holds the default of its tabstop, without the
tabstops that are open, and what is left of them is filled in the same way, with one more tabstop open.
-/

namespace Scribe

namespace Expansion

open SnippetToken (labels)

/-! ## Markers of tokens -/

def markers (tokens : List SnippetToken) : List Nat := tokens.filterMap (·.marker?)

@[simp] theorem markers_nil : markers [] = [] := rfl

@[simp] theorem markers_text (s : String) (rest : List SnippetToken) : markers (.text s :: rest) = markers rest := rfl

@[simp] theorem markers_tabstop (t : TabstopMark) (rest : List SnippetToken) :
    markers (.tabstop t :: rest) = t.marker :: markers rest := rfl

@[simp] theorem markers_append (xs ys : List SnippetToken) : markers (xs ++ ys) = markers xs ++ markers ys :=
  List.filterMap_append

theorem markers_eq (tokens : List SnippetToken) : markers tokens = (labels tokens).map (·.1) := by
  simp only [markers, labels, List.map_filterMap, SnippetToken.marker?_eq]

theorem mem_markers {tokens : List SnippetToken} {t : TabstopMark} (h : .tabstop t ∈ tokens) :
    t.marker ∈ markers tokens := List.mem_filterMap.mpr ⟨_, h, rfl⟩

theorem behindBody_sublist (marker : Nat) (rest : List SnippetToken) : (behindBody marker rest).Sublist rest :=
  List.drop_sublist _ _

theorem length_behindBody_le (marker : Nat) (rest : List SnippetToken) :
    (behindBody marker rest).length ≤ rest.length := (behindBody_sublist marker rest).length_le

theorem bodyLength?_eq_none {marker : Nat} {tokens : List SnippetToken} (h : marker ∉ markers tokens) :
    bodyLength? marker tokens = none := by
  refine List.findIdx?_eq_none_iff.mpr fun token ht => ?_
  simp only [beq_eq_false_iff_ne, ne_eq]
  exact fun hm => h (List.mem_filterMap.mpr ⟨token, ht, hm⟩)

theorem behindBody_append {marker : Nat} {tail : List SnippetToken} (rest : List SnippetToken)
    (h : marker ∉ markers tail) : behindBody marker (rest ++ tail) = behindBody marker rest ++ tail := by
  have hlength : bodyLength? marker (rest ++ tail) = bodyLength? marker rest := by
    rw [bodyLength?, List.findIdx?_append]
    have := bodyLength?_eq_none h
    rw [bodyLength?] at this
    rw [this]
    exact Option.or_none
  unfold behindBody
  rw [hlength]
  cases hb : bodyLength? marker rest with
  | none => rfl
  | some n =>
    obtain ⟨hn, -⟩ := List.findIdx?_eq_some_iff_getElem.mp hb
    exact List.drop_append_of_le_length hn

theorem not_mem_markers_behindBody {marker : Nat} {rest : List SnippetToken}
    (h : (markers rest).count marker ≤ 1) : marker ∉ markers (behindBody marker rest) := by
  unfold behindBody
  cases hb : bodyLength? marker rest with
  | none =>
    intro hm
    obtain ⟨token, ht, hm⟩ := List.mem_filterMap.mp hm
    have := List.findIdx?_eq_none_iff.mp hb token ht
    simp [hm] at this
  | some n =>
    obtain ⟨hn, hmark, -⟩ := List.findIdx?_eq_some_iff_getElem.mp hb
    have hsplit : rest = rest.take n ++ rest[n] :: rest.drop (n + 1) := by
      rw [← List.drop_eq_getElem_cons hn, List.take_append_drop]
    have hcons : markers (rest[n] :: rest.drop (n + 1)) = marker :: markers (rest.drop (n + 1)) :=
      List.filterMap_cons_some (by simpa using hmark)
    rw [hsplit, markers_append, hcons, List.count_append, List.count_cons_self] at h
    exact List.count_eq_zero.mp (show (markers (rest.drop (n + 1))).count marker = 0 by omega)

/-! ## Copies of defaults -/

/-- Whether a token stays where these tabstops are open. -/
def keeps (opened : List Nat) : SnippetToken → Bool
  | .tabstop t => !opened.contains t.id
  | _ => true

/-- The token of a copy. Choices and transforms are not copied. -/
def remarked (f : Nat → Nat) : SnippetToken → SnippetToken
  | .tabstop t => .tabstop { marker := f t.marker, id := t.id }
  | token => token

/-- A copy under markers counted from `next`, in the order in which they first stand there. -/
def renumbered (next : Nat) (tokens : List SnippetToken) : List SnippetToken :=
  tokens.map (remarked fun m => next + (markers tokens).eraseDups.idxOf m)

/-- What an occurrence of a tabstop holds where these are open, itself among them. -/
def Default.value (transform : Transform → String → String) (t : TabstopMark) (opened : List Nat) (next : Nat) :
    Default → List SnippetToken × Nat
  | .none => ([], next)
  | .text s =>
    match t.transform with
    | some f => ([.text (transform f s)], next)
    | .none => ([.text s], next)
  | .nested body =>
    let kept := body.filter (keeps opened)
    (renumbered next kept, next + (markers kept).eraseDups.length)

section
variable {opened : List Nat} {rest : List SnippetToken} {t : TabstopMark}

@[simp] theorem filter_keeps_text (s : String) :
    (SnippetToken.text s :: rest).filter (keeps opened) = .text s :: rest.filter (keeps opened) := rfl

theorem filter_keeps_of_mem (h : t.id ∈ opened) :
    (SnippetToken.tabstop t :: rest).filter (keeps opened) = rest.filter (keeps opened) :=
  List.filter_cons_of_neg (by simp [keeps, h])

theorem filter_keeps_of_not_mem (h : t.id ∉ opened) :
    (SnippetToken.tabstop t :: rest).filter (keeps opened) = .tabstop t :: rest.filter (keeps opened) :=
  List.filter_cons_of_pos (by simp [keeps, h])

end

theorem lookup_cons_eq (renamed : List (Nat × Nat)) (k n m : Nat) :
    ((k, n) :: renamed).lookup m = if m = k then some n else renamed.lookup m := by
  by_cases hm : m = k
  · simp [hm]
  · rw [Walk.lookup_cons_of_ne n renamed hm, if_neg hm]

theorem filter_lookup_cons (renamed : List (Nat × Nat)) (k n : Nat) (ms : List Nat) :
    (ms.filter fun m => (((k, n) :: renamed).lookup m).isNone) =
      (ms.filter fun m => (renamed.lookup m).isNone).filter fun m => !m == k := by
  rw [List.filter_filter]
  refine List.filter_congr fun m _ => ?_
  rw [lookup_cons_eq]
  by_cases hm : m = k <;> simp [hm]

/-- The markers that have no new one yet get the next ones. -/
theorem copyDefault_eq (opened : List Nat) : ∀ (tokens : List SnippetToken) (renamed : List (Nat × Nat)) (next : Nat),
    (∀ v, .var v ∉ tokens) →
    let kept := tokens.filter (keeps opened)
    let new := ((markers kept).filter fun m => (renamed.lookup m).isNone).eraseDups
    copyDefault opened renamed next tokens =
      (kept.map (remarked fun m => (renamed.lookup m).getD (next + new.idxOf m)), next + new.length)
  | [], _, _, _ => rfl
  | .text s :: rest, renamed, next, hv => by
    have ih := copyDefault_eq opened rest renamed next fun v h => hv v (List.mem_cons_of_mem _ h)
    simp only [copyDefault, ih, filter_keeps_text, markers_text, List.map_cons]
    rfl
  | .var v :: rest, _, _, hv => absurd List.mem_cons_self (hv v)
  | .tabstop t :: rest, renamed, next, hv => by
    have hv' : ∀ v, .var v ∉ rest := fun v h => hv v (List.mem_cons_of_mem _ h)
    by_cases hid : t.id ∈ opened
    · rw [filter_keeps_of_mem hid, copyDefault, if_pos (by simpa using hid)]
      exact copyDefault_eq opened rest renamed next hv'
    · rw [filter_keeps_of_not_mem hid, copyDefault, if_neg (by simpa using hid)]
      cases hl : renamed.lookup t.marker with
      | some marker =>
        have ih := copyDefault_eq opened rest renamed next hv'
        simp only [ih, markers_tabstop, List.filter_cons, hl, Option.isNone_some, Bool.false_eq_true, if_false,
          List.map_cons]
        simp [remarked, hl]
      | none =>
        have ih := copyDefault_eq opened rest ((t.marker, next) :: renamed) (next + 1) hv'
        dsimp only at ih ⊢
        rw [filter_lookup_cons] at ih
        rw [ih, markers_tabstop, List.filter_cons_of_pos (by simp [hl]), List.eraseDups_cons]
        generalize ((((markers (rest.filter (keeps opened))).filter fun m => (renamed.lookup m).isNone).filter
          fun m => !m == t.marker).eraseDups) = new
        have hf : (fun m => (((t.marker, next) :: renamed).lookup m).getD (next + 1 + new.idxOf m)) =
            fun m => (renamed.lookup m).getD (next + (t.marker :: new).idxOf m) := by
          funext m
          rw [lookup_cons_eq]
          by_cases hm : m = t.marker
          · simp [hm, hl]
          · rw [if_neg hm, List.idxOf_cons_ne new (Ne.symm hm), Nat.succ_eq_add_one]
            congr 1
            omega
        rw [hf, List.map_cons, List.length_cons, Nat.add_right_comm next, Nat.add_assoc next]
        simp [remarked, hl]

theorem content_eq (transform : Transform → String → String) {p : Placeholder}
    (hv : ∀ body, p.default = .nested body → ∀ v, .var v ∉ body) (t : TabstopMark) (opened : List Nat) (next : Nat) :
    content transform p t opened next = p.default.value transform t opened next := by
  unfold content Default.value
  cases hd : p.default with
  | none => rfl
  | text s => cases t.transform <;> rfl
  | nested body =>
    dsimp only
    rw [copyDefault_eq opened body [] next (hv body hd)]
    simp [renumbered]

section
variable {tokens : List SnippetToken} {next : Nat}

theorem markers_map_remarked (hv : ∀ v, .var v ∉ tokens) (f : Nat → Nat) :
    markers (tokens.map (remarked f)) = (markers tokens).map f := by
  unfold markers
  rw [List.filterMap_map, List.map_filterMap]
  refine List.filterMap_congr fun token ht => ?_
  cases token with
  | text s => rfl
  | tabstop t => rfl
  | var v => exact absurd ht (hv v)

theorem mem_renumbered {u : TabstopMark} (h : .tabstop u ∈ renumbered next tokens) :
    ∃ t, .tabstop t ∈ tokens ∧ t.id = u.id := by
  obtain ⟨token, ht, he⟩ := List.mem_map.mp h
  cases token with
  | text s => cases he
  | var v => cases he
  | tabstop t =>
    cases he
    exact ⟨t, ht, rfl⟩

theorem not_var_mem_renumbered (hv : ∀ v, .var v ∉ tokens) : ∀ v, .var v ∉ renumbered next tokens := by
  intro v h
  obtain ⟨token, ht, he⟩ := List.mem_map.mp h
  cases token with
  | text s => cases he
  | tabstop t => cases he
  | var w => exact hv w ht

theorem markers_renumbered_bounds (next : Nat) (hv : ∀ v, .var v ∉ tokens) : ∀ m ∈ markers (renumbered next tokens),
    next ≤ m ∧ m < next + (markers tokens).eraseDups.length := by
  intro m hm
  rw [renumbered, markers_map_remarked hv] at hm
  obtain ⟨k, hk, rfl⟩ := List.mem_map.mp hm
  have := List.idxOf_lt_length_iff.mpr (List.mem_eraseDups.mpr hk)
  omega

/-- No two markers get the same new one. -/
theorem count_markers_renumbered (hv : ∀ v, .var v ∉ tokens) {n : Nat} (hn : ∀ m, (markers tokens).count m ≤ n)
    (m : Nat) : (markers (renumbered next tokens)).count m ≤ n := by
  rw [renumbered, markers_map_remarked hv]
  generalize markers tokens = ms at hn
  by_cases hm : m ∈ ms.map fun k => next + ms.eraseDups.idxOf k
  · obtain ⟨k, hk, rfl⟩ := List.mem_map.mp hm
    rw [List.count, List.countP_map]
    refine Nat.le_trans (Nat.le_of_eq (List.countP_congr fun k' hk' => ?_)) (hn k)
    have := List.idxOf_inj (List.mem_eraseDups.mpr hk') (y := k)
    simp only [Function.comp, beq_iff_eq, Nat.add_left_cancel_iff, this]
  · rw [List.count_eq_zero.mpr hm]
    exact Nat.zero_le n

end

/-! ## The recursion -/

/-- The placeholder of a tabstop that may be opened. -/
def closed? (found : Dict Nat Placeholder) (opened : List Nat) (id : Nat) : Option Placeholder :=
  if id ∈ opened then none else found.get? id

theorem closed?_eq_some {found : Dict Nat Placeholder} {opened : List Nat} {id : Nat} {p : Placeholder} :
    closed? found opened id = some p ↔ id ∉ opened ∧ found.get? id = some p := by
  unfold closed?
  split <;> simp_all

section
variable (found : Dict Nat Placeholder) (transform : Transform → String → String)

/-- The meaning of tokens where these tabstops are open. -/
def meaning (opened : List Nat) (next : Nat) : List SnippetToken → Filled
  | [] => { tokens := [], nextMarker := next }
  | .tabstop t :: rest =>
    match _h : closed? found opened t.id with
    | none => meaning opened next rest
    | some p =>
      let value := p.default.value transform t (t.id :: opened) next
      let inner := meaning (t.id :: opened) value.2 value.1
      let outer := meaning opened inner.nextMarker (behindBody t.marker rest)
      { tokens := .tabstop t :: inner.tokens ++ .tabstop t :: outer.tokens
        occurrences := ⟨t.id, t.marker, t.transform⟩ :: inner.occurrences ++ outer.occurrences
        closings := inner.closings ++ (t.id, opened) :: outer.closings
        nextMarker := outer.nextMarker }
  | token :: rest =>
    let after := meaning opened next rest
    { after with tokens := token :: after.tokens }
termination_by tokens => ((Walk.unopened found opened).length, tokens.length)
decreasing_by
  · exact .right _ (Nat.lt_succ_self _)
  · obtain ⟨hid, hp⟩ := closed?_eq_some.mp _h
    exact .left _ _ (Walk.length_unopened_cons hid hp)
  · exact .right _ (Nat.lt_succ_of_le (length_behindBody_le _ _))
  · exact .right _ (Nat.lt_succ_self _)

variable {opened : List Nat} {next : Nat}

theorem meaning_nil : meaning found transform opened next [] = { tokens := [], nextMarker := next } := by
  rw [meaning]

theorem meaning_text (s : String) (rest : List SnippetToken) :
    meaning found transform opened next (.text s :: rest) =
      { meaning found transform opened next rest with
        tokens := .text s :: (meaning found transform opened next rest).tokens } := by
  rw [meaning]
  intro t h
  cases h

variable {found} in
theorem meaning_tabstop {t : TabstopMark} {p : Placeholder} (hid : t.id ∉ opened) (hp : found.get? t.id = some p)
    (rest : List SnippetToken) :
    let value := p.default.value transform t (t.id :: opened) next
    let inner := meaning found transform (t.id :: opened) value.2 value.1
    let outer := meaning found transform opened inner.nextMarker (behindBody t.marker rest)
    meaning found transform opened next (.tabstop t :: rest) =
      { tokens := .tabstop t :: inner.tokens ++ .tabstop t :: outer.tokens
        occurrences := ⟨t.id, t.marker, t.transform⟩ :: inner.occurrences ++ outer.occurrences
        closings := inner.closings ++ (t.id, opened) :: outer.closings
        nextMarker := outer.nextMarker } := by
  rw [meaning]
  split
  · rename_i h
    rw [closed?_eq_some.mpr ⟨hid, hp⟩] at h
    cases h
  · rename_i q h
    rw [closed?_eq_some.mpr ⟨hid, hp⟩] at h
    cases h
    rfl

end

/-! ## Tokens that can be filled -/

/-- Each tabstop has its placeholder and is not open, and the markers are in use and stand at most twice. -/
structure Fillable (found : Dict Nat Placeholder) (opened : List Nat) (next : Nat) (tokens : List SnippetToken) :
    Prop where
  noVar : ∀ v, .var v ∉ tokens
  closed : ∀ t, .tabstop t ∈ tokens → t.id ∉ opened
  known : ∀ t, .tabstop t ∈ tokens → ∃ p, found.get? t.id = some p
  lt : ∀ m ∈ markers tokens, m < next
  paired : ∀ m, (markers tokens).count m ≤ 2

theorem Fillable.sublist {found : Dict Nat Placeholder} {opened : List Nat} {next next' : Nat}
    {tokens tokens' : List SnippetToken} (h : Fillable found opened next tokens) (hs : tokens'.Sublist tokens)
    (hn : next ≤ next') : Fillable found opened next' tokens' where
  noVar v hv := h.noVar v (hs.subset hv)
  closed t ht := h.closed t (hs.subset ht)
  known t ht := h.known t (hs.subset ht)
  lt m hm := Nat.lt_of_lt_of_le (h.lt m ((hs.filterMap _).subset hm)) hn
  paired m := Nat.le_trans ((hs.filterMap _).count_le m) (h.paired m)

/-- The defaults could be filled wherever no tabstop is open. -/
def SoundDefaults (found : Dict Nat Placeholder) : Prop :=
  ∀ id p body, found.get? id = some p → p.default = .nested body → ∃ next, Fillable found [] next body

section
variable {found : Dict Nat Placeholder} (hd : SoundDefaults found) (transform : Transform → String → String)
include hd

theorem fillable_value {id : Nat} {p : Placeholder} (hp : found.get? id = some p) (t : TabstopMark)
    (opened : List Nat) (next : Nat) :
    Fillable found opened (p.default.value transform t opened next).2 (p.default.value transform t opened next).1 ∧
      next ≤ (p.default.value transform t opened next).2 ∧
      ∀ m ∈ markers (p.default.value transform t opened next).1, next ≤ m := by
  cases hb : p.default with
  | none => exact ⟨⟨by simp [Default.value], by simp [Default.value], by simp [Default.value], by simp [Default.value],
      by simp [Default.value]⟩, Nat.le_refl _, by simp [Default.value]⟩
  | text s =>
    have htext : ∃ s', (Default.text s).value transform t opened next = ([.text s'], next) := by
      unfold Default.value
      cases t.transform with
      | none => exact ⟨s, rfl⟩
      | some f => exact ⟨_, rfl⟩
    obtain ⟨s', hs⟩ := htext
    rw [hs]
    exact ⟨⟨by simp, by simp, by simp, by simp, by simp⟩, Nat.le_refl _, by simp⟩
  | nested body =>
    obtain ⟨_, hf⟩ := hd id p body hp hb
    have hsub : (body.filter (keeps opened)).Sublist body := List.filter_sublist
    have hv : ∀ v, .var v ∉ body.filter (keeps opened) := fun v h => hf.noVar v (hsub.subset h)
    have hbounds := markers_renumbered_bounds next hv
    refine ⟨⟨not_var_mem_renumbered hv, fun u hu => ?_, fun u hu => ?_, fun m hm => (hbounds m hm).2, ?_⟩,
      Nat.le_add_right _ _, fun m hm => (hbounds m hm).1⟩
    · obtain ⟨u', hu', he⟩ := mem_renumbered hu
      have := (List.mem_filter.mp hu').2
      rw [← he]
      simpa [keeps] using this
    · obtain ⟨u', hu', he⟩ := mem_renumbered hu
      exact he ▸ hf.known u' (hsub.subset hu')
    · exact count_markers_renumbered hv fun m => Nat.le_trans ((hsub.filterMap _).count_le m) (hf.paired m)

/-- Each level opens one more tabstop, and what stands behind an occurrence is shorter. -/
theorem Fillable.induct {motive : List Nat → Nat → List SnippetToken → Prop}
    (nil : ∀ opened next, motive opened next [])
    (text : ∀ opened next s rest, motive opened next rest → motive opened next (.text s :: rest))
    (tabstop : ∀ opened next t p rest, Fillable found opened next (.tabstop t :: rest) → found.get? t.id = some p →
      motive (t.id :: opened) (p.default.value transform t (t.id :: opened) next).2
        (p.default.value transform t (t.id :: opened) next).1 →
      (∀ next', next ≤ next' → motive opened next' (behindBody t.marker rest)) →
      motive opened next (.tabstop t :: rest))
    (opened : List Nat) (next : Nat) : ∀ tokens, Fillable found opened next tokens → motive opened next tokens
  | [], _ => nil opened next
  | .text s :: rest, h =>
    text opened next s rest
      (Fillable.induct nil text tabstop opened next rest (h.sublist (List.sublist_cons_self _ _) (Nat.le_refl _)))
  | .var v :: rest, h => absurd List.mem_cons_self (h.noVar v)
  | .tabstop t :: rest, h => by
    obtain ⟨p, hp⟩ := h.known t List.mem_cons_self
    have hid := h.closed t List.mem_cons_self
    have hless := Walk.length_unopened_cons hid hp
    refine tabstop opened next t p rest h hp ?_ fun next' hle => ?_
    · exact Fillable.induct nil text tabstop (t.id :: opened) _ _ (fillable_value hd transform hp t _ next).1
    · have hlen := length_behindBody_le t.marker rest
      exact Fillable.induct nil text tabstop opened next' _
        (h.sublist ((behindBody_sublist t.marker rest).cons _) hle)
termination_by tokens => ((Walk.unopened found opened).length, tokens.length)
decreasing_by
  · exact .right _ (Nat.lt_succ_self _)
  · exact .left _ _ hless
  · exact .right _ (Nat.lt_succ_of_le hlen)

theorem next_le_meaning {opened : List Nat} {next : Nat} {tokens : List SnippetToken}
    (h : Fillable found opened next tokens) : next ≤ (meaning found transform opened next tokens).nextMarker := by
  refine Fillable.induct hd transform
    (motive := fun opened next tokens => next ≤ (meaning found transform opened next tokens).nextMarker)
    (fun opened next => ?_) (fun opened next s rest ih => ?_) (fun opened next t p rest h hp ihi iho => ?_)
    opened next tokens h
  · exact Nat.le_of_eq (by rw [meaning_nil])
  · rwa [meaning_text]
  · rw [meaning_tabstop transform (h.closed t List.mem_cons_self) hp]
    have hle := Nat.le_trans (fillable_value hd transform hp t (t.id :: opened) next).2.1 ihi
    exact Nat.le_trans hle (iho _ hle)

theorem known_occurrences {opened : List Nat} {next : Nat} {tokens : List SnippetToken}
    (h : Fillable found opened next tokens) :
    ∀ o ∈ (meaning found transform opened next tokens).occurrences, ∃ p, found.get? o.id = some p := by
  refine Fillable.induct hd transform
    (motive := fun opened next tokens =>
      ∀ o ∈ (meaning found transform opened next tokens).occurrences, ∃ p, found.get? o.id = some p)
    (fun opened next o ho => ?_) (fun opened next s rest ih => ?_) (fun opened next t p rest h hp ihi iho => ?_)
    opened next tokens h
  · rw [meaning_nil] at ho
    cases ho
  · rwa [meaning_text]
  · rw [meaning_tabstop transform (h.closed t List.mem_cons_self) hp]
    obtain ⟨hvalue, hle, -⟩ := fillable_value hd transform hp t (t.id :: opened) next
    intro o ho
    rcases List.mem_append.mp ho with ho | ho
    · rcases List.mem_cons.mp ho with rfl | ho
      · exact ⟨p, hp⟩
      · exact ihi o ho
    · exact iho _ (Nat.le_trans hle (next_le_meaning hd transform hvalue)) o ho

end

/-! ## The walk -/

namespace Walk

section
variable (found : Dict Nat Placeholder) (transform : Transform → String → String)

def Reaches : Walk → Walk → Prop := Relation.ReflTransGen fun w w' => w.step found transform = some w'

variable {found transform}

theorem Reaches.run_eq {w last : Walk} (h : Reaches found transform w last)
    (hlast : last.step found transform = none) : w.run found transform = last := by
  induction h using Relation.ReflTransGen.head_induction_on with
  | refl =>
    rw [run]
    split
    · rfl
    · simp_all
  | head hstep _ ih =>
    rw [run]
    split
    · simp_all
    · rename_i h
      rw [hstep] at h
      cases h
      exact ih

end

/-- The walk where an occurrence has opened that holds `value`; `after` follows it. -/
def enter (w : Walk) (t : TabstopMark) (value : List SnippetToken × Nat) (after : List SnippetToken) : Walk :=
  { w with
    passed := .tabstop t :: w.passed
    ahead := value.1 ++ .tabstop t :: after
    opened := (t.id, t.marker) :: w.opened
    occurrences := ⟨t.id, t.marker, t.transform⟩ :: w.occurrences
    nextMarker := value.2 }

/-- The walk where an occurrence has closed in which these tabstops are open. -/
def leave (w : Walk) (t : TabstopMark) (opened : List (Nat × Nat)) (after : List SnippetToken) : Walk :=
  { w with
    passed := .tabstop t :: w.passed
    ahead := after
    opened
    closings := (t.id, opened.map (·.1)) :: w.closings }

/-- The walk with these tokens behind it. -/
def behind (w : Walk) (f : Filled) (tail : List SnippetToken) : Walk :=
  { w with
    passed := f.tokens.reverse ++ w.passed
    ahead := tail
    occurrences := f.occurrences.reverse ++ w.occurrences
    closings := f.closings.reverse ++ w.closings
    nextMarker := f.nextMarker }

section
variable {found : Dict Nat Placeholder} {transform : Transform → String → String} {w : Walk}
  {rest : List SnippetToken}

theorem step_text {s : String} (h : w.ahead = .text s :: rest) :
    w.step found transform = some { w with passed := .text s :: w.passed, ahead := rest } := by
  unfold step
  rw [h]

variable {t : TabstopMark}

theorem step_open {p : Placeholder} (h : w.ahead = .tabstop t :: rest) (hid : t.id ∉ w.opened.map (·.1))
    (hp : found.get? t.id = some p) (hv : ∀ body, p.default = .nested body → ∀ v, .var v ∉ body) :
    w.step found transform =
      some (w.enter t (p.default.value transform t (t.id :: w.opened.map (·.1)) w.nextMarker)
        (behindBody t.marker rest)) := by
  unfold step enter
  rw [h]
  simp only [lookup_eq_none_iff.mpr hid, hp, content_eq transform hv, List.map_cons]

theorem step_close (h : w.ahead = .tabstop t :: rest) {opened : List (Nat × Nat)}
    (ho : w.opened = (t.id, t.marker) :: opened) (hid : t.id ∉ opened.map (·.1)) :
    w.step found transform = some (w.leave t opened rest) := by
  have hfilter : w.opened.filter (·.1 != t.id) = opened := by
    rw [ho, List.filter_cons_of_neg (by simp)]
    refine List.filter_eq_self.mpr fun e he => ?_
    have : e.1 ≠ t.id := fun heq => hid (heq ▸ List.mem_map_of_mem he)
    simpa using this
  have hlookup : w.opened.lookup t.id = some t.marker := by simp [ho]
  unfold step leave
  rw [h]
  simp only [hlookup, if_true, hfilter]

theorem behind_field (w : Walk) (t : TabstopMark) (value : List SnippetToken × Nat) (inner outer : Filled)
    (after tail : List SnippetToken) :
    (((w.enter t value after).behind inner (.tabstop t :: after)).leave t w.opened after).behind outer tail =
      w.behind
        { tokens := .tabstop t :: inner.tokens ++ .tabstop t :: outer.tokens
          occurrences := ⟨t.id, t.marker, t.transform⟩ :: inner.occurrences ++ outer.occurrences
          closings := inner.closings ++ (t.id, w.opened.map (·.1)) :: outer.closings
          nextMarker := outer.nextMarker } tail := by
  simp [behind, enter, leave]

end

/-- In the place of these tokens stands what they mean, whatever follows them. -/
def GoesThrough (found : Dict Nat Placeholder) (transform : Transform → String → String) (opened : List Nat)
    (next : Nat) (tokens : List SnippetToken) : Prop :=
  ∀ (w : Walk) (tail : List SnippetToken), w.ahead = tokens ++ tail → w.opened.map (·.1) = opened →
    w.nextMarker = next → (∀ m ∈ markers tail, m < next ∧ m ∉ markers tokens) →
    Reaches found transform w (w.behind (meaning found transform opened next tokens) tail)

section
variable {found : Dict Nat Placeholder} {transform : Transform → String → String} {opened : List Nat} {next : Nat}
  {rest : List SnippetToken}

theorem goesThrough_nil : GoesThrough found transform opened next [] := by
  rintro ⟨⟩ tail rfl rfl rfl _
  rw [meaning_nil]
  exact .refl

theorem GoesThrough.text (h : GoesThrough found transform opened next rest) (s : String) :
    GoesThrough found transform opened next (.text s :: rest) := by
  intro w tail ha ho hn htail
  rw [List.cons_append] at ha
  have hrest := h { w with passed := .text s :: w.passed, ahead := rest ++ tail } tail rfl ho hn htail
  rw [meaning_text]
  refine Relation.ReflTransGen.head (step_text ha) ?_
  simpa only [Reaches, behind, List.reverse_cons, List.append_assoc, List.singleton_append] using hrest

theorem GoesThrough.tabstop (hd : SoundDefaults found) {t : TabstopMark} {p : Placeholder}
    (hf : Fillable found opened next (.tabstop t :: rest)) (hp : found.get? t.id = some p)
    (hin : GoesThrough found transform (t.id :: opened) (p.default.value transform t (t.id :: opened) next).2
      (p.default.value transform t (t.id :: opened) next).1)
    (hout : ∀ next', next ≤ next' → GoesThrough found transform opened next' (behindBody t.marker rest)) :
    GoesThrough found transform opened next (.tabstop t :: rest) := by
  intro w tail ha ho hn htail
  rw [List.cons_append] at ha
  subst ho hn
  have hid := hf.closed t List.mem_cons_self
  have hmark : t.marker < w.nextMarker := hf.lt t.marker (by simp)
  have hsub : (behindBody t.marker rest).Sublist (.tabstop t :: rest) := (behindBody_sublist t.marker rest).cons _
  obtain ⟨hvalue, hle, hnew⟩ := fillable_value hd transform hp t (t.id :: w.opened.map (·.1)) w.nextMarker
  have hle' := Nat.le_trans hle (next_le_meaning hd transform hvalue)
  have hopen : w.step found transform = _ := step_open ha hid hp fun body hb =>
    (hd t.id p body hp hb).elim fun _ hf => hf.noVar
  rw [behindBody_append rest fun hm => (htail _ hm).2 (by simp)] at hopen
  rw [meaning_tabstop transform hid hp]
  generalize p.default.value transform t (t.id :: w.opened.map (·.1)) w.nextMarker = value at *
  generalize hafter : behindBody t.marker rest ++ tail = after at hopen
  -- All that follows the default has an older marker than its tokens.
  have hinner := hin (w.enter t value after) (.tabstop t :: after) rfl rfl rfl fun m hm => by
    have hlt : m < w.nextMarker := by
      rw [← hafter, markers_tabstop, markers_append] at hm
      rcases List.mem_cons.mp hm with rfl | hm
      · exact hmark
      · rcases List.mem_append.mp hm with hm | hm
        · exact hf.lt m ((hsub.filterMap _).subset hm)
        · exact (htail m hm).1
    exact ⟨Nat.lt_of_lt_of_le hlt hle, fun hmem => absurd (hnew m hmem) (Nat.not_le_of_lt hlt)⟩
  generalize meaning found transform (t.id :: w.opened.map (·.1)) value.2 value.1 = inner at *
  have hclose : ((w.enter t value after).behind inner (.tabstop t :: after)).step found transform = _ :=
    step_close rfl rfl hid
  have houter := hout inner.nextMarker hle'
    (((w.enter t value after).behind inner (.tabstop t :: after)).leave t w.opened after) tail hafter.symm rfl rfl
    fun m hm => ⟨Nat.lt_of_lt_of_le (htail m hm).1 hle', fun hmem => (htail m hm).2 ((hsub.filterMap _).subset hmem)⟩
  rw [behind_field] at houter
  exact .head hopen (hinner.trans (.head hclose houter))

end

theorem goesThrough_of_fillable {found : Dict Nat Placeholder} (hd : SoundDefaults found)
    (transform : Transform → String → String) {opened : List Nat} {next : Nat} {tokens : List SnippetToken}
    (h : Fillable found opened next tokens) : GoesThrough found transform opened next tokens :=
  Fillable.induct hd transform (fun _ _ => goesThrough_nil) (fun _ _ s _ ih => ih.text s)
    (fun _ _ _ _ _ hf hp hin hout => .tabstop hd hf hp hin hout) opened next tokens h

end Walk

/-! ## Collecting -/

theorem get?_insert (d : Dict Nat Placeholder) (id id' : Nat) (p : Placeholder) :
    (d.insert id p).get? id' = if id' = id then some p else d.get? id' :=
  Dict.get?_insert Nat.lt_irrefl (fun a b hab hba => by omega) d id id' p

theorem note_default {p : Placeholder} {t : TabstopMark} {rest body : List SnippetToken}
    (h : (p.note t rest).default = .nested body) :
    (∃ n, bodyLength? t.marker rest = some n ∧ body = rest.take n) ∨ p.default = .nested body := by
  unfold Placeholder.note at h
  dsimp only at h
  split at h
  · rename_i n hn
    unfold Placeholder.withBody at h
    split at h
    · dsimp only at h
      split at h
      · cases h
        exact .inl ⟨n, hn, rfl⟩
      · exact .inr h
    · split at h
      · exact .inr h
      · dsimp only at h
        split at h
        · exact .inr h
        · cases h
  · exact .inr h

theorem known_collect {tokens : List SnippetToken} {found : Dict Nat Placeholder} {met : List Nat} {id : Nat}
    (h : ∃ p, found.get? id = some p) : ∃ p, (collect found met tokens).get? id = some p := by
  fun_induction collect found met tokens with
  | case1 => exact h
  | case2 _ _ _ _ _ ih => exact ih h
  | case3 found met t rest _ p ih =>
    refine ih ?_
    rw [get?_insert]
    split
    · exact ⟨_, rfl⟩
    · exact h
  | case4 _ _ _ _ _ ih => exact ih h

theorem known_of_mem_collect {tokens : List SnippetToken} {found : Dict Nat Placeholder} {met : List Nat}
    (hw : WellMarked (labels tokens))
    (hk : ∀ t, .tabstop t ∈ tokens → t.marker ∈ met → ∃ p, found.get? t.id = some p) {t : TabstopMark}
    (ht : .tabstop t ∈ tokens) : ∃ p, (collect found met tokens).get? t.id = some p := by
  fun_induction collect found met tokens with
  | case1 => cases ht
  | case2 found met u rest hmet ih =>
    rcases List.mem_cons.mp ht with ht | ht
    · cases ht
      exact known_collect (hk t List.mem_cons_self (by simpa using hmet))
    · exact ih (hw.sublist ((List.sublist_cons_self _ _).filterMap _))
        (fun v hv => hk v (List.mem_cons_of_mem _ hv)) ht
  | case4 found met token rest hno ih =>
    exact ih (hw.sublist ((List.sublist_cons_self _ _).filterMap _))
        (fun v hv => hk v (List.mem_cons_of_mem _ hv)) ((List.mem_cons.mp ht).resolve_left fun he => hno t he.symm)
  | case3 found met u rest hmet p ih =>
    rcases List.mem_cons.mp ht with ht | ht
    · cases ht
      exact known_collect ⟨p, by rw [get?_insert, if_pos rfl]⟩
    · refine ih (hw.sublist ((List.sublist_cons_self _ _).filterMap _)) (fun v hv hm => ?_) ht
      rw [get?_insert]
      split
      · exact ⟨_, rfl⟩
      · rename_i hne
        rcases List.mem_cons.mp hm with hm | hm
        · have hl : (v.marker, some v.id) ∈ labels (.tabstop u :: rest) :=
            List.mem_cons_of_mem _ (List.mem_filterMap.mpr ⟨_, hv, rfl⟩)
          have := hw.same _ hl (u.marker, some u.id) List.mem_cons_self hm
          simp only [Prod.mk.injEq, Option.some.injEq] at this
          exact absurd this.2 hne
        · exact hk v (List.mem_cons_of_mem _ hv) hm

/-- A default with tabstops in it is the body of a placeholder. -/
theorem default_collect {tokens : List SnippetToken} {found : Dict Nat Placeholder} {met : List Nat}
    {id : Nat} {p : Placeholder} {body : List SnippetToken} (h : (collect found met tokens).get? id = some p)
    (hb : p.default = .nested body) :
    (∃ front t rest n, tokens = front ++ .tabstop t :: rest ∧ t.id = id ∧ bodyLength? t.marker rest = some n ∧
      body = rest.take n) ∨ ∃ p', found.get? id = some p' ∧ p'.default = .nested body := by
  have hcons : ∀ (token : SnippetToken) (rest : List SnippetToken), (∃ front t rest' n,
      rest = front ++ .tabstop t :: rest' ∧ t.id = id ∧ bodyLength? t.marker rest' = some n ∧ body = rest'.take n) →
      ∃ front t rest' n, token :: rest = front ++ .tabstop t :: rest' ∧ t.id = id ∧
        bodyLength? t.marker rest' = some n ∧ body = rest'.take n := by
    rintro token _ ⟨front, t, rest, n, rfl, hrest⟩
    exact ⟨token :: front, t, rest, n, rfl, hrest⟩
  fun_induction collect found met tokens with
  | case1 => exact .inr ⟨p, h, hb⟩
  | case2 found met t rest _ ih => exact (ih h).imp_left (hcons _ _)
  | case4 found met token rest _ ih => exact (ih h).imp_left (hcons _ _)
  | case3 found met t rest _ q ih =>
    rcases ih h with hs | ⟨p', hp', hb'⟩
    · exact .inl (hcons _ _ hs)
    · rw [get?_insert] at hp'
      split at hp'
      · cases hp'
        rename_i hid
        rcases note_default hb' with ⟨n, hn, he⟩ | hb'
        · exact .inl ⟨[], t, rest, n, rfl, hid.symm, hn, he⟩
        · right
          cases hg : found.get? t.id with
          | none => rw [hg] at hb'; cases hb'
          | some p' => exact ⟨p', hid ▸ hg, by rw [hg] at hb'; exact hb'⟩
      · exact .inr ⟨p', hp', hb'⟩

theorem lt_foldl_marker : ∀ (tokens : List SnippetToken) (n : Nat),
    let last := tokens.foldl (fun n t => max n ((t.marker?.map (· + 1)).getD 0)) n
    n ≤ last ∧ ∀ m ∈ markers tokens, m < last
  | [], n => ⟨Nat.le_refl n, fun m hm => by cases hm⟩
  | token :: rest, n => by
    intro last
    obtain ⟨hle, hlt⟩ := lt_foldl_marker rest (max n ((token.marker?.map (· + 1)).getD 0))
    refine ⟨Nat.le_trans (Nat.le_max_left _ _) hle, fun m hm => ?_⟩
    obtain ⟨token', ht, hmark⟩ := List.mem_filterMap.mp hm
    rcases List.mem_cons.mp ht with rfl | ht
    · have hmax : m + 1 ≤ max n ((token'.marker?.map (· + 1)).getD 0) := by
        rw [hmark]
        exact Nat.le_max_right _ _
      exact Nat.lt_of_lt_of_le hmax hle
    · exact hlt m (List.mem_filterMap.mpr ⟨token', ht, hmark⟩)

theorem lt_freshMarker (tokens : List SnippetToken) : ∀ m ∈ markers tokens, m < freshMarker tokens :=
  (lt_foldl_marker tokens 0).2

section
variable {tokens : List SnippetToken} (hw : WellMarked (labels tokens)) (hv : ∀ v, .var v ∉ tokens)
include hw hv

theorem fillable_collect : Fillable (collect Dict.empty [] tokens) [] (freshMarker tokens) tokens where
  noVar := hv
  closed _ _ := List.not_mem_nil
  known _ := known_of_mem_collect hw fun _ _ hm => absurd hm List.not_mem_nil
  lt := lt_freshMarker tokens
  paired m := markers_eq tokens ▸ hw.paired m

theorem soundDefaults_collect : SoundDefaults (collect Dict.empty [] tokens) := by
  intro id p body hp hb
  rcases default_collect hp hb with ⟨front, t, rest, n, he, -, -, rfl⟩ | ⟨p', hp', -⟩
  · have hs : (rest.take n).Sublist tokens :=
      he ▸ ((List.take_sublist n rest).trans (List.sublist_cons_self _ _)).trans (List.sublist_append_right _ _)
    exact ⟨_, (fillable_collect hw hv).sublist hs (Nat.le_refl _)⟩
  · cases hp'

/-- The walk comes to an end, and leaves behind what the tokens mean. -/
theorem reaches_instantiate (transform : Transform → String → String) :
    ∃ last, Walk.Reaches (collect Dict.empty [] tokens) transform (Walk.start tokens) last ∧ last.ahead = [] ∧
      last.filled = instantiate (collect Dict.empty [] tokens) transform tokens ∧
      last.filled = meaning (collect Dict.empty [] tokens) transform [] (freshMarker tokens) tokens := by
  have hreach := Walk.goesThrough_of_fillable (soundDefaults_collect hw hv) transform (fillable_collect hw hv)
    (Walk.start tokens) [] (List.append_nil tokens).symm rfl rfl fun m hm => (by cases hm)
  refine ⟨_, hreach, rfl, ?_, ?_⟩
  · rw [instantiate, hreach.run_eq rfl]
  · simp [Walk.filled, Walk.behind, Walk.start]

theorem instantiate_eq_meaning (transform : Transform → String → String) :
    instantiate (collect Dict.empty [] tokens) transform tokens =
      meaning (collect Dict.empty [] tokens) transform [] (freshMarker tokens) tokens := by
  obtain ⟨last, -, -, hfilled, hmeaning⟩ := reaches_instantiate hw hv transform
  exact hfilled.symm.trans hmeaning

end

end Expansion

end Scribe
