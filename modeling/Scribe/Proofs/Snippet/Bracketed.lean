import Scribe.Proofs.Snippet.RoundTrip
import Scribe.Proofs.Snippet.Tree

/-!
# The brackets of a parsed snippet

The tokens of a placeholder stand around its body like brackets. However malformed the source, a marker stands once
or twice, both times as the same token, no two pairs cross, and the markers count the placeholders in the order in
which they begin. Between the marks there is one text or none, and it is not empty.
-/

namespace Scribe

open Expansion (markers markers_append)

/-- The two tokens of a placeholder are a pair of brackets. -/
structure WellBracketed (tokens : List SnippetToken) : Prop where
  twice : ∀ m, (markers tokens).count m ≤ 2
  alike : ∀ t ∈ tokens, ∀ u ∈ tokens, ∀ m, t.marker? = some m → u.marker? = some m → t = u
  uncrossed : ∀ m n, ¬[m, n, m, n].Sublist (markers tokens)
  /-- A marker that stands for the first time is greater than all before it. -/
  ascending : ∀ front t behind m, tokens = front ++ t :: behind → t.marker? = some m → m ∉ markers front →
    ∀ n ∈ markers front, n < m
  texts_ne : ∀ s, .text s ∈ tokens → s ≠ ""
  texts_apart : ∀ front s t behind, tokens ≠ front ++ .text s :: .text t :: behind

/-! ## Pairs -/

section
variable {xs ys : List Nat}

/-- In a row of two lists that share nothing, marks cross within one of them only. -/
theorem uncrossed_append (hx : ∀ m n, ¬[m, n, m, n].Sublist xs) (hy : ∀ m n, ¬[m, n, m, n].Sublist ys)
    (hd : ∀ m ∈ xs, m ∉ ys) (m n : Nat) : ¬[m, n, m, n].Sublist (xs ++ ys) := by
  intro h
  obtain ⟨us, vs, he, hu, hv⟩ := List.sublist_append_iff.mp h
  match us, vs, he with
  | [], _, rfl => exact hy m n hv
  | [_], _, rfl => exact hd m (hu.subset (by simp)) (hv.subset (by simp))
  | [_, _], _, rfl => exact hd m (hu.subset (by simp)) (hv.subset (by simp))
  | [_, _, _], _, rfl => exact hd n (hu.subset (by simp)) (hv.subset (by simp))
  | [_, _, _, _], [], rfl => exact hx m n hu

theorem uncrossed_cons {k : Nat} (hx : ∀ m n, ¬[m, n, m, n].Sublist xs) (hk : k ∉ xs) (m n : Nat) :
    ¬[m, n, m, n].Sublist (k :: xs) := by
  intro h
  cases h with
  | cons _ h => exact hx m n h
  | cons_cons _ h => exact hk (h.subset (by simp))

/-- A pair around a body crosses nothing that stands in the body or behind it. -/
theorem uncrossed_around {k : Nat} (hx : ∀ m n, ¬[m, n, m, n].Sublist xs) (hy : ∀ m n, ¬[m, n, m, n].Sublist ys)
    (hkx : k ∉ xs) (hky : k ∉ ys) (hd : ∀ m ∈ xs, m ∉ ys) (m n : Nat) :
    ¬[m, n, m, n].Sublist (k :: (xs ++ k :: ys)) := by
  have hrest : ∀ m n, ¬[m, n, m, n].Sublist (xs ++ k :: ys) :=
    uncrossed_append hx (uncrossed_cons hy hky) fun m hm => by
      rw [List.mem_cons, not_or]
      exact ⟨fun hmk => hkx (hmk ▸ hm), hd m hm⟩
  intro h
  cases h with
  | cons _ h => exact hrest m n h
  | cons_cons _ h =>
    -- What stands between the two tokens of `k` would stand behind them too.
    obtain ⟨us, vs, he, hu, hv⟩ := List.sublist_append_iff.mp h
    match us, vs, he with
    | [], _, rfl =>
      cases hv with
      | cons _ hv => exact hky (hv.subset (by simp))
      | cons_cons _ hv => exact hky (hv.subset (by simp))
    | [_], _, rfl =>
      have hn : n ∈ xs := hu.subset (by simp)
      cases hv with
      | cons _ hv => exact hky (hv.subset (by simp))
      | cons_cons _ hv => exact hd n hn (hv.subset (by simp))
    | [_, _], _, rfl => exact hkx (hu.subset (by simp))
    | [_, _, _], _, rfl => exact hkx (hu.subset (by simp))

end

namespace SnippetTree

/-- What stands at each `$`. -/
def placed : SnippetTree → List SnippetMark
  | nil => []
  | text _ rest => rest.placed
  | alone mark rest => mark :: rest.placed
  | around mark body rest => mark :: (body.placed ++ rest.placed)

theorem map_placed (tree : SnippetTree) : tree.placed.map (·.marker) = tree.marks := by
  induction tree with
  | nil => rfl
  | text s rest ih => exact ih
  | alone mark rest ih => simp [placed, marks, ih]
  | around mark body rest ihb ihr => simp [placed, marks, ihb, ihr]

theorem mem_placed {tree : SnippetTree} {t : SnippetToken} {m : Nat} (h : t ∈ tree.tokens) (hm : t.marker? = some m) :
    ∃ mark ∈ tree.placed, t = mark.token := by
  induction tree with
  | nil => cases h
  | text s rest ih =>
    rcases List.mem_cons.mp h with rfl | h
    · cases hm
    · exact ih h
  | alone mark rest ih =>
    rcases List.mem_cons.mp h with rfl | h
    · exact ⟨mark, by simp [placed], rfl⟩
    · obtain ⟨mark', hmem, ht⟩ := ih h
      exact ⟨mark', List.mem_cons_of_mem _ hmem, ht⟩
  | around mark body rest ihb ihr =>
    simp only [tokens, List.mem_cons, List.mem_append] at h
    rcases h with rfl | h | rfl | h
    · exact ⟨mark, by simp [placed], rfl⟩
    · obtain ⟨mark', hmem, ht⟩ := ihb h
      exact ⟨mark', by simp [placed, hmem], ht⟩
    · exact ⟨mark, by simp [placed], rfl⟩
    · obtain ⟨mark', hmem, ht⟩ := ihr h
      exact ⟨mark', by simp [placed, hmem], ht⟩

variable {tree : SnippetTree}

theorem count_markers_le (tree : SnippetTree) (m : Nat) : (markers tree.tokens).count m ≤ 2 * tree.marks.count m := by
  induction tree with
  | nil => simp [tokens]
  | text s rest ih => exact ih
  | alone mark rest ih =>
    simp only [tokens, marks, SnippetMark.markers_token, List.count_cons]
    omega
  | around mark body rest ihb ihr =>
    simp only [tokens, marks, SnippetMark.markers_token, markers_append, List.count_cons, List.count_append]
    omega

theorem eq_of_marker? (hn : tree.marks.Nodup) {t u : SnippetToken} (ht : t ∈ tree.tokens) (hu : u ∈ tree.tokens) {m : Nat}
    (htm : t.marker? = some m) (hum : u.marker? = some m) : t = u := by
  obtain ⟨a, ha, rfl⟩ := mem_placed ht htm
  obtain ⟨b, hb, rfl⟩ := mem_placed hu hum
  have hmarker (mark : SnippetMark) : mark.token.marker? = some mark.marker := by cases mark <;> rfl
  rw [← map_placed] at hn
  rw [hmarker] at htm hum
  rw [List.inj_on_of_nodup_map hn ha hb (Option.some.inj (htm.trans hum.symm))]

theorem uncrossed_tokens (hn : tree.marks.Nodup) : ∀ m n, ¬[m, n, m, n].Sublist (markers tree.tokens) := by
  induction tree with
  | nil => exact fun m n h => nomatch h
  | text s rest ih => exact ih hn
  | alone mark rest ih =>
    obtain ⟨hmark, hrest⟩ := List.nodup_cons.mp hn
    intro m n
    rw [tokens, SnippetMark.markers_token]
    exact uncrossed_cons (ih hrest) (fun h => hmark (mem_marks.mp h)) m n
  | around mark body rest ihb ihr =>
    obtain ⟨hmark, hparts⟩ := List.nodup_cons.mp hn
    obtain ⟨hbody, hrest, hd⟩ := List.nodup_append.mp hparts
    intro m n
    rw [tokens, SnippetMark.markers_token, markers_append, SnippetMark.markers_token]
    refine uncrossed_around (ihb hbody) (ihr hrest) ?_ ?_ ?_ m n
    · exact fun h => hmark (List.mem_append_left _ (mem_marks.mp h))
    · exact fun h => hmark (List.mem_append_right _ (mem_marks.mp h))
    · exact fun k hk hk' => hd k (mem_marks.mp hk) k (mem_marks.mp hk') rfl

end SnippetTree

/-! ## The order of the tokens -/

/-- A marker or a text. -/
abbrev SnippetToken.Shape := Nat ⊕ String

def SnippetToken.shape : SnippetToken → Shape
  | text s => .inr s
  | tabstop t => .inl t.marker
  | var v => .inl v.marker

open SnippetToken (Shape)

/-- Markers and texts as a parser writes them, the last one first; the marker `next` is not given yet. -/
inductive InOrder : List Shape → Nat → Prop
  | nil : InOrder [] 0
  | fresh {written : List Shape} {next : Nat} (h : InOrder written next) : InOrder (.inl next :: written) (next + 1)
  | again {written : List Shape} {next m : Nat} (h : InOrder written next) (hm : .inl m ∈ written) :
      InOrder (.inl m :: written) next
  | text {written : List Shape} {next : Nat} {s : String} (h : InOrder written next) (hs : s ≠ "")
      (hlast : ∀ t, written.head? ≠ some (.inr t)) : InOrder (.inr s :: written) next

namespace InOrder

variable {written : List Shape} {next : Nat}

theorem lt (h : InOrder written next) {m : Nat} (hm : .inl m ∈ written) : m < next := by
  induction h with
  | nil => cases hm
  | fresh _ ih =>
    rcases List.mem_cons.mp hm with he | hm
    · cases he
      exact Nat.lt_succ_self _
    · exact Nat.lt_succ_of_lt (ih hm)
  | again _ hagain ih =>
    rcases List.mem_cons.mp hm with he | hm
    · cases he
      exact ih hagain
    · exact ih hm
  | text _ _ _ ih =>
    rcases List.mem_cons.mp hm with he | hm
    · cases he
    · exact ih hm

/-- What was written at an earlier time. -/
theorem of_append : ∀ {later : List Shape} {next : Nat}, InOrder (later ++ written) next → ∃ next', InOrder written next'
  | [], next, h => ⟨next, h⟩
  | _ :: later, _, h => by
    cases h with
    | fresh h => exact of_append h
    | again h _ => exact of_append h
    | text h _ _ => exact of_append h

end InOrder

namespace SnippetToken

theorem shape_of_marker? {t : SnippetToken} {m : Nat} (h : t.marker? = some m) : t.shape = .inl m := by
  cases t with
  | text s => cases h
  | tabstop t => exact congrArg Sum.inl (Option.some.inj h)
  | var v => exact congrArg Sum.inl (Option.some.inj h)

theorem shape_eq_inl_iff {t : SnippetToken} {m : Nat} : t.shape = .inl m ↔ t.marker? = some m := by
  refine ⟨fun h => ?_, shape_of_marker?⟩
  cases t <;> cases h <;> rfl

theorem inl_mem_shapes {tokens : List SnippetToken} {m : Nat} :
    .inl m ∈ (tokens.map shape).reverse ↔ m ∈ markers tokens := by
  simp only [List.mem_reverse, List.mem_map, markers, List.mem_filterMap, shape_eq_inl_iff]

end SnippetToken

open SnippetToken (shape shape_of_marker? inl_mem_shapes)

namespace InOrder

variable {tokens front behind : List SnippetToken} {next : Nat}

/-- The token behind `front` was written when this was all. -/
theorem of_tokens {t : SnippetToken} (h : InOrder ((front ++ t :: behind).map shape).reverse next) :
    ∃ next', InOrder (t.shape :: (front.map shape).reverse) next' := by
  have hsplit : InOrder ((behind.map shape).reverse ++ t.shape :: (front.map shape).reverse) next := by simpa using h
  exact of_append hsplit

theorem ascending {t : SnippetToken} {m : Nat} (h : InOrder ((front ++ t :: behind).map shape).reverse next)
    (ht : t.marker? = some m) (hm : m ∉ markers front) : ∀ n ∈ markers front, n < m := by
  intro n hn
  obtain ⟨next', h⟩ := of_tokens h
  rw [shape_of_marker? ht] at h
  cases h with
  | fresh h => exact h.lt (inl_mem_shapes.mpr hn)
  | again _ hagain => exact absurd (inl_mem_shapes.mp hagain) hm

theorem text_ne {s : String} (h : InOrder (tokens.map shape).reverse next) (hs : .text s ∈ tokens) : s ≠ "" := by
  obtain ⟨front, behind, rfl⟩ := List.append_of_mem hs
  obtain ⟨next', h⟩ := of_tokens h
  cases h with
  | text _ hne _ => exact hne

theorem texts_apart {s t : String} (h : InOrder ((front ++ .text s :: .text t :: behind).map shape).reverse next) :
    False := by
  have hsplit : front ++ .text s :: .text t :: behind = (front ++ [.text s]) ++ .text t :: behind := by simp
  rw [hsplit] at h
  obtain ⟨next', h⟩ := of_tokens h
  cases h with
  | text _ _ hlast => exact hlast s (by simp [shape])

end InOrder

namespace SnippetParser

namespace State

/-- What is written so far, the last token first. -/
def shapes (st : State) : List Shape := (st.tokens.toList.map SnippetToken.shape).reverse

def Orderly (st : State) : Prop := InOrder st.shapes st.nextMarker

variable {st : State}

theorem shapes_push (t : SnippetToken) : (st.push t).shapes = t.shape :: st.shapes := by
  simp [shapes, push]

theorem shapes_modify {f : SnippetToken → SnippetToken} (hf : ∀ t, (f t).shape = t.shape) (k : Nat) :
    ({ st with tokens := st.tokens.modify k f } : State).shapes = st.shapes := by
  unfold shapes
  rw [Array.toList_modify]
  refine congrArg List.reverse (List.ext_getElem? fun i => ?_)
  rw [List.getElem?_map, List.getElem?_map, List.getElem?_modify]
  cases st.tokens.toList[i]? with
  | none => rfl
  | some t => by_cases hi : k = i <;> simp [hi, hf]

theorem nextMarker_pushText (s : String) : (st.pushText s).nextMarker = st.nextMarker := by
  unfold pushText
  split
  · rfl
  · split <;> rfl

theorem inOrder_pushText {next : Nat} (h : InOrder st.shapes next) (s : String) : InOrder (st.pushText s).shapes next := by
  by_cases hs : s = ""
  · simpa [pushText, hs] using h
  by_cases hend : st.EndsInText
  · obtain ⟨t, hback⟩ := hend
    rw [pushText_of_endsInText hback hs]
    have hlast : st.tokens.toList.getLast? = some (.text t) := by simpa using hback
    obtain ⟨front, hfront⟩ := List.getLast?_eq_some_iff.mp hlast
    have hshapes : st.shapes = .inr t :: (front.map SnippetToken.shape).reverse := by
      simp [shapes, hfront, SnippetToken.shape]
    rw [hshapes] at h
    cases h with
    | text h _ hbefore =>
      have hjoined : InOrder (.inr (t ++ s) :: (front.map SnippetToken.shape).reverse) next :=
        .text h (by simp [hs]) hbefore
      simpa [shapes, hfront, SnippetToken.shape] using hjoined
  · rw [pushText_of_not_endsInText hend hs, shapes_push]
    refine .text h hs fun t ht => hend ⟨t, ?_⟩
    rw [shapes, List.head?_reverse, List.getLast?_map] at ht
    obtain ⟨token, htoken, hshape⟩ := Option.map_eq_some_iff.mp ht
    cases token with
    | text u =>
      cases hshape
      simpa using htoken
    | tabstop t => cases hshape
    | var v => cases hshape

theorem orderly_pushReference (h : st.Orderly) (name : List Char) : (st.pushReference name).Orderly := by
  obtain ⟨mark, hmark, he⟩ := exists_pushReference st name
  have hshape : mark.token.shape = .inl st.nextMarker := by
    rw [← hmark]
    cases mark <;> rfl
  have hshapes : (st.pushReference name).shapes = .inl st.nextMarker :: st.shapes := by
    rw [he, ← hshape]
    exact shapes_push mark.token
  have hnext : (st.pushReference name).nextMarker = st.nextMarker + 1 := by rw [he]
  rw [Orderly, hshapes, hnext]
  exact .fresh h

theorem readsTree_modify (h : st.ReadsTree) {f : Frame} {rest : List Frame} (hf : st.frames = f :: rest) (t : Transform) :
    ({ st with tokens := st.tokens.modify f.token (SnippetToken.withTransform t) } : State).ReadsTree := by
  obtain ⟨opened, inner, h⟩ := h
  obtain ⟨o, opened, rfl⟩ := h.exists_cons hf
  exact ⟨_, _, h.modify hf (SnippetMark.token_withTransform t o.mark) (SnippetMark.marker_withTransform t o.mark)⟩

/-- The token that is written again when a placeholder closes is a mark. -/
theorem inOrder_again {f : Frame} {rest : List Frame} {opening : SnippetToken} (htree : st.ReadsTree) (h : st.Orderly)
    (hf : st.frames = f :: rest) (ho : st.tokens[f.token]? = some opening) :
    InOrder (opening.shape :: st.shapes) st.nextMarker := by
  obtain ⟨opened, inner, hreads⟩ := htree
  obtain ⟨o, opened, rfl⟩ := hreads.exists_cons hf
  cases (hreads.close hf).1.symm.trans ho
  have hshape : o.mark.token.shape = .inl o.mark.marker := by cases o.mark <;> rfl
  rw [hshape]
  refine .again h ?_
  rw [← hshape]
  have hmem := Array.mem_of_getElem? ho
  simpa [shapes] using ⟨_, hmem, rfl⟩

theorem orderly_close (htree : st.ReadsTree) (h : st.Orderly) (transform : Option Transform) :
    (st.close transform).Orderly := by
  unfold close
  split
  · exact h
  · rename_i f rest hf
    cases transform with
    | none =>
      dsimp only
      split
      · rename_i opening ho
        simpa [Orderly, shapes] using inOrder_again htree h hf ho
      · exact h
    | some t =>
      have hmodified : ({ st with tokens := st.tokens.modify f.token (SnippetToken.withTransform t) } : State).Orderly := by
        rw [Orderly, shapes_modify fun token => by cases token <;> rfl]
        exact h
      dsimp only
      split
      · rename_i opening ho
        simpa [Orderly, shapes] using inOrder_again (readsTree_modify htree hf t) hmodified hf ho
      · exact hmodified

theorem orderly_kept : Kept fun st => st.ReadsTree ∧ st.Orderly where
  pushText h s := ⟨readsTree_kept.pushText h.1 s, by
    rw [Orderly, nextMarker_pushText]
    exact inOrder_pushText h.2 s⟩
  pushReference h name := ⟨readsTree_kept.pushReference h.1 name, orderly_pushReference h.2 name⟩
  opening h name source := ⟨readsTree_kept.opening h.1 name source, orderly_pushReference h.2 name⟩
  close h transform := ⟨readsTree_kept.close h.1 transform, orderly_close h.1 h.2 transform⟩
  choices {st} h _ _ hf found := ⟨readsTree_kept.choices h.1 hf found, by
    rw [Orderly, shapes_modify fun t => by cases t <;> rfl]
    exact h.2⟩
  transform h t := ⟨readsTree_kept.transform h.1 t, h.2⟩

/-- Without its end a transform takes away what was written last, and adds a text. -/
theorem inOrder_settle (h : st.Orderly) : ∃ next, InOrder st.settle.shapes next := by
  unfold settle
  split
  · rename_i f rest _ _
    have hcut : st.shapes = ((st.tokens.toList.drop f.token).map SnippetToken.shape).reverse ++
        ({ st with tokens := st.tokens.take f.token, frames := rest } : State).shapes := by
      have htake : (st.tokens.take f.token).toList = st.tokens.toList.take f.token := by simp
      simp only [shapes, htake]
      rw [← List.reverse_append, ← List.map_append, List.take_append_drop]
    rw [Orderly, hcut] at h
    obtain ⟨next, hnext⟩ := InOrder.of_append h
    exact ⟨next, inOrder_pushText hnext _⟩
  · exact ⟨_, h⟩

end State

end SnippetParser

/-- Whatever the source, the placeholders of the snippet are brackets, and they are numbered as they begin. -/
theorem wellBracketed_parseSnippet (source : String) : WellBracketed (parseSnippet source) := by
  obtain ⟨tree, htree, hn⟩ := exists_tree_parseSnippet source
  have hstart : SnippetParser.State.ReadsTree {} ∧ SnippetParser.State.Orderly {} :=
    ⟨⟨[], .nil, rfl, rfl, List.nodup_nil, fun m hm => nomatch hm⟩, .nil⟩
  have hrun := SnippetParser.State.orderly_kept.parseFrom source.toList (.inside .body) 0 hstart
  obtain ⟨next, horder⟩ : ∃ next, InOrder ((parseSnippet source).map shape).reverse next :=
    SnippetParser.State.inOrder_settle hrun.2
  exact {
    twice := fun m => by
      have hcount := tree.count_markers_le m
      have hone := List.nodup_iff_count_le_one.mp hn m
      rw [← htree]
      omega
    alike := fun t ht u hu m htm hum => SnippetTree.eq_of_marker? hn (htree ▸ ht) (htree ▸ hu) htm hum
    uncrossed := htree ▸ SnippetTree.uncrossed_tokens hn
    ascending := fun front t behind m he ht hm => by
      rw [he] at horder
      exact horder.ascending ht hm
    texts_ne := fun s hs => horder.text_ne hs
    texts_apart := fun front s t behind he => by
      rw [he] at horder
      exact horder.texts_apart }

end Scribe
