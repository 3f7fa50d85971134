import Scribe.Proofs.Snippet.Meaning

/-!
# The tree of a parsed snippet

A placeholder whose end is written stands around its body, any other mark stands alone. Every parsed snippet
reads as such a tree in which no two marks share a marker, and in one way only.
-/

namespace Scribe

open Expansion (markers markers_append)

/-- What stands at a `$`. -/
inductive SnippetMark where
  | tabstop (t : TabstopMark)
  | var (v : VariableMark)

namespace SnippetMark

def token : SnippetMark → SnippetToken
  | tabstop t => .tabstop t
  | var v => .var v

def marker : SnippetMark → Nat
  | tabstop t => t.marker
  | var v => v.marker

def withTransform (transform : Transform) : SnippetMark → SnippetMark
  | tabstop t => .tabstop { t with transform := some transform }
  | var v => .var { v with transform := some transform }

def withChoices (choices : List String) : SnippetMark → SnippetMark
  | tabstop t => .tabstop { t with choices := some choices }
  | var v => .var v

theorem token_inj {m m' : SnippetMark} (h : m.token = m'.token) : m = m' := by
  cases m <;> cases m' <;> cases h <;> rfl

@[simp] theorem token_ne_text (m : SnippetMark) (s : String) : m.token ≠ .text s := by
  cases m <;> exact SnippetToken.noConfusion

@[simp] theorem text_ne_token (m : SnippetMark) (s : String) : .text s ≠ m.token := fun h =>
  m.token_ne_text s h.symm

@[simp] theorem markers_token (m : SnippetMark) (rest : List SnippetToken) :
    markers (m.token :: rest) = m.marker :: markers rest := by
  cases m <;> rfl

@[simp] theorem marker_withTransform (transform : Transform) (m : SnippetMark) :
    (m.withTransform transform).marker = m.marker := by
  cases m <;> rfl

@[simp] theorem marker_withChoices (choices : List String) (m : SnippetMark) :
    (m.withChoices choices).marker = m.marker := by
  cases m <;> rfl

theorem token_withTransform (transform : Transform) (m : SnippetMark) :
    m.token.withTransform transform = (m.withTransform transform).token := by
  cases m <;> rfl

theorem token_withChoices (choices : List String) (m : SnippetMark) :
    m.token.withChoices choices = (m.withChoices choices).token := by
  cases m <;> rfl

end SnippetMark

/-- A snippet, with what stands in a placeholder below its mark and the rest behind it. -/
inductive SnippetTree where
  | nil
  | text (s : String) (rest : SnippetTree)
  | alone (mark : SnippetMark) (rest : SnippetTree)
  | around (mark : SnippetMark) (body rest : SnippetTree)

namespace SnippetTree

/-- The mark of a placeholder is written before and after its body. -/
def tokens : SnippetTree → List SnippetToken
  | nil => []
  | text s rest => .text s :: rest.tokens
  | alone mark rest => mark.token :: rest.tokens
  | around mark body rest => mark.token :: (body.tokens ++ mark.token :: rest.tokens)

/-- The marker of each mark. -/
def marks : SnippetTree → List Nat
  | nil => []
  | text _ rest => rest.marks
  | alone mark rest => mark.marker :: rest.marks
  | around mark body rest => mark.marker :: (body.marks ++ rest.marks)

def append : SnippetTree → SnippetTree → SnippetTree
  | nil, tree => tree
  | text s rest, tree => text s (rest.append tree)
  | alone mark rest, tree => alone mark (rest.append tree)
  | around mark body rest, tree => around mark body (rest.append tree)

@[simp] theorem tokens_append (tree other : SnippetTree) :
    (tree.append other).tokens = tree.tokens ++ other.tokens := by
  induction tree with
  | nil => rfl
  | text s rest ih => simp [append, tokens, ih]
  | alone mark rest ih => simp [append, tokens, ih]
  | around mark body rest _ ih => simp [append, tokens, ih]

@[simp] theorem marks_append (tree other : SnippetTree) : (tree.append other).marks = tree.marks ++ other.marks := by
  induction tree with
  | nil => rfl
  | text s rest ih => simp [append, marks, ih]
  | alone mark rest ih => simp [append, marks, ih]
  | around mark body rest _ ih => simp [append, marks, ih]

theorem mem_marks {tree : SnippetTree} {m : Nat} : m ∈ markers tree.tokens ↔ m ∈ tree.marks := by
  induction tree with
  | nil => rfl
  | text s rest ih => simpa [tokens, marks] using ih
  | alone mark rest ih => simp [tokens, marks, ih]
  | around mark body rest ihb ihr => simp [tokens, marks, ihb, ihr]; tauto

/-- A tree that ends with a text. -/
theorem exists_of_tokens_concat_text {s : String} : ∀ {tree : SnippetTree} {front : List SnippetToken},
    tree.tokens = front ++ [.text s] → ∃ before : SnippetTree, tree = before.append (text s nil)
  | nil, front, h => by simp [tokens] at h
  | text t rest, [], h => by
    obtain ⟨h, hr⟩ := List.cons.inj h
    cases rest <;> cases hr
    cases h
    exact ⟨nil, rfl⟩
  | alone mark rest, [], h => absurd (List.cons.inj h).1 (mark.token_ne_text s)
  | around mark body rest, [], h => absurd (List.cons.inj h).1 (mark.token_ne_text s)
  | text t rest, _ :: front, h => by
    obtain ⟨before, rfl⟩ := exists_of_tokens_concat_text (List.cons.inj h).2
    exact ⟨text t before, rfl⟩
  | alone mark rest, _ :: front, h => by
    obtain ⟨before, rfl⟩ := exists_of_tokens_concat_text (List.cons.inj h).2
    exact ⟨alone mark before, rfl⟩
  | around mark body rest, _ :: front, h => by
    have hr : ∃ front', rest.tokens = front' ++ [.text s] := by
      have hlast : (body.tokens ++ mark.token :: rest.tokens).getLast? = (front ++ [SnippetToken.text s]).getLast? :=
        congrArg List.getLast? (List.cons.inj h).2
      rw [List.getLast?_append, List.getLast?_concat, List.getLast?_cons, Option.some_or] at hlast
      cases hr : rest.tokens.getLast? with
      | none =>
        rw [hr] at hlast
        exact absurd (Option.some.inj hlast) (mark.token_ne_text s)
      | some t =>
        rw [hr] at hlast
        obtain ⟨front', hf⟩ := List.getLast?_eq_some_iff.mp hr
        exact ⟨front', hf.trans (by rw [show t = .text s from Option.some.inj hlast])⟩
    obtain ⟨front', hr⟩ := hr
    obtain ⟨before, rfl⟩ := exists_of_tokens_concat_text hr
    exact ⟨around mark body before, rfl⟩

/-! ## One reading -/

theorem not_mem_tokens_of_marker {tree : SnippetTree} {mark : SnippetMark} (h : mark.marker ∉ tree.marks) :
    mark.token ∉ tree.tokens := fun hm =>
  h (mem_marks.mp (List.mem_filterMap.mpr ⟨_, hm, by cases mark <;> rfl⟩))

/-- The tokens and the markers say which placeholders are closed, and where. -/
theorem eq_of_tokens_eq : ∀ {tree other : SnippetTree}, tree.marks.Nodup → other.marks.Nodup →
    tree.tokens = other.tokens → tree = other
  | nil, other, _, _, h => by cases other <;> first | rfl | cases h
  | text s rest, other, hn, hn', h => by
    cases other with
    | nil => cases h
    | text s' rest' =>
      obtain ⟨hs, hr⟩ := List.cons.inj h
      have hrest : rest = rest' := eq_of_tokens_eq hn hn' hr
      rw [SnippetToken.text.inj hs, hrest]
    | alone mark _ => exact absurd (List.cons.inj h).1 (mark.text_ne_token s)
    | around mark _ _ => exact absurd (List.cons.inj h).1 (mark.text_ne_token s)
  | alone mark rest, other, hn, hn', h => by
    cases other with
    | nil => cases h
    | text s _ => exact absurd (List.cons.inj h).1 (mark.token_ne_text s)
    | alone mark' rest' =>
      obtain ⟨hm, hr⟩ := List.cons.inj h
      rw [SnippetMark.token_inj hm, eq_of_tokens_eq (List.nodup_cons.mp hn).2 (List.nodup_cons.mp hn').2 hr]
    | around mark' body' rest' =>
      -- The mark that closes the other one would stand a second time here.
      obtain ⟨hm, hr⟩ := List.cons.inj h
      obtain rfl := SnippetMark.token_inj hm
      refine absurd ?_ (not_mem_tokens_of_marker (List.nodup_cons.mp hn).1)
      rw [hr]
      simp
  | around mark body rest, other, hn, hn', h => by
    cases other with
    | nil => cases h
    | text s _ => exact absurd (List.cons.inj h).1 (mark.token_ne_text s)
    | alone mark' rest' =>
      obtain ⟨hm, hr⟩ := List.cons.inj h
      obtain rfl := SnippetMark.token_inj hm
      refine absurd ?_ (not_mem_tokens_of_marker (List.nodup_cons.mp hn').1)
      rw [← hr]
      simp
    | around mark' body' rest' =>
      obtain ⟨hm, hr⟩ := List.cons.inj h
      obtain rfl := SnippetMark.token_inj hm
      obtain ⟨hmem, hparts⟩ := List.nodup_cons.mp hn
      have hparts' := (List.nodup_cons.mp hn').2
      have hbody := not_mem_tokens_of_marker fun h => hmem (List.mem_append_left _ h)
      have hrest := not_mem_tokens_of_marker fun h => hmem (List.mem_append_right _ h)
      obtain ⟨hb, -, hr⟩ := (List.append_cons_inj_of_notMem hbody hrest).mp hr
      rw [eq_of_tokens_eq (List.nodup_append.mp hparts).1 (List.nodup_append.mp hparts').1 hb,
        eq_of_tokens_eq (List.nodup_append.mp hparts).2.1 (List.nodup_append.mp hparts').2.1 hr]

end SnippetTree

/-! ## Parsing -/

namespace SnippetParser

open SnippetTree (nil text alone around)

/-- A placeholder whose end is not read yet, and what stands before it in the one around it. -/
structure Opening where
  before : SnippetTree
  mark : SnippetMark

/-- What is read up to the innermost open mark, as if each open mark stood alone. The innermost comes first. -/
def outside : List Opening → SnippetTree
  | [] => nil
  | o :: opened => ((outside opened).append o.before).append (alone o.mark nil)

/-- Where the open marks stand among the tokens. -/
def places : List Opening → List Nat
  | [] => []
  | o :: opened => ((outside opened).append o.before).tokens.length :: places opened

/-- The parser has these placeholders open, and has read this in the innermost. -/
structure Reads (st : State) (opened : List Opening) (inner : SnippetTree) : Prop where
  tokens : st.tokens.toList = ((outside opened).append inner).tokens
  frames : st.frames.map (·.token) = places opened
  nodup : ((outside opened).append inner).marks.Nodup
  lt : ∀ m ∈ ((outside opened).append inner).marks, m < st.nextMarker

theorem outside_ne_concat_text (opened : List Opening) (front : List SnippetToken) (s : String) :
    (outside opened).tokens ≠ front ++ [.text s] := by
  cases opened with
  | nil => simp [outside, SnippetTree.tokens]
  | cons o opened =>
    intro h
    simp only [outside, SnippetTree.tokens_append, SnippetTree.tokens] at h
    exact o.mark.token_ne_text s (List.cons.inj (List.append_inj' h rfl).2).1

theorem exists_pushReference (st : State) (name : List Char) : ∃ mark : SnippetMark,
    mark.marker = st.nextMarker ∧
      st.pushReference name = { st.push mark.token with nextMarker := st.nextMarker + 1 } := by
  unfold State.pushReference
  cases h : Text.digits64? name with
  | some id => exact ⟨.tabstop { marker := st.nextMarker, id }, rfl, rfl⟩
  | none => exact ⟨.var { marker := st.nextMarker, name := String.ofList name }, rfl, rfl⟩

theorem modify_length (xs ys : List SnippetToken) (a : SnippetToken) (f : SnippetToken → SnippetToken) :
    (xs ++ a :: ys).modify xs.length f = xs ++ f a :: ys := by
  induction xs with
  | nil => rfl
  | cons x xs ih => simp [ih]

namespace Reads

variable {st : State} {opened : List Opening} {o : Opening} {inner : SnippetTree} {f : Frame} {frames : List Frame}

/-- The innermost open mark and what stands around it. -/
theorem tokens_cons (h : Reads st (o :: opened) inner) :
    st.tokens.toList = ((outside opened).append o.before).tokens ++ o.mark.token :: inner.tokens := by
  rw [h.tokens]
  simp [outside, SnippetTree.tokens]

theorem frames_cons (h : Reads st (o :: opened) inner) (hf : st.frames = f :: frames) :
    f.token = ((outside opened).append o.before).tokens.length ∧ frames.map (·.token) = places opened := by
  have := h.frames
  rw [hf] at this
  exact List.cons.inj this

theorem exists_cons (h : Reads st opened inner) (hf : st.frames = f :: frames) : ∃ o opened', opened = o :: opened' := by
  have := h.frames
  rw [hf] at this
  cases opened with
  | nil => cases this
  | cons o opened' => exact ⟨o, opened', rfl⟩

theorem pushText (h : Reads st opened inner) (s : String) : ∃ inner', Reads (st.pushText s) opened inner' := by
  unfold State.pushText
  split
  · exact ⟨inner, h⟩
  · split
    · rename_i t hb
      have hlast : st.tokens.toList.getLast? = some (.text t) := by simpa using hb
      obtain ⟨front, hfront⟩ := List.getLast?_eq_some_iff.mp hlast
      have htokens := h.tokens
      rw [SnippetTree.tokens_append, hfront] at htokens
      -- The text stands in the innermost placeholder, as what is around it ends with a mark.
      have hinner : ∃ front', inner.tokens = front' ++ [.text t] := by
        rcases List.eq_nil_or_concat inner.tokens with hnil | ⟨front', last, hlast⟩
        · rw [hnil, List.append_nil] at htokens
          exact absurd htokens.symm (outside_ne_concat_text opened front t)
        · rw [List.concat_eq_append] at hlast
          rw [hlast, ← List.append_assoc] at htokens
          exact ⟨front', by rw [hlast, (List.append_inj' htokens rfl).2]⟩
      obtain ⟨front', hfront'⟩ := hinner
      obtain ⟨before, rfl⟩ := SnippetTree.exists_of_tokens_concat_text hfront'
      refine ⟨before.append (text (t ++ s) nil), ?_, h.frames, ?_, ?_⟩
      · have hf : front = (outside opened).tokens ++ before.tokens := by
          simpa [SnippetTree.tokens, ← List.append_assoc] using htokens
        simp [hfront, hf, SnippetTree.tokens]
      · simpa [SnippetTree.marks] using h.nodup
      · simpa [SnippetTree.marks] using h.lt
    · refine ⟨inner.append (text s nil), ?_, h.frames, ?_, ?_⟩
      · simp [h.tokens, SnippetTree.tokens]
      · simpa [SnippetTree.marks] using h.nodup
      · simpa [SnippetTree.marks] using h.lt

/-- A new mark goes behind all that is read. -/
theorem push (h : Reads st opened inner) {mark : SnippetMark} (hm : mark.marker = st.nextMarker) :
    Reads { st.push mark.token with nextMarker := st.nextMarker + 1 } opened (inner.append (alone mark nil)) := by
  have hmarks : ((outside opened).append (inner.append (alone mark nil))).marks =
      ((outside opened).append inner).marks ++ [st.nextMarker] := by
    simp [SnippetTree.marks, hm]
  refine ⟨?_, h.frames, ?_, ?_⟩
  · simp [State.push, h.tokens, SnippetTree.tokens]
  · rw [hmarks]
    exact h.nodup.append (List.nodup_singleton _) fun m hm hn =>
      Nat.lt_irrefl _ (List.mem_singleton.mp hn ▸ h.lt m hm)
  · rw [hmarks]
    intro m hm
    rcases List.mem_append.mp hm with hm | hm
    · exact Nat.lt_succ_of_lt (h.lt m hm)
    · exact List.mem_singleton.mp hm ▸ Nat.lt_succ_self _

/-- A mark that was read last may stand at the head of a placeholder. -/
theorem opening {mark : SnippetMark} (h : Reads st opened (inner.append (alone mark nil))) (source : List Char) :
    Reads { st with frames := { token := ((outside opened).append inner).tokens.length, source } :: st.frames }
      (⟨inner, mark⟩ :: opened) nil where
  tokens := by simp [h.tokens, outside, SnippetTree.tokens]
  frames := by simp [h.frames, places]
  nodup := by simpa [outside, SnippetTree.marks] using h.nodup
  lt := by simpa [outside, SnippetTree.marks] using h.lt

/-- The mark at the head of the innermost placeholder may change, but not its marker. -/
theorem modify (h : Reads st (o :: opened) inner) (hf : st.frames = f :: frames) {g : SnippetToken → SnippetToken}
    {mark : SnippetMark} (hg : g o.mark.token = mark.token) (hm : mark.marker = o.mark.marker) :
    Reads { st with tokens := st.tokens.modify f.token g } ({ o with mark } :: opened) inner where
  tokens := by
    rw [Array.toList_modify, h.tokens_cons, (h.frames_cons hf).1, modify_length, hg]
    simp [outside, SnippetTree.tokens]
  frames := h.frames
  nodup := by simpa [outside, SnippetTree.marks, hm] using h.nodup
  lt := by simpa [outside, SnippetTree.marks, hm] using h.lt

/-- The innermost placeholder is closed. -/
theorem close (h : Reads st (o :: opened) inner) (hf : st.frames = f :: frames) :
    st.tokens[f.token]? = some o.mark.token ∧
      Reads { st with tokens := st.tokens.push o.mark.token, frames } opened
        (o.before.append (around o.mark inner nil)) := by
  refine ⟨?_, ?_, (h.frames_cons hf).2, ?_, ?_⟩
  · rw [← Array.getElem?_toList, h.tokens_cons, (h.frames_cons hf).1, List.getElem?_append_right (Nat.le_refl _)]
    simp
  · simp [h.tokens_cons, SnippetTree.tokens]
  · simpa [outside, SnippetTree.marks] using h.nodup
  · simpa [outside, SnippetTree.marks] using h.lt

end Reads

/-- What is read so far is a tree with some placeholders open. -/
def State.ReadsTree (st : State) : Prop := ∃ opened inner, Reads st opened inner

theorem State.readsTree_close {st : State} (h : st.ReadsTree) (transform : Option Transform) :
    (st.close transform).ReadsTree := by
  obtain ⟨opened, inner, h⟩ := h
  unfold State.close
  split
  · exact ⟨opened, inner, h⟩
  · rename_i f frames hf
    obtain ⟨o, opened, rfl⟩ := h.exists_cons hf
    cases transform with
    | none =>
      obtain ⟨hopen, hclosed⟩ := h.close hf
      simp only [hopen]
      exact ⟨_, _, hclosed⟩
    | some t =>
      have h' := h.modify hf (SnippetMark.token_withTransform t o.mark) (SnippetMark.marker_withTransform t o.mark)
      obtain ⟨hopen, hclosed⟩ := h'.close hf
      simp only [hopen]
      exact ⟨_, _, hclosed⟩

theorem State.readsTree_kept : State.Kept State.ReadsTree where
  pushText h s := by
    obtain ⟨opened, inner, h⟩ := h
    obtain ⟨inner', h⟩ := h.pushText s
    exact ⟨opened, inner', h⟩
  pushReference {st} h name := by
    obtain ⟨opened, inner, h⟩ := h
    obtain ⟨mark, hm, he⟩ := exists_pushReference st name
    rw [he]
    exact ⟨opened, _, h.push hm⟩
  opening {st} h name source := by
    obtain ⟨opened, inner, h⟩ := h
    obtain ⟨mark, hm, he⟩ := exists_pushReference st name
    have hsize : st.tokens.size = ((outside opened).append inner).tokens.length := by
      rw [← Array.length_toList, h.tokens]
    rw [he, hsize]
    exact ⟨_, _, (h.push hm).opening source⟩
  close := State.readsTree_close
  choices h f rest hf found := by
    obtain ⟨opened, inner, h⟩ := h
    obtain ⟨o, opened, rfl⟩ := h.exists_cons hf
    exact ⟨_, _, h.modify hf (SnippetMark.token_withChoices found o.mark)
      (SnippetMark.marker_withChoices found o.mark)⟩
  transform h _ := by
    obtain ⟨opened, inner, h⟩ := h
    exact ⟨opened, inner, h.tokens, h.frames, h.nodup, h.lt⟩

/-- A transform that does not end leaves what stands before its placeholder, and a text. -/
theorem State.readsTree_settle {st : State} (h : st.ReadsTree) : st.settle.ReadsTree := by
  obtain ⟨opened, inner, h⟩ := h
  unfold State.settle
  split
  · rename_i f frames _ hf
    obtain ⟨o, opened, rfl⟩ := h.exists_cons hf
    have hcut : Reads { st with tokens := st.tokens.take f.token, frames } opened o.before := by
      refine ⟨?_, (h.frames_cons hf).2, ?_, ?_⟩
      · have htake : (st.tokens.take f.token).toList = st.tokens.toList.take f.token := by simp
        rw [htake, h.tokens_cons, (h.frames_cons hf).1, List.take_left]
      · have hn := h.nodup
        rw [outside, SnippetTree.marks_append, SnippetTree.marks_append] at hn
        exact (List.nodup_append.mp (List.nodup_append.mp hn).1).1
      · intro m hm
        refine h.lt m ?_
        rw [outside, SnippetTree.marks_append, SnippetTree.marks_append]
        exact List.mem_append_left _ (List.mem_append_left _ hm)
    obtain ⟨inner', h'⟩ := hcut.pushText (String.ofList f.source)
    exact ⟨opened, inner', h'⟩
  · exact ⟨opened, inner, h⟩

end SnippetParser

theorem exists_tree_parseSnippet (source : String) :
    ∃ tree : SnippetTree, tree.tokens = parseSnippet source ∧ tree.marks.Nodup := by
  have hstart : SnippetParser.State.ReadsTree {} :=
    ⟨[], .nil, rfl, rfl, List.nodup_nil, fun m hm => by cases hm⟩
  obtain ⟨opened, inner, h⟩ := SnippetParser.State.readsTree_settle
    (SnippetParser.State.readsTree_kept.parseFrom source.toList (.inside .body) 0 hstart)
  exact ⟨_, h.tokens.symm, h.nodup⟩

end Scribe
