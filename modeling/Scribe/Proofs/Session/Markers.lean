import Scribe.Session.Inserter
import Mathlib.Data.List.Nodup

/-!
# Markers of a session

The markers in the buffer are those of the ranges that are followed, one for each and at its place. Adding,
moving and removing ranges keeps them so.
-/

namespace Scribe

namespace Dict

variable {α : Type}

theorem insertEntry_perm {k : Nat} {v : α} : ∀ {l : List (Nat × α)}, (∀ e ∈ l, e.1 ≠ k) →
    (insertEntry k v l).Perm ((k, v) :: l)
  | [], _ => .refl _
  | (k', v') :: rest, h => by
    simp only [insertEntry]
    split
    · exact .refl _
    · split
      · have ih := insertEntry_perm (v := v) fun e he => h e (List.mem_cons_of_mem _ he)
        exact (ih.cons _).trans (.swap _ _ _)
      · have := h (k', v') List.mem_cons_self
        omega

end Dict

namespace Session

/-- The markers of a buffer are those of the ranges. -/
structure Marked (b : Buffer) (ranges : List TrackedRange) : Prop where
  perm : (ranges.map fun r => (r.marker, r.range)).Perm (b.markers.entries.map fun e => (some e.1, e.2))
  nodup : b.markers.keys.Nodup
  lt : ∀ id ∈ b.markers.keys, id < b.nextMarker

/-- Nothing but the markers and what depends on them differs. -/
def SameMarkers (b b' : Buffer) : Prop := b'.markers = b.markers ∧ b'.nextMarker = b.nextMarker

namespace Marked

variable {b b' : Buffer} {ranges ranges' : List TrackedRange}

theorem nil (h : b.markers = Dict.empty) : Marked b [] where
  perm := by rw [h]; exact .nil
  nodup := by rw [h]; exact .nil
  lt := by rw [h]; intro id hid; cases hid

theorem same (h : Marked b ranges) (hs : SameMarkers b b') : Marked b' ranges := by
  obtain ⟨hm, hn⟩ := hs
  exact ⟨hm ▸ h.perm, hm ▸ h.nodup, hm ▸ hn ▸ h.lt⟩

theorem of_perm (h : Marked b ranges) (hp : ranges.Perm ranges') : Marked b ranges' :=
  { h with perm := (hp.symm.map _).trans h.perm }

section
variable (h : Marked b ranges)
include h

theorem markers_perm : (ranges.map (·.marker)).Perm (b.markers.keys.map some) := by
  have := h.perm.map (·.1)
  simpa [List.map_map, Function.comp_def, Dict.keys] using this

theorem nodup_markers : (ranges.map (·.marker)).Nodup :=
  h.markers_perm.nodup_iff.mpr (h.nodup.map fun _ _ => Option.some.inj)

theorem exists_marker {r : TrackedRange} (hr : r ∈ ranges) : ∃ id ∈ b.markers.keys, r.marker = some id := by
  obtain ⟨id, hid, he⟩ := List.mem_map.mp (h.markers_perm.mem_iff.mp (List.mem_map_of_mem hr))
  exact ⟨id, hid, he.symm⟩

theorem add (r : TrackedRange) (hr : r.marker = some b.nextMarker) :
    Marked (b.addMarker r.range).1 (ranges ++ [r]) := by
  have hfresh : ∀ e ∈ b.markers.entries, e.1 ≠ b.nextMarker := fun e he =>
    Nat.ne_of_lt (h.lt e.1 (List.mem_map_of_mem he))
  have hins := Dict.insertEntry_perm (v := r.range) hfresh
  refine ⟨?_, ?_, fun id hid => ?_⟩
  · refine .trans ?_ (hins.map _).symm
    rw [List.map_append, List.map_cons, List.map_cons, List.map_nil, hr]
    exact List.perm_append_comm.trans (h.perm.cons _)
  · refine (hins.map Prod.fst).nodup_iff.mpr (List.nodup_cons.mpr ⟨fun hm => ?_, h.nodup⟩)
    obtain ⟨e, he, heq⟩ := List.mem_map.mp hm
    exact hfresh e he heq
  · rcases List.mem_cons.mp ((hins.map Prod.fst).mem_iff.mp hid) with rfl | hid
    · exact Nat.lt_succ_self _
    · exact Nat.lt_succ_of_lt (h.lt id hid)

end

theorem update {before after : List TrackedRange} {r r' : TrackedRange} {id : Nat}
    (h : Marked b (before ++ r :: after)) (hm : r.marker = some id) (hm' : r'.marker = some id) :
    Marked (b.updateMarker id r'.range) (before ++ r' :: after) := by
  have hkeys : (b.updateMarker id r'.range).markers.keys = b.markers.keys := by
    simp only [Buffer.updateMarker, Dict.modify, Dict.keys, List.map_map]
    refine List.map_congr_left fun e _ => ?_
    simp only [Function.comp]
    split <;> rfl
  refine ⟨?_, hkeys ▸ h.nodup, hkeys ▸ h.lt⟩
  have hnodup := h.nodup_markers
  rw [List.map_append, List.map_cons, hm] at hnodup
  have hother : ∀ x ∈ before ++ after, x.marker ≠ some id := by
    have := List.nodup_middle.mp hnodup
    intro x hx he
    refine (List.nodup_cons.mp this).1 ?_
    rw [← List.map_append]
    exact List.mem_map.mpr ⟨x, hx, he⟩
  -- The same rewriting on both sides.
  have hp := h.perm.map fun v => if v.1 = some id then (v.1, r'.range) else v
  have hsame : ∀ xs : List TrackedRange, (∀ x ∈ xs, x.marker ≠ some id) →
      (xs.map fun r => (r.marker, r.range)).map (fun v => if v.1 = some id then (v.1, r'.range) else v) =
        xs.map fun r => (r.marker, r.range) := by
    intro xs hxs
    rw [List.map_map]
    refine List.map_congr_left fun x hx => ?_
    simp only [Function.comp, if_neg (hxs x hx)]
  have hentries : ((b.markers.entries.map fun e => (some e.1, e.2)).map
      fun v => if v.1 = some id then (v.1, r'.range) else v) =
      (b.updateMarker id r'.range).markers.entries.map fun e => (some e.1, e.2) := by
    simp only [Buffer.updateMarker, Dict.modify, List.map_map]
    refine List.map_congr_left fun e _ => ?_
    simp only [Function.comp, Option.some.injEq]
    split <;> rfl
  rw [hentries] at hp
  refine .trans (.of_eq ?_) hp
  simp only [List.map_append, List.map_cons, hm, if_true]
  rw [hsame before fun x hx => hother x (List.mem_append_left _ hx),
    hsame after fun x hx => hother x (List.mem_append_right _ hx), hm']

end Marked

/-! ## Moving markers -/

theorem moveMarkers_cons (b : Buffer) (old new : TrackedRange) (before after : List TrackedRange) :
    moveMarkers b (old :: before) (new :: after) =
      moveMarkers (match new.marker with
        | some marker => if old.range = new.range then b else b.updateMarker marker new.range
        | none => b) before after := rfl

/-- Moving the markers changes the markers only. -/
theorem moveMarkers_eq : ∀ (before after : List TrackedRange) (b : Buffer),
    ∃ markers, moveMarkers b before after = { b with markers }
  | [], _, b => ⟨b.markers, rfl⟩
  | _ :: _, [], b => ⟨b.markers, rfl⟩
  | old :: before, new :: after, b => by
    rw [moveMarkers_cons]
    split
    · split
      · exact moveMarkers_eq before after b
      · obtain ⟨markers, h⟩ := moveMarkers_eq before after (b.updateMarker _ new.range)
        exact ⟨markers, h⟩
    · exact moveMarkers_eq before after b

theorem marked_moveMarkers : ∀ (before after done : List TrackedRange) {b : Buffer},
    Marked b (done ++ before) → before.map (·.marker) = after.map (·.marker) →
    Marked (moveMarkers b before after) (done ++ after)
  | [], [], _, _, h, _ => h
  | [], _ :: _, _, _, _, hm => by cases hm
  | _ :: _, [], _, _, _, hm => by cases hm
  | old :: before, new :: after, done, b, h, hm => by
    simp only [List.map_cons, List.cons.injEq] at hm
    obtain ⟨hmark, hm⟩ := hm
    obtain ⟨id, -, hid⟩ := h.exists_marker (List.mem_append_right _ List.mem_cons_self)
    have hnew : new.marker = some id := hmark ▸ hid
    rw [moveMarkers_cons, hnew]
    have hstep : Marked (if old.range = new.range then b else b.updateMarker id new.range)
        (done ++ [new] ++ before) := by
      rw [List.append_assoc, List.singleton_append]
      split
      · rename_i hrange
        refine { h with perm := .trans (.of_eq ?_) h.perm }
        simp [hmark, hrange]
      · exact h.update hid hnew
    have := marked_moveMarkers before after (done ++ [new]) hstep hm
    rwa [List.append_assoc, List.singleton_append] at this

/-! ## Removing markers -/

theorem removeMarkers_eq (b : Buffer) (ranges : List TrackedRange) :
    removeMarkers b ranges =
      { b with markers := ⟨b.markers.entries.filter fun e => decide (e.1 ∉ ranges.filterMap (·.marker))⟩ } := by
  have hfold : ∀ (ids : List Nat) (b : Buffer), ids.foldl Buffer.removeMarker b =
      { b with markers := ⟨b.markers.entries.filter fun e => decide (e.1 ∉ ids)⟩ } := by
    intro ids
    induction ids with
    | nil => intro b; simp
    | cons id ids ih =>
      intro b
      rw [List.foldl_cons, ih]
      simp only [Buffer.removeMarker, Dict.erase, List.filter_filter]
      congr 3
      funext e
      simp [List.mem_cons, not_or, Bool.and_comm]
  exact hfold _ b

theorem marked_removeMarkers {b : Buffer} {gone kept : List TrackedRange} (h : Marked b (gone ++ kept)) :
    Marked (removeMarkers b gone) kept := by
  have hmem : ∀ r ∈ gone, ∃ id ∈ gone.filterMap (·.marker), r.marker = some id := by
    intro r hr
    obtain ⟨id, -, hid⟩ := h.exists_marker (List.mem_append_left _ hr)
    exact ⟨id, List.mem_filterMap.mpr ⟨r, hr, hid⟩, hid⟩
  have hsub : ((b.markers.entries.filter fun e => decide (e.1 ∉ gone.filterMap (·.marker))).map (·.1)).Sublist
      b.markers.keys := List.filter_sublist.map _
  rw [removeMarkers_eq]
  refine ⟨?_, h.nodup.sublist hsub, fun id hid => h.lt id (hsub.subset hid)⟩
  have hnodup := h.nodup_markers
  rw [List.map_append] at hnodup
  have hp := h.perm.filter fun v => decide (∀ id ∈ gone.filterMap (·.marker), v.1 ≠ some id)
  rw [List.map_append, List.filter_append] at hp
  have hgone : (gone.map fun r => (r.marker, r.range)).filter
      (fun v => decide (∀ id ∈ gone.filterMap (·.marker), v.1 ≠ some id)) = [] := by
    refine List.filter_eq_nil_iff.mpr fun v hv => ?_
    obtain ⟨r, hr, rfl⟩ := List.mem_map.mp hv
    obtain ⟨id, hid, he⟩ := hmem r hr
    simp only [decide_eq_true_eq]
    exact fun hall => hall id hid he
  have hkept : (kept.map fun r => (r.marker, r.range)).filter
      (fun v => decide (∀ id ∈ gone.filterMap (·.marker), v.1 ≠ some id)) =
      kept.map fun r => (r.marker, r.range) := by
    refine List.filter_eq_self.mpr fun v hv => ?_
    obtain ⟨r, hr, rfl⟩ := List.mem_map.mp hv
    simp only [decide_eq_true_eq]
    intro id hid he
    obtain ⟨r', hr', hid'⟩ := List.mem_filterMap.mp hid
    exact List.disjoint_of_nodup_append hnodup (List.mem_map.mpr ⟨r', hr', hid'⟩)
      (he ▸ List.mem_map_of_mem hr)
  rw [hgone, hkept, List.nil_append] at hp
  refine hp.trans (.of_eq ?_)
  rw [List.filter_map]
  congr 1
  refine List.filter_congr fun e _ => ?_
  simp only [Function.comp, ne_eq, Option.some.injEq, decide_eq_decide]
  exact ⟨fun hall hm => hall e.1 hm rfl, fun hm id hid he => hm (he ▸ hid)⟩

end Session

end Scribe
