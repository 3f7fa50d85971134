import Scribe.Proofs.Pattern.Glued
import Scribe.Proofs.Pattern.Joined
import Scribe.Proofs.Pattern.Ways

/-!
# Patterns beside one another

A pattern in a group is read as one piece, whatever stands in front of it. Behind other groups its own ones get other
numbers; it means the same there if no number is written in it. A pattern that ends with a group of its own and has no bar
outside of groups is read behind others as by itself, piece by piece.
-/

namespace Scribe.Pattern

/-- The pattern is one branch, and at its end all is as at its start. -/
def isClosedBranch (source : List Char) : Bool :=
  match readFrom (Reader.initial {}) 0 source with
  | .ok r => r.flags = {} && r.outer.isEmpty && r.inner.branches.isEmpty
  | .error _ => false

/-- No group is referred to, and no number is written that may mean one behind other groups. -/
def isNumberless (source : List Char) : Bool :=
  !hasNumber source && (readings (Reader.initial {}) 0 source).all (!·.lexeme.isAbsolute)

theorem Reader.pieces_closeFrom {g h : OpenGroup} {outer outer' : List OpenGroup} {flags : Flags}
    (hc : Reader.closeFrom g outer = .ok (flags, h, outer')) : ∃ t rest, h.pieces = .tree t :: rest := by
  induction outer generalizing g with
  | nil => cases hc
  | cons k outer ih =>
    obtain ⟨t, -, hc⟩ := bind_eq_ok.mp hc
    dsimp only at hc
    split at hc
    · exact ih hc
    · cases hc
      exact ⟨t, k.pieces, rfl⟩

theorem OpenGroup.eq_behind {g : OpenGroup} {ps : List Piece} (hkind : g.kind = .frame .plain) (hflags : g.outerFlags = {})
    (hbranches : g.branches = []) (hpieces : g.pieces = ps) : g = (Reader.behind ps).inner := by
  obtain ⟨kind, outerFlags, branches, pieces⟩ := g
  subst hkind hflags hbranches hpieces
  rfl

section
variable {cs : List Char} {xs : List Reading} {u r : Reader} {t : Tree} {ps : List Piece} {w : Nat} {p : Pattern}

/-- A pattern that ends with a group of its own goes on behind the pieces that are there. -/
theorem Stands.readFrom_beside (h : Stands cs xs u t) (hflags : u.flags = {}) (houter : u.outer = [])
    (hbranches : u.inner.branches = []) (hlast : xs.getLast?.any (·.text = [')']) = true) (hr : r.At ps 0)
    (hps : ∀ p ∈ ps.head?, ∃ t, p = .tree t) (tail : List Char) :
    ∃ qs r', readFrom r 0 (cs ++ tail) = readFrom r' 0 tail ∧ r'.At (qs ++ ps) u.groupCount ∧
      (∃ t rest, qs = .tree t :: rest) ∧ t = Tree.seqAll (qs.reverse.map Piece.toTree) := by
  obtain ⟨hfrom, href⟩ := finish_eq_ok.mp h.finish
  obtain ⟨y, hy, hclose⟩ : ∃ y, xs.getLast? = some y ∧ y.text = [')'] := by
    simpa only [Option.any_eq_true, decide_eq_true_eq] using hlast
  obtain ⟨ys, rfl⟩ := List.getLast?_eq_some_iff.mp hy
  obtain ⟨v, s, rfl, hreads, htake⟩ := h.reads.split_close hclose
  have hstart : Reader.Upon ps [] (Reader.initial {}) r := by
    refine ⟨hr.flags, ?_, hr.groupCount, hr.unnamed rfl, Nat.le_zero.mp hr.largestRef⟩
    rw [hr.outer, hr.inner]
    exact .bottom ⟨rfl, rfl, rfl, rfl, rfl, fun _ => rfl⟩
  obtain ⟨s', hread, hs⟩ := hstart.readFrom hps hreads (')' :: tail) fun c hc => by cases hc; rfl
  obtain ⟨u', htake', hu⟩ := hs.take hps htake
  have hstack := hu.stack
  rw [houter] at hstack
  generalize houter' : u'.outer = outer' at hstack
  cases hstack with
  | bottom hb =>
    have hempty : u.inner.branches.isEmpty = true := List.isEmpty_iff.mpr hbranches
    refine ⟨u.inner.pieces, u', ?_, ⟨hu.flags.trans hflags, ?_, houter', hu.groupCount, ?_, ?_, ?_⟩, ?_, ?_⟩
    · rw [List.append_assoc, List.singleton_append, hread]
      exact readFrom_of_scan (t := []) rfl htake'
    · have hbranches' : u'.inner.branches = [] := List.isEmpty_iff.mp (hb.branches.trans hempty)
      have hpieces : u'.inner.pieces = u.inner.pieces ++ ps := by rw [hb.pieces, if_pos hempty]
      exact OpenGroup.eq_behind hb.kind' hb.flags hbranches' hpieces
    · exact fun q hq => h.names_le q (hu.names ▸ hq)
    · exact fun hcount => hu.names.trans (h.reads.names_eq hcount)
    · exact hu.largestRef.trans_le href
    · obtain ⟨⟨flags, inner, outer⟩, hc, hs⟩ := bind_eq_ok.mp htake
      cases hs
      obtain ⟨t, rest, hpieces⟩ := Reader.pieces_closeFrom hc
      exact ⟨t, rest, hpieces⟩
    · rw [houter] at hfrom
      simp only [Reader.finishFrom, OpenGroup.close, hb.kind] at hfrom
      cases hfrom
      rw [OpenGroup.alternatives, hbranches]
      rfl

/-- In a group behind others the pattern becomes one piece with other numbers. -/
theorem readFrom_group_moved (hp : compile (String.ofList cs) = .ok p)
    (huncut : ∀ x ∈ readings (Reader.initial {}) 0 cs, x.text.length = x.used + 1) (hn : isNumberless cs = true)
    (hw : 0 < w) (hr : r.At ps w) (tail : List Char) :
    ∃ t' r', readFrom r 0 (['(', '?', ':'] ++ cs ++ [')'] ++ tail) = readFrom r' 0 tail ∧
      r'.At (.tree t' :: ps) (p.groupCount + w) ∧ p.tree.Moved w p.groupCount t' := by
  let rule : RulePattern := ⟨String.ofList cs, false⟩
  have hsource : rule.source.toList = cs := String.toList_ofList
  have hrule : compile rule.source rule.caseless = .ok p := hp
  have hreadings : rule.readings = readings (Reader.initial {}) 0 cs := by rw [RulePattern.readings, hsource]
  obtain ⟨hnumber, habs⟩ := Bool.and_eq_true_iff.mp hn
  have hnumber : hasNumber cs = false := by simpa using hnumber
  have hmoves : rule.movesWell w := by
    refine PatternUnion.movesWell_of_hasNumber hrule (hsource ▸ hnumber) (fun x hx => ?_) w
    rw [hreadings] at hx
    exact ⟨huncut x hx, by simpa using List.all_eq_true.mp habs x hx⟩
  let r₁ := r.openGroup (.frame .plain) {}
  have houter : r₁.outer = [r.inner] := congrArg (r.inner :: ·) hr.outer
  have hstart : Reader.Moved w p.groupCount r₁.inner [r.inner] r₁.names (Reader.initial {}) r₁ := by
    refine ⟨rfl, ?_, hr.groupCount.trans (Nat.zero_add w).symm, rfl, hr.names, ?_⟩
    · rw [houter]
      exact .bottom rfl rfl rfl ⟨.nil, .nil⟩
    · exact hr.largestRef.trans (Nat.zero_add w).ge
  have hkind (k : OpenGroup) (hk : k.kind = r₁.inner.kind) : k.close = .ok (id (Tree.altAll k.alternatives)) := by
    have hk : k.kind = .frame .plain := hk
    simp only [OpenGroup.close, hk, id]
  obtain ⟨t', u', ht', hread, hflags, hinner, houter', hcount, hnames, href⟩ :=
    PatternUnion.readFrom_rule tail hrule hmoves hw hkind (by rintro ⟨⟩) hstart
  rw [hsource, moveRefs_of_hasNumber hnumber] at hread
  refine ⟨t', u', ?_, ⟨hflags.trans hr.flags, ?_, houter', hcount, ?_, fun h => by omega, ?_⟩, ht'⟩
  · have htext : ['(', '?', ':'] ++ cs ++ [')'] ++ tail = '(' :: '?' :: ':' :: (cs ++ ')' :: tail) := by simp
    rw [htext, hr.readFrom_open]
    exact hread
  · rw [hinner, hr.inner]
    rfl
  · rw [← hcount]
    exact hnames
  · rw [← hcount]
    exact href

end

end Scribe.Pattern
