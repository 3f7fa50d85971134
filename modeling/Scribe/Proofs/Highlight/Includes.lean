import Scribe.Highlight.Tokenizer
import Scribe.Proofs.Dict
import Scribe.Proofs.Pattern.Shared
import Mathlib.Logic.Relation

/-!
# Included states

The rules of a state are those on all paths of includes from it. A state that several others include is expanded for each
of them, with a different path and so with other states cut off each time. Whatever is cut off is being expanded further
out, and whatever has been expanded once brings nothing new: all that it includes has been met by then. So without
repetitions the rules are those of a single traversal that expands each state when it is first met.
-/

namespace Scribe

/-- Where a rule is written: the state, and the number of the entry. -/
structure RulePlace where
  state : String
  index : Nat
  deriving DecidableEq, Repr

/-- What an entry adds to the rules of its state, if anything. -/
inductive Part where
  | rule (place : RulePlace)
  | include (owner target : String)
  deriving DecidableEq, Repr

/-- The parts of entries that stand in the state `owner` from `index` on. -/
def partsFrom (owner : String) (index : Nat) : List Entry → List Part
  | [] => []
  | .rule _ :: rest => .rule ⟨owner, index⟩ :: partsFrom owner (index + 1) rest
  | .inline _ _ :: rest => .rule ⟨owner, index⟩ :: partsFrom owner (index + 1) rest
  | .include target :: rest => .include owner target :: partsFrom owner (index + 1) rest
  | .defaultKind _ :: rest => partsFrom owner (index + 1) rest

def Entry.rule? : Entry → Option Rule
  | .rule r | .inline r _ => some r
  | .include _ | .defaultKind _ => none

section
variable (states : Dict String (List Entry))

def entriesOf (name : String) : List Entry := (states.get? name).getD []

def partsOf (name : String) : List Part := partsFrom name 0 (entriesOf states name)

def ruleAt? (place : RulePlace) : Option Rule := (entriesOf states place.state)[place.index]?.bind Entry.rule?

/-- How many states are not among those named. -/
def othersCount (names : List String) : Nat := (states.keys.filter (· ∉ names)).length

theorem othersCount_cons_lt {states : Dict String (List Entry)} {names : List String} {name : String}
    (hname : states.contains name = true) (hnew : name ∉ names) :
    othersCount states (name :: names) < othersCount states names := by
  have hmem : name ∈ states.keys.filter (· ∉ names) :=
    List.mem_filter.mpr ⟨Dict.contains_eq_true_iff.mp hname, decide_eq_true hnew⟩
  have hsplit : states.keys.filter (· ∉ name :: names) = (states.keys.filter (· ∉ names)).filter (· ≠ name) := by
    rw [List.filter_filter]
    refine List.filter_congr fun n _ => ?_
    simp only [List.mem_cons, not_or, Bool.decide_and, ne_eq]
  rw [othersCount, othersCount, hsplit]
  exact List.length_filter_lt_length_iff_exists.mpr ⟨name, hmem, by simp⟩

theorem othersCount_le (names : List String) : othersCount states names ≤ states.entries.length := by
  have hkeys : states.keys.length = states.entries.length := List.length_map _
  exact hkeys ▸ List.length_filter_le _ _

/-- The rules that parts bring in, where a state that is included is expanded unless it is on the path. -/
def expandEach (path : List String) : List Part → Except Error (List RulePlace)
  | [] => .ok []
  | .rule place :: rest => (expandEach path rest).map (place :: ·)
  | .include owner target :: rest =>
    if _hknown : states.contains target = false then .error (.unknownInclude owner target)
    else if _hpath : target ∈ path then expandEach path rest
    else
      match expandEach (target :: path) (partsOf states target) with
      | .error e => .error e
      | .ok inner => (expandEach path rest).map (inner ++ ·)
termination_by parts => (othersCount states path, parts.length)
decreasing_by
  · exact Prod.Lex.right _ (Nat.lt_succ_self _)
  · exact Prod.Lex.right _ (Nat.lt_succ_self _)
  · exact Prod.Lex.left _ _ (othersCount_cons_lt (by simpa using _hknown) _hpath)
  · exact Prod.Lex.right _ (Nat.lt_succ_self _)

/-- The rules that parts bring in, where each state is expanded when it is first met, and then the states met, the last one
first. -/
def expandOnce (met : List String) : List Part → List RulePlace × List String
  | [] => ([], met)
  | .rule place :: rest => ((expandOnce met rest).map (place :: ·) id)
  | .include _ target :: rest =>
    if _hskip : states.contains target = false ∨ target ∈ met then expandOnce met rest
    else expandOnce (target :: met) (partsOf states target ++ rest)
termination_by parts => (othersCount states met, parts.length)
decreasing_by
  · exact Prod.Lex.right _ (Nat.lt_succ_self _)
  · exact Prod.Lex.right _ (Nat.lt_succ_self _)
  · rw [not_or] at _hskip
    exact Prod.Lex.left _ _ (othersCount_cons_lt (by simpa using _hskip.1) _hskip.2)

end

/-! ## What is expanded -/

section
variable {states : Dict String (List Entry)}

theorem mem_partsFrom_include {owner o target : String} : ∀ {index : Nat} {entries : List Entry},
    Part.include o target ∈ partsFrom owner index entries ↔ o = owner ∧ Entry.include target ∈ entries
  | _, [] => by simp [partsFrom]
  | index, e :: rest => by
    have ih : Part.include o target ∈ partsFrom owner (index + 1) rest ↔ o = owner ∧ Entry.include target ∈ rest :=
      mem_partsFrom_include
    cases e <;> simp [partsFrom, ih]
    grind

theorem mem_partsFrom_rule {owner : String} {place : RulePlace} : ∀ {index : Nat} {entries : List Entry},
    Part.rule place ∈ partsFrom owner index entries → place.state = owner ∧ index ≤ place.index
  | _, [], h => by simp [partsFrom] at h
  | index, e :: rest, h => by
    have ih : Part.rule place ∈ partsFrom owner (index + 1) rest → place.state = owner ∧ index ≤ place.index :=
      fun h => (mem_partsFrom_rule h).imp_right Nat.le_of_succ_le
    cases e <;> simp only [partsFrom, List.mem_cons, Part.rule.injEq, reduceCtorEq, false_or] at h
    · rcases h with rfl | h
      · exact ⟨rfl, Nat.le_refl _⟩
      · exact ih h
    · rcases h with rfl | h
      · exact ⟨rfl, Nat.le_refl _⟩
      · exact ih h
    · exact ih h
    · exact ih h

/-- The places of the rules among parts. -/
def placesIn (parts : List Part) : List RulePlace :=
  parts.filterMap fun
    | .rule place => some place
    | .include _ _ => none

theorem mem_placesIn {place : RulePlace} {parts : List Part} : place ∈ placesIn parts ↔ Part.rule place ∈ parts := by
  simp only [placesIn, List.mem_filterMap]
  constructor
  · rintro ⟨_ | _, hmem, hplace⟩
    · cases hplace
      exact hmem
    · cases hplace
  · exact fun h => ⟨_, h, rfl⟩

theorem nodup_placesIn (owner : String) : ∀ (index : Nat) (entries : List Entry),
    (placesIn (partsFrom owner index entries)).Nodup
  | _, [] => List.nodup_nil
  | index, e :: rest => by
    have ih := nodup_placesIn owner (index + 1) rest
    have hnew : (⟨owner, index⟩ : RulePlace) ∉ placesIn (partsFrom owner (index + 1) rest) :=
      fun h => Nat.not_succ_le_self index (mem_partsFrom_rule (mem_placesIn.mp h)).2
    cases e with
    | rule r => exact List.nodup_cons.mpr ⟨hnew, ih⟩
    | inline r entries => exact List.nodup_cons.mpr ⟨hnew, ih⟩
    | «include» target => exact ih
    | defaultKind kind => exact ih

theorem state_of_mem_placesIn {name : String} {p : RulePlace} (h : p ∈ placesIn (partsOf states name)) :
    p.state = name := (mem_partsFrom_rule (mem_placesIn.mp h)).1

/-- What parts bring in stands in them or in a state outside of the path. -/
theorem mem_expandEach {path : List String} {parts : List Part} {places : List RulePlace}
    (h : expandEach states path parts = .ok places) :
    ∀ p ∈ places, p ∈ placesIn parts ∨ (p.state ∉ path ∧ p ∈ placesIn (partsOf states p.state)) := by
  fun_induction expandEach states path parts generalizing places with
  | case1 path =>
    cases h
    exact fun _ h => (nomatch h)
  | case2 path place rest ih =>
    obtain ⟨more, hmore, rfl⟩ := Pattern.map_eq_ok.mp h
    have hplace : place ∈ placesIn (.rule place :: rest) := List.mem_cons_self
    exact List.forall_mem_cons.mpr ⟨.inl hplace, fun p hp => (ih hmore p hp).imp_left (List.mem_cons_of_mem _)⟩
  | case3 => cases h
  | case4 path owner target rest hknown hpath ih => exact ih h
  | case5 => cases h
  | case6 path owner target rest hknown hpath inner hinner ihinner ihrest =>
    obtain ⟨more, hmore, rfl⟩ := Pattern.map_eq_ok.mp h
    intro p hp
    rcases List.mem_append.mp hp with hp | hp
    · rcases ihinner hinner p hp with hp | ⟨hp, hplace⟩
      · have hstate := state_of_mem_placesIn hp
        exact .inr ⟨hstate ▸ hpath, hstate ▸ hp⟩
      · exact .inr ⟨fun hmem => hp (List.mem_cons_of_mem _ hmem), hplace⟩
    · exact ihrest hmore p hp

theorem expandOnce_append (met : List String) (parts more : List Part) :
    expandOnce states met (parts ++ more) =
      ((expandOnce states met parts).1 ++ (expandOnce states (expandOnce states met parts).2 more).1,
        (expandOnce states (expandOnce states met parts).2 more).2) := by
  fun_induction expandOnce states met parts with
  | case1 met => simp
  | case2 met place rest ih =>
    rw [List.cons_append, expandOnce, ih]
    rfl
  | case3 met owner target rest hskip ih => rw [List.cons_append, expandOnce, dif_pos hskip, ih]
  | case4 met owner target rest hskip ih => rw [List.cons_append, expandOnce, dif_neg hskip, ← List.append_assoc, ih]

/-- The part has been dealt with: its rule is among the places, its state has been met. -/
def Part.Settled (states : Dict String (List Entry)) (met : List String) (out : List RulePlace) : Part → Prop
  | .rule place => place ∈ out
  | .include _ target => states.contains target = true ∧ target ∈ met

/-- Where a traversal stands that has put out `out`: the states on the path are being expanded, the others that have been
met are done with. -/
structure Explored (states : Dict String (List Entry)) (path met : List String) (out : List RulePlace) : Prop where
  path_subset : path ⊆ met
  state_mem : ∀ p ∈ out, p.state ∈ met
  settled : ∀ n ∈ met, n ∉ path → ∀ part ∈ partsOf states n, part.Settled states met out

section
variable {path met met' : List String} {parts : List Part} {out out' places : List RulePlace}

theorem Part.Settled.mono {part : Part} (h : part.Settled states met out) (hmet : met ⊆ met') (hout : out ⊆ out') :
    part.Settled states met' out' := by
  cases part with
  | rule place => exact hout h
  | «include» owner target => exact ⟨h.1, hmet h.2⟩

/-- To put out more rules of states that have been met changes nothing. -/
theorem Explored.append {more : List RulePlace} (h : Explored states path met out) (hmore : ∀ p ∈ more, p.state ∈ met) :
    Explored states path met (out ++ more) where
  path_subset := h.path_subset
  state_mem := List.forall_mem_append.mpr ⟨h.state_mem, hmore⟩
  settled n hn hpath part hpart :=
    (h.settled n hn hpath part hpart).mono (List.Subset.refl _) (List.subset_append_left _ _)

/-- The path gets longer by a state that is met for the first time. -/
theorem Explored.enter (h : Explored states path met out) (target : String) :
    Explored states (target :: path) (target :: met) out where
  path_subset := List.cons_subset_cons _ h.path_subset
  state_mem p hp := List.mem_cons_of_mem _ (h.state_mem p hp)
  settled n hn hpath part hpart := by
    rw [List.mem_cons, not_or] at hpath
    have hmet := (List.mem_cons.mp hn).resolve_left hpath.1
    exact (h.settled n hmet hpath.2 part hpart).mono (List.subset_cons_self _ _) (List.Subset.refl _)

/-- A state whose parts are all dealt with leaves the path. -/
theorem Explored.leave {target : String} (h : Explored states (target :: path) met out)
    (htarget : ∀ part ∈ partsOf states target, part.Settled states met out) : Explored states path met out where
  path_subset := (List.cons_subset.mp h.path_subset).2
  state_mem := h.state_mem
  settled n hn hpath := by
    by_cases heq : n = target
    · exact heq ▸ htarget
    · exact h.settled n hn (by simp [heq, hpath])

/-- Expanding once more what has been dealt with brings in nothing new. -/
theorem subset_of_settled {path' : List String} (h : Explored states path met out) (hpath : path ⊆ path')
    (hparts : ∀ part ∈ parts, part.Settled states met out) (hplaces : expandEach states path' parts = .ok places) :
    places ⊆ out := by
  fun_induction expandEach states path' parts generalizing places with
  | case1 path' =>
    cases hplaces
    exact List.nil_subset _
  | case2 path' place rest ih =>
    obtain ⟨more, hmore, rfl⟩ := Pattern.map_eq_ok.mp hplaces
    obtain ⟨hplace, hrest⟩ := List.forall_mem_cons.mp hparts
    exact List.cons_subset.mpr ⟨hplace, ih hpath hrest hmore⟩
  | case3 => cases hplaces
  | case4 path' owner target rest hknown htarget ih =>
    exact ih hpath (List.forall_mem_cons.mp hparts).2 hplaces
  | case5 => cases hplaces
  | case6 path' owner target rest hknown htarget inner hinner ihinner ihrest =>
    obtain ⟨more, hmore, rfl⟩ := Pattern.map_eq_ok.mp hplaces
    obtain ⟨hmet, hrest⟩ := List.forall_mem_cons.mp hparts
    have hdone : ∀ part ∈ partsOf states target, part.Settled states met out :=
      h.settled target hmet.2 fun hmem => htarget (hpath hmem)
    exact List.append_subset.mpr
      ⟨ihinner (fun _ hn => List.mem_cons_of_mem _ (hpath hn)) hdone hinner, ihrest hpath hrest hmore⟩

theorem eraseDups_append_of_subset {more : List RulePlace} (h : more ⊆ out) : (out ++ more).eraseDups = out.eraseDups := by
  have hnone : more.removeAll out = [] := List.filter_eq_nil_iff.mpr fun p hp => by simpa using h hp
  rw [List.eraseDups_append, hnone, List.eraseDups_nil, List.append_nil]

theorem eraseDups_concat {p : RulePlace} (h : p ∉ out) : (out ++ [p]).eraseDups = out.eraseDups ++ [p] := by
  have hnew : [p].removeAll out = [p] := by simp [List.removeAll, h]
  rw [List.eraseDups_append, hnew]
  rfl

/-- Without repetitions, expanding at each include puts out what expanding at the first one does. -/
theorem eraseDups_expandEach (h : Explored states path met out)
    (hnew : ∀ p ∈ placesIn parts, p.state ∈ path ∧ p ∉ out) (hnodup : (placesIn parts).Nodup)
    (hplaces : expandEach states path parts = .ok places) :
    (out ++ places).eraseDups = out.eraseDups ++ (expandOnce states met parts).1 ∧
      met ⊆ (expandOnce states met parts).2 ∧
      Explored states path (expandOnce states met parts).2 (out ++ places) ∧
      ∀ part ∈ parts, part.Settled states (expandOnce states met parts).2 (out ++ places) := by
  fun_induction expandEach states path parts generalizing places met out with
  | case1 path =>
    cases hplaces
    simp only [expandOnce, List.append_nil, List.not_mem_nil, false_implies, implies_true, and_true, true_and]
    exact ⟨List.Subset.refl _, h⟩
  | case2 path place rest ih =>
    obtain ⟨more, hmore, rfl⟩ := Pattern.map_eq_ok.mp hplaces
    obtain ⟨⟨hpath, hout⟩, hrest⟩ := List.forall_mem_cons.mp hnew
    obtain ⟨hne, hnodup⟩ := List.nodup_cons.mp hnodup
    have hnext : Explored states path met (out ++ [place]) :=
      h.append fun p hp => List.mem_singleton.mp hp ▸ h.path_subset hpath
    obtain ⟨hdups, hmet, hexplored, hsettled⟩ := ih hnext
      (fun p hp => ⟨(hrest p hp).1, by
        rw [List.mem_append, List.mem_singleton, not_or]
        exact ⟨(hrest p hp).2, fun he => hne (he ▸ hp)⟩⟩) hnodup hmore
    rw [List.append_assoc, List.singleton_append] at hdups hexplored hsettled
    rw [expandOnce]
    refine ⟨?_, hmet, hexplored, List.forall_mem_cons.mpr ⟨by simp [Part.Settled], hsettled⟩⟩
    rw [hdups, eraseDups_concat hout, List.append_assoc]
    rfl
  | case3 => cases hplaces
  | case4 path owner target rest hknown hpath ih =>
    have htarget := h.path_subset hpath
    obtain ⟨hdups, hmet, hexplored, hsettled⟩ := ih h hnew hnodup hplaces
    rw [expandOnce, dif_pos (.inr htarget)]
    exact ⟨hdups, hmet, hexplored, List.forall_mem_cons.mpr ⟨⟨by simpa using hknown, hmet htarget⟩, hsettled⟩⟩
  | case5 => cases hplaces
  | case6 path owner target rest hknown hpath inner hinner ihinner ihrest =>
    obtain ⟨more, hmore, rfl⟩ := Pattern.map_eq_ok.mp hplaces
    have hknown : states.contains target = true := by simpa using hknown
    by_cases htarget : target ∈ met
    · -- The state has been expanded before, along another path.
      have hdone := h.settled target htarget hpath
      have hsub : inner ⊆ out := subset_of_settled h (List.subset_cons_self _ _) hdone hinner
      obtain ⟨hdups, hmet, hexplored, hsettled⟩ := ihrest (h.append fun p hp => h.state_mem p (hsub hp))
        (fun p hp => ⟨(hnew p hp).1, by
          rw [List.mem_append, not_or]
          exact ⟨(hnew p hp).2, fun hmem => (hnew p hp).2 (hsub hmem)⟩⟩) hnodup hmore
      rw [List.append_assoc] at hdups hexplored hsettled
      rw [expandOnce, dif_pos (.inr htarget)]
      refine ⟨?_, hmet, hexplored, List.forall_mem_cons.mpr ⟨⟨hknown, hmet htarget⟩, hsettled⟩⟩
      rw [hdups, eraseDups_append_of_subset hsub]
    · obtain ⟨hdups₁, hmet₁, hexplored₁, hsettled₁⟩ := ihinner (h.enter target)
        (fun p hp => by
          have hstate := state_of_mem_placesIn hp
          exact ⟨hstate ▸ List.mem_cons_self, fun hmem => htarget (hstate ▸ h.state_mem p hmem)⟩)
        (nodup_placesIn target 0 _) hinner
      have hafter : Explored states path (expandOnce states (target :: met) (partsOf states target)).2 (out ++ inner) :=
        hexplored₁.leave hsettled₁
      obtain ⟨hdups, hmet, hexplored, hsettled⟩ := ihrest hafter
        (fun p hp => ⟨(hnew p hp).1, by
          rw [List.mem_append, not_or]
          refine ⟨(hnew p hp).2, fun hmem => ?_⟩
          rcases mem_expandEach hinner p hmem with hmem | ⟨hmem, -⟩
          · exact hpath (state_of_mem_placesIn hmem ▸ (hnew p hp).1)
          · exact hmem (List.mem_cons_of_mem _ (hnew p hp).1)⟩) hnodup hmore
      rw [List.append_assoc] at hdups hexplored hsettled
      have hmet' := List.Subset.trans hmet₁ hmet
      rw [expandOnce, dif_neg (by simp [hknown, htarget]), expandOnce_append]
      refine ⟨?_, List.Subset.trans (List.subset_cons_self _ _) hmet', hexplored,
        List.forall_mem_cons.mpr ⟨⟨hknown, hmet' List.mem_cons_self⟩, hsettled⟩⟩
      rw [hdups, hdups₁, List.append_assoc]

end

/-! ## What is reached -/

/-- The state includes the other one, which exists. -/
def Includes (states : Dict String (List Entry)) (name target : String) : Prop :=
  Entry.include target ∈ entriesOf states name ∧ states.contains target = true

/-- The state includes another one that does not exist. -/
def Lacks (states : Dict String (List Entry)) (name target : String) : Prop :=
  Entry.include target ∈ entriesOf states name ∧ states.contains target = false

def Reaches (states : Dict String (List Entry)) : String → String → Prop := Relation.ReflTransGen (Includes states)

theorem mem_partsOf_include {name owner target : String} :
    Part.include owner target ∈ partsOf states name ↔ owner = name ∧ Entry.include target ∈ entriesOf states name :=
  mem_partsFrom_include

section
variable {name : String} {parts : List Part}
  (hparts : ∀ owner target, Part.include owner target ∈ parts →
    Reaches states name owner ∧ Entry.include target ∈ entriesOf states owner)
include hparts

/-- The parts of a state that is reached are those of such states again. -/
theorem reaches_of_mem_partsOf {o t : String} (hinclude : Part.include o t ∈ parts) (hknown : states.contains t = true) :
    Reaches states name t ∧ ∀ owner target, Part.include owner target ∈ partsOf states t →
      Reaches states name owner ∧ Entry.include target ∈ entriesOf states owner := by
  obtain ⟨hreaches, hmem⟩ := hparts o t hinclude
  have hnext : Reaches states name t := hreaches.tail ⟨hmem, hknown⟩
  refine ⟨hnext, fun owner target h => ?_⟩
  obtain ⟨rfl, hmem⟩ := mem_partsOf_include.mp h
  exact ⟨hnext, hmem⟩

theorem reaches_of_mem_expandOnce {met : List String} (hmet : ∀ n ∈ met, Reaches states name n) :
    ∀ n ∈ (expandOnce states met parts).2, Reaches states name n := by
  fun_induction expandOnce states met parts with
  | case1 met => exact hmet
  | case2 met place rest ih => exact ih (fun o t h => hparts o t (List.mem_cons_of_mem _ h)) hmet
  | case3 met owner target rest hskip ih => exact ih (fun o t h => hparts o t (List.mem_cons_of_mem _ h)) hmet
  | case4 met owner target rest hskip ih =>
    rw [not_or] at hskip
    obtain ⟨hreaches, hinner⟩ := reaches_of_mem_partsOf hparts List.mem_cons_self (by simpa using hskip.1)
    refine ih (fun o t h => ?_) (List.forall_mem_cons.mpr ⟨hreaches, hmet⟩)
    rcases List.mem_append.mp h with h | h
    · exact hinner o t h
    · exact hparts o t (List.mem_cons_of_mem _ h)

theorem exists_lacks_of_error {path : List String} {e : Error} (h : expandEach states path parts = .error e) :
    ∃ n target, Reaches states name n ∧ Lacks states n target ∧ e = .unknownInclude n target := by
  fun_induction expandEach states path parts with
  | case1 => cases h
  | case2 path place rest ih =>
    exact ih (fun o t h => hparts o t (List.mem_cons_of_mem _ h)) (Pattern.map_eq_error.mp h)
  | case3 path owner target rest hknown =>
    cases h
    obtain ⟨hreaches, hmem⟩ := hparts owner target List.mem_cons_self
    exact ⟨owner, target, hreaches, ⟨hmem, hknown⟩, rfl⟩
  | case4 path owner target rest hknown hpath ih => exact ih (fun o t h => hparts o t (List.mem_cons_of_mem _ h)) h
  | case5 path owner target rest hknown hpath e' hinner ih =>
    cases h
    obtain ⟨-, hinner'⟩ := reaches_of_mem_partsOf hparts List.mem_cons_self (by simpa using hknown)
    exact ih hinner' hinner
  | case6 path owner target rest hknown hpath inner hinner ihinner ihrest =>
    exact ihrest (fun o t h => hparts o t (List.mem_cons_of_mem _ h)) (Pattern.map_eq_error.mp h)

end

theorem nodup_expandOnce {met : List String} {parts : List Part} (hmet : met.Nodup) :
    (expandOnce states met parts).2.Nodup := by
  fun_induction expandOnce states met parts with
  | case1 met => exact hmet
  | case2 met place rest ih => exact ih hmet
  | case3 met owner target rest hskip ih => exact ih hmet
  | case4 met owner target rest hskip ih => exact ih (List.nodup_cons.mpr ⟨fun h => hskip (.inr h), hmet⟩)

/-! ## The rules of a state -/

/-- The places of the rules of a state, with those of the states that it includes on every path. -/
def placesOf (states : Dict String (List Entry)) (name : String) : Except Error (List RulePlace) :=
  expandEach states [name] (partsOf states name)

/-- The places of the rules of a state, each state that it includes expanded when it is first met. -/
def spliceOf (states : Dict String (List Entry)) (name : String) : List RulePlace × List String :=
  expandOnce states [name] (partsOf states name)

theorem explored_start (name : String) : Explored states [name] [name] [] where
  path_subset := List.Subset.refl _
  state_mem _ h := nomatch h
  settled _ hn hpath := absurd hn hpath

theorem includes_of_mem_partsOf (name : String) (owner target : String)
    (h : Part.include owner target ∈ partsOf states name) :
    Reaches states name owner ∧ Entry.include target ∈ entriesOf states owner := by
  obtain ⟨rfl, hmem⟩ := mem_partsOf_include.mp h
  exact ⟨Relation.ReflTransGen.refl, hmem⟩

theorem explored_spliceOf {name : String} {places : List RulePlace} (h : placesOf states name = .ok places) :
    places.eraseDups = (spliceOf states name).1 ∧ name ∈ (spliceOf states name).2 ∧
      Explored states [] (spliceOf states name).2 places := by
  obtain ⟨hdups, hmet, hexplored, hsettled⟩ := eraseDups_expandEach (explored_start name)
    (fun p hp => ⟨List.mem_singleton.mpr (state_of_mem_placesIn hp), List.not_mem_nil⟩)
    (nodup_placesIn name 0 _) h
  exact ⟨hdups, hmet List.mem_cons_self, hexplored.leave hsettled⟩

theorem rule_of_mem_partsFrom {name : String} {p : RulePlace} : ∀ (before : List Entry) {entries : List Entry},
    entriesOf states name = before ++ entries → Part.rule p ∈ partsFrom name before.length entries →
    (ruleAt? states p).isSome
  | _, [], _, hp => by simp [partsFrom] at hp
  | before, e :: rest, hentries, hp => by
    have hrest : entriesOf states name = (before ++ [e]) ++ rest := by simp [hentries]
    have hlater := fun h : Part.rule p ∈ partsFrom name (before ++ [e]).length rest => rule_of_mem_partsFrom _ hrest h
    have hhere : (entriesOf states name)[before.length]? = some e := by simp [hentries]
    rw [List.length_append, List.length_singleton] at hlater
    cases e with
    | rule r =>
      rcases List.mem_cons.mp hp with hp | hp
      · cases hp
        simp [ruleAt?, hhere, Entry.rule?]
      · exact hlater hp
    | inline r inner =>
      rcases List.mem_cons.mp hp with hp | hp
      · cases hp
        simp [ruleAt?, hhere, Entry.rule?]
      · exact hlater hp
    | «include» target => exact hlater ((List.mem_cons.mp hp).resolve_left (by simp))
    | defaultKind kind => exact hlater hp

/-- What an entry of `name` adds to the rules in front of it, when the states on the path are being expanded. -/
def includeStep (states : Dict String (List Entry)) (room : Nat) (path : List String) (name : String)
    (rules : List Rule) : Entry → Except Error (List Rule)
  | .rule r | .inline r _ => .ok (rules ++ [r])
  | .include target =>
    if !states.contains target then .error (.unknownInclude name target)
    else if path.contains target then .ok rules
    else (includedRules states room path target).map (rules ++ ·)
  | .defaultKind _ => .ok rules

theorem includedRules_succ (room : Nat) (path : List String) (name : String) :
    includedRules states (room + 1) path name =
      (entriesOf states name).foldlM (includeStep states room (name :: path) name) [] := by
  unfold includedRules
  refine congrArg (fun step => (entriesOf states name).foldlM step []) (funext fun rules => funext fun e => ?_)
  cases e <;> rfl

theorem foldlM_includeStep {room : Nat} {path : List String} {name : String}
    (hinner : ∀ target, states.contains target = true → target ∉ path → includedRules states room path target =
      (expandEach states (target :: path) (partsOf states target)).map (·.filterMap (ruleAt? states))) :
    ∀ (before entries : List Entry) (rules : List Rule), entriesOf states name = before ++ entries →
      entries.foldlM (includeStep states room path name) rules =
        (expandEach states path (partsFrom name before.length entries)).map (rules ++ ·.filterMap (ruleAt? states))
  | before, [], rules, _ => by
    rw [partsFrom, expandEach]
    simp [Except.map, pure, Except.pure]
  | before, e :: rest, rules, hentries => by
    have hrest : entriesOf states name = (before ++ [e]) ++ rest := by simp [hentries]
    have hlater := fun rules => foldlM_includeStep hinner (before ++ [e]) rest rules hrest
    have hhere : (entriesOf states name)[before.length]? = some e := by simp [hentries]
    rw [List.length_append, List.length_singleton] at hlater
    rw [List.foldlM_cons]
    cases e with
    | rule r =>
      have hplace : ruleAt? states ⟨name, before.length⟩ = some r := by simp [ruleAt?, hhere, Entry.rule?]
      simp only [includeStep, bind, Except.bind, hlater, partsFrom, expandEach]
      cases expandEach states path (partsFrom name (before.length + 1) rest) <;> simp [Except.map, hplace]
    | inline r inner =>
      have hplace : ruleAt? states ⟨name, before.length⟩ = some r := by simp [ruleAt?, hhere, Entry.rule?]
      simp only [includeStep, bind, Except.bind, hlater, partsFrom, expandEach]
      cases expandEach states path (partsFrom name (before.length + 1) rest) <;> simp [Except.map, hplace]
    | defaultKind kind =>
      simp only [includeStep, bind, Except.bind, hlater, partsFrom]
    | «include» target =>
      simp only [includeStep, partsFrom, expandEach]
      cases hknown : states.contains target with
      | false => rfl
      | true =>
        by_cases hpath : target ∈ path
        · simp [hpath, bind, Except.bind, hlater]
        · simp only [hpath, List.contains_iff_mem, Bool.not_true, Bool.false_eq_true, if_false, dif_neg,
            not_false_eq_true, hinner target hknown hpath]
          cases expandEach states (target :: path) (partsOf states target) with
          | error e => rfl
          | ok inner =>
            simp only [Except.map, bind, Except.bind, hlater]
            cases expandEach states path (partsFrom name (before.length + 1) rest) <;> simp

/-- There is room for every path, since no path goes through a state twice. -/
theorem includedRules_eq_expandEach : ∀ {room : Nat} {path : List String} {name : String},
    othersCount states (name :: path) < room → includedRules states room path name =
      (expandEach states (name :: path) (partsOf states name)).map (·.filterMap (ruleAt? states))
  | 0, _, _, hroom => absurd hroom (Nat.not_lt_zero _)
  | room + 1, path, name, hroom => by
    have hinner : ∀ target, states.contains target = true → target ∉ name :: path →
        includedRules states room (name :: path) target = (expandEach states (target :: name :: path)
          (partsOf states target)).map (·.filterMap (ruleAt? states)) := by
      intro target hknown hpath
      have hless := othersCount_cons_lt hknown hpath
      exact includedRules_eq_expandEach (Nat.lt_of_lt_of_le hless (Nat.le_of_lt_succ hroom))
    have hfold := foldlM_includeStep hinner [] (entriesOf states name) [] rfl
    rw [includedRules_succ, hfold]
    simp only [List.nil_append]
    rfl

theorem ruleAt?_of_placesOf {name : String} {places : List RulePlace} (h : placesOf states name = .ok places) :
    places.map (ruleAt? states) = (places.filterMap (ruleAt? states)).map some := by
  have hrule : ∀ n, ∀ p ∈ placesIn (partsOf states n), (ruleAt? states p).isSome :=
    fun n p hp => rule_of_mem_partsFrom [] rfl (mem_placesIn.mp hp)
  have hall : ∀ p ∈ places, (ruleAt? states p).isSome := by
    intro p hp
    rcases mem_expandEach h p hp with hp | ⟨-, hp⟩
    · exact hrule name p hp
    · exact hrule p.state p hp
  clear h
  induction places with
  | nil => rfl
  | cons p rest ih =>
    obtain ⟨hp, hrest⟩ := List.forall_mem_cons.mp hall
    obtain ⟨r, hr⟩ := Option.isSome_iff_exists.mp hp
    rw [List.map_cons, hr, List.filterMap_cons_some hr, List.map_cons, ih hrest]

theorem reaches_iff_of_placesOf {name : String} {places : List RulePlace} (h : placesOf states name = .ok places) :
    (∀ n, n ∈ (spliceOf states name).2 ↔ Reaches states name n) ∧
      ∀ n target, Reaches states name n → ¬ Lacks states n target := by
  obtain ⟨-, hstart, hexplored⟩ := explored_spliceOf h
  have hsettled : ∀ n ∈ (spliceOf states name).2, ∀ target, Entry.include target ∈ entriesOf states n →
      states.contains target = true ∧ target ∈ (spliceOf states name).2 :=
    fun n hn target htarget =>
      hexplored.settled n hn List.not_mem_nil (.include n target) (mem_partsOf_include.mpr ⟨rfl, htarget⟩)
  have hmet : ∀ n, Reaches states name n → n ∈ (spliceOf states name).2 := by
    intro n hn
    induction hn with
    | refl => exact hstart
    | tail _ hnext ih => exact (hsettled _ ih _ hnext.1).2
  refine ⟨fun n => ⟨fun hn => ?_, hmet n⟩, fun n target hn hlacks => ?_⟩
  · have hfirst : ∀ n ∈ [name], Reaches states name n := by
      intro n hn
      obtain rfl := List.mem_singleton.mp hn
      exact Relation.ReflTransGen.refl
    exact reaches_of_mem_expandOnce (includes_of_mem_partsOf name) hfirst n hn
  · have hknown := (hsettled n (hmet n hn) target hlacks.1).1
    rw [hlacks.2] at hknown
    cases hknown

end

/-- The rules of a state are found, however states include each other, or it is found that one that is reached includes
another one that does not exist. They are those of all that is reached, and without repetitions they stand in the order in
which a traversal comes to them that expands each state that is reached once, when it is first met. -/
theorem includedRules_eq_splice (states : Dict String (List Entry)) (name : String) :
    (∀ room, states.entries.length < room →
      includedRules states room [] name = (placesOf states name).map (·.filterMap (ruleAt? states))) ∧
    ((∃ e, includedRules states (states.entries.length + 1) [] name = .error e) ↔
      ∃ n target, Reaches states name n ∧ Lacks states n target) ∧
    (∀ e, includedRules states (states.entries.length + 1) [] name = .error e →
      ∃ n target, Reaches states name n ∧ Lacks states n target ∧ e = .unknownInclude n target) ∧
    ∀ rules, includedRules states (states.entries.length + 1) [] name = .ok rules →
      ∃ places, placesOf states name = .ok places ∧ places.map (ruleAt? states) = rules.map some ∧
        places.eraseDups = (spliceOf states name).1 ∧ (spliceOf states name).2.Nodup ∧
        ∀ n, n ∈ (spliceOf states name).2 ↔ Reaches states name n := by
  have hrooms : ∀ room, states.entries.length < room →
      includedRules states room [] name = (placesOf states name).map (·.filterMap (ruleAt? states)) :=
    fun room hroom => includedRules_eq_expandEach (Nat.lt_of_le_of_lt (othersCount_le states _) hroom)
  have herror : ∀ e, includedRules states (states.entries.length + 1) [] name = .error e →
      ∃ n target, Reaches states name n ∧ Lacks states n target ∧ e = .unknownInclude n target := by
    intro e he
    rw [hrooms _ (Nat.lt_succ_self _)] at he
    cases hplaces : placesOf states name with
    | ok places => rw [hplaces] at he; cases he
    | error e' =>
      rw [hplaces] at he
      cases he
      exact exists_lacks_of_error (includes_of_mem_partsOf name) hplaces
  refine ⟨hrooms, ⟨?_, ?_⟩, herror, ?_⟩
  · rintro ⟨e, he⟩
    obtain ⟨n, target, hreaches, hlacks, -⟩ := herror e he
    exact ⟨n, target, hreaches, hlacks⟩
  · rintro ⟨n, target, hreaches, hlacks⟩
    rw [hrooms _ (Nat.lt_succ_self _)]
    cases hplaces : placesOf states name with
    | ok places => exact absurd hlacks ((reaches_iff_of_placesOf hplaces).2 n target hreaches)
    | error e => exact ⟨e, rfl⟩
  · intro rules hrules
    rw [hrooms _ (Nat.lt_succ_self _), Pattern.map_eq_ok] at hrules
    obtain ⟨places, hplaces, rfl⟩ := hrules
    exact ⟨places, hplaces, ruleAt?_of_placesOf hplaces, (explored_spliceOf hplaces).1,
      nodup_expandOnce (List.nodup_singleton name), (reaches_iff_of_placesOf hplaces).1⟩

/-- States that include each other, and one that two others include. -/
def sampleIncludes : Dict String (List Entry) :=
  Dict.ofList [
    ("a", [.include "c", .include startState, .rule { token := .literal "x", regex := "1" }]),
    ("b", [.include "a", .rule { token := .literal "x", regex := "2" }, .include "c"]),
    ("c", [.rule { token := .literal "x", regex := "3" }, .include "a"]),
    (startState, [.include "a", .rule { token := .literal "x", regex := "4" }, .include "b"])]

theorem includedRules_eq_splice_cycles :
    (∃ rules, includedRules sampleIncludes 5 [] startState = .ok rules ∧
      rules.map (·.regex) = ["3", "1", "4", "3", "1", "2", "3", "1"] ∧
      ∃ places, placesOf sampleIncludes startState = .ok places ∧ places.map (ruleAt? sampleIncludes) = rules.map some ∧
        places.eraseDups = [⟨"c", 0⟩, ⟨"a", 2⟩, ⟨startState, 1⟩, ⟨"b", 1⟩]) ∧
    includedRules (sampleIncludes.erase "c") 4 [] "b" = .error (.unknownInclude "a" "c") ∧
    ∃ n target, Reaches (sampleIncludes.erase "c") "b" n ∧ Lacks (sampleIncludes.erase "c") n target ∧
      Error.unknownInclude "a" "c" = .unknownInclude n target := by
  have hsplice : (spliceOf sampleIncludes startState).1 = [⟨"c", 0⟩, ⟨"a", 2⟩, ⟨startState, 1⟩, ⟨"b", 1⟩] := by
    have ha : partsOf sampleIncludes "a" = [.include "a" "c", .include "a" "start", .rule ⟨"a", 2⟩] := rfl
    have hb : partsOf sampleIncludes "b" = [.include "b" "a", .rule ⟨"b", 1⟩, .include "b" "c"] := rfl
    have hc : partsOf sampleIncludes "c" = [.rule ⟨"c", 0⟩, .include "c" "a"] := rfl
    have hstart : partsOf sampleIncludes "start" = [.include "start" "a", .rule ⟨"start", 1⟩, .include "start" "b"] := rfl
    obtain ⟨hknownA, hknownB, hknownC⟩ : sampleIncludes.contains "a" = true ∧ sampleIncludes.contains "b" = true ∧
      sampleIncludes.contains "c" = true := by decide +kernel
    simp [spliceOf, startState, expandOnce, ha, hb, hc, hstart, hknownA, hknownB, hknownC]
  obtain ⟨rules, hrules, hregexes⟩ : ∃ rules, includedRules sampleIncludes 5 [] startState = .ok rules ∧
      rules.map (·.regex) = ["3", "1", "4", "3", "1", "2", "3", "1"] := ⟨_, rfl, by decide +kernel⟩
  obtain ⟨-, -, -, hok⟩ := includedRules_eq_splice sampleIncludes startState
  obtain ⟨places, hplaces, hmap, hdups, -⟩ := hok rules hrules
  obtain ⟨-, -, herror, -⟩ := includedRules_eq_splice (sampleIncludes.erase "c") "b"
  have hmissing : includedRules (sampleIncludes.erase "c") 4 [] "b" = .error (.unknownInclude "a" "c") := rfl
  exact ⟨⟨rules, hrules, hregexes, places, hplaces, hmap, hdups.trans hsplice⟩, hmissing, herror _ hmissing⟩

end Scribe
