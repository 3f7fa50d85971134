import Scribe.Proofs.Dict
import Scribe.Proofs.Library.Built

/-!
# What a name stands for

Each mode of a library has a name of its own, which was given to it when it was added, but that name may have come to
stand for another mode. A table that is added under a name goes to the mode that the name stands for, whether or not the
name is the mode's own.
-/

namespace Scribe.Library

/-! ## Names and places -/

/-- The names that modes were added with. -/
def ownNames (l : Library) : List String := l.modes.map (·.name)

/-- Every name has a mode, and every mode a name of its own that is still known. -/
structure Placed (l : Library) : Prop where
  ordered : l.places.keys.Pairwise (· < ·)
  bounded : ∀ {name : String} {place : Nat}, l.places.get? name = some place → place < l.modes.length
  distinct : l.ownNames.Nodup
  owned : ∀ name ∈ l.ownNames, l.contains name = true

theorem get?_places_insert (places : Dict String Nat) (name k : String) (place : Nat) :
    (places.insert name place).get? k = if k = name then some place else places.get? k :=
  Dict.get?_insert lt_irrefl String.lt_total places name k place

theorem contains_places_insert (places : Dict String Nat) (name k : String) (place : Nat) :
    (places.insert name place).contains k = (k == name || places.contains k) := by
  rw [Dict.contains, get?_places_insert]
  by_cases hk : k = name
  · simp [hk]
  · simp [hk, Dict.contains]

theorem pairwise_places_insert {places : Dict String Nat} (h : places.keys.Pairwise (· < ·)) (name : String)
    (place : Nat) : (places.insert name place).keys.Pairwise (· < ·) :=
  Dict.pairwise_insertEntry (fun _ _ _ => lt_trans) String.lt_total name place h

theorem setMode_of_some {l : Library} {name : String} {place : Nat} (hp : l.places.get? name = some place)
    (t : Tokenizer) (source : Option ModeFile) :
    l.setMode name t source = { l with modes := l.modes.modify place fun m => { m with tokenizer := t, source } } := by
  simp only [setMode, hp]

theorem setMode_of_none {l : Library} {name : String} (hp : l.places.get? name = none) (t : Tokenizer)
    (source : Option ModeFile) :
    l.setMode name t source = { l with modes := l.modes ++ [⟨name, t, source⟩]
                                       places := l.places.insert name l.modes.length } := by
  simp only [setMode, hp]

theorem ownNames_modify (modes : List Mode) (place : Nat) (t : Tokenizer) (source : Option ModeFile) :
    (modes.modify place fun m => { m with tokenizer := t, source }).map (·.name) = modes.map (·.name) := by
  refine List.ext_getElem? fun i => ?_
  rw [List.getElem?_map, List.getElem?_map, List.getElem?_modify]
  cases modes[i]? with
  | none => rfl
  | some m => by_cases hi : place = i <;> simp [hi]

section
variable {l : Library} (h : l.Placed)
include h

theorem Placed.setMode (name : String) (t : Tokenizer) (source : Option ModeFile) : (l.setMode name t source).Placed := by
  cases hp : l.places.get? name with
  | some place =>
    have hnames := ownNames_modify l.modes place t source
    rw [setMode_of_some hp]
    exact
      { ordered := h.ordered
        bounded := fun hk => by simpa using h.bounded hk
        distinct := by simpa only [ownNames, hnames] using h.distinct
        owned := fun k hk => h.owned k (by simpa only [ownNames, hnames] using hk) }
  | none =>
    have hnew : name ∉ l.ownNames := fun hmem => by
      have hknown := h.owned name hmem
      simp [contains, Dict.contains, hp] at hknown
    rw [setMode_of_none hp]
    refine ⟨pairwise_places_insert h.ordered name _, fun {k place} hk => ?_, ?_, fun k hk => ?_⟩
    · rw [get?_places_insert] at hk
      rw [List.length_append, List.length_singleton]
      split at hk
      · cases hk
        exact Nat.lt_succ_self _
      · exact Nat.lt_succ_of_lt (h.bounded hk)
    · rw [ownNames, List.map_append, List.map_singleton]
      exact List.nodup_append.mpr ⟨h.distinct, List.nodup_singleton _, by
        rintro a ha b hb rfl
        rw [List.mem_singleton.mp hb] at ha
        exact hnew ha⟩
    · rw [contains, contains_places_insert, Bool.or_eq_true, beq_iff_eq]
      rw [ownNames, List.map_append, List.map_singleton] at hk
      rcases List.mem_append.mp hk with hk | hk
      · exact .inr (h.owned k hk)
      · exact .inl (List.mem_singleton.mp hk)

theorem Placed.addAlias (mode name : String) : (l.addAlias mode name).Placed := by
  unfold Library.addAlias
  split
  · rename_i place hp
    refine ⟨pairwise_places_insert h.ordered name place, fun {k place'} hk => ?_, h.distinct, fun k hk => ?_⟩
    · rw [get?_places_insert] at hk
      split at hk
      · cases hk
        exact h.bounded hp
      · exact h.bounded hk
    · rw [contains, contains_places_insert, Bool.or_eq_true]
      exact .inr (h.owned k hk)
  · exact h

end

theorem placed_withOptions (options : ScanOptions) : (withOptions options).Placed where
  ordered := List.Pairwise.nil
  bounded h := by simp [withOptions, Dict.empty, Dict.get?] at h
  distinct := List.nodup_nil
  owned _ h := by simp [withOptions, ownNames] at h

theorem Built.placed {l : Library} (h : l.Built) : l.Placed := by
  induction h with
  | new options => exact placed_withOptions options
  | table _ ha ih =>
    obtain ⟨t, -, rfl⟩ := exists_of_addTable ha
    exact ih.setMode _ t none
  | file _ ha ih =>
    obtain ⟨t, -, rfl⟩ := exists_of_addFile ha
    exact ih.setMode _ t _
  | named mode name _ ih => exact ih.addAlias mode name
  | snippets scope definitions _ ih => exact ⟨ih.ordered, ih.bounded, ih.distinct, ih.owned⟩

/-! ## Looking up -/

theorem sameMode_eq_ok_iff {l : Library} {k name : String} :
    l.sameMode k name = .ok true ↔ ∃ place, l.places.get? k = some place ∧ l.places.get? name = some place := by
  unfold sameMode
  cases l.places.get? k with
  | none => simp
  | some place =>
    cases l.places.get? name with
    | none => simp
    | some place' =>
      simp only [Except.ok.injEq, beq_iff_eq, Option.some.injEq, exists_eq_left']
      exact eq_comm

theorem mode?_of_get? {l : Library} (h : l.Placed) {name : String} {place : Nat} (hp : l.places.get? name = some place) :
    ∃ m, l.modes[place]? = some m ∧ l.mode? name = some m :=
  ⟨_, List.getElem?_eq_getElem (h.bounded hp), by rw [mode?, hp, Option.bind_some, List.getElem?_eq_getElem (h.bounded hp)]⟩

theorem tokenizer_eq_of_mode? {l l' : Library} {name : String}
    (h : (l'.mode? name).map (·.tokenizer) = (l.mode? name).map (·.tokenizer)) : l'.tokenizer name = l.tokenizer name := by
  unfold tokenizer
  cases hm : l.mode? name <;> cases hm' : l'.mode? name <;> simp_all

/-- A table goes to all the names of the mode that its name stands for. -/
theorem tokenizer_setMode {l : Library} (h : l.Placed) (name : String) (t : Tokenizer) (source : Option ModeFile)
    (k : String) : (l.setMode name t source).tokenizer k =
      if k = name ∨ l.sameMode k name = .ok true then .ok t else l.tokenizer k := by
  cases hp : l.places.get? name with
  | none =>
    have hshare : ¬ l.sameMode k name = .ok true := fun hs => by
      obtain ⟨place, -, hname⟩ := sameMode_eq_ok_iff.mp hs
      rw [hp] at hname
      cases hname
    rw [setMode_of_none hp]
    by_cases hk : k = name
    · simp [hk, tokenizer, mode?, get?_places_insert]
    · rw [if_neg (not_or.mpr ⟨hk, hshare⟩)]
      refine tokenizer_eq_of_mode? ?_
      simp only [mode?, get?_places_insert, if_neg hk]
      cases hplace : l.places.get? k with
      | none => rfl
      | some place => simp [List.getElem?_append_left (h.bounded hplace)]
  | some place =>
    rw [setMode_of_some hp]
    cases hk : l.places.get? k with
    | none =>
      have hne : k ≠ name := fun he => by simp [he, hp] at hk
      simp [sameMode_eq_ok_iff, tokenizer, mode?, hk, hne]
    | some place' =>
      obtain ⟨m, hm, hmode⟩ := mode?_of_get? h hk
      by_cases hplace : place = place'
      · have hshare : l.sameMode k name = .ok true := sameMode_eq_ok_iff.mpr ⟨place, hplace ▸ hk, hp⟩
        rw [if_pos (.inr hshare)]
        simp [tokenizer, mode?, hk, hm, hplace]
      · have hne : k ≠ name := fun he => by
          rw [he, hp] at hk
          exact hplace (Option.some.inj hk)
        have hshare : ¬ l.sameMode k name = .ok true := fun hs => by
          obtain ⟨p, hk', hp'⟩ := sameMode_eq_ok_iff.mp hs
          rw [hk] at hk'
          rw [hp] at hp'
          exact hplace (Option.some.inj (hp'.trans hk'.symm))
        rw [if_neg (not_or.mpr ⟨hne, hshare⟩)]
        simp [tokenizer, mode?, hk, hm, hplace]

/-! ## Adding under a name -/

/-- A table made in code, or one written in a file. -/
def tableOf : RuleTable ⊕ ModeFile → RuleTable
  | .inl table => table
  | .inr file => file.toTable

def add (l : Library) (name : String) : RuleTable ⊕ ModeFile → Except Error Library
  | .inl table => l.addTable name table
  | .inr file => l.addFile name file

/-- What there is after an addition: one that fails is given up. -/
def keptAfter (l : Library) : Except Error Library → Library
  | .ok l' => l'
  | .error _ => l

theorem add_eq (l : Library) (name : String) (source : RuleTable ⊕ ModeFile) :
    l.add name source =
      (Tokenizer.compile (tableOf source) l.options).map fun t => l.setMode name t source.getRight? := by
  cases source with
  | inl table => exact addTable_eq l name table
  | inr file => exact addFile_eq l name file

/-- The names of the other modes keep their tables exactly if none of them stands for the mode that gets the new one,
or only for one with that very table. -/
theorem others_kept_iff {l : Library} (h : l.Placed) (name : String) (t : Tokenizer) (source : Option ModeFile) :
    (∀ other ∈ l.ownNames, other ≠ name → (l.setMode name t source).tokenizer other = l.tokenizer other) ↔
      ∀ other ∈ l.ownNames, other ≠ name → l.sameMode other name = .ok true → l.tokenizer other = .ok t := by
  refine forall_congr' fun other => forall_congr' fun _ => forall_congr' fun hne => ?_
  rw [tokenizer_setMode h]
  constructor
  · intro hkept hshare
    rw [← hkept, if_pos (.inr hshare)]
  · intro hshared
    by_cases hshare : l.sameMode other name = .ok true
    · rw [if_pos (.inr hshare), hshared hshare]
    · rw [if_neg (not_or.mpr ⟨hne, hshare⟩)]

/-- A table that compiles is what its name stands for from then on, as are the names that share a mode with it, and no
other name. A table that does not compile changes nothing. -/
theorem add_replaces {l : Library} (h : l.Built) (name : String) (source : RuleTable ⊕ ModeFile) :
    (∀ t, Tokenizer.compile (tableOf source) l.options = .ok t →
      ∃ l', l.add name source = .ok l' ∧ l'.tokenizer name = .ok t ∧
        (∀ k, l'.tokenizer k = if k = name ∨ l.sameMode k name = .ok true then .ok t else l.tokenizer k) ∧
        ((∀ other ∈ l.ownNames, other ≠ name → l'.tokenizer other = l.tokenizer other) ↔
          ∀ other ∈ l.ownNames, other ≠ name → l.sameMode other name = .ok true → l.tokenizer other = .ok t)) ∧
    (∀ e, Tokenizer.compile (tableOf source) l.options = .error e →
      l.add name source = .error e ∧ l.keptAfter (l.add name source) = l) := by
  constructor
  · intro t ht
    have hlookup := tokenizer_setMode h.placed name t source.getRight?
    refine ⟨l.setMode name t source.getRight?, by rw [add_eq, ht, Except.map], ?_, hlookup,
      others_kept_iff h.placed name t source.getRight?⟩
    rw [hlookup, if_pos (.inl rfl)]
  · intro e he
    have hadd : l.add name source = .error e := by rw [add_eq, he, Except.map]
    exact ⟨hadd, by rw [hadd, keptAfter]⟩

/-- A table for which each `x` is a token of this kind. -/
def sampleFile (kind : String) : ModeFile :=
  ⟨Dict.ofList [(startState, [.rule { token := .one kind, regex := "x" } none])]⟩

/-- A mode of a new name beside the plain one. -/
theorem add_replaces_new :
    ∃ l l' t, (withOptions default).addPlain ["txt"] = .ok l ∧ l.add "letters" (.inr (sampleFile "x")) = .ok l' ∧
      l'.tokenizer "letters" = .ok t ∧ t.tokenize "x" = [⟨[⟨"x", "x"⟩], .initial⟩] ∧
      l'.tokenizer "plain" = l.tokenizer "plain" ∧ l'.tokenizer "txt" = l.tokenizer "txt" := by
  obtain ⟨l, hl, hown, hplain, htxt, t, ht, htokens⟩ : ∃ l, (withOptions default).addPlain ["txt"] = .ok l ∧
      l.ownNames = ["plain"] ∧ l.sameMode "plain" "letters" = .error (.modeNotFound "letters") ∧
      l.sameMode "txt" "letters" = .error (.modeNotFound "letters") ∧
      ∃ t, Tokenizer.compile (sampleFile "x").toTable l.options = .ok t ∧ t.tokenize "x" = [⟨[⟨"x", "x"⟩], .initial⟩] :=
    ⟨_, rfl, by decide +kernel, by decide +kernel, by decide +kernel, _, rfl, by decide +kernel⟩
  obtain ⟨hadds, -⟩ := add_replaces (built_addPlain (.new default) hl) "letters" (.inr (sampleFile "x"))
  obtain ⟨l', hl', ht', hlookup, hothers⟩ := hadds t ht
  have hkept := hothers.mpr fun other hother _ hshare => by
    rw [hown, List.mem_singleton] at hother
    rw [hother, hplain] at hshare
    cases hshare
  exact ⟨l, l', t, hl, hl', ht', htokens, hkept "plain" (by simp [hown]) (by decide), by simp [hlookup, htxt]⟩

/-- A mode that is added under another name of the plain one becomes the plain mode, which stands in for unknown ones. -/
theorem add_replaces_plain :
    ∃ l l', (withOptions default).addPlain ["txt"] = .ok l ∧ l.ownNames = ["plain"] ∧
      l.addFile "txt" (sampleFile "x") = .ok l' ∧
      l.tokenize "unknown" "x" true = .ok [⟨[⟨"text", "x"⟩], .initial⟩] ∧
      l'.tokenize "unknown" "x" true = .ok [⟨[⟨"x", "x"⟩], .initial⟩] ∧
      l.tokenize "plain" "x" false = .ok [⟨[⟨"text", "x"⟩], .initial⟩] ∧
      l'.tokenize "plain" "x" false = .ok [⟨[⟨"x", "x"⟩], .initial⟩] :=
  ⟨_, _, rfl, by decide +kernel, rfl, by decide +kernel⟩

end Scribe.Library
