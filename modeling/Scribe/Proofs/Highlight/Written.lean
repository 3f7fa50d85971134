import Scribe.Highlight.ModeFile
import Scribe.Proofs.Dict
import Scribe.Proofs.Json.Written

/-!
# Tables that read back

A table reads back from its text, unless it is nested too deeply to be read at all. A table that was read
never is.
-/

namespace Scribe.ModeFile

open Json (told)

/-! ## Rules -/

/-- The fields of a rule, each with the value that it has, if any. -/
def Rule.optionals (r : Rule) (push : Option Json) : List (String × Option Json) :=
  [("token", some r.token.toJson), ("regex", some (.text r.regex)), ("next", r.next.map .text), ("push", push),
    ("pop", if r.pop then some (.bool true) else none),
    ("caseInsensitive", if r.caseless then some (.bool true) else none), ("merge", r.merge.map .bool)]

theorem ofFields_toFields (r : Rule) (push : Option Json) :
    Json.ofFields (r.toFields push) = .obj (told (r.optionals push)) := by
  obtain ⟨token, regex, next, pop, caseless, merge⟩ := r
  cases next <;> cases push <;> cases pop <;> cases caseless <;> cases merge <;> rfl

theorem simple?_told (r : Rule) (push : Option Json) : simple? (told (r.optionals push)) = none := by
  simp [simple?, Json.once, Json.fieldValues_told, Rule.optionals]

theorem get?_push (r : Rule) (push : Option Json) :
    (Json.Record.named (told (r.optionals push))).get? 3 ["push"] = some push :=
  Json.get?_told 3 "push" (by simp [Rule.optionals])

theorem token?_toJson (token : TokenText) : token? token.toJson = some token := by
  cases token with
  | one kind => rfl
  | many kinds =>
    have hkinds : (kinds.map Json.text).mapM Json.string? = some kinds := Json.mapM_map_eq_some fun _ _ => rfl
    simp [TokenText.toJson, token?, Json.strings?, hkinds]

theorem isPlain_optionals (r : Rule) {push : Option Json} (h : ∀ v ∈ push, v.isPlain = true) :
    Json.fieldsPlain (told (r.optionals push)) = true := by
  have htoken : r.token.toJson.isPlain = true := by
    cases r.token with
    | one kind => rfl
    | many kinds => simp [TokenText.toJson, Json.isPlain, Json.itemsPlain_iff]
  refine Json.fieldsPlain_told ?_
  simp only [Rule.optionals, List.forall_mem_cons, List.not_mem_nil, Option.mem_some_iff, forall_eq']
  refine ⟨htoken, rfl, ?_, h, ?_, ?_, ?_, nofun⟩
  · simp
  · cases r.pop <;> simp [Json.isPlain]
  · cases r.caseless <;> simp [Json.isPlain]
  · cases r.merge <;> simp [Json.isPlain]

theorem rule?_told (r : Rule) (push : Option Json) : rule? (.named (told (r.optionals push))) = some r := by
  let f := Json.Record.named (told (r.optionals push))
  have htoken : f.get? 0 ["token"] = some (some r.token.toJson) := Json.get?_told 0 "token" (by simp [Rule.optionals])
  have hregex : f.get? 1 ["regex"] = some (some (.text r.regex)) := Json.get?_told 1 "regex" (by simp [Rule.optionals])
  have hnext : f.get? 2 ["next"] = some (r.next.map .text) := Json.get?_told 2 "next" (by simp [Rule.optionals])
  have hpop : f.get? 4 ["pop"] = some (if r.pop then some (.bool true) else none) :=
    Json.get?_told 4 "pop" (by simp [Rule.optionals])
  have hcaseless : f.get? 5 ["caseInsensitive"] = some (if r.caseless then some (.bool true) else none) :=
    Json.get?_told 5 "caseInsensitive" (by simp [Rule.optionals])
  have hmerge : f.get? 6 ["merge"] = some (r.merge.map .bool) := Json.get?_told 6 "merge" (by simp [Rule.optionals])
  have hexcess : f.excess 7 = 0 := rfl
  have htoken' : Json.fieldOr (.one Token.textKind) token? (some r.token.toJson) = some r.token := token?_toJson r.token
  show rule? f = some r
  simp [rule?, htoken, hregex, hnext, hpop, hcaseless, hmerge, hexcess, htoken', Json.text, Json.string?]

/-! ## Entries -/

theorem exists_fields (e : Entry) : ∃ fields, e.toJson = .obj fields := by
  cases e <;> exact ⟨_, by rw [Entry.toJson]; rfl⟩

mutual

theorem isPlain_toJson : ∀ e : Entry, e.toJson.isPlain = true
  | .include state => by simp [Entry.toJson, Json.ofFields, Json.isPlain, Json.fieldsPlain]
  | .defaultKind kind => by simp [Entry.toJson, Json.ofFields, Json.isPlain, Json.fieldsPlain]
  | .rule r push => by
    rw [Entry.toJson, ofFields_toFields, Json.isPlain]
    exact isPlain_optionals r fun v hv => by
      obtain ⟨state, -, rfl⟩ := Option.map_eq_some_iff.mp hv
      rfl
  | .inline r entries => by
    rw [Entry.toJson, ofFields_toFields, Json.isPlain]
    exact isPlain_optionals r fun v hv => by
      obtain rfl := Option.some.inj hv
      exact itemsPlain_toJsonAll entries

theorem itemsPlain_toJsonAll : ∀ entries : List Entry, Json.itemsPlain (Entry.toJsonAll entries) = true
  | [] => rfl
  | e :: rest => by rw [Entry.toJsonAll, Json.itemsPlain, isPlain_toJson e, itemsPlain_toJsonAll rest, Bool.and_self]

end

mutual

/-- Two steps for each level are enough to read an entry back. -/
theorem asEntry_toJson : ∀ {room : Nat} (e : Entry), 2 * e.toJson.depth ≤ room → asEntry room e.toJson = some e
  | 0, e, h => by
    obtain ⟨fields, hfields⟩ := exists_fields e
    rw [hfields, Json.depth] at h
    omega
  | 1, e, h => by
    obtain ⟨fields, hfields⟩ := exists_fields e
    rw [hfields, Json.depth] at h
    omega
  | room + 2, .include state, _ => by
    simp [Entry.toJson, Json.ofFields, asEntry, simple?, Json.once, Json.fieldValues, Json.string?, Json.text]
  | room + 2, .defaultKind kind, _ => by
    simp [Entry.toJson, Json.ofFields, asEntry, simple?, Json.once, Json.fieldValues, Json.string?, Json.text]
  | room + 2, .rule r push, _ => by
    rw [Entry.toJson, ofFields_toFields, asEntry, simple?_told, asRuleEntry, rule?_told, get?_push]
    cases push <;> rfl
  | room + 2, .inline r entries, h => by
    have hpush : (some "push", Json.arr (Entry.toJsonAll entries)) ∈
        told (r.optionals (some (.arr (Entry.toJsonAll entries)))) := Json.mem_told (by simp [Rule.optionals])
    have hdepth := Json.fieldsDepth_le_iff.mp (Nat.le_refl _) _ hpush
    rw [Entry.toJson, ofFields_toFields] at h ⊢
    simp only [Json.depth] at h hdepth
    have hentries := mapM_toJsonAll room entries (by omega)
    rw [asEntry, simple?_told, asRuleEntry, rule?_told, get?_push]
    simp [hentries, assemble]

theorem mapM_toJsonAll : ∀ (room : Nat) (entries : List Entry), 2 * Json.itemsDepth (Entry.toJsonAll entries) ≤ room →
    (Entry.toJsonAll entries).mapM (asEntry room) = some entries
  | room, [], _ => rfl
  | room, e :: rest, h => by
    rw [Entry.toJsonAll, Json.itemsDepth] at h
    rw [Entry.toJsonAll, List.mapM_cons, asEntry_toJson e (by omega), mapM_toJsonAll room rest (by omega)]
    rfl

end

/-! ## Depth -/

/-- How deep the value of a field can be. -/
def recordDepth : Json.Record → Nat
  | .named fields => Json.fieldsDepth fields
  | .listed items => Json.itemsDepth items

theorem depth_get? {f : Json.Record} {place : Nat} {names : List String} {v : Json}
    (h : f.get? place names = some (some v)) : v.depth ≤ recordDepth f := by
  cases f with
  | named fields =>
    have hmem : v ∈ names.flatMap (Json.fieldValues fields) := by
      simp only [Json.Record.get?] at h
      split at h
      · cases h
      · rename_i heq
        cases h
        rw [heq]
        exact List.mem_singleton_self v
      · cases h
    obtain ⟨name, -, hv⟩ := List.mem_flatMap.mp hmem
    obtain ⟨field, hfield, rfl⟩ := List.mem_map.mp hv
    exact Json.fieldsDepth_le_iff.mp (Nat.le_refl _) field (List.mem_filter.mp hfield).1
  | listed items =>
    have hat : items[place]? = some v := by simpa [Json.Record.get?] using h
    exact Json.itemsDepth_le_iff.mp (Nat.le_refl _) v (List.mem_of_getElem? hat)

theorem depth_token {token : TokenText} {v : Json} (h : token? v = some token) : token.toJson.depth ≤ v.depth := by
  cases token with
  | one kind => exact Nat.zero_le _
  | many kinds =>
    have hkinds : (TokenText.many kinds).toJson.depth ≤ 1 := by
      rw [TokenText.toJson, Json.depth]
      have htexts : Json.itemsDepth (kinds.map .text) ≤ 0 := by
        rw [Json.itemsDepth_le_iff]
        simp
      omega
    cases v with
    | arr items =>
      rw [Json.depth]
      omega
    | null | bool | num | str | obj => simp [token?, Json.strings?] at h

theorem depth_rule {f : Json.Record} {r : Rule} (h : rule? f = some r) : r.token.toJson.depth ≤ recordDepth f := by
  unfold rule? at h
  split at h
  · cases h
  · simp only [Option.bind_eq_bind, Option.bind_eq_some_iff] at h
    obtain ⟨o, ho, token, htoken, hrest⟩ := h
    have hr : token = r.token := by grind
    rw [← hr]
    cases o with
    | none =>
      cases htoken
      exact Nat.zero_le _
    | some v => exact Nat.le_trans (depth_token htoken) (depth_get? ho)

theorem depth_toFields {r : Rule} {push : Option Json} {n : Nat} (htoken : r.token.toJson.depth ≤ n)
    (hpush : ∀ v ∈ push, v.depth ≤ n) : (Json.ofFields (r.toFields push)).depth ≤ n + 1 := by
  rw [ofFields_toFields, Json.depth, Nat.add_le_add_iff_right]
  refine Json.fieldsDepth_told ?_
  simp only [Rule.optionals, List.forall_mem_cons, List.not_mem_nil, Option.mem_some_iff, forall_eq']
  refine ⟨htoken, by simp, ?_, hpush, ?_, ?_, ?_, nofun⟩
  · simp
  · cases r.pop <;> simp [Json.depth]
  · cases r.caseless <;> simp [Json.depth]
  · cases r.merge <;> simp [Json.depth]

theorem depth_simple? {fields : List (Option String × Json)} {e : Entry} (h : simple? fields = some e) :
    e.toJson.depth ≤ 1 := by
  have hshape : (∃ state, e = .include state) ∨ ∃ kind, e = .defaultKind kind := by
    unfold simple? at h
    split at h
    · exact .inl ⟨_, (Option.some.inj h).symm⟩
    · split at h
      · exact .inr ⟨_, (Option.some.inj h).symm⟩
      · cases h
  rcases hshape with ⟨state, rfl⟩ | ⟨kind, rfl⟩ <;> simp [Entry.toJson, Json.ofFields, Json.depth, Json.fieldsDepth]

theorem toJsonAll_eq (entries : List Entry) : Entry.toJsonAll entries = entries.map Entry.toJson := by
  induction entries with
  | nil => rfl
  | cons e rest ih => rw [Entry.toJsonAll, ih, List.map_cons]

theorem depth_mapM {room : Nat} (hroom : ∀ {v : Json} {e : Entry}, asEntry room v = some e → e.toJson.depth ≤ v.depth)
    {items : List Json} {entries : List Entry} (h : items.mapM (asEntry room) = some entries) :
    Json.itemsDepth (Entry.toJsonAll entries) ≤ Json.itemsDepth items := by
  rw [toJsonAll_eq, Json.itemsDepth_le_iff, List.forall_mem_map]
  intro e he
  obtain ⟨v, hv, hread⟩ := Json.exists_of_mem_mapM h he
  exact Nat.le_trans (hroom hread) (Json.itemsDepth_le_iff.mp (Nat.le_refl _) v hv)

mutual

/-- An entry is not written any deeper than it was read. -/
theorem depth_asEntry : ∀ {room : Nat} {v : Json} {e : Entry}, asEntry room v = some e → e.toJson.depth ≤ v.depth
  | 0, _, _, h => by simp [asEntry] at h
  | room + 1, .obj fields, e, h => by
    rw [asEntry] at h
    split at h
    · rename_i e' hsimple
      obtain rfl := Option.some.inj h
      have hone := depth_simple? hsimple
      rw [Json.depth]
      omega
    · exact depth_asRuleEntry h
  | room + 1, .arr items, e, h => by
    rw [asEntry] at h
    exact depth_asRuleEntry h
  | room + 1, .null, _, h | room + 1, .bool _, _, h | room + 1, .num _, _, h | room + 1, .str _, _, h => by
    simp [asEntry] at h

theorem depth_asRuleEntry : ∀ {room : Nat} {f : Json.Record} {e : Entry}, asRuleEntry room f = some e →
    e.toJson.depth ≤ recordDepth f + 1
  | 0, _, _, h => by simp [asRuleEntry] at h
  | room + 1, f, e, h => by
    simp only [asRuleEntry, Option.bind_eq_bind, Option.bind_eq_some_iff] at h
    obtain ⟨r, hr, o, ho, h⟩ := h
    have hrule := depth_rule hr
    have hnamed : ∀ push : Option String, (Entry.rule r push).toJson.depth ≤ recordDepth f + 1 := fun push =>
      depth_toFields hrule (by simp)
    split at h
    · obtain rfl := Option.some.inj h
      exact hnamed none
    · obtain rfl := Option.some.inj h
      exact hnamed none
    · rename_i s
      cases s with
      | none => cases h
      | some state =>
        obtain rfl := Option.some.inj h
        exact hnamed (some state)
    · rename_i items
      cases hentries : items.mapM (asEntry room) with
      | none => simp [hentries] at h
      | some entries =>
        rw [hentries] at h
        obtain rfl := Option.some.inj h
        have hitems := depth_mapM depth_asEntry hentries
        have harr := depth_get? ho
        rw [Json.depth] at harr
        refine depth_toFields hrule ?_
        simp only [Option.mem_some_iff, forall_eq', Json.depth]
        omega
    · cases h

end

/-! ## Tables -/

/-- The value of each state. -/
def stateValues (f : ModeFile) : List (Option String × Json) :=
  f.states.entries.map fun e => (some e.1, .arr (Entry.toJsonAll e.2))

theorem toJson_eq (f : ModeFile) : f.toJson = .obj f.stateValues := by
  simp [toJson, stateValues, Json.ofFields]

theorem depth_toJson_le_iff {f : ModeFile} {n : Nat} :
    f.toJson.depth ≤ n + 2 ↔ ∀ e ∈ f.states.entries, Json.itemsDepth (Entry.toJsonAll e.2) ≤ n := by
  have hfields : f.toJson.depth ≤ n + 2 ↔ Json.fieldsDepth f.stateValues ≤ n + 1 := by
    rw [toJson_eq, Json.depth]
    omega
  rw [hfields, Json.fieldsDepth_le_iff, stateValues, List.forall_mem_map]
  simp [Json.depth]

theorem isPlain_stateValues (f : ModeFile) : f.toJson.isPlain = true := by
  rw [toJson_eq, Json.isPlain, Json.fieldsPlain_iff, stateValues, List.forall_mem_map]
  exact fun e _ => ⟨rfl, itemsPlain_toJsonAll e.2⟩

theorem read?_write_eq (f : ModeFile) : read? f.write = ofJson? f.toJson := by
  rw [read?, write, Json.read?_write (isPlain_stateValues f), Option.bind_some]

/-- A table reads back if it is not too deep. -/
theorem read?_write {f : ModeFile} (hordered : f.states.keys.Pairwise (· < ·)) (hdepth : f.toJson.depth ≤ maxDepth) :
    read? f.write = some f := by
  have hentries := depth_toJson_le_iff.mp hdepth
  have hstates : f.stateValues.mapM state? = some f.states.entries := by
    refine Json.mapM_map_eq_some fun e he => ?_
    have hroom : 2 * Json.itemsDepth (Entry.toJsonAll e.2) ≤ 2 * maxDepth :=
      Nat.mul_le_mul_left 2 (Nat.le_trans (hentries e he) (Nat.le_add_right 125 2))
    simp [state?, mapM_toJsonAll _ e.2 hroom]
  have hfits : (decide (maxDepth < f.toJson.depth) || !f.toJson.isMeaningful) = false := by
    simp [Json.isMeaningful_of_isPlain (isPlain_stateValues f), hdepth]
  rw [read?_write_eq]
  unfold ofJson?
  rw [hfits, if_neg (by simp), toJson_eq]
  simp [hstates, Dict.ofList_entries lt_asymm hordered]

theorem read?_write_eq_none {f : ModeFile} (hdepth : maxDepth < f.toJson.depth) : read? f.write = none := by
  rw [read?_write_eq]
  unfold ofJson?
  rw [if_pos (by simp [hdepth])]

theorem exists_of_state? {field : Option String × Json} {e : String × List Entry} (h : state? field = some e) :
    ∃ name items, field = (some name, .arr items) ∧ items.mapM (asEntry (2 * maxDepth)) = some e.2 := by
  unfold state? at h
  split at h
  · rename_i name items
    obtain ⟨entries, hentries, he⟩ := Option.bind_eq_some_iff.mp h
    obtain rfl := Option.some.inj he
    exact ⟨name, items, rfl, hentries⟩
  · cases h

/-- A table that was read can be written and read again. -/
theorem ordered_of_read? {text : String} {f : ModeFile} (h : read? text = some f) :
    f.states.keys.Pairwise (· < ·) ∧ f.toJson.depth ≤ maxDepth := by
  obtain ⟨v, -, hv⟩ := Option.bind_eq_some_iff.mp h
  unfold ofJson? at hv
  split at hv
  · cases hv
  · rename_i hfits
    split at hv
    · rename_i fields
      obtain ⟨states, hstates, rfl⟩ := Option.map_eq_some_iff.mp hv
      refine ⟨Dict.pairwise_ofList (fun _ _ _ => lt_trans) String.lt_total states,
        depth_toJson_le_iff.mpr fun e he => ?_⟩
      obtain ⟨field, hfield, hstate⟩ := Json.exists_of_mem_mapM hstates ((Dict.mem_insertMany he).resolve_right nofun)
      have hdepth : Json.fieldsDepth fields ≤ 126 := by
        have hfit : ¬ maxDepth < (Json.obj fields).depth := fun hdeep => hfits (by simp [hdeep])
        rw [Json.depth, maxDepth] at hfit
        omega
      obtain ⟨name, items, hitems, hread⟩ := exists_of_state? hstate
      have harr := Json.fieldsDepth_le_iff.mp hdepth field hfield
      rw [hitems, Json.depth] at harr
      have hentries := depth_mapM depth_asEntry hread
      omega
    · cases hv

/-- A table that was read is written in such a way that it reads as itself, and is written the same way again. -/
theorem read?_write_of_read? {text : String} {f : ModeFile} (h : read? text = some f) :
    read? f.write = some f ∧ (read? f.write).map write = some f.write := by
  obtain ⟨hordered, hdepth⟩ := ordered_of_read? h
  have hread := read?_write hordered hdepth
  exact ⟨hread, by rw [hread, Option.map_some]⟩

/-- A rule as a list of its fields, and one without kinds that pushes a list. -/
theorem read?_write_of_read?_nested :
    let text := "\x7b\"a\": [[\"\\u0078\", \"y\"]], " ++
      "\"\": [\x7b\"regex\": \"\", \"token\": [], \"push\": [\x7b\"include\": \"a\"\x7d]\x7d]\x7d"
    let written := "\x7b\"\":[\x7b\"token\":[],\"regex\":\"\",\"push\":[\x7b\"include\":\"a\"\x7d]\x7d]," ++
      "\"a\":[\x7b\"token\":\"x\",\"regex\":\"y\"\x7d]\x7d"
    ∃ f, read? text = some f ∧ f.write = written ∧ read? written = some f := by
  intro text written
  have hwritten : (read? text).map write = some written := by decide +kernel
  obtain ⟨f, hread, hwrite⟩ := Option.map_eq_some_iff.mp hwritten
  exact ⟨f, hread, hwrite, hwrite ▸ (read?_write_of_read? hread).1⟩

end Scribe.ModeFile
