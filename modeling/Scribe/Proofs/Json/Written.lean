import Scribe.Json.Fields
import Scribe.Json.Reader
import Scribe.Json.Writer
import Mathlib.Data.List.Basic

/-!
# JSON that reads back

The compact text of a value reads as the value, as long as its strings are whole. Numbers are left out: what the
library writes has none.
-/

namespace Scribe.Json

/-! ## Values that are written -/

mutual

/-- Whether every string is whole and there is no number. -/
def isPlain : Json → Bool
  | .null | .bool _ => true
  | .num _ => false
  | .str s => s.isSome
  | .arr items => itemsPlain items
  | .obj fields => fieldsPlain fields

def itemsPlain : List Json → Bool
  | [] => true
  | v :: rest => isPlain v && itemsPlain rest

def fieldsPlain : List (Option String × Json) → Bool
  | [] => true
  | (k, v) :: rest => k.isSome && isPlain v && fieldsPlain rest

end

@[simp] theorem isPlain_text (s : String) : (text s).isPlain = true := rfl

theorem itemsPlain_iff {items : List Json} : itemsPlain items = true ↔ ∀ v ∈ items, v.isPlain = true := by
  induction items with
  | nil => simp [itemsPlain]
  | cons v rest ih => simp [itemsPlain, ih]

theorem fieldsPlain_iff {fields : List (Option String × Json)} :
    fieldsPlain fields = true ↔ ∀ f ∈ fields, f.1.isSome = true ∧ f.2.isPlain = true := by
  induction fields with
  | nil => simp [fieldsPlain]
  | cons f rest ih => simp [fieldsPlain, ih]

@[simp] theorem depth_text (s : String) : (text s).depth = 0 := rfl

theorem itemsDepth_le_iff {items : List Json} {n : Nat} : itemsDepth items ≤ n ↔ ∀ v ∈ items, v.depth ≤ n := by
  induction items with
  | nil => simp [itemsDepth]
  | cons v rest ih => rw [itemsDepth, Nat.max_le, ih, List.forall_mem_cons]

theorem fieldsDepth_le_iff {fields : List (Option String × Json)} {n : Nat} :
    fieldsDepth fields ≤ n ↔ ∀ f ∈ fields, f.2.depth ≤ n := by
  induction fields with
  | nil => simp [fieldsDepth]
  | cons f rest ih => rw [fieldsDepth, Nat.max_le, ih, List.forall_mem_cons]

mutual

theorem isMeaningful_of_isPlain : ∀ {v : Json}, v.isPlain = true → v.isMeaningful = true
  | .null, _ => rfl
  | .bool _, _ => rfl
  | .str _, h => h
  | .arr items, h => by
    rw [isPlain] at h
    exact itemsMeaningful_of_plain h
  | .obj fields, h => by
    rw [isPlain] at h
    exact fieldsMeaningful_of_plain h

theorem itemsMeaningful_of_plain : ∀ {items : List Json}, itemsPlain items = true → itemsMeaningful items = true
  | [], _ => rfl
  | v :: rest, h => by
    rw [itemsPlain, Bool.and_eq_true] at h
    rw [itemsMeaningful, isMeaningful_of_isPlain h.1, itemsMeaningful_of_plain h.2, Bool.and_self]

theorem fieldsMeaningful_of_plain : ∀ {fields : List (Option String × Json)}, fieldsPlain fields = true →
    fieldsMeaningful fields = true
  | [], _ => rfl
  | (k, v) :: rest, h => by
    rw [fieldsPlain, Bool.and_eq_true, Bool.and_eq_true] at h
    rw [fieldsMeaningful, h.1.1, isMeaningful_of_isPlain h.1.2, fieldsMeaningful_of_plain h.2]
    rfl

end

/-! ## Strings -/

theorem hexValue?_hexDigit : ∀ n < 16, hexValue? (Text.hexDigit n) = some n := by decide

theorem assemble_unit {n : Nat} (h : n < 0xd800) (pieces : List Piece) :
    assemble (.unit n :: pieces) = (assemble pieces).map (Char.ofNat n :: ·) := by
  have hhigh : isHighHalf n = false := by simp [isHighHalf]; omega
  have hlow : isLowHalf n = false := by simp [isLowHalf]; omega
  cases pieces with
  | nil => simp [assemble, hhigh, hlow]
  | cons piece pieces => cases piece <;> simp [assemble, hhigh, hlow]

theorem bind_cons (piece : Piece) (read : Option (List Piece × List Char)) :
    (read.bind fun r => some (piece :: r.1, r.2)) = read.map fun r => (piece :: r.1, r.2) :=
  Option.map_eq_bind.symm

/-- A character is read as one piece, which stands for it. -/
theorem readPieces_writeChar (c : Char) (rest : List Char) :
    ∃ piece, readPieces (writeChar c ++ rest) = (readPieces rest).map (fun r => (piece :: r.1, r.2)) ∧
      ∀ pieces, assemble (piece :: pieces) = (assemble pieces).map (c :: ·) := by
  unfold writeChar
  split
  case h_8 _ hquote hslash _ _ _ _ _ =>
    split
    · rename_i hcontrol
      have hhigh := hexValue?_hexDigit (c.toNat / 16) (by omega)
      have hlow := hexValue?_hexDigit (c.toNat % 16) (by omega)
      have hunit : hexUnit? '0' '0' (Text.hexDigit (c.toNat / 16)) (Text.hexDigit (c.toNat % 16)) = some c.toNat := by
        have hzero : hexValue? '0' = some 0 := rfl
        simp [hexUnit?, hzero, hhigh, hlow]
        omega
      refine ⟨.unit c.toNat, ?_, fun pieces => ?_⟩
      · simp [readPieces, hunit, bind_cons]
      · rw [assemble_unit (by omega), Char.ofNat_toNat]
    · rename_i hprintable
      have hback : c ≠ '\\' := hslash
      refine ⟨.char c, ?_, fun _ => rfl⟩
      rw [List.singleton_append, readPieces]
      · simp [hprintable, hback, bind_cons]
      all_goals simp_all
  all_goals
    exact ⟨.char _, by simp [readPieces, simpleEscape?, bind_cons], fun _ => rfl⟩

theorem readString_writeString (s : String) (rest : List Char) :
    readString (s.toList.flatMap writeChar ++ '"' :: rest) = some (some s, rest) := by
  have hpieces : ∀ cs : List Char, ∃ pieces, readPieces (cs.flatMap writeChar ++ '"' :: rest) = some (pieces, rest) ∧
      assemble pieces = some cs := by
    intro cs
    induction cs with
    | nil => exact ⟨[], rfl, rfl⟩
    | cons c cs ih =>
      obtain ⟨pieces, hread, hassemble⟩ := ih
      obtain ⟨piece, hpiece, hc⟩ := readPieces_writeChar c (cs.flatMap writeChar ++ '"' :: rest)
      refine ⟨piece :: pieces, ?_, by rw [hc, hassemble]; rfl⟩
      rw [List.flatMap_cons, List.append_assoc, hpiece, hread]
      rfl
  obtain ⟨pieces, hread, hassemble⟩ := hpieces s.toList
  simp [readString, hread, hassemble]

/-! ## Values -/

/-- What a value begins with. -/
theorem exists_head_writeValue : ∀ {v : Json}, v.isPlain = true →
    ∃ c rest, writeValue v = c :: rest ∧ isBlank c = false ∧ c ≠ ']'
  | .null, _ => ⟨_, _, by rw [writeValue], by decide⟩
  | .bool true, _ => ⟨_, _, by rw [writeValue], by decide⟩
  | .bool false, _ => ⟨_, _, by rw [writeValue], by decide⟩
  | .str _, _ => ⟨_, _, by rw [writeValue, writeString, List.cons_append], by decide⟩
  | .arr _, _ => ⟨_, _, by rw [writeValue], by decide⟩
  | .obj _, _ => ⟨_, _, by rw [writeValue], by decide⟩

theorem exists_head_writeItems {v : Json} {items : List Json} (h : itemsPlain (v :: items) = true) :
    ∃ c rest, writeItems (v :: items) = c :: rest ∧ isBlank c = false ∧ c ≠ ']' := by
  rw [itemsPlain, Bool.and_eq_true] at h
  obtain ⟨c, rest, hv, hc⟩ := exists_head_writeValue h.1
  cases items with
  | nil => exact ⟨c, rest ++ [']'], by rw [writeItems, hv]; rfl, hc⟩
  | cons w items => exact ⟨c, rest ++ ',' :: writeItems (w :: items), by rw [writeItems, hv]; rfl, hc⟩

theorem exists_head_writeFields (f : Option String × Json) (fields : List (Option String × Json)) :
    ∃ rest, writeFields (f :: fields) = '"' :: rest := by
  cases fields with
  | nil => exact ⟨_, by rw [writeFields, writeString]; rfl⟩
  | cons f' fields => exact ⟨_, by rw [writeFields, writeString]; rfl⟩

theorem skipBlanks_cons {c : Char} (h : isBlank c = false) (rest : List Char) : skipBlanks (c :: rest) = c :: rest :=
  List.dropWhile_cons_of_neg (by simp [h])

mutual

theorem readValue_writeValue : ∀ {v : Json} (fuel : Nat) (rest : List Char), v.isPlain = true →
    2 * (writeValue v).length ≤ fuel → readValue fuel (writeValue v ++ rest) = some (v, rest)
  | v, 0, _, h, hfuel => by
    obtain ⟨c, more, hv, -⟩ := exists_head_writeValue h
    simp [hv] at hfuel
  | .null, fuel + 1, rest, _, _ => by simp [writeValue, readValue, skipBlanks_cons, isBlank]
  | .bool true, fuel + 1, rest, _, _ => by simp [writeValue, readValue, skipBlanks_cons, isBlank]
  | .bool false, fuel + 1, rest, _, _ => by simp [writeValue, readValue, skipBlanks_cons, isBlank]
  | .str (some s), fuel + 1, rest, _, _ => by
    simp [writeValue, writeString, readValue, skipBlanks_cons, isBlank, readString_writeString]
  | .arr [], fuel + 1, rest, _, _ => by simp [writeValue, writeItems, readValue, skipBlanks_cons, isBlank]
  | .obj [], fuel + 1, rest, _, _ => by simp [writeValue, writeFields, readValue, skipBlanks_cons, isBlank]
  | .arr (v :: items), fuel + 1, rest, h, hfuel => by
    have hitems := readItems_writeItems fuel rest h (by simp only [writeValue, List.length_cons] at hfuel; omega)
    obtain ⟨c, more, hc, hblank, hne⟩ := exists_head_writeItems h
    have hskip : skipBlanks (writeItems (v :: items) ++ rest) = writeItems (v :: items) ++ rest := by
      rw [hc, List.cons_append, skipBlanks_cons hblank]
    rw [writeValue, List.cons_append, readValue, skipBlanks_cons rfl]
    simp only [hskip]
    split
    · rename_i heq
      rw [hc, List.cons_append] at heq
      exact absurd (List.cons.inj heq).1 hne
    · simp [hitems]
  | .obj (f :: fields), fuel + 1, rest, h, hfuel => by
    have hfields := readFields_writeFields fuel rest h (by simp only [writeValue, List.length_cons] at hfuel; omega)
    obtain ⟨more, hmore⟩ := exists_head_writeFields f fields
    rw [hmore, List.cons_append] at hfields
    simp [writeValue, readValue, skipBlanks_cons, isBlank, hmore, hfields]

theorem readItems_writeItems : ∀ {v : Json} {items : List Json} (fuel : Nat) (rest : List Char),
    itemsPlain (v :: items) = true → 2 * (writeItems (v :: items)).length ≤ fuel + 1 →
    readItems fuel (writeItems (v :: items) ++ rest) = some (v :: items, rest)
  | v, [], 0, _, h, hfuel => by simp [writeItems] at hfuel; omega
  | v, w :: items, 0, _, h, hfuel => by simp [writeItems] at hfuel; omega
  | v, [], fuel + 1, rest, h, hfuel => by
    rw [itemsPlain, Bool.and_eq_true] at h
    have hv := readValue_writeValue fuel (']' :: rest) h.1 (by simp [writeItems] at hfuel; omega)
    simp [writeItems, readItems, hv, skipBlanks_cons, isBlank]
  | v, w :: items, fuel + 1, rest, h, hfuel => by
    rw [itemsPlain, Bool.and_eq_true] at h
    have hv := readValue_writeValue fuel (',' :: writeItems (w :: items) ++ rest) h.1
      (by simp [writeItems] at hfuel; omega)
    have hitems := readItems_writeItems fuel rest h.2 (by simp [writeItems] at hfuel; omega)
    simp only [List.cons_append] at hv
    simp [writeItems, readItems, hv, hitems, skipBlanks_cons, isBlank]

theorem readFields_writeFields : ∀ {f : Option String × Json} {fields : List (Option String × Json)} (fuel : Nat)
    (rest : List Char), fieldsPlain (f :: fields) = true → 2 * (writeFields (f :: fields)).length ≤ fuel + 1 →
    readFields fuel (writeFields (f :: fields) ++ rest) = some (f :: fields, rest)
  | f, [], 0, _, h, hfuel => by simp [writeFields] at hfuel; omega
  | f, f' :: fields, 0, _, h, hfuel => by simp [writeFields] at hfuel; omega
  | (some k, v), [], fuel + 1, rest, h, hfuel => by
    rw [fieldsPlain, Bool.and_eq_true, Bool.and_eq_true] at h
    have hv := readValue_writeValue fuel ('\x7d' :: rest) h.1.2 (by simp [writeFields] at hfuel; omega)
    simp [writeFields, writeString, readFields, readString_writeString, hv, skipBlanks_cons, isBlank]
  | (some k, v), f :: fields, fuel + 1, rest, h, hfuel => by
    rw [fieldsPlain, Bool.and_eq_true, Bool.and_eq_true] at h
    have hv := readValue_writeValue fuel (',' :: writeFields (f :: fields) ++ rest) h.1.2
      (by simp [writeFields] at hfuel; omega)
    have hfields := readFields_writeFields fuel rest h.2 (by simp [writeFields] at hfuel; omega)
    simp only [List.cons_append] at hv
    simp [writeFields, writeString, readFields, readString_writeString, hv, hfields, skipBlanks_cons, isBlank]

end

/-- A value without numbers reads back from its text. -/
theorem read?_write {v : Json} (h : v.isPlain = true) : read? v.write = some v := by
  have hv : ∀ fuel, 2 * (writeValue v).length ≤ fuel → readValue fuel (writeValue v) = some (v, []) := fun fuel hfuel => by
    simpa using readValue_writeValue fuel [] h hfuel
  have htext : v.write.toList = writeValue v := String.toList_ofList
  simp only [read?, htext, hv _ (Nat.le_add_right _ 2)]
  rfl

/-! ## Records -/

/-- The fields that have a value. -/
def told (fields : List (String × Option Json)) : List (Option String × Json) :=
  fields.filterMap fun f => f.2.map fun v => (some f.1, v)

theorem fieldValues_told (fields : List (String × Option Json)) (name : String) :
    fieldValues (told fields) name = (fields.filter (·.1 == name)).filterMap (·.2) := by
  unfold fieldValues told
  induction fields with
  | nil => rfl
  | cons f fields ih =>
    obtain ⟨k, v⟩ := f
    by_cases hk : k = name <;> cases v <;> simp_all

theorem get?_told {fields : List (String × Option Json)} {names : List String} {v : Option Json} (place : Nat)
    (key : String) (h : names.flatMap (fun name => fields.filter (·.1 == name)) = [(key, v)]) :
    (Record.named (told fields)).get? place names = some v := by
  have hvalues : names.flatMap (fieldValues (told fields)) = v.toList := by
    have hmap := congrArg (List.filterMap fun f : String × Option Json => f.2) h
    rw [List.filterMap_flatMap] at hmap
    rw [List.flatMap_congr fun name _ => fieldValues_told fields name, hmap]
    cases v <;> rfl
  rw [Record.get?, hvalues]
  cases v <;> rfl

theorem mem_told {fields : List (String × Option Json)} {key : String} {v : Json} (h : (key, some v) ∈ fields) :
    (some key, v) ∈ told fields := List.mem_filterMap.mpr ⟨_, h, rfl⟩

theorem told_isSome (fields : List (String × Option Json)) : (told fields).all (·.1.isSome) = true := by
  simp only [told, List.all_eq_true, List.mem_filterMap, Option.map_eq_some_iff]
  rintro _ ⟨f, _, v, _, rfl⟩
  rfl

theorem fieldsPlain_told {fields : List (String × Option Json)}
    (h : ∀ f ∈ fields, ∀ v ∈ f.2, v.isPlain = true) : fieldsPlain (told fields) = true := by
  rw [fieldsPlain_iff]
  simp only [told, List.mem_filterMap, Option.map_eq_some_iff]
  rintro _ ⟨f, hf, v, hv, rfl⟩
  exact ⟨rfl, h f hf v hv⟩

theorem fieldsDepth_told {fields : List (String × Option Json)} {n : Nat}
    (h : ∀ f ∈ fields, ∀ v ∈ f.2, v.depth ≤ n) : fieldsDepth (told fields) ≤ n := by
  rw [fieldsDepth_le_iff]
  simp only [told, List.mem_filterMap, Option.map_eq_some_iff]
  rintro _ ⟨f, hf, v, hv, rfl⟩
  exact h f hf v hv

@[simp] theorem fieldOr_text (s : Option String) : fieldOr none (orNull string?) (s.map text) = some s := by
  cases s <;> rfl

@[simp] theorem fieldOr_bool (b : Option Bool) : fieldOr none (orNull bool?) (b.map bool) = some b := by
  cases b <;> rfl

@[simp] theorem fieldOr_flag (b : Bool) : fieldOr false bool? (if b then some (bool true) else none) = some b := by
  cases b <;> rfl

theorem mapM_map_eq_some {α β : Type} {f : β → Option α} {g : α → β} {items : List α}
    (h : ∀ a ∈ items, f (g a) = some a) : (items.map g).mapM f = some items := by
  induction items with
  | nil => rfl
  | cons a items ih =>
    obtain ⟨ha, hitems⟩ := List.forall_mem_cons.mp h
    simp [ha, ih hitems]

theorem exists_of_mem_mapM {α β : Type} {f : α → Option β} {b : β} : ∀ {items : List α} {results : List β},
    items.mapM f = some results → b ∈ results → ∃ a ∈ items, f a = some b
  | [], _, h, hb => by
    cases h
    cases hb
  | a :: items, results, h, hb => by
    simp only [List.mapM_cons, Option.bind_eq_bind, Option.bind_eq_some_iff] at h
    obtain ⟨b', hb', rest, hrest, hresults⟩ := h
    obtain rfl := Option.some.inj hresults
    rcases List.mem_cons.mp hb with rfl | hb
    · exact ⟨a, List.mem_cons_self, hb'⟩
    · obtain ⟨a', ha', hf⟩ := exists_of_mem_mapM hrest hb
      exact ⟨a', List.mem_cons_of_mem a ha', hf⟩

end Scribe.Json
