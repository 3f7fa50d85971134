/-!
# Dictionaries in order of key

A dictionary is a list of keys and values in ascending order of key, each key once. Names are ordered
by their characters. Inserting at a key that is present replaces its value.
-/

namespace Scribe

structure Dict (κ : Type) (α : Type) where
  entries : List (κ × α)
  deriving Repr, DecidableEq

namespace Dict

variable {κ α β : Type}

def empty : Dict κ α := ⟨[]⟩

instance : EmptyCollection (Dict κ α) := ⟨empty⟩
instance : Inhabited (Dict κ α) := ⟨empty⟩

def isEmpty (d : Dict κ α) : Bool := d.entries.isEmpty
def keys (d : Dict κ α) : List κ := d.entries.map (·.1)
def values (d : Dict κ α) : List α := d.entries.map (·.2)

def get? [DecidableEq κ] (d : Dict κ α) (k : κ) : Option α :=
  (d.entries.find? (·.1 = k)).map (·.2)

def contains [DecidableEq κ] (d : Dict κ α) (k : κ) : Bool := (d.get? k).isSome

def insertEntry [LT κ] [DecidableLT κ] (k : κ) (v : α) : List (κ × α) → List (κ × α)
  | [] => [(k, v)]
  | (k', v') :: rest =>
    if k < k' then (k, v) :: (k', v') :: rest
    else if k' < k then (k', v') :: insertEntry k v rest
    else (k, v) :: rest

def insert [LT κ] [DecidableLT κ] (d : Dict κ α) (k : κ) (v : α) : Dict κ α :=
  ⟨insertEntry k v d.entries⟩

def erase [DecidableEq κ] (d : Dict κ α) (k : κ) : Dict κ α :=
  ⟨d.entries.filter (·.1 ≠ k)⟩

def filterKeys (d : Dict κ α) (keep : κ → Bool) : Dict κ α :=
  ⟨d.entries.filter (keep ·.1)⟩

def mapValues (d : Dict κ α) (f : α → β) : Dict κ β :=
  ⟨d.entries.map fun e => (e.1, f e.2)⟩

/-- The value at a key is replaced by its image; nothing happens to an absent key. -/
def modify [DecidableEq κ] (d : Dict κ α) (k : κ) (f : α → α) : Dict κ α :=
  ⟨d.entries.map fun e => if e.1 = k then (e.1, f e.2) else e⟩

/-- Later pairs of the list win over earlier ones. -/
def insertMany [LT κ] [DecidableLT κ] (d : Dict κ α) (pairs : List (κ × α)) : Dict κ α :=
  pairs.foldl (fun d e => d.insert e.1 e.2) d

def ofList [LT κ] [DecidableLT κ] (pairs : List (κ × α)) : Dict κ α :=
  empty.insertMany pairs

end Dict

end Scribe
