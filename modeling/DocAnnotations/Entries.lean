/-!
Maps that keep the order in which their keys first came. Writing to a key that is there keeps its
place and takes the new content.
-/

namespace DocAnnotations

/-- Contents under distinct keys, in the order in which the keys first came. -/
abbrev Entries (α : Type) := List (String × α)

namespace Entries

variable {α : Type}

def get? (entries : Entries α) (key : String) : Option α :=
  match entries with
  | [] => none
  | e :: rest => if e.1 = key then some e.2 else get? rest key

def hasKey (entries : Entries α) (key : String) : Bool :=
  entries.any (·.1 = key)

def keys (entries : Entries α) : List String :=
  entries.map (·.1)

/-- Writes `content` under `key`. -/
def insert (entries : Entries α) (key : String) (content : α) : Entries α :=
  match entries with
  | [] => [(key, content)]
  | e :: rest => if e.1 = key then (key, content) :: rest else e :: insert rest key content

def erase (entries : Entries α) (key : String) : Entries α :=
  entries.filter (·.1 ≠ key)

/-- The entries that come of writing the pairs one after another. -/
def ofPairs (pairs : List (String × α)) : Entries α :=
  pairs.foldl (fun entries p => entries.insert p.1 p.2) []

/-- The contents under `f` of their keys and contents. -/
def mapContents {β : Type} (f : String → α → β) (entries : Entries α) : Entries β :=
  entries.map fun e => (e.1, f e.1 e.2)

theorem get?_insert (entries : Entries α) (key other : String) (content : α) :
    (entries.insert key content).get? other =
      if key = other then some content else entries.get? other := by
  induction entries with
  | nil => simp [insert, get?]
  | cons e rest ih =>
    by_cases hk : e.1 = key
    · by_cases h : key = other <;> simp [insert, get?, hk, h]
    · by_cases h : e.1 = other
      · subst h
        have : key ≠ e.1 := fun h => hk h.symm
        simp [insert, get?, hk, this]
      · simp [insert, get?, hk, h, ih]

theorem keys_insert (entries : Entries α) (key : String) (content : α) :
    (entries.insert key content).keys =
      if key ∈ entries.keys then entries.keys else entries.keys ++ [key] := by
  induction entries with
  | nil => simp [insert, keys]
  | cons e rest ih =>
    simp only [keys] at ih
    by_cases hk : e.1 = key
    · simp [insert, keys, hk]
    · have hk' : key ≠ e.1 := fun h => hk h.symm
      by_cases hm : key ∈ rest.map (·.1) <;> simp [insert, keys, hk, hk', ih, hm]

end Entries

end DocAnnotations
