import Rearrange.Library

/-!
# Tables where the first entry wins

Nothing about the logic is built in.  A law is an assertion of a certain shape, and each
kind of law has a recogniser that gives the key under which such an assertion is entered.
Laws are entered into tables in the order of the library, and the first law for a
key is the one that is used.  A table keeps its entries in the order in which they
were made and never holds a key twice, so looking a key up finds the first entry
made for it.
-/

namespace Rearrange

/-- Keys with their values, in the order of entry. -/
structure Table (α β : Type) where
  entries : List (α × β) := []

namespace Table

variable {α β γ : Type} [DecidableEq α]

/-- The table without entries. -/
def empty : Table α β := ⟨[]⟩

/-- The value of a key. -/
def find? (t : Table α β) (key : α) : Option β := t.entries.lookup key

/-- Whether a key has a value. -/
def contains (t : Table α β) (key : α) : Bool := (t.find? key).isSome

/-- Enter a value unless the key has one. -/
def add (t : Table α β) (key : α) (value : β) : Table α β :=
  if t.contains key then t else ⟨t.entries ++ [(key, value)]⟩

/-- The table of the given pairs, where the first pair of a key wins. -/
def ofList (pairs : List (α × β)) : Table α β :=
  pairs.foldl (fun t p => t.add p.1 p.2) empty

/-- Give a key a new value, entering it if it has none. -/
def set (t : Table α β) (key : α) (value : β) : Table α β :=
  if t.contains key then
    ⟨t.entries.map fun e => if e.1 = key then (key, value) else e⟩
  else ⟨t.entries ++ [(key, value)]⟩

/-- The keys in the order of entry. -/
def keys (t : Table α β) : List α := t.entries.map (·.1)

/-- The values in the order of entry. -/
def values (t : Table α β) : List β := t.entries.map (·.2)

/-- The entries whose key is wanted. -/
def restrict (t : Table α β) (wanted : α → Bool) : Table α β :=
  ⟨t.entries.filter fun e => wanted e.1⟩

end Table

/-- The first assertion that is recognised for each key. -/
def Library.firstOfEach {κ : Type} [DecidableEq κ] (l : Library)
    (recognise : Assertion → Option κ) : Table κ Nat :=
  .ofList (l.entries.filterMap fun e => (recognise e.2).map (·, e.1))

end Rearrange
