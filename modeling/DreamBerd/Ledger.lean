/-!
# Ledgers

A ledger maps keys to values and remembers the order in which the keys were first written.
-/

namespace DreamBerd

/-- Pairs of keys and values in the order of writing; each key occurs once. -/
structure Ledger (κ α : Type) where
  entries : List (κ × α)
  deriving Inhabited

namespace Ledger

variable {κ α β : Type}

def empty : Ledger κ α := ⟨[]⟩

def keys (l : Ledger κ α) : List κ := l.entries.map (·.1)

def size (l : Ledger κ α) : Nat := l.entries.length

def isEmpty (l : Ledger κ α) : Bool := l.entries.isEmpty

def map (f : α → β) (l : Ledger κ α) : Ledger κ β := ⟨l.entries.map fun e => (e.1, f e.2)⟩

def mapWithKey (f : κ → α → β) (l : Ledger κ α) : Ledger κ β :=
  ⟨l.entries.map fun e => (e.1, f e.1 e.2)⟩

variable [BEq κ]

def find (k : κ) : List (κ × α) → Option α
  | [] => none
  | e :: es => if e.1 == k then some e.2 else find k es

def get? (l : Ledger κ α) (k : κ) : Option α := find k l.entries

def contains (l : Ledger κ α) (k : κ) : Bool := (l.get? k).isSome

/-- Replace the value of the first entry with the key, or add an entry at the end. -/
def write (k : κ) (v : α) : List (κ × α) → List (κ × α)
  | [] => [(k, v)]
  | e :: es => if e.1 == k then (e.1, v) :: es else e :: write k v es

/-- Give a key a value; a key that was there keeps its place and its spelling. -/
def put (l : Ledger κ α) (k : κ) (v : α) : Ledger κ α := ⟨write k v l.entries⟩

def erase (l : Ledger κ α) (k : κ) : Ledger κ α := ⟨l.entries.filter fun e => !(e.1 == k)⟩

/-- Write the entries of the second ledger over those of the first. -/
def merge (l m : Ledger κ α) : Ledger κ α := m.entries.foldl (fun l e => l.put e.1 e.2) l

/-- The ledger with the given entries; the last value of a key counts. -/
def ofList (entries : List (κ × α)) : Ledger κ α := merge empty ⟨entries⟩

end Ledger

end DreamBerd
