import DreamBerd.Ledger
import DreamBerd.Number

/-!
# Rows

The body of a list: its elements, and the places of the indices that programs use. Indices start at
-1, and an index between two others can be given an element of its own. Each index has a place; the
element of place `p` stands at position `p + 1`.
-/

namespace DreamBerd

/-- Elements and the places of their indices. -/
structure Row (α : Type) where
  items : List α
  places : Ledger Number Int

/-- Which element to take out. -/
inductive Removal where
  | last
  /-- The one with the given index; the index may be no number. -/
  | index (i : Option Number)

def greatestIndex {α : Type} (places : Ledger Number α) : Except Fault Number :=
  match places.keys with
  | [] => .error (.breakdown .value)
  | k :: ks => .ok (ks.foldl (fun m x => if m.scalarLt x then x else m) k)

/-- Fail unless an index lies between -1 and `length - 1`. -/
def checkBounds (what : String) (length : Nat) (i : Number) : Except Fault Unit := do
  if ← Number.between (.int (-1)) i (.int (length - 1)) then return ()
  else .error (.plain (.outOfBounds what))

/-- The position of the element that a removal at an index takes out. -/
def removalPosition (what : String) (length : Nat) (i : Option Number) : Except Fault Nat := do
  match i with
  | none => .error (.plain (.popNeedsInteger what))
  | some i =>
    if ← i.isInt then
      checkBounds what length i
      return ((← i.round) + 1).toNat
    else .error (.plain (.popNeedsInteger what))

namespace Row

variable {α : Type}

/-- The indices of a row with `n` elements: from -1 on. -/
def freshPlaces (n : Nat) : Ledger Number Int :=
  ⟨(List.range n).map fun (i : Nat) => (.int ((i : Int) - 1), (i : Int) - 1)⟩

def ofList (items : List α) : Row α := ⟨items, freshPlaces items.length⟩

/-- Add an element at the end, with the next index. -/
def push (r : Row α) (x : α) : Except Fault (Row α) := do
  let key ← (← greatestIndex r.places).add (.int 1)
  return ⟨r.items ++ [x], r.places.put key ((r.items.length : Int) - 1)⟩

/-- Take out an element; the places of the indices stay. -/
def pop (r : Row α) (at? : Removal) : Except Fault (α × Row α) := do
  match at? with
  | .last =>
    match r.items.getLast? with
    | some x => return (x, ⟨r.items.dropLast, r.places⟩)
    | none => .error (.breakdown .position)
  | .index i =>
    let n ← removalPosition "list" r.items.length i
    match r.items[n]? with
    | some x => return (x, ⟨r.items.eraseIdx n, r.places⟩)
    | none => .error (.breakdown .position)

def get (r : Row α) (i : Option Number) : Except Fault α := do
  match i with
  | none => .error (.plain (.indexNotNumber "list"))
  | some i =>
    checkBounds "list" r.items.length i
    match r.places.get? i with
    | none => .error (.plain .noValueAtIndex)
    | some p =>
      match atPosition? r.items (p + 1) with
      | some x => return x
      | none => .error (.breakdown .position)

def shiftAbove (i : Number) (n : Int) (places : Ledger Number Int) : Ledger Number Int :=
  places.mapWithKey fun k p => if i.scalarLt k then p + n else p

/-- Give an index an element: replace the one it has, or insert one between its neighbours. -/
def set (r : Row α) (i : Option Number) (x : α) : Except Fault (Row α) := do
  match i with
  | none => .error (.plain (.indexNotNumber "list"))
  | some i =>
    checkBounds "list" r.items.length i
    if r.places.contains i then
      let n := ((← i.round) + 1).toNat
      if n < r.items.length then
        return ⟨r.items.set n x, r.places.put (.int n) n⟩
      else .error (.breakdown .position)
    else
      let n ← i.insertionPoint
      return ⟨spliceAt r.items n [x], shiftAbove i 1 (r.places.put i ((n : Int) - 1))⟩

end Row

end DreamBerd
