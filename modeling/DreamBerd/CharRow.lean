import DreamBerd.Row

/-!
# Rows of characters

The body of a string: its characters, and the places of the indices that programs use. An index has
the character at its place, and possibly further characters that were assigned with it.
-/

namespace DreamBerd

/-- Characters and the places of their indices, each with the further characters of the index. -/
structure CharRow where
  chars : List Char
  places : Ledger Number (Int × List Char)

namespace CharRow

/-- The indices of a string with `n` characters: from -1 on. -/
def freshPlaces (n : Nat) : Ledger Number (Int × List Char) :=
  ⟨(List.range n).map fun (i : Nat) => (.int ((i : Int) - 1), (i : Int) - 1, [])⟩

def ofList (chars : List Char) : CharRow := ⟨chars, freshPlaces chars.length⟩

def ofText (s : String) : CharRow := ofList s.toList

def text (r : CharRow) : String := String.ofList r.chars

def isFresh (r : CharRow) : Bool :=
  r.places.size == r.chars.length &&
    (List.range r.chars.length).all fun (i : Nat) =>
      r.places.get? (.int ((i : Int) - 1)) == some ((i : Int) - 1, [])

/-- Add a text at the end, with the next index. -/
def push (r : CharRow) (added : List Char) : Except Fault CharRow := do
  let key ← (← greatestIndex r.places).add (.int 1)
  return ⟨r.chars ++ added, r.places.put key ((r.chars.length : Int) - 1, added.drop 1)⟩

/-- Take out a character; the places of the indices stay. -/
def pop (r : CharRow) (at? : Removal) : Except Fault (Char × CharRow) := do
  match at? with
  | .last =>
    match r.chars.getLast? with
    | some c => return (c, ⟨r.chars.dropLast, r.places⟩)
    | none => .error (.breakdown .position)
  | .index i =>
    let n ← removalPosition "string" r.chars.length i
    match r.chars[n]? with
    | some c => return (c, ⟨r.chars.eraseIdx n, r.places⟩)
    | none => .error (.breakdown .position)

def get (r : CharRow) (i : Option Number) : Except Fault (List Char) := do
  match i with
  | none => .error (.plain (.indexNotNumber "string"))
  | some i =>
    checkBounds "string" r.chars.length i
    match r.places.get? i with
    | none => .error (.plain .noValueAtIndex)
    | some (p, further) =>
      match atPosition? r.chars (p + 1) with
      | some c => return c :: further
      | none => .error (.breakdown .position)

def shiftAbove (i : Number) (n : Int) (places : Ledger Number (Int × List Char)) :
    Ledger Number (Int × List Char) :=
  places.mapWithKey fun k p => if i.scalarLt k then (p.1 + n, p.2) else p

/-- Replace the text of an index that has one. -/
def replace (r : CharRow) (i : Number) (p : Int × List Char) (added : List Char) : CharRow :=
  let start := p.1 + 1
  let excess : Int := p.2.length
  ⟨before r.chars start ++ added ++ onward r.chars (start + excess + 1),
    shiftAbove i (-excess) (r.places.put i (p.1, if added.length > 1 then added.dropLast else []))⟩

/-- Insert a text for an index that has none. -/
def insert (r : CharRow) (i : Number) (added : List Char) : Except Fault CharRow := do
  checkBounds "string" r.chars.length i
  let n ← i.insertionPoint
  return ⟨spliceAt r.chars n added,
    shiftAbove i added.length (r.places.put i ((n : Int) - 1, added.drop 1))⟩

def set (r : CharRow) (i : Number) (added : List Char) : Except Fault CharRow :=
  match r.places.get? i with
  | some p => .ok (r.replace i p added)
  | none => r.insert i added

end CharRow

end DreamBerd
