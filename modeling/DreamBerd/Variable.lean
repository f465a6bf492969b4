import DreamBerd.Fault

/-!
# Variables

A variable has a list of lifetimes, each a value with the lines it has left and the confidence that
it was given with. The value of the variable is that of the first lifetime. Lifetimes carry a tag:
copies of one lifetime have the same tag and age together.
-/

namespace DreamBerd

/-- A value of a variable for a number of lines. -/
structure Lifetime (α : Type) where
  tag : Nat
  value : α
  linesLeft : Int
  confidence : Int
  canBeReset : Bool
  canEditValue : Bool
  deriving Inhabited

/-- A variable: its lifetimes, and the values that it had before. -/
structure Variable (α : Type) where
  name : String
  lifetimes : List (Lifetime α)
  previous : List α
  deriving Inhabited

/-- The number of lines that outlasts every program. -/
def endlessLines : Int := 100000000000

namespace Variable

variable {α : Type}

def current (v : Variable α) : Except Fault (Lifetime α) :=
  match v.lifetimes with
  | l :: _ => .ok l
  | [] => .error (.plain .variableUndefined)

def value (v : Variable α) : Except Fault α := return (← v.current).value

/-- Put a lifetime in front of the first one at position `i`, and note the value that it hides. -/
def insertAt (v : Variable α) (i : Nat) (l : Lifetime α) : Except Fault (Variable α) := do
  let previous ← if i = 0 then pure (v.previous ++ [← v.value]) else pure v.previous
  return { v with lifetimes := spliceAt v.lifetimes i [l], previous }

def positionFor (confidence : Int) (ls : List (Lifetime α)) : Nat :=
  (ls.takeWhile fun l => decide (l.confidence < confidence)).length

/-- Set a variable: the new lifetime comes before those with at least its confidence. -/
def assign (v : Variable α) (l : Lifetime α) : Except Fault (Variable α) :=
  v.insertAt (positionFor l.confidence v.lifetimes) l

/-- Go through `n` positions from `i` on, and put the lifetime in front of each that has its
confidence, or at the end. -/
def insertFrom (l : Lifetime α) : Nat → Nat → Variable α → Except Fault (Variable α)
  | 0, _, v => .ok v
  | n + 1, i, v => do
    let here : Bool :=
      match v.lifetimes[i]? with
      | some old => old.confidence == l.confidence
      | none => i == v.lifetimes.length
    insertFrom l n (i + 1) (← if here then v.insertAt i l else pure v)

def redeclare (v : Variable α) (l : Lifetime α) : Except Fault (Variable α) :=
  insertFrom l (v.lifetimes.length + 1) 0 v

def clearOutdated (v : Variable α) : Variable α :=
  { v with lifetimes := v.lifetimes.filter fun l => l.linesLeft != 0 }

/-- Let a line pass: every lifetime loses a line for each of its copies. -/
def tick (v : Variable α) : Variable α :=
  clearOutdated { v with
    lifetimes := v.lifetimes.map fun l =>
      { l with linesLeft := l.linesLeft - (v.lifetimes.filter (·.tag == l.tag)).length } }

def dropTag (v : Variable α) (tag : Nat) : Variable α :=
  { v with lifetimes := v.lifetimes.filter fun l => l.tag != tag }

end Variable

end DreamBerd
