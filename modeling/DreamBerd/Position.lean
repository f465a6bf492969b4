/-!
# Positions in sequences

Positions that count from the end of a sequence when they are negative.
-/

namespace DreamBerd

/-- The element at position `i`, counted from the end when `i` is negative. -/
def atPosition? {α : Type} (xs : List α) (i : Int) : Option α :=
  if 0 ≤ i then xs[i.toNat]?
  else if -(xs.length : Int) ≤ i then xs[(i + xs.length).toNat]?
  else none

/-- Where a sequence of `n` elements is cut at position `i`. -/
def cutPosition (n : Nat) (i : Int) : Nat :=
  if i < 0 then (i + n).toNat else min i.toNat n

def before {α : Type} (xs : List α) (i : Int) : List α := xs.take (cutPosition xs.length i)

def onward {α : Type} (xs : List α) (i : Int) : List α := xs.drop (cutPosition xs.length i)

/-- Insert elements in front of position `n`, or at the end. -/
def spliceAt {α : Type} (xs : List α) (n : Nat) (ys : List α) : List α :=
  xs.take n ++ ys ++ xs.drop n

end DreamBerd
