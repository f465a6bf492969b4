import DreamBerd.World.Compare

/-!
# Operators
-/

namespace DreamBerd.Run

/-- Apply an operator to one value: `-` negates a number and reverses a list or string, `;` negates
the truth. -/
def operateUnary (op : Token) (r : ValueRef) : Run ValueRef := do
  match op.kind with
  | .subtract =>
    match ← value r with
    | .number n => newNumber (← ofExcept n.neg)
    | .list row _ => newList row.items.reverse
    | .string row _ => newText (String.ofList row.chars.reverse)
    | v => complainAt (.cannotNegate v.typeName) op
  | .semicolon => newTruth (← truthOf r).not
  | _ => complainAt .unknownOperator op

/-- Add numbers, or join texts if one of the values is a string. -/
def addValues (a b : ValueRef) : Run ValueRef := do
  if Store.isString (← value a) || Store.isString (← value b) then
    let s ← textOf a
    newText (s ++ (← textOf b))
  else
    let m ← numberOf a
    newNumber (← ofExcept (m.add (← numberOf b)))

/-- Division; by zero, or almost zero, it is undefined. -/
def divideNumbers (m n : Number) : Run ValueRef := do
  if ← ofExcept ((← ofExcept n.abs).lt (.real Number.precision)) then newUndefined
  else newNumber (← ofExcept (m.div n))

/-- Powers; a negative base has no power with a fractional exponent. -/
def powerOfNumbers (m n : Number) : Run ValueRef := do
  if ← ofExcept (m.lt (.real (-Number.precision))) then
    if !(← ofExcept n.isInt) then complainHere .negativeRoot
  newNumber (← ofExcept (m.pow n))

def either (a b : ValueRef) : Run ValueRef := do if ← luck then return a else return b

def orValues (a b : ValueRef) : Run ValueRef := do
  let t ← truthOf a
  match t, ← truthOf b with
  | .yes, _ => return a
  | .no, _ => return b
  | .maybe, .yes => return b
  | .maybe, .no => return a
  | .maybe, .maybe => either a b

def andValues (a b : ValueRef) : Run ValueRef := do
  let t ← truthOf a
  match t, ← truthOf b with
  | .yes, _ => return b
  | .no, _ => return a
  | .maybe, .yes => return a
  | .maybe, .no => return b
  | .maybe, .maybe => either a b

def atMost (a b : ValueRef) : Run Truth := do
  let same ← ofExcept ((← store).really a b)
  return same.or (← less a b)

def operate (op : Operator) (token : Token) (a b : ValueRef) : Run ValueRef := do
  match op with
  | .add => addValues a b
  | .sub =>
    let m ← numberOf a
    newNumber (← ofExcept (m.sub (← numberOf b)))
  | .mul =>
    let m ← numberOf a
    newNumber (← ofExcept (m.mul (← numberOf b)))
  | .div =>
    let m ← numberOf a
    divideNumbers m (← numberOf b)
  | .exp =>
    let m ← numberOf a
    powerOfNumbers m (← numberOf b)
  | .or => orValues a b
  | .and => andValues a b
  | .e => newTruth (← ofExcept ((← store).approx a b))
  | .ee => newTruth (← ofExcept ((← store).equal a b))
  | .ne => newTruth (← ofExcept ((← store).equal a b)).not
  | .eee => newTruth (← ofExcept ((← store).really a b))
  | .nee => newTruth (← ofExcept ((← store).really a b)).not
  | .eeee => newTruth (.ofBool ((← store).identical a b))
  | .neee => newTruth (.ofBool !((← store).identical a b))
  | .le => newTruth (← atMost a b)
  | .gt => newTruth (← atMost a b).not
  | .lt => newTruth (← less a b)
  | .ge => newTruth (← less a b).not
  | .comma => complainAt .unknownPairOperator token

end DreamBerd.Run
