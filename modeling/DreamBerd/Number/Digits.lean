import DreamBerd.Row

/-!
# Digits of a number

A number can be read and changed digit by digit, its digits being indexed from -1 on.
-/

namespace DreamBerd.Number

def digitText (n : Number) : Except Fault (List Char) := do
  return (← n.text).toList.filter fun c => c != '.' && c != '-'

def ofDigits (cs : List Char) : Except Fault Int :=
  match Decimal.readInt? (String.ofList cs) with
  | some n => .ok n
  | none => .error (.breakdown .value)

def digitAt (n : Number) (i : Option Number) : Except Fault Number := do
  let digits ← n.digitText
  match i with
  | none => .error (.plain (.indexNotNumber "number"))
  | some i =>
    if ← i.isInt then
      checkBounds "number" digits.length i
      match atPosition? digits ((← i.round) + 1) with
      | some c => return int (← ofDigits [c])
      | none => .error (.breakdown .position)
    else .error (.plain .numberIndexNotInteger)

/-- The digit that a number stands for, if it is an integer from zero to nine. -/
def asDigit (d : Option Number) : Except Fault Int := do
  match d with
  | none => .error (.plain .assignNonDigit)
  | some d =>
    if ← d.isInt then
      if ← between (int 0) d (int 9) then d.round
      else .error (.plain .assignNonDigit)
    else .error (.plain .assignNonDigit)

/-- Replace the digit with an index, or insert one between two digits. -/
def setDigit (n : Number) (i d : Option Number) : Except Fault Number := do
  let digits ← n.digitText
  let sign ← n.div (← n.abs)
  if ← n.isInt then
    match i with
    | none => .error (.plain (.indexNotNumber "number"))
    | some i =>
      let d := (toString (← asDigit d)).toList
      if ← i.isInt then
        checkBounds "number" digits.length i
        let k := ((← i.round) + 1).toNat
        sign.mul (int (← ofDigits (digits.take k ++ d ++ digits.drop (k + 1))))
      else
        let k ← i.insertionPoint
        sign.mul (int (← ofDigits (spliceAt digits k d)))
  else .error (.plain .assignIntoFraction)

end DreamBerd.Number
