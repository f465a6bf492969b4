import DreamBerd.Number.Digits
import DreamBerd.World.Convert

/-!
# Elements of values

Reading and setting the elements of lists, strings, numbers and maps, and adding and taking out
elements at the end of lists and strings.
-/

namespace DreamBerd.Run

def mapKey (i : ValueRef) : Run MapKey := do
  match ← value i with
  | .string row _ => return .text row.text
  | .number n => return .number n
  | _ => complain .badMapKey

/-- The element of a value with an index. An element of a string is a bare text. -/
def getIndex (r i : ValueRef) : Run ValueRef := do
  match ← value r with
  | .list row _ => ofExcept (row.get (← value i).number?)
  | .string row _ =>
    let chars ← ofExcept (row.get (← value i).number?)
    newValue (.bare (.text (String.ofList chars)))
  | .number n => newNumber (← ofExcept (n.digitAt (← value i).number?))
  | .map entries =>
    match entries.get? (← mapKey i) with
    | some v => return v
    | none => breakDown .key
  | _ => breakDown .field

/-- Bring the length among the members of a list or string up to date. -/
def refreshLength (members : ScopeRef) (n : Nat) : Run Unit := do
  let e ← lengthEntry n
  modifyScope members (·.put "length" e)

def setIndex (r i x : ValueRef) : Run Unit := do
  match ← value r with
  | .list row members =>
    let new ← ofExcept (row.set (← value i).number? x)
    setValue r (.list new members)
    if new.items.length ≠ row.items.length then refreshLength members new.items.length
  | .string row members =>
    match (← value i).number? with
    | none => complain (.indexNotNumber "string")
    | some n =>
      let added ← textOf x
      let new ← ofExcept (row.set n added.toList)
      setValue r (.string new members)
      refreshLength members new.chars.length
  | .number n =>
    let new ← ofExcept (n.setDigit (← value i).number? (← value x).number?)
    setValue r (.number new)
  | .map entries =>
    let key ← mapKey i
    setValue r (.map (entries.put key x))
  | _ => breakDown .field

/-- Which element an argument of `pop` asks for. -/
def removal (i : ValueRef) : Run Removal := do
  match ← value i with
  | .blank => return .last
  | v => return .index v.number?

def pushItem (r x : ValueRef) : Run Unit := do
  match ← value r with
  | .list row members =>
    let new ← ofExcept (row.push x)
    setValue r (.list new members)
    refreshLength members new.items.length
  | _ => breakDown .field

/-- Fail as a removal from something without elements does: the index is looked at first. -/
def refuseRemoval (what : String) (missing : Breakdown) : Removal → Run ValueRef
  | .last => breakDown missing
  | .index none => complain (.popNeedsInteger what)
  | .index (some n) => do
    if !(← ofExcept n.isInt) then complain (.popNeedsInteger what)
    else if ← ofExcept (Number.le (.int (-1)) n) then breakDown missing
    else complain (.outOfBounds what)

def popItem (r i : ValueRef) : Run ValueRef := do
  match ← value r with
  | .list row members =>
    let (x, new) ← ofExcept (row.pop (← removal i))
    setValue r (.list new members)
    refreshLength members new.items.length
    return x
  | _ => refuseRemoval "list" .field (← removal i)

def pushText (r x : ValueRef) : Run Unit := do
  let added ← textOf x
  match ← value r with
  | .string row members =>
    let new ← ofExcept (row.push added.toList)
    setValue r (.string new members)
    refreshLength members new.chars.length
  | .list row _ =>
    let _ ← ofExcept (greatestIndex row.places)
    breakDown .field
  | _ => breakDown .field

/-- Take a character out of a string, or out of a keyword. The length among the members stays as it
was. -/
def popText (r i : ValueRef) : Run ValueRef := do
  match ← value r with
  | .string row members =>
    let (c, new) ← ofExcept (row.pop (← removal i))
    setValue r (.string new members)
    newText (String.ofList [c])
  | .keyword word =>
    let (c, new) ← ofExcept ((CharRow.ofText word).pop (← removal i))
    setValue r (.keyword new.text)
    newText (String.ofList [c])
  | .number _ | .boolean _ | .promise _ => refuseRemoval "string" .kind (← removal i)
  | _ => refuseRemoval "string" .field (← removal i)

end DreamBerd.Run
