import DreamBerd.Number.Functions
import DreamBerd.World.Index

/-!
# Built-in functions

What the built-in functions do, apart from the making of instances, which runs code.
-/

namespace DreamBerd.Run

def printValues (args : List ValueRef) : Run Unit := do
  let texts ← args.mapM textOf
  emit (" ".intercalate texts ++ "\n")

/-- A new signal, as a function that reads and sets it. -/
def newSignal (start : ValueRef) : Run ValueRef := do
  let cell := (← store).signals.size
  modifyStore fun s => { s with signals := s.signals.push start }
  newValue (.builtin 1 (.signalCell cell) false)

/-- Read a signal, or set it unless the argument is blank. -/
def useSignal (cell : Nat) (arg : ValueRef) : Run (Option ValueRef) := do
  match ← value arg with
  | .blank => return (← store).signals[cell]?
  | _ =>
    modifyStore fun s => { s with signals := s.signals.setIfInBounds cell arg }
    return none

def performMath (f : MathFunction) (args : List ValueRef) : Run ValueRef := do
  let numbers ← args.mapM fun r => do
    match ← value r with
    | .number n => return n
    | _ => complain .mathNeedsNumbers
  newNumber (← ofExcept (f.apply numbers))

def performTens (n : Nat) (arg : ValueRef) : Run ValueRef := do
  match ← value arg with
  | .number m => newNumber (← ofExcept (Number.add (.int n) m))
  | v => complain (.onesDigitExpected v.typeName)

/-- Do what a built-in function does; some give no value. -/
def perform (a : Action) (args : List ValueRef) : Run (Option ValueRef) := do
  match a, args with
  | .listPush, [r, x] =>
    pushItem r x
    return none
  | .listPop, [r, i] => return some (← popItem r i)
  | .stringPush, [r, x] =>
    pushText r x
    return none
  | .stringPop, [r, i] => return some (← popText r i)
  | .identity, [r] => return some r
  | .emptyMap, [] => return some (← newValue (.map .empty))
  | .toBoolean, [r] => return some (← newTruth (← truthOf r))
  | .toText, [r] => return some (← newText (← textOf r))
  | .print, args =>
    printValues args
    return none
  | .exit, [] => throw .exit
  | .toNumber, [r] => return some (← newNumber (← numberOf r))
  | .signal, [r] => return some (← newSignal r)
  | .tens n, [r] => return some (← performTens n r)
  | .math f, args => return some (← performMath f args)
  | .signalCell cell, [r] => useSignal cell r
  | _, _ => breakDown .kind

end DreamBerd.Run
