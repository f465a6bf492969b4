import DreamBerd.Expr.Build
import DreamBerd.Interpreter.Call
import DreamBerd.Text.Escape
import DreamBerd.Token.Lexer
import DreamBerd.World.Operate

/-!
# Evaluation of expressions
-/

namespace DreamBerd

def startsWith (start : List Char) (cs : List Char) : Bool := cs.take start.length == start

/-- The positions at which a symbol stands before the last characters of a text. -/
def symbolPositions (symbol cs : List Char) : List Nat :=
  (List.range (cs.length - symbol.length)).filter fun n => startsWith symbol (cs.drop n)

/-- The number of characters before the brace that closes `depth` open ones. -/
def closingBrace? : Nat → List Char → Option Nat
  | _, [] => none
  | depth, c :: cs =>
    if c == Char.ofNat 123 then (closingBrace? (depth + 1) cs).map (· + 1)
    else if c == Char.ofNat 125 then
      if depth ≤ 1 then some 0 else (closingBrace? (depth - 1) cs).map (· + 1)
    else (closingBrace? depth cs).map (· + 1)

/-- A stretch of a text to be replaced, and by what. -/
structure Replacement where
  start : Nat
  stop : Nat
  text : String

/-- Replace stretches of a text, the last one first. -/
def replaceAll (cs : List Char) (rs : List Replacement) : List Char :=
  rs.foldr (fun r cs => cs.take r.start ++ r.text.toList ++ cs.drop r.stop) cs

namespace Run

def refuseDeleted (r : ValueRef) : Run ValueRef := do
  if ← isDeleted r then complainHere (.deletedValue (← deletedText r)) else return r

/-- The text of the value of an expression that is written inside a text. -/
def expressionText (i : Interpreter) (c : Context) (e : List Char) : Run String := do
  let src ← source
  let tokens ← ofExcept (Source.tokens ⟨src.file ++ "__interpolated_string", String.ofList e⟩)
  let tree ← ofExcept (Expr.ofTokens src tokens)
  textOf (← i.eval c true tree)

/-- The text of the expression between the braces after a symbol, if there are any. -/
def interpolated? (i : Interpreter) (c : Context) (symbol cs : List Char) (start : Nat) :
    Run (Option Replacement) := do
  match cs.drop (start + symbol.length) with
  | [] => breakDown .position
  | open_ :: rest =>
    if open_ != Char.ofNat 123 then return none
    else
      match closingBrace? 1 rest with
      | none => breakDown .position
      | some n =>
        let text ← expressionText i c (rest.take n)
        return some ⟨start, start + symbol.length + n + 2, text⟩

/-- Replace the expressions in a text by their values. -/
def interpolate (i : Interpreter) (c : Context) (s : String) : Run String := do
  let symbol := ((← get).around.currency.getD "$").toList
  let cs := s.toList
  let starts := symbolPositions symbol cs
  if starts.isEmpty then return s
  else
    tryCatch
      (do
        let found ← starts.mapM (interpolated? i c symbol cs)
        return String.ofList (replaceAll cs (found.filterMap id)))
      fun f =>
        match f with
        | .breakdown .position => complainHere .badInterpolation
        | f => throw f

def evaluateToken (i : Interpreter) (c : Context) (raw : Bool) (t : Token) : Run ValueRef := do
  if t.is .string then
    let s ← interpolate i c t.text
    if raw then newText s
    else
      match Text.unescape? s with
      | some s => newText s
      | none => breakDown .literal
  else valueOfToken c.scopes t

def evaluateIndex (r i : ValueRef) : Run ValueRef := do
  if (← value r).isIndexable then getIndex r i else complainHere .notIndexable

def previousValue (c : Context) (t : Token) : Run ValueRef := do
  match ← lookup c.scopes t.text with
  | some (.variable r) =>
    match (← variableOf r).previous.getLast? with
    | some v => return v
    | none => breakDown .position
  | _ => complainAt .previousNotVariable t

def calledEntry (c : Context) (site : Token) (e : Entry) : Run (Option String × List ValueRef) := do
  if !isCallable (← value (← entryValue e)) then complainAt .notCallable site
  match callerOf site.text with
  | none => return (none, [])
  | some name =>
    let this ← refuseDeleted (← valueOfToken c.scopes ⟨.name, name, site.line, site.col⟩)
    return (some name, [this])

/-- Call an entry by its name, with arguments that are evaluated before. -/
def callNamed (i : Interpreter) (c : Context) (site : Token) (e : Entry) (awaited : Bool)
    (given : Run (List ValueRef)) : Run ValueRef := do
  let (caller, this) ← calledEntry c site e
  let args ← given
  refuseDeleted (← callEntry i c site caller e awaited (this ++ args))

mutual

def evaluate (i : Interpreter) (c : Context) (raw : Bool) : Expr → Run ValueRef
  | .value t => do refuseDeleted (← evaluateToken i c raw t)
  | .list items => do
    let items ← evaluateAll i c items
    refuseDeleted (← newList items)
  | .index v n => do
    let v ← evaluate i c false v
    let n ← evaluate i c false n
    refuseDeleted (← evaluateIndex v n)
  | .unary op e => do
    let v ← evaluate i c false e
    refuseDeleted (← operateUnary op v)
  | .binary op token l r => do
    let l ← evaluate i c false l
    let t ← truthOf l
    if (t == .yes && op == .or) || (t == .no && op == .and) then refuseDeleted l
    else
      let r ← evaluate i c false r
      refuseDeleted (← operate op token l r)
  | .call site args => do
    match ← lookup c.scopes site.text with
    | none => complainAt .nameNotFound site
    | some e =>
      match ← value (← entryValue e) with
      | .keyword "await" =>
        match args with
        | [.call site args] =>
          match ← lookup c.scopes site.text with
          | none => complainAt .nameNotFoundAwaiting site
          | some e => callNamed i c site e true (evaluateAll i c args)
        | [_] => complainAt .awaitNotCall site
        | _ => complainAt .awaitArity site
      | .keyword "previous" =>
        match args with
        | [.value t] => refuseDeleted (← previousValue c t)
        | [_] => complainAt .previousNotName site
        | _ => complainAt .previousArity site
      | _ => callNamed i c site e false (evaluateAll i c args)

def evaluateAll (i : Interpreter) (c : Context) : List Expr → Run (List ValueRef)
  | [] => return []
  | e :: es => do
    let v ← evaluate i c false e
    return v :: (← evaluateAll i c es)

end

end Run

end DreamBerd
