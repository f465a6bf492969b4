import DreamBerd.Expr.Build
import DreamBerd.Interpreter.Listen

/-!
# Next values

`next x` in an expression stands for the value that `x` is given next. Such an expression is replaced
by a name under which that value will be found, and the statement waits for it. The other mentions of
`x` stand for the value that it has now, which is kept under another name.
-/

namespace DreamBerd

def nextName (name : String) (x : ScopeRef) : String :=
  name ++ "_" ++ toString (100000000000000 + x.index) ++ "__next"

def previousName (name : String) : String := name.replace "." "__" ++ "__prev"

def lastPart (name : String) : String := (nameParts name).getLast?.getD ""

/-- What an expression waits for: names in scopes, names that it waits for in place, and the tokens
that were renamed. -/
structure Awaited where
  sites : List Site
  names : List String
  renamed : List (Token × Token)

namespace Awaited

instance : EmptyCollection Awaited := ⟨⟨[], [], []⟩⟩

instance : Union Awaited where
  union a b := ⟨a.sites ++ b.sites.filter (!a.sites.contains ·),
    a.names ++ b.names.filter (!a.names.contains ·), a.renamed ++ b.renamed⟩

def allNames (a : Awaited) : List String := a.sites.map (·.1) ++ a.names

end Awaited

def renameToken (renamed : List (Token × Token)) (t : Token) : Token :=
  ((renamed.find? (·.1 == t)).map (·.2)).getD t

namespace Expression

def rename (renamed : List (Token × Token)) : Expression → Expression
  | source tokens => source (tokens.map (renameToken renamed))
  | built id tree => built id tree

end Expression

def renameStatement (renamed : List (Token × Token)) (f : Statement) : Statement :=
  (f.map (·.rename renamed) id).mapTokens (renameToken renamed)

namespace Run

def siteScope (scopes : List ScopeRef) (name : String) : Run ScopeRef := do
  match ← lookupWithin scopes name with
  | (_, some x) => if (← scope x).isEmpty then complainHere .noNamespace else return x
  | (_, none) => complainHere .noNamespace

/-- The token under which the next value of a name will be found. -/
def nextToken (scopes : List ScopeRef) (t : Token) : Run (Token × ScopeRef) := do
  let x ← siteScope scopes t.text
  return ({ t with text := nextName (lastPart t.text) x }, x)

mutual

/-- Rewrite the tokens of an expression, and join what is found with them. A call is rewritten by a
function of its own, which is given what the rewriting of its arguments comes to. -/
def rewrite [EmptyCollection κ] [Union κ] (token : Token → Run (Token × κ))
    (call : Token → List Expr → Run (Expr × κ) → Run (Expr × κ)) : Expr → Run (Expr × κ)
  | .value t => do
    let (t, k) ← token t
    return (.value t, k)
  | .list items => do
    let (items, k) ← rewriteAll token call items
    return (.list items, k)
  | .index v n => do
    let (v, a) ← rewrite token call v
    let (n, b) ← rewrite token call n
    return (.index v n, a ∪ b)
  | .binary op t l r => do
    let (l, a) ← rewrite token call l
    let (r, b) ← rewrite token call r
    return (.binary op t l r, a ∪ b)
  | .unary op e => do
    let (e, k) ← rewrite token call e
    return (.unary op e, k)
  | .call site args => call site args do
    let (args, k) ← rewriteAll token call args
    return (.call site args, k)

def rewriteAll [EmptyCollection κ] [Union κ] (token : Token → Run (Token × κ))
    (call : Token → List Expr → Run (Expr × κ) → Run (Expr × κ)) :
    List Expr → Run (List Expr × κ)
  | [] => return ([], ∅)
  | e :: es => do
    let (e, a) ← rewrite token call e
    let (es, b) ← rewriteAll token call es
    return (e :: es, a ∪ b)

end

/-- The value of a name that is called. -/
def calledValue (scopes : List ScopeRef) (t site : Token) : Run Value := do
  match ← lookup scopes t.text with
  | none => complainAt .undefinedCall site
  | some e => value (← entryValue e)

/-- Replace a call of `next` by the name under which the value will be found. -/
def replaceCall (scopes : List ScopeRef) (site : Token) (args : List Expr)
    (replaced : Run (Expr × Awaited)) : Run (Expr × Awaited) := do
  match ← calledValue scopes site site with
  | .keyword "next" =>
    match args with
    | [.value t] =>
      let (new, x) ← nextToken scopes t
      return (.value new, ⟨[(t.text, x)], [], [(t, new)]⟩)
    | _ => complainAt .nextArity site
  | .keyword "await" =>
    match args with
    | [.call inner innerArgs] =>
      match ← calledValue scopes inner site with
      | .keyword "next" =>
        match innerArgs with
        | [.value t] =>
          let (new, _) ← nextToken scopes t
          return (.value new, ⟨[], [t.text], [(t, new)]⟩)
        | _ => complainAt .nextArity inner
      | _ => return (.call site [.call inner innerArgs], ∅)
    | _ => complainAt .awaitNotFunction site
  | _ => replaced

/-- Replace the next values in an expression by the names under which they will be found. -/
def replaceNext (scopes : List ScopeRef) : Expr → Run (Expr × Awaited) :=
  rewrite (fun t => return (t, ∅)) (replaceCall scopes)

/-- The values that names have now, and the tokens that were renamed. -/
structure Kept where
  scope : Scope
  renamed : List (Token × Token)

instance : EmptyCollection Kept := ⟨⟨.empty, []⟩⟩

instance : Union Kept := ⟨fun a b => ⟨a.scope.merge b.scope, a.renamed ++ b.renamed⟩⟩

/-- Keep the present value of a token if its name is among the given ones. -/
def keepToken (scopes : List ScopeRef) (names : List String) (t : Token) : Run (Token × Kept) := do
  if t.is .string || !names.contains t.text then return (t, ∅)
  else
    let v ←
      match ← lookup scopes t.text with
      | some e => entryValue e
      | none => literal t
    let name := previousName t.text
    let new := { t with text := name }
    return (new, ⟨.ofList [(name, .named name v)], [(t, new)]⟩)

def keepPrevious (scopes : List ScopeRef) (names : List String) : Expr → Run (Expr × Kept) :=
  rewrite (keepToken scopes names) fun _ _ kept => kept

/-! ## Waiting -/

/-- How often a variable has been set; nothing for a name that is not bound. -/
def settings (scopes : List ScopeRef) (name : String) : Run (Option Nat) := do
  match ← lookup scopes name with
  | none => return none
  | some (.variable r) => return some (← variableOf r).previous.length
  | some _ => breakDown .field

/-- Wait until a name has been set; at most `fuel` events can happen. -/
def waitFor (i : Interpreter) (scopes : List ScopeRef) (name : String) (start : Option Nat) :
    Nat → Run Unit
  | 0 => throw .outOfFuel
  | fuel + 1 => do
    if (← settings scopes name) == start then
      awaitEvent i
      waitFor i scopes name start fuel

/-- Wait until each name has been set; gives how often each had been set before. -/
def waitForAll (i : Interpreter) (scopes : List ScopeRef) (names : List String) :
    Run (List (String × Option Nat)) := do
  let starts ← names.mapM fun name => do return (name, ← settings scopes name)
  let fuel := (← get).around.events.length + 2
  for p in starts do
    waitFor i scopes p.1 p.2 fuel
  return starts

def awaitedEntry (scopes : List ScopeRef) (name : String) (start : Option Nat) :
    Run (Entry × ScopeRef) := do
  match ← lookupWithin scopes name with
  | (some e, some x) =>
    match start, e with
    | none, e => return (e, x)
    | some _, .variable r => return (.variable r, x)
    | some _, _ => complainHere .lostNext
  | _ => complainHere .lostNext

/-- The value that a name was given after it had been set `start` times. -/
def valueAfter (e : Entry) (start : Option Nat) : Run ValueRef := do
  match e with
  | .variable r =>
    match (← variableOf r).previous[start.getD 0]? with
    | some v => return v
    | none => breakDown .position
  | e => if start.isSome then complainHere .brokenNext else entryValue e

/-- Wait for names, and give them with the values that they have then. -/
def awaitNames (i : Interpreter) (scopes : List ScopeRef) (names : List String) : Run Scope := do
  let starts ← waitForAll i scopes names
  let found ← starts.mapM fun p => do
    let (e, x) ← awaitedEntry scopes p.1 p.2
    let name := nextName p.1 x
    return (name, Entry.named name (← entryValue e))
  return .ofList found

/-- Check that the names a statement waits for have not been set in the meantime. -/
def checkUnset (scopes : List ScopeRef) (starts : List (Site × Option Nat)) : Run Unit := do
  for p in starts do
    let e ← lookup scopes p.1.1
    let now ← settings scopes p.1.1
    match e with
    | some e =>
      if now != p.2 then
        let _ ← valueAfter e p.2
        breakDown .changed
    | none => pure ()

/-- Let a statement wait for the next values of names. The names that it waits for in place are
waited for first. -/
def keepVigil (i : Interpreter) (clause : ClauseRef) (form : Nat) (a : Awaited) (kept : Scope)
    (promise : Option ValueRef) (scopes : List ScopeRef) : Run Unit := do
  let names ← a.names.mapM fun name => do return (name, ← settings scopes name)
  let sites ← a.sites.mapM fun s => do return (s, ← settings scopes s.1)
  let fuel := (← get).around.events.length + 2
  for p in names do
    waitFor i scopes p.1 p.2 fuel
  let found ← names.mapM fun p => do
    let (e, x) ← awaitedEntry scopes p.1 p.2
    let name := nextName p.1 x
    return (name, Entry.named name (← valueAfter e p.2))
  checkUnset scopes sites
  let waiting := (← store).waits.size
  modifyStore fun s => { s with waits := s.waits.push a.sites }
  for s in a.sites do
    let x ← newScope ((Ledger.ofList found).merge kept)
    let n := (← store).vigils.size
    modifyStore fun st => { st with
      vigils := st.vigils.push ⟨clause, form, waiting, x :: scopes, promise⟩ }
    modifySection fun p => { p with vigils := p.vigils.put (lastPart s.1, s.2) n }

end Run

end DreamBerd
