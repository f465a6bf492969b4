import DreamBerd.World

/-!
# Passing lines

Every statement lets a line pass for the variables in scope. A variable without lifetimes is forgotten.
-/

namespace DreamBerd.Run

/-- Let a line pass for the given entries; gives the names of those that are left with nothing. -/
def tickEntries : List (String × Entry) → Run (List String)
  | [] => return []
  | (name, .variable r) :: es => do
    let v := (← variableOf r).tick
    setVariable r v
    let gone ← tickEntries es
    return if v.lifetimes.isEmpty then name :: gone else gone
  | _ :: es => tickEntries es

def passScope (x : ScopeRef) : Run Unit := do
  let gone ← tickEntries (← scope x).entries
  if !gone.isEmpty then modifyScope x fun s => gone.foldl Ledger.erase s

def passScopes : List ScopeRef → Run Unit
  | [] => return ()
  | x :: xs => do
    passScope x
    passScopes xs

/-- Let a line pass in the given scopes, from the outermost one in. -/
def tick (scopes : List ScopeRef) : Run Unit := passScopes scopes.reverse

end DreamBerd.Run
