import DreamBerd.World

/-!
# Loading code and names

`Run.loadCode` makes code that has been read into shared code, `Run.loadPredefined` makes the values
of the predefined names, and `Run.newGlobals` a scope with these names.
-/

namespace DreamBerd.Run

mutual

def loadCode : List Clause → Run Code
  | [] => return []
  | .mk forms :: cs => do
    let c ← newClause (← loadForms forms)
    return c :: (← loadCode cs)

def loadForms : List (Form (List Token) (List Clause)) → Run (List Statement)
  | [] => return []
  | f :: fs => do
    let code ← loadBlock f
    return f.map .source (fun _ => code) :: (← loadForms fs)

/-- Load the block of a form, if it has one. -/
def loadBlock : Form (List Token) (List Clause) → Run Code
  | .function _ _ _ c _ | .classDeclaration _ _ c | .conditional _ _ c | .when _ _ c
  | .after _ _ c => loadCode c
  | _ => return []

end

def valueOfPredefined : Predefined → Value
  | .keyword word => .keyword word
  | .builtin arity action => .builtin arity action false
  | .number n => .number n
  | .boolean t => .boolean t
  | .undefined => .undefined
  | .blank => .blank

def loadPredefined : Run Unit := do
  let entries ← Predefined.table.entries.mapM fun e => do
    return (e.1, ← newValue (valueOfPredefined e.2))
  modify fun w => { w with predefined := ⟨entries⟩ }

def newGlobals : Run ScopeRef := do newScope ((← get).predefined.map .predefined)

end DreamBerd.Run
