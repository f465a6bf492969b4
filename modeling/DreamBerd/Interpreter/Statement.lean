import DreamBerd.Interpreter.Assign
import DreamBerd.Interpreter.Evaluate

/-!
# Statements

`Run.classify` chooses the form that a clause takes with the names in scope, and `Run.execute` runs a
statement.
-/

namespace DreamBerd

/-- Whether letters can be left out of `function` so that a word remains. -/
def isFunctionWord (word : String) : Bool := word.toList.isSublist "function".toList

namespace Run

/-! ## Choosing a form -/

def keywordOf (scopes : List ScopeRef) (t : Token) : Run (Option String) := do
  keywordOf? (← lookup scopes t.text)

def isKeyword (scopes : List ScopeRef) (t : Token) (words : List String) : Run Bool := do
  match ← keywordOf scopes t with
  | some word => return words.contains word
  | none => return false

def areKeywords (scopes : List ScopeRef) (words : List String) : List Token → Run Bool
  | [] => return true
  | t :: ts => do
    let first ← isKeyword scopes t words
    return (← areKeywords scopes words ts) && first

def isKeywordValue (scopes : List ScopeRef) (t : Token) (word : String) : Run Bool := do
  match ← value (← valueOfToken scopes t) with
  | .keyword w => return w == word
  | _ => return false

def isFunctionKeyword (scopes : List ScopeRef) (t : Token) : Run Bool := do
  match ← keywordOf scopes t with
  | some word => return isFunctionWord word
  | none => return false

/-- Whether the keywords of a form are keywords in the given scopes. -/
def fits (scopes : List ScopeRef) : Statement → Run Bool
  | .conditional k _ _ => isKeyword scopes k ["if"]
  | .when k _ _ => isKeyword scopes k ["when"]
  | .after k _ _ => isKeyword scopes k ["after"]
  | .classDeclaration k _ _ => isKeyword scopes k ["class", "className"]
  | .delete k _ _ => isKeyword scopes k ["delete"]
  | .reverse k _ => isKeyword scopes k ["reverse"]
  | .imports k _ _ => isKeyword scopes k ["import"]
  | .returns none _ _ => return true
  | .returns (some k) _ _ => isKeyword scopes k ["return"]
  | .function [k] _ _ _ _ => isFunctionKeyword scopes k
  | .function [k, l] _ _ _ _ => do
    let first ← isKeyword scopes k ["async"]
    return (← isFunctionKeyword scopes l) && first
  | .function .. => return false
  | .declaration _ ms _ _ _ _ =>
    if ms.length = 2 then areKeywords scopes ["const", "var"] ms
    else if ms.length = 3 then areKeywords scopes ["const"] ms
    else return false
  | .exports k _ t _ _ => do
    if ← isKeywordValue scopes t "to" then isKeywordValue scopes k "export" else return false
  | .assignment .. | .expression .. => return false

/-- The position of the first form that fits, counted from `n`. -/
def firstFit (scopes : List ScopeRef) (n : Nat) : List Statement → Run (Option Nat)
  | [] => return none
  | f :: fs => do if ← fits scopes f then return some n else firstFit scopes (n + 1) fs

def isAssignment : Statement → Bool
  | .assignment .. => true
  | _ => false

def isExpression : Statement → Bool
  | .expression .. => true
  | _ => false

/-- The form that a clause takes: the first with its keywords, otherwise an assignment, otherwise an
expression. -/
def classify (scopes : List ScopeRef) (forms : List Statement) : Run (Option (Nat × Statement)) := do
  let n ←
    match ← firstFit scopes 0 forms with
    | some n => pure (some n)
    | none => pure ((forms.findIdx? isAssignment).or (forms.findIdx? isExpression))
  return n.bind fun n => (forms[n]?).map fun f => (n, f)

def lineOf : Statement → Run (Option Int)
  | .conditional k _ _ | .when k _ _ | .after k _ _ | .classDeclaration k _ _ | .delete k _ _
  | .reverse k _ | .imports k _ _ => return some k.line
  | .function ks _ _ _ _ =>
    match ks with
    | k :: _ => return some k.line
    | [] => breakDown .position
  | .declaration _ ms _ _ _ _ =>
    match ms with
    | m :: _ => return some m.line
    | [] => breakDown .position
  | .assignment n _ _ _ _ => return some n.line
  | .returns k _ _ => return k.map (·.line)
  | .expression e _ => do return (← treeOf e).firstToken?.map (·.line)
  | .exports .. => return none

def markLine (f : Statement) : Run Unit := do
  match ← lineOf f with
  | some n => modifySection fun p => { p with line := n }
  | none => pure ()

/-! ## Listeners, watchers and classes -/

def shownAsString (r : ValueRef) : Run String := do
  let text ← newText (← textOf r)
  ofExcept ((← store).describe text).shown

def startListening (c : Context) (event : ValueRef) (code : Code) : Run Unit := do
  if !(← get).around.hasInput then complainHere .noInputDevices
  let word? : Option String :=
    match ← value event with
    | .string row _ => some row.text
    | _ => none
  match word?.bind Trigger.ofWord? with
  | some trigger => listen ⟨trigger, code, c.scopes, c.boards, true, [], []⟩
  | none => complainHere (.badEvent (← shownAsString event))

/-- What a condition looks at: for each name a variable or the name, and the values that can change;
the same for the values that its names are members of. -/
def watchKeys (scopes : List ScopeRef) (tree : Expr) : Run (List WatchKey) := do
  let names := tree.names.map (·.text)
  let callers := names.filterMap fun n => (callerOf n).bind fun s => if s.isEmpty then none else some s
  let ofName ← names.mapM fun n => do
    match ← lookup scopes n with
    | some (.variable r) => return WatchKey.variable r
    | _ => return WatchKey.name n
  let valuesOf (ns : List String) : Run (List WatchKey) := do
    let keys ← ns.mapM fun n => do
      match ← lookup scopes n with
      | some e =>
        let v ← entryValue e
        return if (← value v).isMutable then [WatchKey.value v] else []
      | none => return []
    return keys.flatten
  let values ← valuesOf names
  let ofCaller ← callers.mapM fun n => do
    match ← lookup scopes n with
    | some (.variable r) => return [WatchKey.variable r]
    | _ => return []
  let callerValues ← valuesOf callers
  return ofName ++ values ++ ofCaller.flatten ++ callerValues

def watch (i : Interpreter) (c : Context) (e : Expression) (code : Code) : Run Unit := do
  let tree ← treeOf e
  let keys ← watchKeys c.scopes tree
  let w : Watcher := ⟨← freshId, tree, code⟩
  match c.boards with
  | [] => breakDown .position
  | b :: _ =>
    for k in keys do
      addWatcher b k w
  fire i c w

def newFunction (params : List String) (code : Code) (isAsync : Bool) : Run ValueRef :=
  newValue (.function params code isAsync)

def fillClass (i : Interpreter) (c : Context) (members : ScopeRef) : Code → Run Unit
  | [] => return ()
  | clause :: code => do
    match ← classify c.scopes (← forms clause) with
    | some (_, .function _ name params body isAsync) =>
      let f ← newFunction ("this" :: params.map (·.text)) body isAsync
      modifyScope members (·.put name.text (.named name.text f))
    | some (_, .declaration name modifiers lifetime e debug confidence) =>
      let board ← newBoard
      let v ← i.eval { c with boards := [board] } false (← treeOf e)
      let board ← newBoard
      declare i { c with scopes := members :: c.scopes, boards := [board] }
        ⟨name, modifiers, lifetime, e, debug, confidence⟩ v
    | some (_, f) => complainHere (.unexpectedInClass
      (Datum.ofForm (fun _ => .none) (fun _ => .none) f).typeName)
    | none => complainHere (.unexpectedInClass "NoneType")
    fillClass i c members code

def bindName (c : Context) (name : String) (v : ValueRef) : Run Unit := do
  match c.scopes with
  | [] => breakDown .position
  | x :: _ => modifyScope x (·.put name (.named name v))

def declareClass (i : Interpreter) (c : Context) (name : Token) (code : Code) : Run Unit := do
  let members ← newScope .empty
  fillClass i c members code
  let n := (← store).classes.size
  modifyStore fun s => { s with
    classes := s.classes.push ⟨name, members, c.scopes, c.boards, false⟩ }
  bindName c name.text (← newValue (.builtin (-1) (.construct n) false))

/-! ## Execution -/

/-- Delete the value that is written like a name. -/
def deleteLiteral (t : Token) : Run Unit := do
  let r ← literal t
  let d : Deleted ←
    match ← value r with
    | .number n => pure (.number n)
    | _ => pure (.text t.text)
  if !(← isDeleted r) then modifySection fun p => { p with deleted := p.deleted ++ [d] }

/-- Delete a name, and the value that is written like it. -/
def deleteName (c : Context) (name : Token) : Run Unit := do
  match ← lookupWithin c.scopes name.text with
  | (some _, some x) =>
    if (← scope x).contains name.text then modifyScope x (·.erase name.text) else breakDown .key
  | _ => pure ()
  deleteLiteral name

/-- Take over names from the parts of the file that ran before. -/
def importNames (c : Context) : List Token → Run Unit
  | [] => return ()
  | t :: ts => do
    match (← get).part.importable.get? t.text with
    | some v =>
      if !(← value v).isPresent then complainAt (.notImportable t.text) t
      bindName c t.text v
      importNames c ts
    | none => complainAt (.notImportable t.text) t

def exportNames (c : Context) (target : String) : List Token → Run Unit
  | [] => return ()
  | t :: ts => do
    match ← lookup c.scopes t.text with
    | some e =>
      let v ← entryValue e
      modifySection fun p => { p with exported := p.exported ++ [(target, t.text, v)] }
      exportNames c target ts
    | none => complainAt .notExportable t

def evaluateExpression (i : Interpreter) (c : Context) (e : Expression) : Run ValueRef := do
  i.eval c false (← treeOf e)

def evaluateExpressions (i : Interpreter) (c : Context) : List Expression → Run (List ValueRef)
  | [] => return []
  | e :: es => do
    let v ← evaluateExpression i c e
    return v :: (← evaluateExpressions i c es)

/-- Run a statement that waits for nothing; a condition can return a value. -/
def executeNow (i : Interpreter) (c : Context) : Statement → Run (Option ValueRef)
  | .assignment name e debug indexes confidence => do
    let is ← evaluateExpressions i c indexes
    let v ← evaluateExpression i c e
    assign i c ⟨name, e, debug, indexes, confidence⟩ is v
    return none
  | .function _ name params code isAsync => do
    bindName c name.text (← newFunction (params.map (·.text)) code isAsync)
    return none
  | .delete _ name _ => do
    deleteName c name
    return none
  | .expression e debug => do
    let v ← evaluateExpression i c e
    debugExpression c.scopes debug e v
    return none
  | .conditional _ e code => do
    let condition ← evaluateExpression i c e
    runIf i c.scopes c.boards condition code
  | .after _ e code => do
    startListening c (← evaluateExpression i c e) code
    return none
  | .when _ e code => do
    watch i c e code
    return none
  | .declaration name modifiers lifetime e debug confidence => do
    let v ← evaluateExpression i c e
    declare i c ⟨name, modifiers, lifetime, e, debug, confidence⟩ v
    return none
  | .imports _ names _ => do
    importNames c names
    return none
  | .exports _ names _ target _ => do
    exportNames c target.text names
    return none
  | .classDeclaration _ name code => do
    declareClass i c name code
    return none
  | .returns .. | .reverse .. => return none

/-- The expressions in which next values are looked for. -/
def expressionsOf : Statement → List Expression
  | .assignment _ e _ is _ => e :: is
  | .declaration _ _ _ e _ _ | .conditional _ e _ | .after _ e _ | .expression e _ => [e]
  | _ => []

def withExpressions (es : List Expression) : Statement → Statement
  | .assignment n e d is c =>
    match es with
    | e :: is => .assignment n e d is c
    | [] => .assignment n e d is c
  | .declaration n ms l e d c => .declaration n ms l (es.head?.getD e) d c
  | .conditional k e c => .conditional k (es.head?.getD e) c
  | .after k e c => .after k (es.head?.getD e) c
  | .expression e d => .expression (es.head?.getD e) d
  | f => f

def replaceNextIn (scopes : List ScopeRef) : List Expression → Run (List (Nat × Expr) × Awaited)
  | [] => return ([], ∅)
  | e :: es => do
    let id ←
      match e with
      | .built id _ => pure id
      | .source _ => freshId
    let (tree, a) ← replaceNext scopes (← treeOf e)
    let (trees, b) ← replaceNextIn scopes es
    return ((id, tree) :: trees, a ∪ b)

def keepPreviousIn (scopes : List ScopeRef) (names : List String) :
    List (Nat × Expr) → Run (List Expression × Kept)
  | [] => return ([], ∅)
  | (id, tree) :: trees => do
    let (tree, a) ← keepPrevious scopes names tree
    let (es, b) ← keepPreviousIn scopes names trees
    return (.built id tree :: es, a ∪ b)

/-- Write a form of a clause with its expressions read, and rename tokens in all its forms. -/
def updateClause (clause : ClauseRef) (n : Nat) (f : Statement) (renamed : List (Token × Token)) :
    Run Unit := do
  let fs ← forms clause
  let fs := if renamed.isEmpty then fs else fs.map (renameStatement renamed)
  setForms clause (fs.set n f)

def addNames (c : Context) (names : Scope) : Run Unit := do
  match c.scopes with
  | [] => breakDown .position
  | x :: _ => modifyScope x (·.merge names)

/-- Remove names from the innermost scope, where they have to be. -/
def removeNames (c : Context) (names : List String) : Run Unit := do
  match c.scopes with
  | [] => if !names.isEmpty then breakDown .position
  | x :: _ =>
    for name in names do
      if (← scope x).contains name then modifyScope x (·.erase name) else breakDown .key

/-- Add names for as long as something is done. -/
def withAwaited (i : Interpreter) (c : Context) (awaited : Awaited) (kept : Kept) (x : Run α) : Run α := do
  let names ←
    if awaited.names.isEmpty then pure .empty
    else do
      let names := kept.scope.merge (← awaitNames i c.scopes awaited.names)
      addNames c names
      pure names
  let result ← x
  removeNames c names.keys
  return result

def execute (i : Interpreter) (c : Context) (clause : ClauseRef) (n : Nat) (f : Statement) :
    Run (Option ValueRef) := do
  let (trees, awaited) ← replaceNextIn c.scopes (expressionsOf f)
  let (es, kept) ← keepPreviousIn c.scopes awaited.allNames trees
  let renamed := awaited.renamed ++ kept.renamed
  let f := withExpressions es (if renamed.isEmpty then f else f.mapTokens (renameToken renamed))
  if !es.isEmpty then updateClause clause n f renamed
  if !awaited.sites.isEmpty then
    keepVigil i clause n awaited kept.scope none c.scopes
    return none
  else withAwaited i c awaited kept (executeNow i c f)

def keepPromise (p v : ValueRef) : Run Unit := do
  match ← value p with
  | .promise _ => setValue p (.promise (some v))
  | _ => pure ()

/-- Go on with a statement that waited for next values, which are found in the innermost scope of the
vigil; that scope is left before the statement takes effect. -/
def resumeVigil (i : Interpreter) (c : Context) (n : Nat) : Run Unit := do
  match (← store).vigils[n]? with
  | none => pure ()
  | some vigil =>
    match (← forms vigil.clause)[vigil.form]? with
    | none => pure ()
    | some f =>
      let inner := { c with scopes := vigil.scopes }
      let expression? : Option Expression :=
        match f with
        | .returns _ e _ => some e
        | f => (expressionsOf f).head?
      match expression? with
      | none => breakDown .field
      | some e =>
        let v ← evaluateExpression i inner e
        let indexes ← evaluateExpressions i inner ((expressionsOf f).drop 1)
        let scopes := vigil.scopes.tail
        modifyStore fun s => { s with
          vigils := s.vigils.setIfInBounds n { vigil with scopes } }
        let outer := { c with scopes }
        match f with
        | .returns .. =>
          match vigil.promise with
          | none => complainHere .brokenNext
          | some p => keepPromise p v
        | .declaration name modifiers lifetime e debug confidence =>
          declare i outer ⟨name, modifiers, lifetime, e, debug, confidence⟩ v
        | .assignment name e debug is confidence =>
          assign i outer ⟨name, e, debug, is, confidence⟩ indexes v
        | .conditional _ _ code =>
          let _ ← runIf i outer.scopes outer.boards v code
        | .after _ _ code => startListening outer v code
        | .expression e debug => debugExpression outer.scopes debug e v
        | _ => pure ()

end Run

end DreamBerd
