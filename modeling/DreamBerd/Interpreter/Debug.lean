import DreamBerd.Expr.Build
import DreamBerd.World.Lookup

/-!
# Debugging output
-/

namespace DreamBerd.Run

/-- The tree of an expression, which is read if it has not been yet. -/
def treeOf : Expression → Run Expr
  | .source tokens => do ofExcept (Expr.ofTokens (← source) tokens)
  | .built _ tree => return tree

def debugAt (message : String) (t : Token) : Run Unit := do
  let src ← source
  if src.code.isEmpty then emit ("\n" ++ Ansi.yellow ++ message ++ "\x1b[39\n\n")
  else
    match src.placeOfToken? t with
    | some p => emit ("\n" ++ p.render Ansi.yellow message ++ "\n\n")
    | none => breakDown .position

def debugAnywhere (message : String) : Run Unit := do
  emit ("\n" ++ Ansi.yellow ++ (← source).file ++ Ansi.reset ++ "\n\n" ++ Ansi.yellow ++ message
    ++ Ansi.reset ++ "\n\n")

def shownNames (names : List Token) (valueOf : Token → Run ValueRef) : Run String := do
  let lines ← names.mapM fun t => do return "  " ++ t.shown ++ ": " ++ (← textOf (← valueOf t))
  return "\n".intercalate lines

def namesHeading : String := "\nThe value of each name in the expression is the following: \n"

def treeHeading : String := "\nThe expression used to get this value is: \n"

/-- Print what an expression evaluates to, the more the higher the level. -/
def debugExpression (scopes : List ScopeRef) (level : Nat) (e : Expression) (v : ValueRef) :
    Run Unit := do
  let tree ← treeOf e
  if level ≠ 0 then
    let start := "Expression evaluates to value " ++ (← textOf v) ++ "."
    let message ←
      if level = 1 then pure start
      else
        let names ← shownNames tree.names (valueOfToken scopes)
        let start := start ++ namesHeading ++ names
        pure (if level = 2 then start else start ++ treeHeading ++ tree.text 0)
    match tree.firstToken? with
    | some t => debugAt message t
    | none => debugAnywhere message

def debugDeclaration (scopes : List ScopeRef) (level : Nat) (name : Token) (modifiers : List Token)
    (lifetime : Option String) (e : Expression) (v : ValueRef) : Run Unit := do
  if level = 1 then debugAt ("Setting " ++ name.text ++ " to " ++ (← textOf v)) name
  else if level ≠ 0 then
    let tree ← treeOf e
    let start := "Setting " ++ " ".intercalate (modifiers.map (·.text)) ++ " variable \"" ++ name.text
      ++ "\" to " ++ (← textOf v) ++ " with a lifetime of " ++ lifetime.getD "None" ++ "."
    let message ←
      if level = 2 then pure start
      else
        let names ← shownNames tree.names fun _ => valueOfToken scopes name
        let start := start ++ namesHeading ++ names
        pure (if level = 3 then start else start ++ treeHeading ++ tree.text 0)
    debugAt message name

def debugAssignment (scopes : List ScopeRef) (level : Nat) (name : Token) (e : Expression)
    (indexTrees : List Expression) (indexes : List ValueRef) (v : ValueRef) : Run Unit := do
  if level ≠ 0 then
    let tree ← if level = 1 then pure (.list []) else treeOf e
    let trees ← if level ≤ 3 then pure [] else indexTrees.mapM treeOf
    let places ← indexes.mapM fun r => do return "[" ++ (← textOf r) ++ "]"
    let start := "Setting " ++ name.text ++ String.join places ++ " to " ++ (← textOf v)
    let message ←
      match level with
      | 1 => pure start
      | 2 | 3 =>
        let names ← shownNames tree.names (valueOfToken scopes)
        let start := start ++ namesHeading ++ names
        pure (if level = 2 then start else start ++ treeHeading ++ tree.text 0)
      | _ =>
        let all := Expr.inOrder (tree.leaves ++ trees.flatMap Expr.leaves)
        let names ← shownNames all (valueOfToken scopes)
        pure (start ++ "\nThe value of each name in the program is the following: \n" ++ names
          ++ treeHeading ++ tree.text 0
          ++ "\nThe expression used to get the indexes are as follows: \n"
          ++ "\n\n".intercalate (trees.map (·.text 1)))
    debugAt message name

end DreamBerd.Run
