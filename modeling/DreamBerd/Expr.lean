import DreamBerd.Text.Quoted
import DreamBerd.Token

/-!
# Expressions

The tree of an expression, and what debugging output shows of it: `Expr.text` draws the tree,
`Expr.firstToken?` is the token that it is located at, and `Expr.names` lists the names and values at
its leaves.
-/

namespace DreamBerd

inductive Expr where
  | value (token : Token)
  | list (items : List Expr)
  | call (name : Token) (args : List Expr)
  | index (value index : Expr)
  | binary (op : Operator) (token : Token) (left right : Expr)
  | unary (op : Token) (operand : Expr)

def Token.shown (t : Token) : String :=
  "Token(TokenType." ++ t.kind.label ++ ", " ++ Text.quoted t.text ++ ")"

namespace Expr

def indent (tabs : Nat) : String := String.ofList (List.replicate (2 * tabs) ' ')

mutual

/-- Draw a tree, each level two blanks further in than the one above. -/
def text (tabs : Nat) : Expr → String
  | value t => indent tabs ++ "Value: " ++ t.shown
  | list items =>
    indent tabs ++ "List: \n" ++ indent (tabs + 1) ++ "Values: \n"
      ++ "\n".intercalate (texts (tabs + 2) items)
  | call name args =>
    indent tabs ++ "Function: \n" ++ indent (tabs + 1) ++ "Name: " ++ name.shown ++ "\n"
      ++ indent (tabs + 1) ++ "Arguments: \n" ++ "\n".intercalate (texts (tabs + 2) args)
  | index v i =>
    indent tabs ++ "Index: \n" ++ indent (tabs + 1) ++ "Of: \n" ++ text (tabs + 2) v ++ "\n"
      ++ indent (tabs + 1) ++ "At: \n" ++ text (tabs + 2) i
  | binary op _ l r =>
    indent tabs ++ "Expression: \n" ++ indent (tabs + 1) ++ "Operator: OperatorType." ++ op.label
      ++ "\n" ++ indent (tabs + 1) ++ "Left: \n" ++ text (tabs + 2) l ++ "\n"
      ++ indent (tabs + 1) ++ "Right: \n" ++ text (tabs + 2) r
  | unary op e =>
    indent tabs ++ "Single Operator: \n" ++ indent (tabs + 1) ++ "Operator: " ++ op.text ++ "\n"
      ++ indent (tabs + 1) ++ "Expression: \n" ++ text (tabs + 2) e

def texts (tabs : Nat) : List Expr → List String
  | [] => []
  | e :: es => text tabs e :: texts tabs es

end

/-- The token that an expression is located at; an empty list has none. -/
def firstToken? : Expr → Option Token
  | value t => some t
  | list [] => none
  | list (e :: _) => firstToken? e
  | call name _ => some name
  | index v i => (firstToken? v).or (firstToken? i)
  | binary _ _ l r => (firstToken? l).or (firstToken? r)
  | unary op _ => some op

mutual

def leaves : Expr → List Token
  | value t => [t]
  | list items => leavesOf items
  | call _ args => leavesOf args
  | index v i => leaves v ++ leaves i
  | binary _ _ l r => leaves l ++ leaves r
  | unary _ e => leaves e

def leavesOf : List Expr → List Token
  | [] => []
  | e :: es => leaves e ++ leavesOf es

end

/-- The order in which names are shown: by line, column, kind and text. -/
def nameLe (a b : Token) : Bool :=
  if a.line ≠ b.line then decide (a.line < b.line)
  else if a.col ≠ b.col then decide (a.col < b.col)
  else if a.kind ≠ b.kind then decide (a.kind.label < b.kind.label)
  else decide (a.text ≤ b.text)

/-- Tokens without repetition, in the order in which they are shown. -/
def inOrder (ts : List Token) : List Token := ts.eraseDups.mergeSort nameLe

def names (e : Expr) : List Token := inOrder e.leaves

end Expr

end DreamBerd
