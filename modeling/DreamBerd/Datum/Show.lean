import DreamBerd.Datum
import DreamBerd.Number

/-!
# Data as text

`Datum.shown` writes a datum so that texts are quoted; `Datum.text` leaves a text that stands alone
as it is. An integer with too many digits cannot be written.
-/

namespace DreamBerd.Datum

def treeName : Expr → String
  | .value _ => "ValueNode"
  | .list _ => "ListNode"
  | .call .. => "FunctionNode"
  | .index .. => "IndexNode"
  | .binary .. => "ExpressionNode"
  | .unary .. => "SingleOperatorNode"

/-- Between round brackets, a single element with a comma. -/
def tupleText : List String → String
  | [x] => "(" ++ x ++ ",)"
  | xs => "(" ++ ", ".intercalate xs ++ ")"

def tokenText (kindText valueShown : String) : String :=
  "Token(" ++ kindText ++ ", " ++ valueShown ++ ")"

/-- The text of a kind that stands alone, or of any other datum. -/
def plainText (d : Datum) (shown : String) : String :=
  match d with
  | text s => s
  | kind k => "TokenType." ++ k.label
  | _ => shown

mutual

def shown : Datum → Except Fault String
  | none => .ok "None"
  | truth b => .ok (if b then "True" else "False")
  | int n => Number.intText n
  | real x => .ok (Decimal.ofFloat x)
  | text s => .ok (Text.quoted s)
  | list items => do return "[" ++ ", ".intercalate (← shownAll items) ++ "]"
  | tuple items => do return tupleText (← shownAll items)
  | dict entries => do
    return "\x7b" ++ ", ".intercalate (← shownEntries entries) ++ "\x7d"
  | procedure a => .ok ("<function " ++ a.qualifiedName ++ " at 0x0>")
  | kind k => .ok ("<TokenType." ++ k.label ++ ": " ++ Text.quoted k.symbol ++ ">")
  | tree _ e =>
    .ok ("<dreamberd.processor.expression_tree." ++ treeName e ++ " object at 0x0>")
  | record t fields => do
    let texts ← shownFields fields
    match t, fields, texts with
    | .token, (_, k) :: _, (_, kindShown) :: (_, valueShown) :: _ =>
      return tokenText (plainText k kindShown) valueShown
    | _, _, _ =>
      return t.typeName ++ "(" ++ ", ".intercalate (texts.map fun f => f.1 ++ "=" ++ f.2) ++ ")"
  | cycle => .ok "..."

def shownAll : List Datum → Except Fault (List String)
  | [] => .ok []
  | d :: ds => do return (← shown d) :: (← shownAll ds)

def shownEntries : List (Datum × Datum) → Except Fault (List String)
  | [] => .ok []
  | (k, v) :: es => do return ((← shown k) ++ ": " ++ (← shown v)) :: (← shownEntries es)

def shownFields : List (String × Datum) → Except Fault (List (String × String))
  | [] => .ok []
  | (name, d) :: fs => do return (name, ← shown d) :: (← shownFields fs)

end

/-- Write a datum, a text that stands alone as it is. -/
def toText (d : Datum) : Except Fault String := do return plainText d (← d.shown)

/-- Whether a datum counts as present: zero, nothing and what is empty does not. -/
def isPresent : Datum → Bool
  | none => false
  | truth b => b
  | int n => n != 0
  | real x => !(x == 0.0)
  | text s => !s.isEmpty
  | list items => !items.isEmpty
  | tuple items => !items.isEmpty
  | dict entries => !entries.isEmpty
  | _ => true

def typeName : Datum → String
  | none => "NoneType"
  | truth _ => "bool"
  | int _ => "int"
  | real _ => "float"
  | text _ => "str"
  | list _ => "list"
  | tuple _ => "tuple"
  | dict _ => "dict"
  | procedure _ => "function"
  | kind _ => "TokenType"
  | tree _ e => treeName e
  | record t _ => t.typeName
  | cycle => "NoneType"

end DreamBerd.Datum
