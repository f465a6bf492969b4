/-!
# Tokens

A token is a piece of source text with its kind, its line and the column at which it ends.
`TokenKind.symbol` is the spelling that names a kind in published code, `TokenKind.label` the name
used in debugging output, and `Operator` lists the nineteen operators of expressions.
-/

namespace DreamBerd

inductive TokenKind where
  | rCurly | lCurly | rSquare | lSquare
  | dot | add | increment | decrement | equal | divide | multiply | subtract
  | comma | colon | semicolon | bang | question | carrot | funcPoint
  | lessThan | greaterThan | lessEqual | greaterEqual | notEqual | pipe | and
  | whitespace | name | string
  | newline | singleQuote | doubleQuote
  deriving DecidableEq, Inhabited

namespace TokenKind

def all : List TokenKind :=
  [rCurly, lCurly, rSquare, lSquare, dot, add, increment, decrement, equal, divide, multiply,
    subtract, comma, colon, semicolon, bang, question, carrot, funcPoint, lessThan, greaterThan,
    lessEqual, greaterEqual, notEqual, pipe, and, whitespace, name, string, newline, singleQuote,
    doubleQuote]

/-- The text that stands for the kind; a token with no text of its own carries it. -/
def symbol : TokenKind → String
  | rCurly => "\x7d"
  | lCurly => "\x7b"
  | rSquare => "]"
  | lSquare => "["
  | dot => "."
  | add => "+"
  | increment => "++"
  | decrement => "--"
  | equal => "="
  | divide => "/"
  | multiply => "*"
  | subtract => "-"
  | comma => ","
  | colon => ":"
  | semicolon => ";"
  | bang => "!"
  | question => "?"
  | carrot => "^"
  | funcPoint => "=>"
  | lessThan => "<"
  | greaterThan => ">"
  | lessEqual => "<="
  | greaterEqual => ">="
  | notEqual => ";="
  | pipe => "|"
  | and => "&"
  | whitespace => "       "
  | name => "abcaosdijawef"
  | string => String.ofList (List.replicate 75 (Char.ofNat 39))
  | newline => "\n"
  | singleQuote => "'"
  | doubleQuote => "\""

def label : TokenKind → String
  | rCurly => "R_CURLY"
  | lCurly => "L_CURLY"
  | rSquare => "R_SQUARE"
  | lSquare => "L_SQUARE"
  | dot => "DOT"
  | add => "ADD"
  | increment => "INCREMENT"
  | decrement => "DECREMENT"
  | equal => "EQUAL"
  | divide => "DIVIDE"
  | multiply => "MULTIPLY"
  | subtract => "SUBTRACT"
  | comma => "COMMA"
  | colon => "COLON"
  | semicolon => "SEMICOLON"
  | bang => "BANG"
  | question => "QUESTION"
  | carrot => "CARROT"
  | funcPoint => "FUNC_POINT"
  | lessThan => "LESS_THAN"
  | greaterThan => "GREATER_THAN"
  | lessEqual => "LESS_EQUAL"
  | greaterEqual => "GREATER_EQUAL"
  | notEqual => "NOT_EQUAL"
  | pipe => "PIPE"
  | and => "AND"
  | whitespace => "WHITESPACE"
  | name => "NAME"
  | string => "STRING"
  | newline => "NEWLINE"
  | singleQuote => "SINGLE_QUOTE"
  | doubleQuote => "DOUBLE_QUOTE"

def ofSymbol? (s : String) : Option TokenKind :=
  all.find? (fun k => k.symbol == s)

end TokenKind

/-- A piece of source text. Lines count from one; the column is that of the token's last character,
counted from the line break before it. Tokens that no source line holds have line and column -1. -/
structure Token where
  kind : TokenKind
  text : String
  line : Int
  col : Int
  deriving DecidableEq, Inhabited

namespace Token

def is (t : Token) (k : TokenKind) : Bool := t.kind == k

def isBlank (t : Token) : Bool := t.kind == .whitespace

def width (t : Token) : Nat := t.text.length

end Token

/-- The operators of binary expressions; `comma` only separates the arguments of a call. -/
inductive Operator where
  | add | sub | mul | div | exp
  | gt | ge | lt | le
  | or | and | comma
  | e | ee | eee | eeee
  | ne | nee | neee
  deriving DecidableEq, Inhabited

namespace Operator

def all : List Operator :=
  [add, sub, mul, div, exp, gt, ge, lt, le, or, and, comma, e, ee, eee, eeee, ne, nee, neee]

def symbol : Operator → String
  | add => "+"
  | sub => "-"
  | mul => "*"
  | div => "/"
  | exp => "^"
  | gt => ">"
  | ge => ">="
  | lt => "<"
  | le => "<="
  | or => "|"
  | and => "&"
  | comma => ","
  | e => "="
  | ee => "=="
  | eee => "==="
  | eeee => "===="
  | ne => ";="
  | nee => ";=="
  | neee => ";==="

def label : Operator → String
  | add => "ADD"
  | sub => "SUB"
  | mul => "MUL"
  | div => "DIV"
  | exp => "EXP"
  | gt => "GT"
  | ge => "GE"
  | lt => "LT"
  | le => "LE"
  | or => "OR"
  | and => "AND"
  | comma => "COM"
  | e => "E"
  | ee => "EE"
  | eee => "EEE"
  | eeee => "EEEE"
  | ne => "NE"
  | nee => "NEE"
  | neee => "NEEE"

def ofSymbol? (s : String) : Option Operator :=
  all.find? (fun o => o.symbol == s)

end Operator

def Token.operator? (t : Token) : Option Operator := Operator.ofSymbol? t.text

end DreamBerd
