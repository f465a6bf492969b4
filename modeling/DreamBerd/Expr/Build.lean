import DreamBerd.Expr
import DreamBerd.Fault

/-!
# Reading expressions

Blanks group an expression: the operator with the most blanks around it is applied last, so that
`2 * 1+3` is `2 * (1 + 3)`. A name that is followed by more blanks than any operator has is called
with what follows.

`Expr.split` finds the outermost form of an expression and cuts its tokens into the tokens of the
parts; `Expr.ofTokens` does so at every level. Parts are shorter than the whole, so as many levels as
there are tokens are enough.
-/

namespace DreamBerd

namespace Expr

/-- The outermost form of an expression, with the tokens of its parts. -/
inductive Split where
  | value (token : Token)
  | list (items : List (List Token))
  | call (name : Token) (args : List (List Token))
  | index (value index : List Token)
  | binary (op : Operator) (token : Token) (left right : List Token)
  | unary (op : Token) (operand : List Token)
  | unaryCall (op name : Token) (arg : List Token)
  deriving DecidableEq

/-- The tokens from position `start` up to, not including, position `stop`. -/
def slice (tokens : List Token) (start stop : Nat) : List Token :=
  (tokens.take stop).drop start

/-- The tokens between consecutive positions; each cut leaves out the token at its start. -/
def cuts (tokens : List Token) (starts stops : List Nat) : List (List Token) :=
  (starts.zip stops).map fun p => slice tokens (p.1 + 1) p.2

def depthStep (t : Token) : Int :=
  if t.kind = .lSquare then 1 else if t.kind = .rSquare then -1 else 0

/-- The blanks that a token counts for, next to an operator. -/
def blankWidth (t : Token) : Nat := if t.isBlank then t.width else 0

/-- An operator outside brackets, and the blanks at its right. -/
structure Widest where
  width : Nat
  position : Nat
  op : Operator
  token : Token
  deriving DecidableEq

/-- Tabs and line breaks are refused inside an expression. -/
def checkBlanks (src : Source) : List Token → Except Fault Unit
  | [] => .ok ()
  | t :: ts =>
    if t.isBlank && t.text.toList.contains '\t' then .error (src.atToken .tabInExpression t)
    else if t.is .newline then .error (src.atToken .newlineInExpression t)
    else checkBlanks src ts

/-- The last of the operators with the most blanks, among those outside brackets. A first token is
no operator, nor is a minus sign with blanks only before it. `previous` is the token before, `i` the
position and `best` the operator found so far. -/
def widestFrom (src : Source) (previous : Option Token) (depth : Int) (i : Nat)
    (best : Option Widest) : List Token → Except Fault (Option Widest)
  | [] => .ok best
  | t :: ts =>
    let depth := depth + depthStep t
    match previous, t.operator? with
    | some before, some op =>
      if depth ≠ 0 then widestFrom src (some t) depth (i + 1) best ts
      else match ts with
        | [] => .error (src.atToken .operatorAtEnd t)
        | next :: _ =>
          if before.isBlank && !next.isBlank && op == .sub then
            widestFrom src (some t) depth (i + 1) best ts
          else
            let left := blankWidth before
            let right := blankWidth next
            if left ≠ right ∧ op ≠ .comma then .error (src.atToken .unequalOperatorBlanks t)
            else
              let wider : Bool :=
                match best with
                | none => true
                | some b => b.width ≤ right
              widestFrom src (some t) depth (i + 1)
                (if wider then some ⟨right, i, op, t⟩ else best) ts
    | _, _ => widestFrom src (some t) depth (i + 1) best ts

/-- The operator that is applied last, if any. -/
def widest (src : Source) (tokens : List Token) : Except Fault (Option Widest) :=
  widestFrom src none 0 0 none tokens

/-- Whether more than the blanks of the widest operator are `n`. -/
def exceeds (n : Nat) (w : Option Widest) : Bool :=
  match w with
  | none => true
  | some w => w.width < n

/-- What the argument of a call without commas can start with. -/
def startsArgument (k : TokenKind) : Bool :=
  k == .name || k == .lSquare || k == .string || k == .subtract || k == .semicolon

/-- Whether the bracket opened before `tokens` is closed by their last token and not before. -/
def closesAtEnd (depth : Int) : List Token → Bool
  | [] => false
  | t :: ts =>
    let depth := depth + depthStep t
    if depth = 0 then ts.isEmpty else closesAtEnd depth ts

/-- The positions of the commas that separate the items of a list whose brackets have `width` blanks
inside. -/
def listCommas (width : Nat) (depth : Int) (i : Nat) : List Token → List Nat
  | [] => []
  | [_] => []
  | t :: next :: ts =>
    let depth := depth + depthStep t
    let rest := listCommas width depth (i + 1) (next :: ts)
    if t.operator? = some .comma ∧ depth = 1 ∧ (width = 0 ∨ width = next.width ∧ next.isBlank) then
      i :: rest
    else rest

/-- The positions of the commas that separate the arguments of a call: those with `width` blanks
after them. -/
def callCommas (width : Nat) (i : Nat) : List Token → Except Fault (List Nat)
  | [] => .ok []
  | t :: ts =>
    if t.text = "," then
      if width = 0 then (callCommas width (i + 1) ts).map (i :: ·)
      else match ts with
        | [] => .error (.breakdown .position)
        | next :: _ =>
          if next.isBlank && next.width == width then
            (callCommas width (i + 1) ts).map (i :: ·)
          else callCommas width (i + 1) ts
    else callCommas width (i + 1) ts

/-- The position, below `stop`, of the bracket that opens the index closed at `stop`. -/
def indexStart? (tokens : List Token) (depth : Int) : Nat → Option Nat
  | 0 => none
  | i + 1 =>
    let depth := depth + ((tokens[i]?).map depthStep).getD 0
    if depth = 0 then some i else indexStart? tokens depth i

/-- The form of a list whose brackets enclose all tokens. -/
def splitList (src : Source) (tokens : List Token) (leading trailing : Nat) : Except Fault Split :=
  match tokens[leading + 1]?, tokens[tokens.length - trailing - 2]? with
  | some first, some last =>
    let width := blankWidth first
    if width ≠ blankWidth last then .error (src.atToken .unequalBracketBlanks last)
    else
      match listCommas width 0 0 tokens with
      | [] => .ok (.list [slice tokens (leading + 1) (tokens.length - trailing - 1)])
      | commas =>
        .ok (.list (cuts tokens (leading :: commas) (commas ++ [tokens.length - 1 - trailing])))
  | _, _ => .error (.breakdown .position)

/-- The form of an expression without an operator outside brackets. -/
def splitAtom (src : Source) (tokens solid : List Token) (head : Token) (leading trailing : Nat) :
    Except Fault Split :=
  if head.kind ≠ .name ∧ head.kind ≠ .lSquare ∧ head.kind ≠ .string then
    .error (src.atToken .expectedValue head)
  else if head.kind = .lSquare ∧ closesAtEnd 1 solid.tail then
    splitList src tokens leading trailing
  else if (solid.getLast?.map Token.kind) = some .rSquare then
    let stop := tokens.length - trailing - 1
    match indexStart? tokens (-1) stop with
    | some i => .ok (.index (slice tokens leading i) (slice tokens (i + 1) stop))
    | none => .ok (.value head)
  else .ok (.value head)

/-- The form of an expression whose widest operator is `w`. -/
def splitOperator (src : Source) (tokens solid : List Token) (head : Token) (leading : Nat)
    (w : Widest) : Except Fault Split :=
  if w.op = .comma then
    let called : Bool :=
      head.kind == .name &&
        match solid[1]? with
        | some t => t.kind == .name || t.kind == .lSquare || t.kind == .string
        | none => false
    if !called then .error (src.atToken .expectedCall head)
    else
      match callCommas w.width 0 tokens with
      | .error f => .error f
      | .ok commas =>
        .ok (.call head (cuts tokens (leading :: commas) (commas ++ [tokens.length])))
  else .ok (.binary w.op w.token (tokens.take w.position) (tokens.drop (w.position + 1)))

/-- The forms other than a call without commas. -/
def splitRest (src : Source) (tokens solid : List Token) (signed : Bool) (head : Token)
    (leading trailing : Nat) (w : Option Widest) : Except Fault Split :=
  let outermost : Bool :=
    match w with
    | none => true
    | some w =>
      w.op == .comma ||
        match tokens[leading + 1]? with
        | some t => t.isBlank && decide (w.width < t.width)
        | none => false
  if signed && outermost then .ok (.unary head (tokens.drop (leading + 1)))
  else
    match w with
    | none => splitAtom src tokens solid head leading trailing
    | some w => splitOperator src tokens solid head leading w

def leading (tokens : List Token) : Nat := if tokens.head?.any Token.isBlank then 1 else 0

abbrev solid (tokens : List Token) : List Token := tokens.filter (!·.isBlank)

def trailing (tokens : List Token) : Nat := leading tokens.reverse

/-- The last step of splitting: a call without commas, or one of the other forms. -/
def splitNamed (src : Source) (tokens solids : List Token) (signed : Bool) (head : Token)
    (leading trailing : Nat) (w : Option Widest) : Except Fault Split :=
  match tokens.drop (leading + (if signed then 1 else 0)) with
  | name :: gap :: arg :: more =>
    if name.is .name && gap.isBlank && startsArgument arg.kind && exceeds gap.width w then
      if signed then .ok (.unaryCall head name (gap :: arg :: more))
      else .ok (.call name [gap :: arg :: more])
    else splitRest src tokens solids signed head leading trailing w
  | _ => splitRest src tokens solids signed head leading trailing w

/-- The outermost form of the expression that the tokens spell. -/
def split (src : Source) (tokens : List Token) : Except Fault Split :=
  if tokens.isEmpty then .error (.plain .nothingToRead)
  else do
    checkBlanks src tokens.tail.dropLast
    if (solid tokens).map Token.kind = [.lSquare, .rSquare] then .ok (.list [])
    else
      let w ← widest src tokens
      (solid tokens).head?.elim (.error (.breakdown .position)) fun head =>
        splitNamed src tokens (solid tokens) (head.is .semicolon || head.is .subtract) head
          (leading tokens) (trailing tokens) w

def build (src : Source) : Nat → List Token → Except Fault Expr
  | 0, _ => .error .outOfFuel
  | fuel + 1, tokens =>
    match split src tokens with
    | .error f => .error f
    | .ok (.value t) => .ok (.value t)
    | .ok (.list items) => return .list (← items.mapM (build src fuel))
    | .ok (.call name args) => return .call name (← args.mapM (build src fuel))
    | .ok (.index v i) => return .index (← build src fuel v) (← build src fuel i)
    | .ok (.binary op t l r) => return .binary op t (← build src fuel l) (← build src fuel r)
    | .ok (.unary op e) => return .unary op (← build src fuel e)
    | .ok (.unaryCall op name arg) => return .unary op (.call name [← build src fuel arg])

def ofTokens (src : Source) (tokens : List Token) : Except Fault Expr :=
  build src (tokens.length + 1) tokens

end Expr

def trimTokens (ts : List Token) : List Token :=
  ((ts.dropWhile Token.isBlank).reverse.dropWhile Token.isBlank).reverse

end DreamBerd
