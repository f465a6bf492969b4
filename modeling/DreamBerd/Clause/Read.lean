import DreamBerd.Clause
import DreamBerd.Expr.Build
import DreamBerd.Token.Lexer

/-!
# Reading clauses

`Clause.ofTokens` reads the tokens of a text, or of the inside of a scope, into clauses. Statements end
with exclamation marks, question marks or the brace that closes a scope. Type hints are dropped.
A statement that opens a scope is a function, a class, a condition, or a `when` or `after`; any other
is an expression and perhaps more.
-/

namespace DreamBerd

namespace Clause

/-! ## Indentation -/

def indentWidth (t : Token) : Nat :=
  (t.text.toList.map fun c => if c == '\t' then 2 else 1).foldl (· + ·) 0

/-- Blanks at the start of a line come in threes; `atStart` says that a line has just begun. -/
def checkIndent (src : Source) (atStart : Bool) : List Token → Except Fault Unit
  | [] => .ok ()
  | t :: ts =>
    if atStart then
      if t.isBlank && indentWidth t % 3 != 0 then .error (src.atToken .badIndent t)
      else checkIndent src false ts
    else checkIndent src (t.is .newline) ts

/-! ## Statements -/

def scopeStep (t : Token) : Int :=
  if t.kind = .lCurly then 1 else if t.kind = .rCurly then -1 else 0

def isTerminator (t : Token) : Bool := t.is .rCurly || t.is .bang || t.is .question

def isSpace (t : Token) : Bool := t.isBlank || t.is .newline

/-- Cut after each terminator outside scopes; `current` holds the statement so far, in reverse. -/
def cutFrom (depth : Int) (current : List Token) : List Token → List (List Token)
  | [] => [current.reverse]
  | t :: ts =>
    let depth := depth + scopeStep t
    if isTerminator t ∧ depth = 0 then (t :: current).reverse :: cutFrom depth [] ts
    else cutFrom depth (t :: current) ts

def trimSpace (ts : List Token) : List Token :=
  ((ts.dropWhile isSpace).reverse.dropWhile isSpace).reverse

def statements (tokens : List Token) : List (List Token) :=
  ((cutFrom 0 [] tokens).map trimSpace).filter (!·.isEmpty)

/-! ## Type hints -/

/-- How far the removal of type hints has come. -/
structure HintState where
  keeping : Bool := true
  scopes : Int := 0
  squares : Int := 0
  /-- The depth of brackets at which the hint started. -/
  hintSquares : Int := 0
  /-- The name whose type arguments are being skipped. -/
  skipping : Option Token := none

/-- Drop type hints: from a colon outside scopes up to the next operator. -/
def dropHints (src : Source) (st : HintState) : List Token → Except Fault (List Token)
  | [] =>
    match st.skipping with
    | some t => .error (src.atToken .brokenTypeHint t)
    | none => .ok []
  | t :: ts =>
    if st.skipping.isSome then
      if t.is .greaterThan then dropHints src { st with skipping := none } ts
      else dropHints src st ts
    else
      let st : HintState := { st with
        scopes := st.scopes + scopeStep t
        squares := st.squares + Expr.depthStep t }
      let st : HintState :=
        if t.is .colon && st.scopes == 0 then
          { st with keeping := false, hintSquares := st.squares }
        else st
      if st.keeping then (dropHints src st ts).map (t :: ·)
      else if t.operator?.isSome && st.squares == st.hintSquares then
        (dropHints src { st with keeping := true } ts).map (t :: ·)
      else if t.is .name && (ts.head?.any (·.is .lessThan)) then
        dropHints src { st with skipping := some t } ts
      else dropHints src st ts

/-! ## Functions -/

/-- The names in the head of a function: those that follow one another, and those after. -/
structure FunctionHead where
  inRow : List Token
  others : List Token

/-- Read the names up to the arrow; `inRow` tells whether only names have been seen. -/
def functionHead (src : Source) (inRow : Bool) : List Token → Except Fault FunctionHead
  | [] => .ok ⟨[], []⟩
  | t :: ts =>
    if t.is .funcPoint then .ok ⟨[], []⟩
    else if inRow then
      if !t.is .name then functionHead src false ts
      else if t.text.isEmpty then functionHead src true ts
      else (functionHead src true ts).map fun h => { h with inRow := t :: h.inRow }
    else if t.is .name && !t.text.isEmpty then
      (functionHead src false ts).map fun h => { h with others := t :: h.others }
    else if t.is .comma then functionHead src false ts
    else .error (src.atToken .badFunctionToken t)

def functionForms (src : Source) (solid : List Token) (code : List Clause) :
    Except Fault (List (Form (List Token) (List Clause))) :=
  match functionHead src true solid with
  | .error f => .error f
  | .ok ⟨inRow, others⟩ =>
    match inRow with
    | [k, n] => .ok [.function [k] n others code false]
    | [a, b, c] =>
      if others.isEmpty then
        .ok [.function [a] b [c] code false, .function [a, b] c [] code true]
      else .ok [.function [a] b (c :: others) code false]
    | [a, b, c, d] => .ok [.function [a, b] c (d :: others) code true]
    | _ =>
      match solid.head? with
      | some t => .error (src.atToken .badFunctionKeywords t)
      | none => .error (.breakdown .position)

/-! ## Statements that open a scope -/

def scopedForms (src : Source) (tokens solid : List Token) (openAt : Nat) (code : List Clause) :
    Except Fault (List (Form (List Token) (List Clause))) :=
  if (solid.take openAt).any (·.is .funcPoint) then functionForms src solid code
  else
    match solid with
    | keyword :: rest =>
      let leading := if tokens.head?.any Token.isBlank then 1 else 0
      let expression := Expr.slice tokens (leading + 1) openAt
      let others := [.conditional keyword expression code, .after keyword expression code,
        .when keyword expression code]
      match rest with
      | name :: brace :: _ =>
        if name.is .name && brace.is .lCurly then
          .ok (.classDeclaration keyword name code :: others)
        else .ok others
      | _ => .ok others
    | [] => .error (.breakdown .position)

/-! ## Statements without a scope -/

def alternates (wantComma : Bool) : List Token → Bool
  | [] => true
  | t :: ts =>
    (if wantComma then t.is .comma else t.is .name) && alternates (!wantComma) ts

def isCommaList : List Token → Bool
  | [] => false
  | t :: ts => alternates (!t.is .comma) ts

/-- The indexes of an assignment, read up to the equals sign outside brackets. -/
def assignmentIndexes (depth : Int) (adding : Bool) (current : List Token) :
    List Token → List (List Token)
  | [] => []
  | t :: ts =>
    if t.is .lSquare then assignmentIndexes (depth + 1) (adding || depth == 0) current ts
    else if t.is .rSquare then
      if depth - 1 = 0 then current.reverse :: assignmentIndexes 0 false [] ts
      else assignmentIndexes (depth - 1) adding current ts
    else if depth = 0 ∧ t.is .equal then []
    else assignmentIndexes depth adding (if adding then t :: current else current) ts

/-- The lifetime of a declaration: the first text that is not empty, up to the closing sign. -/
def lifetimeText (found : Option String) : List Token → Option String
  | [] => found
  | t :: ts =>
    if t.is .greaterThan then found
    else lifetimeText (if found.getD "" = "" then some t.text else found) ts

def declarationHead (names : List Token) : List Token → List Token × Option String
  | [] => (names.reverse, none)
  | t :: ts =>
    if t.is .name then declarationHead (t :: names) ts
    else if t.is .lessThan then
      (names.reverse, if names.length = 3 ∨ names.length = 4 then lifetimeText none ts else none)
    else (names.reverse, none)

/-- The sign that separates a target from its value. -/
def isAssignSign (t : Token) : Bool := t.is .equal && t.text == "="

def declarationForms (tokens solid : List Token) (debug confidence : Nat) :
    List (Form (List Token) (List Clause)) :=
  let (names, lifetime) := declarationHead [] solid
  match names.reverse with
  | name :: modifiers =>
    if names.length = 3 ∨ names.length = 4 then
      [.declaration name modifiers.reverse lifetime
        (tokens.dropWhile (!isAssignSign ·)).tail.dropLast debug confidence]
    else []
  | [] => []

/-- The forms of a statement without a scope that is no function. -/
def plainForms (tokens solid : List Token) (debug confidence : Nat) :
    Except Fault (List (Form (List Token) (List Clause))) :=
  match solid with
  | [] => .error (.breakdown .position)
  | head :: rest =>
    let named := head.is .name
    let inner := rest.dropLast
    let second : TokenKind → Bool := fun k => rest.head?.any (·.is k)
    let returns :=
      if named then [.returns (some head) tokens.tail.dropLast debug] else []
    let deletes :=
      match rest with
      | [name, stop] =>
        if named && name.is .name && (stop.is .bang || stop.is .question) then
          [.delete head name debug]
        else []
      | _ => []
    let imports :=
      if named && second .name && solid.length ≥ 3 && isCommaList inner &&
          solid.dropLast.all (fun t => t.is .name || t.is .comma) then
        [.imports head (inner.filter (·.is .name)) debug]
      else []
    let exports :=
      match inner.reverse with
      | target :: toward :: names =>
        if named && second .name && solid.length ≥ 5 && isCommaList names.reverse &&
            (target.is .name || target.is .string) && toward.is .name &&
            solid.dropLast.all (fun t => t.is .name || t.is .comma || t.is .string) then
          [.exports head (names.reverse.filter (·.is .name)) toward target debug]
        else []
      | _ => []
    let assigned := tokens.any isAssignSign
    let assignable := assigned && solid.length ≥ 4 && named && (second .equal || second .lSquare)
    let declarations :=
      if assigned && !assignable then declarationForms tokens solid debug confidence else []
    let assignments :=
      if assignable then
        [.assignment head (tokens.dropWhile (!isAssignSign ·)).tail.dropLast debug
          (assignmentIndexes 0 false [] tokens) confidence]
      else []
    .ok (.expression tokens.dropLast debug ::
      (returns ++ deletes ++ imports ++ exports ++ declarations ++ assignments))

def unscopedForms (src : Source) (tokens solid : List Token) :
    Except Fault (List (Form (List Token) (List Clause))) :=
  match tokens.getLast? with
  | none => .error (.breakdown .position)
  | some last =>
    let debug := if last.is .question then last.width else 0
    let confidence := if last.is .question then 0 else last.width
    match solid with
    | [keyword, _] => .ok [.reverse keyword debug, .expression tokens.dropLast debug]
    | _ =>
      if tokens.any (·.is .funcPoint) then
        functionForms src solid
          [.mk [.returns none (tokens.dropWhile (!·.is .funcPoint)).tail.dropLast debug]]
      else plainForms tokens solid debug confidence

/-! ## Texts -/

/-- Turn a position that is missing in a statement into a complaint about its line. -/
def orUnreadable {α : Type} (src : Source) (solid : List Token) (r : Except Fault α) :
    Except Fault α :=
  match r with
  | .error (.breakdown .position) =>
    match solid.head? with
    | some t => .error (src.atLine .unreadableStatement t.line)
    | none => .error (.breakdown .position)
  | r => r

/-- The forms of a statement; `inner` reads the inside of a scope. -/
def formsOf (src : Source) (inner : List Token → Except Fault (List Clause)) (tokens : List Token) :
    Except Fault (List (Form (List Token) (List Clause))) :=
  let solid := tokens.filter (!·.isBlank)
  let openAt := (tokens.takeWhile (!·.is .lCurly)).length
  if tokens.any (·.is .lCurly) then
    match tokens.getLast?, solid.head? with
    | some last, some head =>
      let ending := if last.is .bang || last.is .question then 1 else 0
      if !((tokens[tokens.length - 1 - ending]?).any (·.is .rCurly)) then
        .error (src.atToken .unclosedScope last)
      else if !head.is .name then .error (src.atToken .scopeWithoutKeyword head)
      else
        match inner (Expr.slice tokens (openAt + 1) (tokens.length - ending - 1)) with
        | .error f => .error f
        | .ok code => scopedForms src tokens solid openAt code
    | _, _ => .error (.breakdown .position)
  else unscopedForms src tokens solid

def readWith (src : Source) (inner : List Token → Except Fault (List Clause))
    (tokens : List Token) : Except Fault (List Clause) := do
  checkIndent src false tokens
  let hintless ← (statements tokens).mapM (dropHints src {})
  hintless.mapM fun ts =>
    (orUnreadable src (ts.filter (!·.isBlank)) (formsOf src inner ts)).map .mk

/-- Read a text with at most `fuel` nested scopes. -/
def read (src : Source) : Nat → List Token → Except Fault (List Clause)
  | 0, _ => .error .outOfFuel
  | fuel + 1, tokens => readWith src (read src fuel) tokens

def ofTokens (src : Source) (tokens : List Token) : Except Fault (List Clause) :=
  read src (tokens.length + 1) tokens

end Clause

def Source.clauses (src : Source) : Except Fault (List Clause) := do
  Clause.ofTokens src (← src.tokens)

end DreamBerd
