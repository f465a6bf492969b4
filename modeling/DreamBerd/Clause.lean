import DreamBerd.Token

/-!
# Clauses

Text alone does not tell what a statement is: `if x {` is a condition only as long as `if` is the
keyword. A clause is therefore the list of the forms that a statement can take, and the names in
scope choose one of them when it runs.

`Form` is parameterised over the type of its expressions and of its blocks: in a `Clause`, as it is
read, expressions are tokens and blocks are clauses.
-/

namespace DreamBerd

/-- A form that a statement can take. `debug` is the number of question marks that end it,
`confidence` the length of another ending. -/
inductive Form (ε κ : Type) where
  | function (keywords : List Token) (name : Token) (args : List Token) (code : κ) (isAsync : Bool)
  | classDeclaration (keyword name : Token) (code : κ)
  | declaration (name : Token) (modifiers : List Token) (lifetime : Option String) (expression : ε)
      (debug confidence : Nat)
  | assignment (name : Token) (expression : ε) (debug : Nat) (indexes : List ε) (confidence : Nat)
  | conditional (keyword : Token) (expression : ε) (code : κ)
  | returns (keyword : Option Token) (expression : ε) (debug : Nat)
  | delete (keyword name : Token) (debug : Nat)
  | reverse (keyword : Token) (debug : Nat)
  | expression (expression : ε) (debug : Nat)
  | when (keyword : Token) (expression : ε) (code : κ)
  | after (keyword : Token) (expression : ε) (code : κ)
  | exports (keyword : Token) (names : List Token) (toward target : Token) (debug : Nat)
  | imports (keyword : Token) (names : List Token) (debug : Nat)

namespace Form

def map {ε κ ε' κ' : Type} (f : ε → ε') (g : κ → κ') : Form ε κ → Form ε' κ'
  | function ks n as c a => .function ks n as (g c) a
  | classDeclaration k n c => .classDeclaration k n (g c)
  | declaration n ms l e d c => .declaration n ms l (f e) d c
  | assignment n e d is c => .assignment n (f e) d (is.map f) c
  | conditional k e c => .conditional k (f e) (g c)
  | returns k e d => .returns k (f e) d
  | delete k n d => .delete k n d
  | reverse k d => .reverse k d
  | expression e d => .expression (f e) d
  | when k e c => .when k (f e) (g c)
  | after k e c => .after k (f e) (g c)
  | exports k ns t f d => .exports k ns t f d
  | imports k ns d => .imports k ns d

/-- Change every token that a form holds outside its expressions and blocks. -/
def mapTokens {ε κ : Type} (f : Token → Token) : Form ε κ → Form ε κ
  | function ks n as c a => .function (ks.map f) (f n) (as.map f) c a
  | classDeclaration k n c => .classDeclaration (f k) (f n) c
  | declaration n ms l e d c => .declaration (f n) (ms.map f) l e d c
  | assignment n e d is c => .assignment (f n) e d is c
  | conditional k e c => .conditional (f k) e c
  | returns k e d => .returns (k.map f) e d
  | delete k n d => .delete (f k) (f n) d
  | reverse k d => .reverse (f k) d
  | expression e d => .expression e d
  | when k e c => .when (f k) e c
  | after k e c => .after (f k) e c
  | exports k ns t g d => .exports (f k) (ns.map f) (f t) (f g) d
  | imports k ns d => .imports (f k) (ns.map f) d

end Form

/-- The forms that a statement can take, as they are read. -/
inductive Clause where
  | mk (forms : List (Form (List Token) (List Clause)))

def Clause.forms : Clause → List (Form (List Token) (List Clause))
  | mk forms => forms

abbrev Block := List Clause

end DreamBerd
