import DreamBerd.Action
import DreamBerd.Clause
import DreamBerd.Expr

/-!
# Data

A datum is the plain description of anything that the interpreter holds: numbers and texts, values of
the language, variables, tokens and statements. Values, bindings, tokens and statements are records,
each of a `RecordType` with named fields. Descriptions can be shown, published and compared.
-/

namespace DreamBerd

inductive RecordType where
  | function | builtin | list | number | string | boolean | undefined | blank | object | map
  | keyword | promise
  | binding | variableBinding | lifetime | token
  | functionDefinition | classDeclaration | variableDeclaration | variableAssignment | conditional
  | returnStatement | deleteStatement | reverseStatement | expressionStatement | whenStatement
  | afterStatement | exportStatement | importStatement
  deriving DecidableEq

namespace RecordType

def typeName : RecordType → String
  | function => "DreamberdFunction"
  | builtin => "BuiltinFunction"
  | list => "DreamberdList"
  | number => "DreamberdNumber"
  | string => "DreamberdString"
  | boolean => "DreamberdBoolean"
  | undefined => "DreamberdUndefined"
  | blank => "DreamberdSpecialBlankValue"
  | object => "DreamberdObject"
  | map => "DreamberdMap"
  | keyword => "DreamberdKeyword"
  | promise => "DreamberdPromise"
  | binding => "Name"
  | variableBinding => "Variable"
  | lifetime => "VariableLifetime"
  | token => "Token"
  | functionDefinition => "FunctionDefinition"
  | classDeclaration => "ClassDeclaration"
  | variableDeclaration => "VariableDeclaration"
  | variableAssignment => "VariableAssignment"
  | conditional => "Conditional"
  | returnStatement => "ReturnStatement"
  | deleteStatement => "DeleteStatement"
  | reverseStatement => "ReverseStatement"
  | expressionStatement => "ExpressionStatement"
  | whenStatement => "WhenStatement"
  | afterStatement => "AfterStatement"
  | exportStatement => "ExportStatement"
  | importStatement => "ImportStatement"

def published : List RecordType :=
  [function, builtin, list, number, string, boolean, undefined, blank, object, map, keyword,
    promise, binding, variableBinding, token, functionDefinition, classDeclaration, variableDeclaration,
    variableAssignment, conditional, returnStatement, deleteStatement, reverseStatement,
    expressionStatement, whenStatement, afterStatement, exportStatement, importStatement]

def required (names : List String) : List (String × Bool) := names.map (·, true)

/-- The fields that a record of the type is made from; `true` marks those that must be given. -/
def parameters : RecordType → List (String × Bool)
  | function => required ["args", "code", "is_async"]
  | builtin => required ["arg_count", "function"] ++ [("modifies_caller", false)]
  | list => [("values", true), ("namespace", false)]
  | string => [("value", true), ("namespace", false)]
  | number | boolean | keyword | promise => required ["value"]
  | undefined | blank => []
  | object => [("class_name", true), ("namespace", false)]
  | map => required ["self_dict"]
  | binding => required ["name", "value"]
  | variableBinding => required ["name", "lifetimes", "prev_values"]
  | lifetime => required ["value", "lines_left", "confidence", "can_be_reset", "can_edit_value"]
  | token => required ["type", "value", "line", "col"]
  | functionDefinition => required ["keywords", "name", "args", "code", "is_async"]
  | classDeclaration => required ["keyword", "name", "code"]
  | variableDeclaration =>
    required ["name", "modifiers", "lifetime", "expression", "debug", "confidence"]
  | variableAssignment => required ["name", "expression", "debug", "indexes", "confidence"]
  | conditional | whenStatement | afterStatement => required ["keyword", "expression", "code"]
  | returnStatement => required ["keyword", "expression", "debug"]
  | deleteStatement => required ["keyword", "name", "debug"]
  | reverseStatement => required ["keyword", "debug"]
  | expressionStatement => required ["expression", "debug"]
  | exportStatement => required ["export_keyword", "names", "to_keyword", "target_file", "debug"]
  | importStatement => required ["keyword", "names", "debug"]

end RecordType

inductive Datum where
  | none
  | truth (b : Bool)
  | int (n : Int)
  | real (x : Float)
  | text (s : String)
  | list (items : List Datum)
  | tuple (items : List Datum)
  | dict (entries : List (Datum × Datum))
  | procedure (a : Action)
  | kind (k : TokenKind)
  /-- An expression tree; trees are told apart by their number. -/
  | tree (id : Nat) (e : Expr)
  | record (type : RecordType) (fields : List (String × Datum))
  /-- A record inside itself. -/
  | cycle

namespace Datum

def field? (name : String) : Datum → Option Datum
  | record _ fields => (fields.find? (·.1 == name)).map (·.2)
  | _ => .none

/-- A record with the given values for its parameters. -/
def described (t : RecordType) (values : List Datum) : Datum :=
  record t ((t.parameters.map (·.1)).zip values)

def ofToken (t : Token) : Datum :=
  described .token [kind t.kind, text t.text, int t.line, int t.col]

def ofTokens (ts : List Token) : Datum := list (ts.map ofToken)

def ofForm {ε κ : Type} (expr : ε → Datum) (block : κ → Datum) : Form ε κ → Datum
  | .function ks n as c a =>
    described .functionDefinition [ofTokens ks, ofToken n, ofTokens as, block c, truth a]
  | .classDeclaration k n c => described .classDeclaration [ofToken k, ofToken n, block c]
  | .declaration n ms l e d c =>
    described .variableDeclaration
      [ofToken n, ofTokens ms, (l.map text).getD none, expr e, int d, int c]
  | .assignment n e d is c =>
    described .variableAssignment [ofToken n, expr e, int d, list (is.map expr), int c]
  | .conditional k e c => described .conditional [ofToken k, expr e, block c]
  | .returns k e d => described .returnStatement [(k.map ofToken).getD none, expr e, int d]
  | .delete k n d => described .deleteStatement [ofToken k, ofToken n, int d]
  | .reverse k d => described .reverseStatement [ofToken k, int d]
  | .expression e d => described .expressionStatement [expr e, int d]
  | .when k e c => described .whenStatement [ofToken k, expr e, block c]
  | .after k e c => described .afterStatement [ofToken k, expr e, block c]
  | .exports k ns t f d =>
    described .exportStatement [ofToken k, ofTokens ns, ofToken t, ofToken f, int d]
  | .imports k ns d => described .importStatement [ofToken k, ofTokens ns, int d]

mutual

def ofBlock (b : List Clause) : Datum := list (ofClauses b)

/-- The descriptions of clauses: tuples of statements. -/
def ofClauses : List Clause → List Datum
  | [] => []
  | .mk forms :: cs => tuple (ofForms forms) :: ofClauses cs

def ofForms : List (Form (List Token) (List Clause)) → List Datum
  | [] => []
  | f :: fs => ofForm ofTokens (fun _ => ofInner f) f :: ofForms fs

/-- The description of the block of a form, if it has one. -/
def ofInner : Form (List Token) (List Clause) → Datum
  | .function _ _ _ c _ | .classDeclaration _ _ c | .conditional _ _ c | .when _ _ c
  | .after _ _ c => ofBlock c
  | _ => none

end

/-- The description of a form whose expressions are tokens. -/
def ofReadForm (f : Form (List Token) (List Clause)) : Datum := ofForm ofTokens ofBlock f

end Datum

end DreamBerd
