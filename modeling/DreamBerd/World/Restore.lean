import DreamBerd.Datum.Publish
import DreamBerd.World

/-!
# Values from descriptions

`Run.restore` makes the value that a datum describes. A datum that describes no value of the language
is kept as it is.
-/

namespace DreamBerd

namespace Datum

def scalar? : Datum → Option Scalar
  | int n => some (.int n)
  | real x => some (.real x)
  | _ => Option.none

def asNumber? : Datum → Option Number
  | int n => some (.int n)
  | real x => some (.real x)
  | truth b => some (.truth b)
  | tuple items => (items.mapM scalar?).map .tuple
  | _ => Option.none

def asText? : Datum → Option String
  | text s => some s
  | _ => Option.none

def asNat? : Datum → Option Nat
  | int n => if 0 ≤ n then some n.toNat else Option.none
  | _ => Option.none

def asTruth? : Datum → Option Bool
  | truth b => some b
  | _ => Option.none

def asTexts? : Datum → Option (List String)
  | list items => items.mapM asText?
  | _ => Option.none

def asToken? : Datum → Option Token
  | record .token [(_, kind k), (_, text s), (_, int line), (_, int col)] => some ⟨k, s, line, col⟩
  | _ => Option.none

def asTokens? : Datum → Option (List Token)
  | list items => items.mapM asToken?
  | _ => Option.none

/-- The expression of a statement, which has not been read. -/
def asExpression? (d : Datum) : Option Expression := (asTokens? d).map .source

/-- The statement that a record describes, given what it runs. -/
def asStatement? (code : Code) : Datum → Option Statement
  | record t fields =>
    match t, fields.map (·.2) with
    | .functionDefinition, [ks, n, as, _, a] => do
      return .function (← asTokens? ks) (← asToken? n) (← asTokens? as) code (← asTruth? a)
    | .classDeclaration, [k, n, _] => do return .classDeclaration (← asToken? k) (← asToken? n) code
    | .variableDeclaration, [n, ms, l, e, d, c] => do
      let lifetime ←
        match l with
        | none => some Option.none
        | text s => some (some s)
        | _ => Option.none
      return .declaration (← asToken? n) (← asTokens? ms) lifetime (← asExpression? e) (← asNat? d)
        (← asNat? c)
    | .variableAssignment, [n, e, d, list is, c] => do
      return .assignment (← asToken? n) (← asExpression? e) (← asNat? d) (← is.mapM asExpression?)
        (← asNat? c)
    | .conditional, [k, e, _] => do return .conditional (← asToken? k) (← asExpression? e) code
    | .returnStatement, [k, e, d] => do
      let keyword ←
        match k with
        | none => some Option.none
        | k => (asToken? k).map some
      return .returns keyword (← asExpression? e) (← asNat? d)
    | .deleteStatement, [k, n, d] => do
      return .delete (← asToken? k) (← asToken? n) (← asNat? d)
    | .reverseStatement, [k, d] => do return .reverse (← asToken? k) (← asNat? d)
    | .expressionStatement, [e, d] => do return .expression (← asExpression? e) (← asNat? d)
    | .whenStatement, [k, e, _] => do return .when (← asToken? k) (← asExpression? e) code
    | .afterStatement, [k, e, _] => do return .after (← asToken? k) (← asExpression? e) code
    | .exportStatement, [k, ns, t, f, d] => do
      return .exports (← asToken? k) (← asTokens? ns) (← asToken? t) (← asToken? f) (← asNat? d)
    | .importStatement, [k, ns, d] => do
      return .imports (← asToken? k) (← asTokens? ns) (← asNat? d)
    | _, _ => Option.none
  | _ => Option.none

end Datum

namespace Run

mutual

def restoreCode : Datum → Run (Option Code)
  | .list items => restoreClauses items
  | _ => return none

def restoreClauses : List Datum → Run (Option Code)
  | [] => return some []
  | .tuple forms :: ds => do
    match ← restoreForms forms with
    | some fs =>
      let c ← newClause fs
      return (← restoreClauses ds).map (c :: ·)
    | none => return none
  | _ :: _ => return none

def restoreForms : List Datum → Run (Option (List Statement))
  | [] => return some []
  | d :: ds => do
    match ← restoreInner d with
    | some code =>
      match d.asStatement? code with
      | some f => return (← restoreForms ds).map (f :: ·)
      | none => return none
    | none => return none

/-- Make what a statement runs, if it runs anything. -/
def restoreInner : Datum → Run (Option Code)
  | .record _ fields => restoreField fields
  | _ => return some []

def restoreField : List (String × Datum) → Run (Option Code)
  | [] => return some []
  | (name, d) :: fs => if name == "code" then restoreCode d else restoreField fs

end

/-- The value that a record without values inside describes. -/
def plainValue? : Datum → Option Value
  | .record .number [(_, d)] => d.asNumber?.map .number
  | .record .boolean [(_, .none)] => some (.boolean .maybe)
  | .record .boolean [(_, .truth b)] => some (.boolean (.ofBool b))
  | .record .undefined [] => some .undefined
  | .record .blank [] => some .blank
  | .record .keyword [(_, .text word)] => some (.keyword word)
  | .record .promise [(_, .none)] => some (.promise none)
  | .record .builtin [(_, .int n), (_, .procedure a), (_, .truth b)] => some (.builtin n a b)
  | _ => none

mutual

def restore (d : Datum) : Run ValueRef := do
  match plainValue? d with
  | some v => newValue v
  | none =>
    match d with
    | .record .string [(_, .text s), _, (_, .dict entries)] =>
      match ← restoreScope entries with
      | some given => newTextWith given s
      | none => newValue (.bare d)
    | .record .list ((_, .list items) :: _) => newList (← restoreAll items)
    | .record .object [(_, .text name), (_, .dict entries)] =>
      match ← restoreScope entries with
      | some x => newValue (.object name (← newScope x))
      | none => newValue (.bare d)
    | .record .map [(_, .dict entries)] =>
      match ← restoreEntries entries with
      | some es => newValue (.map ⟨es⟩)
      | none => newValue (.bare d)
    | .record .promise [(_, v)] => newValue (.promise (some (← restore v)))
    | .record .function [(_, args), (_, code), (_, .truth isAsync)] =>
      match args.asTexts?, ← restoreCode code with
      | some args, some code => newValue (.function args code isAsync)
      | _, _ => newValue (.bare d)
    | d => newValue (.bare d)

def restoreAll : List Datum → Run (List ValueRef)
  | [] => return []
  | d :: ds => do
    let r ← restore d
    return r :: (← restoreAll ds)

def restoreEntries : List (Datum × Datum) → Run (Option (List (MapKey × ValueRef)))
  | [] => return some []
  | (k, d) :: es => do
    match k.asText? with
    | some s =>
      let r ← restore d
      return (← restoreEntries es).map ((.text s, r) :: ·)
    | none => return none

/-- Make the scope that the entries of a table describe. -/
def restoreScope : List (Datum × Datum) → Run (Option Scope)
  | [] => return some .empty
  | (k, d) :: es => do
    match k, d with
    | .text key, .record .binding [(_, .text name), (_, v)] =>
      let r ← restore v
      return (← restoreScope es).map fun x => ⟨(key, .named name r) :: x.entries⟩
    | .text key, .record .variableBinding [(_, .text name), (_, .list []), (_, .list previous)] =>
      let previous ← restoreAll previous
      let r ← newVariable ⟨name, [], previous⟩
      return (← restoreScope es).map fun x => ⟨(key, .variable r) :: x.entries⟩
    | _, _ => return none

end

end Run

end DreamBerd
