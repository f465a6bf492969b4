import DreamBerd.World

/-!
# Descriptions of shared things

`Store.describe` is the plain description of a value with all that it holds. A value inside itself is
described as a cycle.
-/

namespace DreamBerd

def Scalar.datum : Scalar → Datum
  | .int n => .int n
  | .real x => .real x

def Number.datum : Number → Datum
  | .int n => .int n
  | .real x => .real x
  | .truth b => .truth b
  | .tuple xs => .tuple (xs.map Scalar.datum)

def MapKey.datum : MapKey → Datum
  | .text s => .text s
  | .number n => n.datum

def Truth.datum : Truth → Datum
  | .yes => .truth true
  | .no => .truth false
  | .maybe => .none

def Expression.datum : Expression → Datum
  | .source tokens => .ofTokens tokens
  | .built id tree => .tree id tree

def Row.placesDatum {α : Type} (r : Row α) : Datum :=
  .dict (r.places.entries.map fun e => (e.1.datum, .int e.2))

def CharRow.placesDatum (r : CharRow) : Datum :=
  .dict (r.places.entries.map fun e =>
    (e.1.datum, .tuple [.int e.2.1, .text (String.ofList e.2.2)]))

namespace Store

mutual

/-- The description of a value inside the values of `path`, with all that is less than `fuel` steps
away. -/
def describeIn (s : Store) : Nat → List ValueRef → ValueRef → Datum
  | 0, _, _ => .cycle
  | fuel + 1, path, r =>
    if path.contains r then .cycle
    else
      let path := r :: path
      match s.value r with
      | .number n => .record .number [("value", n.datum)]
      | .string row members =>
        .record .string [("value", .text row.text), ("indexer", row.placesDatum),
          ("namespace", describeScope s fuel path members)]
      | .list row members =>
        .record .list [("values", .list (row.items.map (describeIn s fuel path))),
          ("indexer", row.placesDatum), ("namespace", describeScope s fuel path members)]
      | .boolean t => .record .boolean [("value", t.datum)]
      | .undefined => .record .undefined []
      | .blank => .record .blank []
      | .object name members =>
        .record .object [("class_name", .text name),
          ("namespace", describeScope s fuel path members)]
      | .map entries =>
        .record .map [("self_dict",
          .dict (entries.entries.map fun e => (e.1.datum, describeIn s fuel path e.2)))]
      | .keyword word => .record .keyword [("value", .text word)]
      | .function args code isAsync =>
        .record .function [("args", .list (args.map .text)),
          ("code", describeCode s fuel code), ("is_async", .truth isAsync)]
      | .builtin arity action modifiesCaller =>
        .record .builtin [("arg_count", .int arity), ("function", .procedure action),
          ("modifies_caller", .truth modifiesCaller)]
      | .promise none => .record .promise [("value", .none)]
      | .promise (some v) => .record .promise [("value", describeIn s fuel path v)]
      | .bare d => d

def describeScope (s : Store) : Nat → List ValueRef → ScopeRef → Datum
  | 0, _, _ => .cycle
  | fuel + 1, path, r =>
    .dict ((s.scope r).entries.map fun e => (.text e.1, describeEntry s fuel path e.1 e.2))

/-- The description of what a name stands for. -/
def describeEntry (s : Store) : Nat → List ValueRef → String → Entry → Datum
  | 0, _, _, _ => .cycle
  | fuel + 1, path, name, .predefined v =>
    .record .binding [("name", .text name), ("value", describeIn s fuel path v)]
  | fuel + 1, path, _, .named name v =>
    .record .binding [("name", .text name), ("value", describeIn s fuel path v)]
  | fuel + 1, path, _, .variable r =>
    let v := s.variableOf r
    .record .variableBinding [("name", .text v.name),
      ("lifetimes", .list (v.lifetimes.map fun l =>
        .record .lifetime [("value", describeIn s fuel path l.value),
          ("lines_left", .int l.linesLeft), ("confidence", .int l.confidence),
          ("can_be_reset", .truth l.canBeReset), ("can_edit_value", .truth l.canEditValue)])),
      ("prev_values", .list (v.previous.map (describeIn s fuel path)))]

def describeCode (s : Store) : Nat → Code → Datum
  | 0, _ => .cycle
  | fuel + 1, code =>
    .list (code.map fun c =>
      .tuple ((s.forms c).map fun f => Datum.ofForm Expression.datum (describeCode s fuel) f))

end

/-- More steps than any description needs. -/
def extent (s : Store) : Nat := 4 * (s.values.size + s.clauses.size + 2)

def describe (s : Store) (r : ValueRef) : Datum := s.describeIn s.extent [] r

end Store

end DreamBerd
