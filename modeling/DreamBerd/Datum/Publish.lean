import DreamBerd.Datum.Show
import DreamBerd.Json
import DreamBerd.Predefined
import DreamBerd.Row

/-!
# Published data

`Datum.publish` writes a datum as JSON, in which every part names its type; `Datum.ofPublished` reads
it back. Lifetimes and expression trees cannot be published, nor tables with keys that are no texts.
-/

namespace DreamBerd.Datum

def plainForm (type : String) (value : Json) : Json :=
  .object [("python_obj_type", .text type), ("value", value)]

def recordForm (type : String) (attributes : List (String × Json)) : Json :=
  .object [("dreamberd_obj_type", .text type),
    ("attributes", .list (attributes.map fun a => .object [("name", .text a.1), ("value", a.2)]))]

def hasTextKeys (entries : List (Datum × Datum)) : Bool :=
  entries.all fun e => e.1 matches text _

mutual

def publish : Datum → Except Fault Json
  | none => .ok (plainForm "NoneType" (.text "None"))
  | truth b => .ok (plainForm "bool" (.text (if b then "True" else "False")))
  | int n => do return plainForm "int" (.text (← Number.intText n))
  | real x => .ok (plainForm "float" (.text (Decimal.ofFloat x)))
  | text s => .ok (plainForm "str" (.text s))
  | list items => do return plainForm "list" (.list (← publishAll items))
  | tuple items => do return plainForm "tuple" (.list (← publishAll items))
  | dict entries =>
    if hasTextKeys entries then do return plainForm "dict" (.object (← publishEntries entries))
    else .error (.plain .nonTextKey)
  | procedure a => .ok (plainForm "function" (.text a.name))
  | kind k => .ok (plainForm "TokenType" (.text k.symbol))
  | tree .. => .error (.breakdown .impossible)
  | record t fields =>
    if RecordType.published.contains t then do
      return recordForm t.typeName (← publishFields fields)
    else .error (.breakdown .impossible)
  | cycle => .error (.breakdown .impossible)

def publishAll : List Datum → Except Fault (List Json)
  | [] => .ok []
  | d :: ds => do return (← publish d) :: (← publishAll ds)

def publishEntries : List (Datum × Datum) → Except Fault (List (String × Json))
  | [] => .ok []
  | (k, v) :: es => do
    let key := match k with
      | text s => s
      | _ => ""
    return (key, ← publish v) :: (← publishEntries es)

def publishFields : List (String × Datum) → Except Fault (List (String × Json))
  | [] => .ok []
  | (name, d) :: fs => do return (name, ← publish d) :: (← publishFields fs)

end

/-! ## Reading -/

mutual

def ofJson : Json → Datum
  | .null => none
  | .bool b => truth b
  | .int n => int n
  | .real x => real x
  | .text s => text s
  | .list items => list (ofJsonAll items)
  | .object entries => dict (ofJsonEntries entries)

def ofJsonAll : List Json → List Datum
  | [] => []
  | j :: js => ofJson j :: ofJsonAll js

def ofJsonEntries : List (String × Json) → List (Datum × Datum)
  | [] => []
  | (k, j) :: es => (text k, ofJson j) :: ofJsonEntries es

end

def entry (key : String) (entries : List (String × Json)) : Except Fault Json :=
  match entries.find? (·.1 == key) with
  | some e => .ok e.2
  | Option.none => .error (.breakdown .key)

def length? : Datum → Option Nat
  | text s => some s.length
  | list items => some items.length
  | tuple items => some items.length
  | dict entries => some entries.length
  | _ => Option.none

def builtin (arity : Int) (a : Action) (modifiesCaller : Bool) : Datum :=
  record .builtin [("arg_count", int arity), ("function", procedure a),
    ("modifies_caller", truth modifiesCaller)]

def binding (name : String) (value : Datum) : Datum :=
  record .binding [("name", text name), ("value", value)]

def memberEntries (push pop : Action) (n : Nat) : List (Datum × Datum) :=
  [(text "push", binding "push" (builtin 2 push true)),
    (text "pop", binding "pop" (builtin 2 pop true)),
    (text "length", binding "length" (record .number [("value", int n)]))]

/-- Write an entry of a table whose keys are texts. -/
def putEntry (entries : List (Datum × Datum)) (e : Datum × Datum) : List (Datum × Datum) :=
  match entries with
  | [] => [e]
  | (k, v) :: es =>
    match k, e.1 with
    | text s, text t => if s == t then (k, e.2) :: es else (k, v) :: putEntry es e
    | _, _ => (k, v) :: putEntry es e

def complete (t : RecordType) (fields : List (String × Datum)) :
    Except Fault (List (String × Datum)) :=
  match t, fields with
  | .list, (_, values) :: _ =>
    match values.length? with
    | some n =>
      .ok [("values", values),
        ("indexer", dict ((List.range n).map fun (i : Nat) => (int (i - 1), int (i - 1)))),
        ("namespace", dict (memberEntries .listPush .listPop n))]
    | Option.none => .error (.breakdown .kind)
  | .string, (_, value) :: given =>
    match value.length?, given with
    | some n, (_, dict entries) :: _ =>
      .ok [("value", value),
        ("indexer", dict ((List.range n).map fun (i : Nat) =>
          (int (i - 1), tuple [int (i - 1), text ""]))),
        ("namespace", dict ((memberEntries .stringPush .stringPop n).foldl putEntry entries))]
    | _, _ => .error (.breakdown .kind)
  | _, fields => .ok fields

def defaultOf (name : String) : Datum :=
  if name == "namespace" then dict [] else truth false

/-- A record of the given type with the given attributes; all that it needs have to be there, and no
others. -/
def make (t : RecordType) (attributes : List (String × Datum)) : Except Fault Datum := do
  let parameters := t.parameters
  if attributes.all (fun a => parameters.any (·.1 == a.1)) &&
      parameters.all (fun p => !p.2 || attributes.any (·.1 == p.1)) then
    let fields := parameters.map fun p =>
      (p.1, ((attributes.find? (·.1 == p.1)).map (·.2)).getD (defaultOf p.1))
    return record t (← complete t fields)
  else .error (.breakdown .kind)

/-- Write an attribute; the last value of a name counts. -/
def putAttribute (attributes : List (String × Datum)) (a : String × Datum) :
    List (String × Datum) :=
  match attributes with
  | [] => [a]
  | b :: bs => if b.1 == a.1 then a :: bs else b :: putAttribute bs a

def attributeName : Json → Except Fault String
  | .text s => .ok s
  | .list _ | .object _ => .error (.breakdown .kind)
  | _ => .ok ""

/-- The names of types that are known but cannot be made. -/
def abstractTypes : List String :=
  ["DreamberdMutable", "DreamberdIndexable", "DreamberdNamespaceable"]

def recordTypeOf (name : Json) : Except Fault (Option RecordType) :=
  match name with
  | .text s =>
    match RecordType.published.find? (·.typeName == s) with
    | some t => .ok (some t)
    | Option.none =>
      if abstractTypes.contains s then .ok Option.none else .error (.plain .unknownRecordType)
  | _ => .error (.plain .unknownRecordType)

def plainTypes : List String :=
  ["int", "float", "dict", "function", "list", "tuple", "str", "TokenType", "NoneType", "bool"]

def readInt : Json → Except Fault Datum
  | .text s =>
    match Decimal.readInt? s with
    | some n => .ok (int n)
    | Option.none => .error (.breakdown .value)
  | .int n => .ok (int n)
  | .bool b => .ok (int (if b then 1 else 0))
  | .real x => do return int (← Number.integral Binary64.truncate? x)
  | _ => .error (.breakdown .kind)

def readReal : Json → Except Fault Datum
  | .text s =>
    match Decimal.readFloat? s with
    | some x => .ok (real x)
    | Option.none => .error (.breakdown .value)
  | .int n => do return real (← Number.floatOfInt n)
  | .bool b => .ok (real (if b then 1.0 else 0.0))
  | .real x => .ok (real x)
  | _ => .error (.breakdown .kind)

def readTruth : Json → Except Fault Datum
  | .text "True" => .ok (truth true)
  | .text "False" => .ok (truth false)
  | _ => .error (.plain .badPublishedTruth)

/-- What a word stands for. -/
def readWord (find : String → Option Datum) (complaint : Complaint) : Json → Except Fault Datum
  | .text s =>
    match find s with
    | some d => .ok d
    | Option.none => .error (.plain complaint)
  | .list _ | .object _ => .error (.breakdown .kind)
  | _ => .error (.plain complaint)

/-- A published datum without parts, by the name of its type. -/
def readAtom (type : String) (value : Json) : Except Fault Datum :=
  match type with
  | "int" => readInt value
  | "float" => readReal value
  | "str" => do return text (← (ofJson value).toText)
  | "bool" => readTruth value
  | "TokenType" => readWord (fun s => (TokenKind.ofSymbol? s).map kind) .badPublishedKind value
  | _ => readWord (fun s => (Predefined.publishedAction? s).map procedure) .badPublishedFunction value

def mentionsForm (s : String) : Bool :=
  (s.splitOn "dreamberd_obj_type").length > 1 || (s.splitOn "python_obj_type").length > 1

def listsForm (items : List Json) : Bool :=
  items.any fun j =>
    match j with
    | .text s => s == "dreamberd_obj_type" || s == "python_obj_type"
    | _ => false

/-- Read what is no published form. -/
def refuse : Json → Fault
  | .text s => if mentionsForm s then .breakdown .kind else .plain .unknownForm
  | .list items => if listsForm items then .breakdown .kind else .plain .unknownForm
  | .object _ => .plain .unknownForm
  | _ => .breakdown .kind

mutual

def ofPublished : Json → Except Fault Datum
  | .object entries =>
    if entries.any (·.1 == "dreamberd_obj_type") then do
      let type ← recordTypeOf (← entry "dreamberd_obj_type" entries)
      let attributes ← givenAttributes entries
      match type with
      | some t => make t attributes
      | Option.none => .error (.breakdown .name)
    else if entries.any (·.1 == "python_obj_type") then do
      match ← entry "python_obj_type" entries with
      | .text type =>
        if !plainTypes.contains type then .error (.plain (.unknownPlainType type))
        else if type == "NoneType" then return none
        else givenValue type entries
      | j => .error (.plain (.unknownPlainType (← (ofJson j).toText)))
    else .error (.plain .unknownForm)
  | j => .error (refuse j)

/-- The attributes of a record, from the entry for them. -/
def givenAttributes : List (String × Json) → Except Fault (List (String × Datum))
  | [] => .error (.breakdown .key)
  | (k, j) :: es => if k == "attributes" then attributesOf j else givenAttributes es

/-- The attributes of a record, given what stands in their place. -/
def attributesOf : Json → Except Fault (List (String × Datum))
  | .list items => readAttributes items []
  | .object [] => .ok []
  | .text "" => .ok []
  | _ => .error (.breakdown .kind)

def readAttributes : List Json → List (String × Datum) → Except Fault (List (String × Datum))
  | [], read => .ok read
  | .object entries :: items, read => do
    let name ← entry "name" entries
    let value ← givenDatum entries
    readAttributes items (putAttribute read (← attributeName name, value))
  | _ :: _, _ => .error (.breakdown .kind)

/-- The value of an attribute, from the entry for it. -/
def givenDatum : List (String × Json) → Except Fault Datum
  | [] => .error (.breakdown .key)
  | (k, j) :: es => if k == "value" then ofPublished j else givenDatum es

/-- A plain datum of the type, from the entry for its value. -/
def givenValue (type : String) : List (String × Json) → Except Fault Datum
  | [] => .error (.breakdown .key)
  | (k, j) :: es =>
    if k == "value" then
      match type with
      | "list" => do return list (← itemsOf j)
      | "tuple" => do return tuple (← itemsOf j)
      | "dict" => do return dict (← entriesOf j)
      | _ => readAtom type j
    else givenValue type es

/-- The elements of a list or tuple, given what stands in their place. -/
def itemsOf : Json → Except Fault (List Datum)
  | .list items => readAll items
  | .text s => if s.isEmpty then .ok [] else .error (.plain .unknownForm)
  | .object [] => .ok []
  | .object (e :: _) => .error (refuse (.text e.1))
  | _ => .error (.breakdown .kind)

/-- The entries of a table, given what stands in their place. -/
def entriesOf : Json → Except Fault (List (Datum × Datum))
  | .object es => readEntries es
  | _ => .error (.breakdown .field)

def readAll : List Json → Except Fault (List Datum)
  | [] => .ok []
  | j :: js => do return (← ofPublished j) :: (← readAll js)

def readEntries : List (String × Json) → Except Fault (List (Datum × Datum))
  | [] => .ok []
  | (k, j) :: es => do return (text k, ← ofPublished j) :: (← readEntries es)

end

end DreamBerd.Datum
