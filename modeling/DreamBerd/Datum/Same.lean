import DreamBerd.Datum
import DreamBerd.Number

/-!
# Equal data

Data are equal if they are built alike from equal parts. Numbers are compared by value, so an integer
can be equal to a `Float` or to a truth value; the order of the entries of a table does not count.
-/

namespace DreamBerd.Datum

def number? : Datum → Option Number
  | truth b => some (.truth b)
  | int n => some (.int n)
  | real x => some (.real x)
  | _ => Option.none

def sameAtom (a b : Datum) : Bool :=
  match a.number?, b.number? with
  | some m, some n => m == n
  | _, _ =>
    match a, b with
    | none, none => true
    | text s, text t => s == t
    | procedure p, procedure q => p == q
    | kind k, kind l => k == l
    | tree i _, tree j _ => i == j
    | _, _ => false

mutual

def same : Datum → Datum → Bool
  | list xs, b =>
    match b with
    | list ys => sameAll xs ys
    | _ => false
  | tuple xs, b =>
    match b with
    | tuple ys => sameAll xs ys
    | _ => false
  | dict xs, b =>
    match b with
    | dict ys => xs.length == ys.length && sameEntries xs ys
    | _ => false
  | record t xs, b =>
    match b with
    | record u ys => t == u && sameFields xs ys
    | _ => false
  | a, b => sameAtom a b

def sameAll : List Datum → List Datum → Bool
  | [], ys => ys.isEmpty
  | x :: xs, ys =>
    match ys with
    | [] => false
    | y :: ys => same x y && sameAll xs ys

/-- Whether each entry of a table is found in another one. -/
def sameEntries : List (Datum × Datum) → List (Datum × Datum) → Bool
  | [], _ => true
  | (k, v) :: es, ys =>
    (match ys.find? fun e => sameAtom k e.1 with
      | some e => same v e.2
      | Option.none => false) && sameEntries es ys

def sameFields : List (String × Datum) → List (String × Datum) → Bool
  | [], ys => ys.isEmpty
  | (name, x) :: xs, ys =>
    match ys with
    | [] => false
    | (other, y) :: ys => name == other && same x y && sameFields xs ys

end

end DreamBerd.Datum
