import DreamBerd.Datum.Same
import DreamBerd.Text.Similarity
import DreamBerd.World.Lookup

/-!
# Equalities and order

Values are compared with four degrees of precision: approximately (`approx`), after conversion
(`equal`), by type and content (`really`) and by identity (`identical`). The answers have three values.
`Run.less` orders values of one type.
-/

namespace DreamBerd

namespace Store

/-- Whether two references are to the same thing. Single characters of the first 256 exist once. -/
def identical (s : Store) (a b : ValueRef) : Bool :=
  a == b ||
    match s.value a, s.value b with
    | .bare (.text x), .bare (.text y) =>
      x == y && x.length == 1 && x.toList.all fun c => c.toNat < 256
    | _, _ => false

def commonMembers (s : Store) (x y : ScopeRef) : Except Fault (List (ValueRef × ValueRef)) := do
  let pairs := (s.scope x).entries.filterMap fun e =>
    ((s.scope y).get? e.1).map fun e' => (e.2, e')
  pairs.mapM fun p => do return (← s.entryValue p.1, ← s.entryValue p.2)

def commonEntries (x y : Ledger MapKey ValueRef) : List (ValueRef × ValueRef) :=
  x.entries.filterMap fun e => (y.get? e.1).map fun v => (e.2, v)

def unionSize {κ α : Type} [BEq κ] (x y : Ledger κ α) : Nat :=
  x.size + (y.keys.filter fun k => !x.contains k).length

/-- The sum of answers in halves: a maybe counts one half. -/
def halves (ts : List Truth) : Nat :=
  (ts.map fun t =>
    match t with
    | .yes => 2
    | .no => 0
    | .maybe => 1).foldl (· + ·) 0

/-- Whether the answers amount to more than the given share. -/
def enough (ts : List Truth) (total : Nat) (share : Float) : Truth :=
  .ofBool (Binary64.ofRatio false (halves ts) (2 * total) > share)

def allYes (ts : List Truth) : Truth := .ofBool (ts.all Truth.isYes)

def sameType (s : Store) (a b : ValueRef) : Bool := (s.value a).typeName == (s.value b).typeName

/-- Whether two numbers differ by less than a tenth of the first. -/
def nearNumbers (a b : Number) : Except Fault Truth := do
  if a == b then return .yes
  else if a == .int 0 then return .no
  else return .ofBool (← (← (← a.sub b).div a).lt (.real 0.1))

def countsAsNumber : Value → Bool
  | .number _ | .undefined | .boolean _ => true
  | _ => false

def isString : Value → Bool
  | .string .. => true
  | _ => false

def isNumber : Value → Bool
  | .number _ => true
  | _ => false

def isBoolean : Value → Bool
  | .boolean _ => true
  | _ => false

def sameTruth (v w : Value) : Except Fault Bool := do
  let x ← v.truth
  let y ← w.truth
  return x == y && x != .maybe

/-- Whether two functions are approximately equal: those without statements are, and others cannot be
compared, unless one of them has no statements. -/
def approxCode (x y : Code) (forms : ClauseRef → Nat) : Except Fault Truth :=
  if x.isEmpty && y.isEmpty then .ok .yes
  else
    match (x.zip y).find? fun p => forms p.1 > 0 || forms p.2 > 0 with
    | some _ => .error (.breakdown .kind)
    | none => if x.isEmpty || y.isEmpty then .ok .maybe else .error (.breakdown .divisionByZero)

/-- What approximate equality says of two values without a look at what they hold, if anything. -/
def approxAtOnce (s : Store) (a b : ValueRef) : Except Fault (Option Truth) := do
  let v := s.value a
  let w := s.value b
  if s.identical a b then return some .yes
  else if isString v || isString w then
    return some (.ofBool (Text.similarity (← s.text a) (← s.text b) > 0.7))
  else if (isNumber v || isNumber w) && countsAsNumber v && countsAsNumber w then
    return some (← nearNumbers (← v.toNumber) (← w.toNumber))
  else if isBoolean v || isBoolean w then return some ((← v.truth).same (← w.truth))
  else if ← sameTruth v w then return some .yes
  else if !s.sameType a b then return some .maybe
  else return none

def approxInside (s : Store) (compare : ValueRef × ValueRef → Except Fault Truth) :
    Value → Value → Except Fault Truth
  | .list x _, .list y _ => do
    let ts ← (x.items.zip y.items).mapM compare
    return enough ts (max x.items.length y.items.length) 0.7
  | .map x, .map y => do
    let ts ← (commonEntries x y).mapM compare
    return enough ts (unionSize x y) 0.6
  | .function _ x _, .function _ y _ => approxCode x y fun c => (s.forms c).length
  | .object _ x, .object _ y => do
    if (s.scope x).isEmpty && (s.scope y).isEmpty then return .yes
    else
      let ts ← (← s.commonMembers x y).mapM compare
      return enough ts (unionSize (s.scope x) (s.scope y)) 0.6
  | _, _ => .ok .maybe

def approxIn (s : Store) : Nat → ValueRef → ValueRef → Except Fault Truth
  | 0, _, _ => .error .outOfFuel
  | fuel + 1, a, b => do
    match ← s.approxAtOnce a b with
    | some t => return t
    | none => approxInside s (fun p => approxIn s fuel p.1 p.2) (s.value a) (s.value b)

def approx (s : Store) (a b : ValueRef) : Except Fault Truth := s.approxIn s.extent a b

/-- What equality after conversion says of two values without a look at what they hold, if
anything. -/
def equalAtOnce (s : Store) (a b : ValueRef) : Except Fault (Option Truth) := do
  let v := s.value a
  let w := s.value b
  if isString v || isString w then return some (.ofBool ((← s.text a) == (← s.text b)))
  else if isNumber v || isNumber w then
    return some (.ofBool ((← v.toNumber) == (← w.toNumber)))
  else if isBoolean v || isBoolean w then return some ((← v.truth).same (← w.truth))
  else if ← sameTruth v w then return some .yes
  else if !s.sameType a b then return some .maybe
  else return none

/-- Equality after conversion by what two values hold; only the elements of lists are compared in the
given way. -/
def equalInside (s : Store) (compare : ValueRef × ValueRef → Except Fault Truth) :
    Value → Value → Except Fault Truth
  | .list x _, .list y _ => do return allYes (← (x.items.zip y.items).mapM compare)
  | .map x, .map y => do return allYes (← (commonEntries x y).mapM fun p => s.approx p.1 p.2)
  | .object _ x, .object _ y => do
    return allYes (← (← s.commonMembers x y).mapM fun p => s.approx p.1 p.2)
  | _, _ => .ok .maybe

def equalIn (s : Store) : Nat → ValueRef → ValueRef → Except Fault Truth
  | 0, _, _ => .error .outOfFuel
  | fuel + 1, a, b => do
    match ← s.equalAtOnce a b with
    | some t => return t
    | none => equalInside s (fun p => equalIn s fuel p.1 p.2) (s.value a) (s.value b)

def equal (s : Store) (a b : ValueRef) : Except Fault Truth := s.equalIn s.extent a b

def sameKeys {κ α : Type} [BEq κ] (x y : Ledger κ α) : Bool :=
  x.size == y.size && x.keys.all y.contains

/-- Equality by type and content, given how to compare what two values hold. -/
def reallyInside (s : Store) (compare : ValueRef × ValueRef → Except Fault Truth) (v w : Value) :
    Except Fault Truth := do
  if v.typeName != w.typeName then return .no
  else
    match v, w with
    | .number m, .number n => return .ofBool (m == n)
    | .string x _, .string y _ => return .ofBool (x.chars == y.chars)
    | .boolean t, .boolean u => return .ofBool (t == u)
    | .keyword x, .keyword y => return .ofBool (x == y)
    | .undefined, .undefined => return .yes
    | .object n x, .object m y =>
      if n == m && sameKeys (s.scope x) (s.scope y) then
        return allYes (← (← s.commonMembers x y).mapM compare)
      else return .no
    | .function as x i, .function bs y j =>
      let code := (s.describeCode s.extent x).same (s.describeCode s.extent y)
      return .ofBool (code && as == bs && i == j)
    | .list x _, .list y _ =>
      if x.items.length == y.items.length then
        return allYes (← (x.items.zip y.items).mapM compare)
      else return .no
    | .map x, .map y =>
      if sameKeys x y then return allYes (← (commonEntries x y).mapM compare) else return .no
    | _, _ => return .maybe

def reallyIn (s : Store) : Nat → ValueRef → ValueRef → Except Fault Truth
  | 0, _, _ => .error .outOfFuel
  | fuel + 1, a, b =>
    reallyInside s (fun p => reallyIn s fuel p.1 p.2) (s.value a) (s.value b)

def really (s : Store) (a b : ValueRef) : Except Fault Truth := s.reallyIn s.extent a b

/-- The order of values of one type; a complaint for types that have no order. -/
def lessOf (v w : Value) : Except (Fault ⊕ Complaint) Truth :=
  if v.typeName != w.typeName then .error (.inr (.incomparable v.typeName w.typeName))
  else
    match v, w with
    | .number m, .number n =>
      match m.lt n with
      | .ok b => .ok (.ofBool b)
      | .error f => .error (.inl f)
    | .string x _, .string y _ => .ok (.ofBool (decide (x.text < y.text)))
    | .boolean .maybe, .boolean _ => .ok .maybe
    | .boolean _, .boolean .maybe => .ok .maybe
    | .boolean t, .boolean u => .ok (.ofBool (t == .no && u == .yes))
    | .undefined, .undefined => .ok .no
    | .list x _, .list y _ => .ok (.ofBool (x.items.length < y.items.length))
    | .map x, .map y => .ok (.ofBool (x.size < y.size))
    | .keyword _, .keyword _ | .object .., .object .. | .function .., .function .. =>
      .error (.inr (.unordered v.typeName))
    | _, _ => .ok .maybe

end Store

namespace Run

def less (a b : ValueRef) : Run Truth := do
  match Store.lessOf (← value a) (← value b) with
  | .ok t => return t
  | .error (.inl f) => throw f
  | .error (.inr c) => complainHere c

end Run

end DreamBerd
