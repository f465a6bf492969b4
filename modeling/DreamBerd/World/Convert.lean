import DreamBerd.Datum.Show
import DreamBerd.World.Describe

/-!
# Conversions

Every value has a truth value and a text, and some have a number.
-/

namespace DreamBerd

namespace Value

def typeName (v : Value) : String :=
  match v.recordType?, v with
  | some t, _ => t.typeName
  | none, bare d => d.typeName
  | none, _ => ""

/-- Whether a value counts as present; only data that are no values of the language can be absent. -/
def isPresent : Value → Bool
  | bare d => d.isPresent
  | _ => true

end Value

/-- The truth of a number: false for zero, maybe for what rounds to zero. -/
def Number.truthOf (n : Number) : Except Fault Truth := do
  if (← n.round) != 0 then return .yes
  else if ← lt (.real precision) (← n.abs) then return .maybe
  else return .no

/-- The truth of a string: false if empty, maybe if blank. -/
def CharRow.truthOf (r : CharRow) : Truth :=
  if r.chars.any fun c => !Text.isBlank c then .yes
  else if r.chars.isEmpty then .no
  else .maybe

def Truth.number : Truth → Number
  | .yes => .real 1.0
  | .no => .real 0.0
  | .maybe => .real 0.5

namespace Value

def truth : Value → Except Fault Truth
  | string row _ => .ok row.truthOf
  | number n => n.truthOf
  | list row _ => .ok (.ofBool !row.items.isEmpty)
  | map entries => .ok (.ofBool !entries.isEmpty)
  | boolean t => .ok t
  | undefined => .ok .no
  | _ => .ok .maybe

def toNumber : Value → Except Fault Number
  | number n => .ok n
  | string row _ =>
    match Decimal.readFloat? row.text with
    | some x => .ok (.real x)
    | none => .error (.breakdown .value)
  | undefined => .ok (.int 0)
  | boolean t => .ok t.number
  | list row _ =>
    if row.items.isEmpty then .ok (.int 0) else .error (.plain (.nonEmptyToNumber "list"))
  | map entries =>
    if entries.isEmpty then .ok (.int 0) else .error (.plain (.nonEmptyToNumber "map"))
  | v => .error (.plain (.notANumber v.typeName))

end Value

def MapKey.toText : MapKey → Except Fault String
  | .text s => .ok s
  | .number n => n.text

namespace Store

/-- The text of a value, with all that is less than `fuel` steps away. -/
def textIn (s : Store) : Nat → ValueRef → Except Fault String
  | 0, _ => .error .outOfFuel
  | fuel + 1, r =>
    match s.value r with
    | .string row _ => .ok row.text
    | .list row _ => do
      return "[" ++ ", ".intercalate (← row.items.mapM (textIn s fuel)) ++ "]"
    | .boolean t => .ok t.text
    | .number n => n.text
    | .function args _ _ => .ok ("<function (" ++ ", ".intercalate args ++ ")>")
    | .object name _ => do
      let _ ← (s.describe r).shown
      return "<object " ++ name ++ ">"
    | .undefined => .ok "undefined"
    | .keyword word => .ok word
    | .map entries => do
      let texts ← entries.entries.mapM fun e => do
        return (← e.1.toText) ++ ": " ++ (← textIn s fuel e.2)
      return "\x7b" ++ ", ".intercalate texts ++ "\x7d"
    | _ => (s.describe r).toText

def text (s : Store) (r : ValueRef) : Except Fault String := s.textIn s.extent r

end Store

namespace Run

def textOf (r : ValueRef) : Run String := do ofExcept ((← store).text r)

def truthOf (r : ValueRef) : Run Truth := do ofExcept (← value r).truth

def numberOf (r : ValueRef) : Run Number := do ofExcept (← value r).toNumber

end Run

end DreamBerd
