import DreamBerd.Binary64
import DreamBerd.Text.Blank
import DreamBerd.Text.Digits

/-!
# Reading numbers

`Decimal.readInt?` and `Decimal.readFloat?` read a number that fills a text, apart from white space
around it. Digits of all scripts count, and a single underscore may stand between two digits. A
`Float` is the one nearest to the decimal that is read.
-/

namespace DreamBerd.Decimal

/-- The most digits that an integer may have when it is read or written. -/
def maxDigits : Nat := 4300

/-- Write the digits of all scripts as ASCII digits and, where a text is not all ASCII, its white
space as blanks. -/
def plainChars (cs : List Char) : List Char :=
  if cs.all (fun c => c.toNat < 128) then cs
  else cs.map fun c =>
    if c.toNat < 128 then (if Text.isBlank c then ' ' else c)
    else if Text.isBlank c then ' '
    else match Text.digitValue? c with
      | some d => Char.ofNat (48 + d)
      | none => '?'

/-- The plain characters of a text without the white space around them. -/
def normalized (s : String) : List Char := Text.trimChars Text.isPlainBlank (plainChars s.toList)

/-- Remove underscores, if each stands between two digits; `previous` is the character before. -/
def dropUnderscores (previous : Char) : List Char → Option (List Char)
  | [] => if previous == '_' then none else some []
  | c :: cs =>
    if c == '_' then
      if previous.isDigit then dropUnderscores c cs else none
    else if previous == '_' && !c.isDigit then none
    else (dropUnderscores c cs).map (c :: ·)

def takeSign : List Char → Bool × List Char
  | '-' :: cs => (true, cs)
  | '+' :: cs => (false, cs)
  | cs => (false, cs)

def digitsValue (cs : List Char) : Nat := cs.foldl (fun n c => n * 10 + (c.toNat - 48)) 0

def readInt? (s : String) : Option Int := do
  let cs ← dropUnderscores ' ' (normalized s)
  let (negative, digits) := takeSign cs
  if digits.isEmpty || !digits.all Char.isDigit || digits.length > maxDigits then none
  else
    let n := digitsValue digits
    some (if negative then -(n : Int) else n)

/-- The `Float` nearest to `digits * 10 ^ exponent`. -/
def toFloat (negative : Bool) (digits : Nat) (exponent : Int) (count : Nat) : Float :=
  if digits = 0 then Binary64.signed negative 0.0
  else if (count : Int) + exponent > 400 then Binary64.signed negative Binary64.infinity
  else if (count : Int) + exponent < -400 then Binary64.signed negative 0.0
  else if 0 ≤ exponent then Binary64.ofRatio negative (digits * Nat.pow 10 exponent.toNat) 1
  else Binary64.ofRatio negative digits (Nat.pow 10 (-exponent).toNat)

/-- The exponent part of a number, if the text has this form. -/
def readExponent? : List Char → Option Int
  | [] => some 0
  | c :: cs =>
    if c == 'e' || c == 'E' then
      let (negative, digits) := takeSign cs
      if digits.isEmpty || !digits.all Char.isDigit then none
      else some (if negative then -(digitsValue digits : Int) else digitsValue digits)
    else none

/-- A number without sign: digits, a point and more digits, an exponent. -/
def readUnsigned? (negative : Bool) (cs : List Char) : Option Float := do
  let whole := cs.takeWhile Char.isDigit
  let rest := cs.dropWhile Char.isDigit
  let (part, rest) :=
    match rest with
    | '.' :: more => (more.takeWhile Char.isDigit, more.dropWhile Char.isDigit)
    | _ => ([], rest)
  if whole.isEmpty && part.isEmpty then none
  else
    let exponent ← readExponent? rest
    let digits := digitsValue (whole ++ part)
    let significant := ((whole ++ part).dropWhile (· == '0')).length
    some (toFloat negative digits (exponent - part.length) significant)

/-- A decimal number, an infinity or the number that is none. -/
def readFloat? (s : String) : Option Float := do
  let cs ← dropUnderscores ' ' (normalized s)
  let (negative, rest) := takeSign cs
  let word := String.ofList (rest.map Char.toLower)
  if word == "inf" || word == "infinity" then some (Binary64.signed negative Binary64.infinity)
  else if word == "nan" then some (Binary64.signed negative Binary64.nan)
  else readUnsigned? negative rest

end DreamBerd.Decimal
