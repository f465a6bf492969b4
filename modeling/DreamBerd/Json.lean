import DreamBerd.Decimal.Read
import DreamBerd.Decimal.Shortest
import DreamBerd.Text.Quoted

/-!
# JSON

`Json.read?` reads a JSON text. Objects keep the order in which their keys first appear, and a key that is
written twice has its last value. Integers have no bound below that of `Decimal.maxDigits`; `NaN` and the
infinities are numbers.
-/

namespace DreamBerd

inductive Json where
  | null
  | bool (b : Bool)
  | int (n : Int)
  | real (x : Float)
  | text (s : String)
  | list (items : List Json)
  | object (entries : List (String × Json))

namespace Json

/-- The white space between the parts of a JSON text. -/
def isGap (c : Char) : Bool := c == ' ' || c == '\t' || c == '\n' || c == '\r'

def skipGap (cs : List Char) : List Char := cs.dropWhile isGap

def after? (word : List Char) (cs : List Char) : Option (List Char) :=
  if word.isPrefixOf cs then some (cs.drop word.length) else none

def hexValue? (c : Char) : Option Nat :=
  if c.isDigit then some (c.toNat - 48)
  else if 'a' ≤ c ∧ c ≤ 'f' then some (c.toNat - 87)
  else if 'A' ≤ c ∧ c ≤ 'F' then some (c.toNat - 55)
  else none

/-- The value of four digits in base sixteen, and the rest. -/
def readHex4? : List Char → Option (Nat × List Char)
  | a :: b :: c :: d :: cs => do
    let a ← hexValue? a
    let b ← hexValue? b
    let c ← hexValue? c
    let d ← hexValue? d
    some (((a * 16 + b) * 16 + c) * 16 + d, cs)
  | _ => none

/-- The character of an escaped code unit; two units of a surrogate pair are one character. -/
def readUnit? (cs : List Char) : Option (Char × List Char) := do
  let (high, rest) ← readHex4? cs
  if 0xd800 ≤ high ∧ high < 0xdc00 then
    match rest with
    | '\\' :: 'u' :: more =>
      match readHex4? more with
      | some (low, rest') =>
        if 0xdc00 ≤ low ∧ low < 0xe000 then
          some (Char.ofNat (0x10000 + (high - 0xd800) * 0x400 + (low - 0xdc00)), rest')
        else some (Char.ofNat 0xfffd, rest)
      | none => some (Char.ofNat 0xfffd, rest)
    | _ => some (Char.ofNat 0xfffd, rest)
  else if 0xdc00 ≤ high ∧ high < 0xe000 then some (Char.ofNat 0xfffd, rest)
  else some (Char.ofNat high, rest)

/-- The characters of a text up to its closing quote, collected in reverse. -/
def readText? : Nat → List Char → List Char → Option (String × List Char)
  | 0, _, _ => none
  | _ + 1, _, [] => none
  | fuel + 1, acc, c :: cs =>
    if c == '"' then some (String.ofList acc.reverse, cs)
    else if c == '\\' then
      match cs with
      | '"' :: cs => readText? fuel ('"' :: acc) cs
      | '\\' :: cs => readText? fuel ('\\' :: acc) cs
      | '/' :: cs => readText? fuel ('/' :: acc) cs
      | 'b' :: cs => readText? fuel (Char.ofNat 8 :: acc) cs
      | 'f' :: cs => readText? fuel (Char.ofNat 12 :: acc) cs
      | 'n' :: cs => readText? fuel ('\n' :: acc) cs
      | 'r' :: cs => readText? fuel ('\r' :: acc) cs
      | 't' :: cs => readText? fuel ('\t' :: acc) cs
      | 'u' :: cs =>
        match readUnit? cs with
        | some (u, rest) => readText? fuel (u :: acc) rest
        | none => none
      | _ => none
    else if c.toNat < 32 then none
    else readText? fuel (c :: acc) cs

/-- A number: an integer unless it has a fraction or an exponent. -/
def readNumber? (cs : List Char) : Option (Json × List Char) := do
  let (negative, rest) :=
    match cs with
    | '-' :: rest => (true, rest)
    | _ => (false, cs)
  let whole ←
    match rest with
    | '0' :: _ => some ['0']
    | c :: _ => if c.isDigit then some (rest.takeWhile Char.isDigit) else none
    | [] => none
  let rest := rest.drop whole.length
  let (part, rest) :=
    match rest with
    | '.' :: more =>
      let digits := more.takeWhile Char.isDigit
      if digits.isEmpty then ([], rest) else (digits, more.drop digits.length)
    | _ => ([], rest)
  let (exponent, hasExponent, rest) :=
    match rest with
    | c :: more =>
      if c == 'e' || c == 'E' then
        let (minus, tail) := Decimal.takeSign more
        let digits := tail.takeWhile Char.isDigit
        if digits.isEmpty then ((0 : Int), false, rest)
        else
          let n : Int := Decimal.digitsValue digits
          (if minus then -n else n, true, tail.drop digits.length)
      else (0, false, rest)
    | [] => (0, false, rest)
  if part.isEmpty && !hasExponent then
    if whole.length > Decimal.maxDigits then none
    else
      let n : Int := Decimal.digitsValue whole
      some (.int (if negative then -n else n), rest)
  else
    let digits := whole ++ part
    let significant := (digits.dropWhile (· == '0')).length
    some (.real (Decimal.toFloat negative (Decimal.digitsValue digits) (exponent - part.length)
      significant), rest)

/-- Give a key its last value, at the place where it first stood. -/
def setKey (entries : List (String × Json)) (key : String) (value : Json) : List (String × Json) :=
  if entries.any (·.1 == key) then
    entries.map fun e => if e.1 == key then (key, value) else e
  else entries ++ [(key, value)]

mutual

def readValue? : Nat → List Char → Option (Json × List Char)
  | 0, _ => none
  | fuel + 1, cs =>
    match cs with
    | '"' :: rest => (readText? (fuel + 1) [] rest).map fun r => (.text r.1, r.2)
    | '[' :: rest =>
      match skipGap rest with
      | ']' :: rest => some (.list [], rest)
      | rest => readItems? fuel [] rest
    | '{' :: rest =>
      match skipGap rest with
      | '}' :: rest => some (.object [], rest)
      | rest => readEntries? fuel [] rest
    | _ =>
      match after? "null".toList cs, after? "true".toList cs, after? "false".toList cs,
        after? "NaN".toList cs, after? "Infinity".toList cs, after? "-Infinity".toList cs with
      | some rest, _, _, _, _, _ => some (.null, rest)
      | _, some rest, _, _, _, _ => some (.bool true, rest)
      | _, _, some rest, _, _, _ => some (.bool false, rest)
      | _, _, _, some rest, _, _ => some (.real Binary64.nan, rest)
      | _, _, _, _, some rest, _ => some (.real Binary64.infinity, rest)
      | _, _, _, _, _, some rest => some (.real (-Binary64.infinity), rest)
      | _, _, _, _, _, _ => readNumber? cs

/-- The items of a list after those in `acc`, which are in reverse. -/
def readItems? : Nat → List Json → List Char → Option (Json × List Char)
  | 0, _, _ => none
  | fuel + 1, acc, cs =>
    match readValue? fuel cs with
    | none => none
    | some (v, rest) =>
      match skipGap rest with
      | ',' :: rest => readItems? fuel (v :: acc) (skipGap rest)
      | ']' :: rest => some (.list (v :: acc).reverse, rest)
      | _ => none

/-- The entries of an object after those in `acc`. -/
def readEntries? : Nat → List (String × Json) → List Char → Option (Json × List Char)
  | 0, _, _ => none
  | fuel + 1, acc, cs =>
    match cs with
    | '"' :: rest =>
      match readText? (fuel + 1) [] rest with
      | none => none
      | some (key, rest) =>
        match skipGap rest with
        | ':' :: rest =>
          match readValue? fuel (skipGap rest) with
          | none => none
          | some (v, rest) =>
            match skipGap rest with
            | ',' :: rest => readEntries? fuel (setKey acc key v) (skipGap rest)
            | '}' :: rest => some (.object (setKey acc key v), rest)
            | _ => none
        | _ => none
    | _ => none

end

/-- The value that fills a JSON text. -/
def read? (s : String) : Option Json :=
  let cs := skipGap s.toList
  match readValue? (2 * cs.length + 2) cs with
  | some (v, rest) => if (skipGap rest).isEmpty then some v else none
  | none => none

end Json

end DreamBerd
