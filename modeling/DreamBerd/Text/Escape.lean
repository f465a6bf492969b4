import DreamBerd.Json

/-!
# Escape sequences

`Text.unescape?` replaces the escape sequences of a text: a backslash and one of `abfnrtv`, up to
three octal digits, `x`, `u` or `U` with two, four or eight hexadecimal digits. A backslash before a
quote, a backslash or a line break is dropped, the line break with it. Any other character keeps its
backslash. A backslash that ends a text, a bare line break and a sequence without its digits are
refused.

The text is read as it would be between double quotes, its own quotes being guarded by a backslash.
-/

namespace DreamBerd.Text

def controlEscape? : Char → Option Char
  | 'a' => some (Char.ofNat 7)
  | 'b' => some (Char.ofNat 8)
  | 'f' => some (Char.ofNat 12)
  | 'n' => some '\n'
  | 'r' => some '\r'
  | 't' => some '\t'
  | 'v' => some (Char.ofNat 11)
  | _ => none

/-- How many hexadecimal digits follow a letter after a backslash. -/
def hexLength? : Char → Option Nat
  | 'x' => some 2
  | 'u' => some 4
  | 'U' => some 8
  | _ => none

def hexDigits? (cs : List Char) : Option Nat :=
  cs.foldlM (fun n c => (Json.hexValue? c).map (n * 16 + ·)) 0

def isOctal (c : Char) : Bool := '0' ≤ c && c ≤ '7'

def octalValue (cs : List Char) : Nat := cs.foldl (fun n c => n * 8 + (c.toNat - 48)) 0

/-- The character with a code point; half a surrogate pair is replaced. -/
def codePoint? (n : Nat) : Option Char :=
  if 0xd800 ≤ n && n < 0xe000 then some (Char.ofNat 0xfffd)
  else if n < 0x110000 then some (Char.ofNat n)
  else none

def plainBreaks : List Char → List Char
  | '\r' :: '\n' :: cs => '\n' :: plainBreaks cs
  | c :: cs => (if c == '\r' then '\n' else c) :: plainBreaks cs
  | [] => []

/-- The characters that an escape sequence stands for, and what follows it; `d` is the character
after the backslash. -/
def escape? (d : Char) (rest : List Char) : Option (List Char × List Char) :=
  if d == '\n' then some ([], rest)
  else if d == '\\' || d == apostrophe || d == '"' then some ([d], rest)
  else if isOctal d then
    let digits := ((d :: rest).take 3).takeWhile isOctal
    (codePoint? (octalValue digits)).map fun c => ([c], (d :: rest).drop digits.length)
  else
    match controlEscape? d, hexLength? d with
    | some c, _ => some ([c], rest)
    | none, some count =>
      let digits := rest.take count
      if digits.length = count then do
        let c ← codePoint? (← hexDigits? digits)
        return ([c], rest.drop count)
      else none
    | none, none => if d == 'N' then none else some (['\\', d], rest)

/-- Read a literal up to the double quote that ends it: the first that no backslash takes with it.
Gives its text and what follows the quote. The input has fewer than `fuel` characters. -/
def readLiteral? : Nat → List Char → Option (List Char × List Char)
  | 0, _ => none
  | _ + 1, [] => none
  | fuel + 1, c :: cs =>
    if c == '"' then some ([], cs)
    else if c == '\n' then none
    else if c != '\\' then do
      let (text, rest) ← readLiteral? fuel cs
      return (c :: text, rest)
    else
      match cs with
      | [] => none
      | d :: rest => do
        let (chars, rest) ← escape? d rest
        let (text, rest) ← readLiteral? fuel rest
        return (chars ++ text, rest)

def guardQuotes (cs : List Char) : List Char :=
  cs.flatMap fun c => if c == '"' then ['\\', '"'] else [c]

/-- What is read behind the opening quote of the literal that stands for a text: the text with its own
quotes guarded, and the closing quote. -/
def literalText (s : String) : List Char := guardQuotes (plainBreaks s.toList) ++ ['"']

/-- Whether a line has only blanks, and possibly a remark. -/
def isRemark (cs : List Char) : Bool :=
  match cs.dropWhile fun c => c == ' ' || c == '\t' || c == Char.ofNat 12 with
  | [] => true
  | c :: rest => c == '#' && !rest.contains '\n'

/-- A text with its escape sequences replaced: the text is written between double quotes, with its
own quotes guarded, and read as a literal, after which only a remark may follow. -/
def unescape? (s : String) : Option String :=
  let cs := literalText s
  if cs.contains (Char.ofNat 0) then none
  else
    match readLiteral? (cs.length + 1) cs with
    | some (text, rest) => if isRemark rest then some (String.ofList text) else none
    | none => none

end DreamBerd.Text
