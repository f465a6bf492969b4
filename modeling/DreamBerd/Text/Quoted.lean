import DreamBerd.Text.Printable

/-!
# Quoted texts

`Text.quoted` writes a text between quotes so that it can be read back: single quotes, or double
quotes if the text has single quotes only. Quotes of the chosen kind, backslashes and unprintable
characters are escaped.
-/

namespace DreamBerd.Text

/-- The digits of `n` in base sixteen, filled with zeros up to `width`. -/
def hexPadded (width n : Nat) : String :=
  let digits := Nat.toDigits 16 n
  String.ofList (List.replicate (width - digits.length) '0' ++ digits)

def apostrophe : Char := Char.ofNat 39

def quotedChar (quote : Char) (c : Char) : String :=
  if c == quote || c == '\\' then String.ofList ['\\', c]
  else if c == '\t' then "\\t"
  else if c == '\n' then "\\n"
  else if c == '\r' then "\\r"
  else if isPrintable c then String.ofList [c]
  else if c.toNat < 0x100 then "\\x" ++ hexPadded 2 c.toNat
  else if c.toNat < 0x10000 then "\\u" ++ hexPadded 4 c.toNat
  else "\\U" ++ hexPadded 8 c.toNat

def quoted (s : String) : String :=
  let cs := s.toList
  let quote := if cs.contains apostrophe && !cs.contains '"' then '"' else apostrophe
  String.ofList [quote] ++ String.join (cs.map (quotedChar quote)) ++ String.ofList [quote]

end DreamBerd.Text
