/-!
# Blank characters

`Text.isBlank` holds of the white space of all scripts, `Text.strip` removes it at both ends of a
text.
-/

namespace DreamBerd.Text

def isBlank (c : Char) : Bool :=
  let n := c.toNat
  (9 ≤ n && n ≤ 13) || (28 ≤ n && n ≤ 32) || n == 0x85 || n == 0xa0 || n == 0x1680 ||
    (0x2000 ≤ n && n ≤ 0x200a) || n == 0x2028 || n == 0x2029 || n == 0x202f || n == 0x205f ||
    n == 0x3000

def isPlainBlank (c : Char) : Bool := (9 ≤ c.toNat && c.toNat ≤ 13) || c == ' '

def trimChars (p : Char → Bool) (cs : List Char) : List Char :=
  ((cs.dropWhile p).reverse.dropWhile p).reverse

def trimWhere (p : Char → Bool) (s : String) : String := String.ofList (trimChars p s.toList)

def strip (s : String) : String := trimWhere isBlank s

end DreamBerd.Text
