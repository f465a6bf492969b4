import DreamBerd.Binary64

/-!
# Similarity of texts

`Text.similarity` compares two texts by their longest common stretch, then those at its left and at
its right, and so on. It is twice the number of matched characters, divided by the number of all.
In a text of 200 characters or more, a character that fills over a hundredth of it does not start a
match.
-/

namespace DreamBerd.Text

/-- A common stretch: where it begins in both texts, and its length. -/
structure Stretch where
  left : Nat
  right : Nat
  length : Nat

/-- The characters that are too frequent in a text to start a match. -/
def popularChars (b : List Char) : List Char :=
  if b.length < 200 then []
  else b.eraseDups.filter fun c => b.count c > b.length / 100 + 1

/-- The lengths of the stretches that end at one character of the left text and at each of the right
one, given those that end one character before. -/
def nextRow (popular : List Char) (c : Char) : List Char → List Nat → List Nat
  | b :: bs, p :: ps =>
    (if c == b && !popular.contains b then p + 1 else 0) :: nextRow popular c bs ps
  | _, _ => []

/-- The best stretch so far, after those that end at position `i` of the left text. -/
def bestInRow (i : Nat) : Nat → List Nat → Stretch → Stretch
  | _, [], best => best
  | j, k :: ks, best =>
    bestInRow i (j + 1) ks (if best.length < k then ⟨i + 1 - k, j + 1 - k, k⟩ else best)

def longestFrom (popular b : List Char) : Nat → List Char → List Nat → Stretch → Stretch
  | _, [], _, best => best
  | i, c :: cs, row, best =>
    let row := nextRow popular c b (0 :: row)
    longestFrom popular b (i + 1) cs row (bestInRow i 0 row best)

def commonLength : List Char → List Char → Nat
  | a :: as, b :: bs => if a == b then commonLength as bs + 1 else 0
  | _, _ => 0

def longest (popular a b : List Char) : Stretch :=
  let s := longestFrom popular b 0 a (List.replicate b.length 0) ⟨0, 0, 0⟩
  let back := commonLength (a.take s.left).reverse (b.take s.right).reverse
  let forth := commonLength (a.drop (s.left + s.length)) (b.drop (s.right + s.length))
  ⟨s.left - back, s.right - back, back + s.length + forth⟩

/-- The number of matched characters; `fuel` bounds the number of nested stretches. -/
def matchedChars (popular : List Char) : Nat → List Char → List Char → Nat
  | 0, _, _ => 0
  | fuel + 1, a, b =>
    let s := longest popular a b
    if s.length = 0 then 0
    else
      matchedChars popular fuel (a.take s.left) (b.take s.right) + s.length +
        matchedChars popular fuel (a.drop (s.left + s.length)) (b.drop (s.right + s.length))

def similarity (a b : String) : Float :=
  let total := a.length + b.length
  if total = 0 then 1.0
  else
    let as := a.toList
    let bs := b.toList
    let n := matchedChars (popularChars bs) (as.length + 1) as bs
    Binary64.ofRatio false (2 * n) total

end DreamBerd.Text
