import DreamBerd.Text.Similarity

/-!
# A text resembles itself

The similarity of a text with itself is one (`Text.similarity_self`), also where frequent characters
start no match. The table of common stretches of a text with itself is symmetric, and no stretch that
ends at two positions is longer than the one that ends at either of them in both copies (`run_le_left`),
so the stretch that is taken lies on the diagonal (`Diagonal`). With the equal characters on both sides
of it, it is the whole text.
-/

namespace DreamBerd

open List

theorem Binary64.ofRatio_self (positive : 0 < n) : ofRatio false n n = 1.0 := by
  have floor : scaledFloor n n (-53) = Nat.pow 2 53 := by
    rw [scaledFloor, Nat.mul_div_cancel_left _ positive]
    rfl
  have exponent : exponentFor n n = -52 := by
    unfold exponentFor
    rw [Int.sub_self, Int.zero_sub]
    dsimp only
    rw [floor]
    rfl
  have significand : scaledRound n n (-52) = Nat.pow 2 52 := by
    rw [scaledRound, if_neg (by decide), roundHalfEven, Nat.mul_div_cancel_left _ positive,
      Nat.mul_mod_right, Nat.mul_zero, if_pos positive]
    rfl
  unfold ofRatio
  rw [if_neg (Nat.ne_of_gt positive)]
  dsimp only
  rw [exponent, significand]
  decide

namespace Text

variable {popular : List Char}

/-! ## The table of common stretches -/

/-- The length of the common stretch at the end of two texts, which are given from the end. -/
def run (popular : List Char) : List Char → List Char → Nat
  | a :: as, b :: bs => if a == b && !popular.contains b then run popular as bs + 1 else 0
  | _, _ => 0

theorem run_nil (as : List Char) : run popular as [] = 0 := by
  cases as <;> rfl

theorem run_comm (as bs : List Char) : run popular as bs = run popular bs as := by
  induction as generalizing bs with
  | nil => exact (run_nil bs).symm
  | cons a as ih =>
    cases bs with
    | nil => rfl
    | cons b bs =>
      rw [run, run, ih]
      by_cases same : a = b
      · rw [same]
      · simp [same, Ne.symm same]

/-- A text has no longer stretch in common with another one than with itself. -/
theorem run_le_left (as bs : List Char) : run popular as bs ≤ run popular as as := by
  induction as generalizing bs with
  | nil => exact Nat.zero_le _
  | cons a as ih =>
    cases bs with
    | nil => exact Nat.zero_le _
    | cons b bs =>
      rw [run, run]
      by_cases same : a = b
      · rw [same]
        split
        · exact Nat.succ_le_succ (ih bs)
        · exact Nat.le_refl _
      · simp [same]

theorem run_le_length (as bs : List Char) : run popular as bs ≤ as.length := by
  induction as generalizing bs with
  | nil => exact Nat.le_refl _
  | cons a as ih =>
    cases bs with
    | nil => exact Nat.zero_le _
    | cons b bs =>
      rw [run]
      split
      · exact Nat.succ_le_succ (ih bs)
      · exact Nat.zero_le _

/-- The lengths of the stretches that end with one text and at each further character of another one. -/
def rowFrom (popular xs : List Char) : List Char → List Char → List Nat
  | _, [] => []
  | ys, b :: bs => run popular xs (b :: ys) :: rowFrom popular xs (b :: ys) bs

theorem rowFrom_nil (ys bs : List Char) : rowFrom popular [] ys bs = List.replicate bs.length 0 := by
  induction bs generalizing ys with
  | nil => rfl
  | cons b bs ih => exact congrArg (0 :: ·) (ih (b :: ys))

theorem nextRow_rowFrom (c : Char) (xs ys bs : List Char) :
    nextRow popular c bs (run popular xs ys :: rowFrom popular xs ys bs) =
      rowFrom popular (c :: xs) ys bs := by
  induction bs generalizing ys with
  | nil => rfl
  | cons b bs ih =>
    rw [rowFrom, nextRow, ih]
    rfl

/-! ## The diagonal -/

/-- The stretch at the end of a beginning of a text, in common with itself. -/
def diagonal (popular text : List Char) (p : Nat) : Nat :=
  run popular (text.take p).reverse (text.take p).reverse

/-- A stretch lies on the diagonal and is no shorter than those that end in the first positions. -/
structure Diagonal (popular text : List Char) (rows : Nat) (best : Stretch) : Prop where
  even : best.left = best.right
  fits : best.left + best.length ≤ text.length
  most : ∀ p ≤ rows, diagonal popular text p ≤ best.length

variable {text : List Char}

theorem Diagonal.bestInRow {i : Nat} {ys bs : List Char} {best : Stretch} (inside : i < text.length)
    (whole : text = ys.reverse ++ bs) (before : Diagonal popular text i best)
    (passed : i < ys.length → diagonal popular text (i + 1) ≤ best.length) :
    Diagonal popular text (i + 1)
      (Text.bestInRow i ys.length (rowFrom popular (text.take (i + 1)).reverse ys bs) best) := by
  induction bs generalizing ys best with
  | nil =>
    have length : ys.length = text.length := by simp [whole]
    refine ⟨before.even, before.fits, fun p low => ?_⟩
    rcases Nat.lt_or_eq_of_le low with less | rfl
    · exact before.most p (Nat.le_of_lt_succ less)
    · exact passed (length ▸ inside)
  | cons b bs ih =>
    rw [rowFrom, Text.bestInRow]
    have column : b :: ys = (text.take (ys.length + 1)).reverse := by
      rw [whole, take_append, take_of_length_le (by simp)]
      simp
    have shape : text = (b :: ys).reverse ++ bs := by simp [whole]
    by_cases here : ys.length = i
    · have length : run popular (text.take (i + 1)).reverse (b :: ys) =
          diagonal popular text (i + 1) := by
        rw [column, here]
        rfl
      have short : diagonal popular text (i + 1) ≤ i + 1 :=
        Nat.le_trans (run_le_length _ _) (by rw [length_reverse, length_take]; omega)
      rw [length]
      split
      · rename_i better
        refine ih shape ⟨?_, ?_, fun p low => ?_⟩ fun _ => Nat.le_refl _
        · rw [here]
        · dsimp only
          omega
        · exact Nat.le_of_lt (Nat.lt_of_le_of_lt (before.most p low) better)
      · rename_i worse
        exact ih shape before fun _ => Nat.le_of_not_lt worse
    · -- a longer stretch would end at a position that has been seen with itself
      have atMost : run popular (text.take (i + 1)).reverse (b :: ys) ≤ best.length := by
        rcases Nat.lt_or_gt_of_ne here with left | right
        · rw [run_comm]
          refine Nat.le_trans (run_le_left _ _) ?_
          rw [column]
          exact before.most _ left
        · exact Nat.le_trans (run_le_left _ _) (passed right)
      rw [if_neg (Nat.not_lt_of_le atMost)]
      refine ih shape before fun longer => passed ?_
      rw [length_cons] at longer
      omega

theorem Diagonal.longestFrom {xs cs : List Char} {best : Stretch} (whole : text = xs.reverse ++ cs)
    (before : Diagonal popular text xs.length best) :
    Diagonal popular text text.length
      (Text.longestFrom popular text xs.length cs (rowFrom popular xs [] text) best) := by
  induction cs generalizing xs best with
  | nil =>
    have length : xs.length = text.length := by simp [whole]
    exact length ▸ before
  | cons c cs ih =>
    rw [Text.longestFrom]
    have row : nextRow popular c text (0 :: rowFrom popular xs [] text) =
        rowFrom popular (c :: xs) [] text := by
      rw [← run_nil xs]
      exact nextRow_rowFrom c xs [] text
    have inside : xs.length < text.length := by simp [whole]
    have upTo : c :: xs = (text.take (xs.length + 1)).reverse := by
      rw [whole, take_append, take_of_length_le (by simp)]
      simp
    have shape : text = (c :: xs).reverse ++ cs := by simp [whole]
    rw [row]
    refine ih shape ?_
    rw [length_cons, upTo]
    exact @bestInRow popular text xs.length [] text best inside rfl before fun none =>
      absurd none (Nat.not_lt_zero _)

/-! ## The whole text -/

theorem commonLength_self (cs : List Char) : commonLength cs cs = cs.length := by
  induction cs with
  | nil => rfl
  | cons c cs ih => rw [commonLength, if_pos (beq_self_eq_true c), ih, length_cons]

theorem longest_self (popular text : List Char) : longest popular text text = ⟨0, 0, text.length⟩ := by
  have start : Diagonal popular text ([] : List Char).length ⟨0, 0, 0⟩ :=
    ⟨rfl, Nat.zero_le _, fun p low => by rw [Nat.le_zero.mp low]; exact Nat.le_refl _⟩
  have last : Diagonal popular text text.length _ :=
    @Diagonal.longestFrom popular text [] text ⟨0, 0, 0⟩ rfl start
  rw [rowFrom_nil] at last
  unfold longest
  generalize Text.longestFrom popular text 0 text (List.replicate text.length 0) ⟨0, 0, 0⟩ = best at last ⊢
  obtain ⟨left, right, length⟩ := best
  obtain ⟨even, fits, -⟩ := last
  dsimp only at even fits ⊢
  subst even
  rw [commonLength_self, commonLength_self, length_reverse, length_take,
    length_drop, Nat.min_eq_left (by omega), Nat.sub_self, Stretch.mk.injEq]
  omega

theorem matchedChars_nil (popular : List Char) (fuel : Nat) : matchedChars popular fuel [] [] = 0 := by
  cases fuel <;> rfl

theorem matchedChars_self (popular : List Char) (fuel : Nat) (text : List Char) :
    matchedChars popular (fuel + 1) text text = text.length := by
  rw [matchedChars, longest_self]
  split
  · exact (‹text.length = 0›).symm
  · rw [take_zero, Nat.zero_add, drop_length, matchedChars_nil, Nat.zero_add, Nat.add_zero]

theorem similarity_self (s : String) : similarity s s = 1.0 := by
  unfold similarity
  dsimp only
  split
  · rfl
  · rw [matchedChars_self, String.length_toList, Nat.two_mul]
    exact Binary64.ofRatio_self (by omega)

end Text

end DreamBerd
