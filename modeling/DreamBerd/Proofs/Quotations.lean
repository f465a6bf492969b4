import DreamBerd.Proofs.Lookahead
import Mathlib.Data.List.DropRight
import Mathlib.Data.List.Infix

/-!
# Quoting any text

A single quote and double quotes weigh an odd number in all, as does each run of them that starts with
the single one. So none of these falls into two parts of equal weight, and they open a string with
whatever follows. `readString_quotation` says that such a string holds exactly the text between the
quotes, as long as no quotes inside weigh as much as the opening ones, and that it ends at the first
quotes behind the text that do.
-/

namespace DreamBerd.Lexer

open List

variable {line : Nat} {d c : Char} {ds seen rest value : List Char}

/-! ## Weights -/

theorem quoteCount_cons (c : Char) (cs : List Char) :
    quoteCount (c :: cs) = quoteWeight c + quoteCount cs := by
  rw [quoteCount, quoteCount, ← sum_eq_foldl, ← sum_eq_foldl, map_cons, sum_cons]

theorem quoteCount_append (cs ds : List Char) :
    quoteCount (cs ++ ds) = quoteCount cs + quoteCount ds := by
  induction cs with
  | nil => exact (Nat.zero_add _).symm
  | cons c cs ih => rw [cons_append, quoteCount_cons, quoteCount_cons, ih, Nat.add_assoc]

theorem quoteCount_concat (cs : List Char) (c : Char) :
    quoteCount (cs ++ [c]) = quoteCount cs + quoteWeight c := by
  rw [quoteCount_append, quoteCount_cons]
  rfl

theorem quoteWeight_pos (c : Char) : 0 < quoteWeight c := by
  unfold quoteWeight
  split <;> decide

/-! ## The opening -/

theorem isMatchingPair_of_odd (odd : quoteCount q % 2 = 1) : isMatchingPair q = false := by
  rw [isMatchingPair, odd]
  rfl

theorem readOpening_quote {cs : List Char} (quote : isQuote c = true)
    (unpaired : isMatchingPair (seen ++ [c]) = false) :
    readOpening line seen (c :: cs) = readOpening line (seen ++ [c]) cs := by
  rw [readOpening, if_pos quote, if_neg (by simp [unpaired])]

theorem readOpening_doubles (n : Nat) (odd : quoteCount seen % 2 = 1) (other : isQuote d = false) :
    readOpening line seen (List.replicate n '"' ++ d :: ds) =
      .ok (.opened (seen ++ List.replicate n '"') (d :: ds)) := by
  induction n generalizing seen with
  | zero => simp [readOpening, other]
  | succ n ih =>
    have odd' : quoteCount (seen ++ ['"']) % 2 = 1 := by
      have two : quoteWeight '"' = 2 := rfl
      rw [quoteCount_concat]
      omega
    rw [replicate_succ, cons_append, readOpening_quote rfl (isMatchingPair_of_odd odd'), ih odd']
    simp

theorem quoteCount_doubles (n : Nat) : quoteCount (List.replicate n '"') = 2 * n := by
  induction n with
  | zero => rfl
  | succ n ih =>
    have two : quoteWeight '"' = 2 := rfl
    rw [replicate_succ, quoteCount_cons]
    omega

def openingQuotes (n : Nat) : List Char := Char.ofNat 39 :: List.replicate n '"'

theorem quoteCount_openingQuotes (n : Nat) : quoteCount (openingQuotes n) = 2 * n + 1 := by
  have one : quoteWeight (Char.ofNat 39) = 1 := rfl
  rw [openingQuotes, quoteCount_cons, quoteCount_doubles]
  omega

theorem readOpening_openingQuotes (n : Nat) (other : isQuote d = false) :
    readOpening line [] (openingQuotes n ++ d :: ds) = .ok (.opened (openingQuotes n) (d :: ds)) := by
  have odd : quoteCount ([] ++ [Char.ofNat 39]) % 2 = 1 := rfl
  exact readOpening_doubles n odd other

/-! ## The inside -/

section Body

variable {target running : Nat} {pending acc inside : List Char}

theorem readBody_quote (quote : isQuote c = true) (short : running + quoteWeight c ≠ target) :
    readBody line target running pending acc (c :: rest) =
      readBody line target (running + quoteWeight c) (c :: pending) acc rest := by
  rw [readBody, if_pos quote, if_neg (by simpa using short)]

theorem readBody_last (quote : isQuote c = true) (enough : running + quoteWeight c = target) :
    readBody line target running pending acc (c :: rest) = .ok (acc.reverse, rest) := by
  rw [readBody, if_pos quote, if_pos (by simpa using enough)]

theorem readBody_other (other : isQuote c = false) :
    readBody line target running pending acc (c :: rest) =
      readBody line target 0 [] (c :: (pending ++ acc)) rest := by
  rw [readBody, if_neg (by simp [other])]

theorem readBody_closing {closing : List Char} (quotes : ∀ c ∈ closing, isQuote c = true)
    (weight : running + quoteCount closing = target) (short : running < target) :
    readBody line target running pending acc (closing ++ rest) = .ok (acc.reverse, rest) := by
  induction closing generalizing running pending with
  | nil =>
    have none : quoteCount [] = 0 := rfl
    omega
  | cons c closing ih =>
    rw [forall_mem_cons] at quotes
    rw [quoteCount_cons] at weight
    rw [cons_append]
    by_cases enough : running + quoteWeight c = target
    · cases closing with
      | nil => exact readBody_last quotes.1 enough
      | cons d closing =>
        have more := quoteWeight_pos d
        rw [quoteCount_cons] at weight
        omega
    · rw [readBody_quote quotes.1 enough]
      exact ih quotes.2 (by omega) (by omega)

theorem readBody_append
    (clear : ∀ front, front <+: inside → quoteCount (front.rtakeWhile isQuote) ≠ target) :
    readBody line target 0 [] [] (inside ++ rest) =
      readBody line target (quoteCount (inside.rtakeWhile isQuote)) (inside.reverse.takeWhile isQuote)
        (inside.reverse.dropWhile isQuote) rest := by
  -- By induction on what has been read: the invariant of the reader.
  induction inside using List.reverseRecOn generalizing rest with
  | nil => rfl
  | append_singleton inside x ih =>
    have before : readBody line target 0 [] [] (inside ++ x :: rest) = _ :=
      ih fun front here => clear front (here.trans (prefix_append _ _))
    rw [append_assoc, singleton_append, before, reverse_append, reverse_singleton,
      singleton_append]
    cases quote : isQuote x with
    | true =>
      have ends : (inside ++ [x]).rtakeWhile isQuote = inside.rtakeWhile isQuote ++ [x] :=
        rtakeWhile_concat_pos isQuote inside x quote
      have short := clear _ prefix_rfl
      rw [ends, quoteCount_concat] at short ⊢
      rw [readBody_quote quote short, takeWhile_cons_of_pos quote, dropWhile_cons_of_pos quote]
    | false =>
      have other : ¬isQuote x = true := by simp [quote]
      rw [readBody_other quote, takeWhile_append_dropWhile, takeWhile_cons_of_neg other,
        dropWhile_cons_of_neg other, rtakeWhile_concat_neg isQuote inside x other]
      rfl

/-- Nothing is held back behind another character. -/
theorem readBody_text (ends : ∃ c ∈ inside.getLast?, isQuote c = false)
    (clear : ∀ front, front <+: inside → quoteCount (front.rtakeWhile isQuote) ≠ target) :
    readBody line target 0 [] [] (inside ++ rest) = readBody line target 0 [] inside.reverse rest := by
  obtain ⟨c, last, other⟩ := ends
  obtain ⟨front, rfl⟩ := getLast?_eq_some_iff.mp last
  have text : ¬isQuote c = true := by simp [other]
  rw [readBody_append clear, rtakeWhile_concat_neg isQuote front c text, reverse_append,
    reverse_singleton, singleton_append, takeWhile_cons_of_neg text,
    dropWhile_cons_of_neg text]
  rfl

end Body

/-! ## Quotations -/

theorem readString_openingQuotes (n : Nat) (other : isQuote d = false) :
    readString line (openingQuotes n ++ d :: ds) = readBody line (2 * n + 1) 0 [] [] (d :: ds) := by
  rw [readString, readOpening_openingQuotes n other]
  exact congrArg (readBody line · 0 [] [] (d :: ds)) (quoteCount_openingQuotes n)

theorem step_string {col : Nat} {rest' : List Char} (quote : isQuote c = true)
    (read : readString line (c :: rest) = .ok (value, rest')) :
    step line col c rest =
      .ok ⟨[⟨.string, String.ofList value, line, (col + (rest.length - rest'.length) : Nat)⟩], line,
        col + (rest.length - rest'.length) + 1, rest'⟩ := by
  unfold step
  split
  case h_22 => rw [if_pos quote, read]
  all_goals cases quote

theorem readString_between {closing : List Char}
    (starts : ∃ c ∈ value.head?, isQuote c = false) (ends : ∃ c ∈ value.getLast?, isQuote c = false)
    (clear : ∀ front, front <+: value → quoteCount (front.rtakeWhile isQuote) ≠ 2 * n + 1)
    (quotes : ∀ c ∈ closing, isQuote c = true) (weight : quoteCount closing = 2 * n + 1) :
    readString line (openingQuotes n ++ (value ++ (closing ++ rest))) = .ok (value, rest) := by
  have opened : readString line (openingQuotes n ++ (value ++ (closing ++ rest))) =
      readBody line (2 * n + 1) 0 [] [] (value ++ (closing ++ rest)) := by
    obtain ⟨d, first, other⟩ := starts
    obtain ⟨more, rfl⟩ := head?_eq_some_iff.mp first
    exact readString_openingQuotes n other
  rw [opened, readBody_text ends clear, readBody_closing quotes (by omega) (Nat.succ_pos _),
    reverse_reverse]

/-- A text between a single quote with `n` double quotes behind it and quotes that weigh as much is read
as it is, and reading goes on behind the last of the closing quotes. The text starts and ends with
another character, and the quotes inside, counted from the start of each run of them, never weigh as much
as the opening ones. -/
theorem readString_quotation (line col n : Nat) (value closing following : List Char)
    (starts : ∃ c ∈ value.head?, isQuote c = false) (ends : ∃ c ∈ value.getLast?, isQuote c = false)
    (clear : ∀ front, front <+: value → quoteCount (front.rtakeWhile isQuote) ≠ 2 * n + 1)
    (quotes : ∀ c ∈ closing, isQuote c = true) (weight : quoteCount closing = 2 * n + 1) :
    let behind := List.replicate n '"' ++ (value ++ (closing ++ (following ++ lexerPadding.toList)))
    let last := col + (n + value.length + closing.length)
    readString line (Char.ofNat 39 :: behind) = .ok (value, following ++ lexerPadding.toList) ∧
      step line col (Char.ofNat 39) behind =
        .ok ⟨[⟨.string, String.ofList value, line, last⟩], line, last + 1,
          following ++ lexerPadding.toList⟩ := by
  intro behind last
  have read : readString line (Char.ofNat 39 :: behind) = .ok (value, following ++ lexerPadding.toList) :=
    readString_between starts ends clear quotes weight
  have width : behind.length - (following ++ lexerPadding.toList).length =
      n + value.length + closing.length := by
    simp only [behind, length_append, length_replicate]
    omega
  refine ⟨read, ?_⟩
  rw [step_string rfl read, width]

def greeting : List Char := "say \"hi\" to 'em".toList

theorem readString_quotation_greeting :
    readString 1 ("'\"\"\"say \"hi\" to 'em\"'\"\"\"!   ".toList) = .ok (greeting, "\"!   ".toList) := by
  have clear : ∀ front ∈ greeting.inits, quoteCount (front.rtakeWhile isQuote) ≠ 2 * 3 + 1 := by decide
  exact (readString_quotation 1 0 3 greeting "\"'\"\"".toList "\"!".toList ⟨'s', rfl, rfl⟩ ⟨'m', rfl, rfl⟩
    (fun front here => clear front ((mem_inits front greeting).mpr here))
    (all_eq_true.mp (by decide)) rfl).1

end DreamBerd.Lexer
