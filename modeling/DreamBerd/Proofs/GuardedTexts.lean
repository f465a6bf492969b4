import DreamBerd.Text.Escape
import Mathlib.Algebra.Ring.Parity
import Mathlib.Data.List.DropRight
import Mathlib.Data.List.Infix

/-!
# Texts that are read as literals

The escape sequences of a text are replaced by reading it as a literal, between double quotes and with a
backslash in front of each double quote of its own. A literal ends at the first double quote that no
backslash takes with it, and a line break that no backslash takes with it is not allowed in it.

Whether the backslash in front of a quote guards it depends on the backslashes before. So the literal is
not always the whole text: `literal_whole_iff` says that it is if and only if every quote of the text, and
its end, stand behind an even number of backslashes and every line break behind an odd number. Where an
odd number of backslashes stands in front of a quote, all that follows the quote is left outside.
-/

namespace DreamBerd.Text

open List

variable {cs front rest : List Char} {x c : Char} {n : Nat}

/-- What follows a literal, read from behind its opening quote; nothing if it does not end. -/
def afterLiteral? : List Char → Option (List Char)
  | [] => none
  | '"' :: cs => some cs
  | '\n' :: _ => none
  | ['\\'] => none
  | '\\' :: _ :: cs => afterLiteral? cs
  | _ :: cs => afterLiteral? cs

def Inert (c : Char) : Prop := c ≠ '"' ∧ c ≠ '\n' ∧ c ≠ '\\'

theorem afterLiteral?_cons (inert : Inert c) : afterLiteral? (c :: cs) = afterLiteral? cs := by
  obtain ⟨noQuote, noBreak, noBackslash⟩ := inert
  rw [afterLiteral?]
  · exact noQuote
  · exact noBreak
  · exact fun backslash _ => noBackslash backslash
  · exact fun _ _ backslash _ => noBackslash backslash

theorem afterLiteral?_append {ds : List Char} (inert : ∀ c ∈ cs, Inert c) :
    afterLiteral? (cs ++ ds) = afterLiteral? ds := by
  induction cs with
  | nil => rfl
  | cons c cs ih =>
    rw [forall_mem_cons] at inert
    rw [cons_append, afterLiteral?_cons inert.1, ih inert.2]

theorem afterLiteral?_backslash (d : Char) (cs : List Char) :
    afterLiteral? ('\\' :: d :: cs) = afterLiteral? cs := rfl

/-! ## Guarded quotes -/

def backslashes (cs : List Char) : Nat := (cs.rtakeWhile (· == '\\')).length

theorem backslashes_concat (cs : List Char) : backslashes (cs ++ ['\\']) = backslashes cs + 1 := by
  rw [backslashes, rtakeWhile_concat_pos _ _ _ rfl, length_append]
  rfl

theorem backslashes_concat_of_ne (cs : List Char) (other : x ≠ '\\') : backslashes (cs ++ [x]) = 0 := by
  rw [backslashes, rtakeWhile_concat_neg _ _ _ (by simpa using other)]
  rfl

/-- Every quote of the text stands behind an even number of backslashes, so that the one in front of it
is not taken by another, and every line break behind an odd number, the last of which takes it. -/
structure Guarded (cs : List Char) : Prop where
  quotes : ∀ front, front ++ ['"'] <+: cs → Even (backslashes front)
  breaks : ∀ front, front ++ ['\n'] <+: cs → Odd (backslashes front)

theorem guarded_iff : Guarded cs ↔ ∀ front ∈ cs.inits,
    (front ++ ['"'] <+: cs → Even (backslashes front)) ∧
      (front ++ ['\n'] <+: cs → Odd (backslashes front)) := by
  have start {front : List Char} {x : Char} (here : front ++ [x] <+: cs) : front ∈ cs.inits :=
    (mem_inits front cs).mpr ((prefix_append front [x]).trans here)
  exact ⟨fun guarded front _ => ⟨guarded.quotes front, guarded.breaks front⟩,
    fun all => ⟨fun front here => (all front (start here)).1 here,
      fun front here => (all front (start here)).2 here⟩⟩

instance (cs : List Char) : Decidable (Guarded cs) := decidable_of_iff' _ guarded_iff

theorem Guarded.nil : Guarded [] := by
  refine ⟨fun front none => ?_, fun front none => ?_⟩ <;> simp at none

theorem concat_prefix_concat_iff :
    front ++ [y] <+: cs ++ [x] ↔ (front = cs ∧ y = x) ∨ front ++ [y] <+: cs := by
  rw [prefix_concat_iff]
  simp

theorem guarded_concat_iff :
    Guarded (cs ++ [x]) ↔
      Guarded cs ∧ (x = '"' → Even (backslashes cs)) ∧ (x = '\n' → Odd (backslashes cs)) := by
  constructor
  · intro guarded
    refine ⟨⟨fun front here => ?_, fun front here => ?_⟩, fun quote => ?_, fun lineBreak => ?_⟩
    · exact guarded.quotes front (here.trans (prefix_append cs [x]))
    · exact guarded.breaks front (here.trans (prefix_append cs [x]))
    · exact guarded.quotes cs (quote ▸ prefix_rfl)
    · exact guarded.breaks cs (lineBreak ▸ prefix_rfl)
  · rintro ⟨guarded, quote, lineBreak⟩
    refine ⟨fun front here => ?_, fun front here => ?_⟩
    · rcases concat_prefix_concat_iff.mp here with ⟨rfl, last⟩ | before
      · exact quote last.symm
      · exact guarded.quotes front before
    · rcases concat_prefix_concat_iff.mp here with ⟨rfl, last⟩ | before
      · exact lineBreak last.symm
      · exact guarded.breaks front before

theorem guardQuotes_concat (cs : List Char) (x : Char) (rest : List Char) :
    guardQuotes (cs ++ [x]) ++ rest = guardQuotes cs ++ (guardQuotes [x] ++ rest) := by
  simp [guardQuotes]

theorem guardQuotes_singleton (other : x ≠ '"') : guardQuotes [x] = [x] := by
  simp [guardQuotes, other]

theorem Guarded.afterLiteral?_eq (guarded : Guarded cs) (rest : List Char) :
    (Even (backslashes cs) → afterLiteral? (guardQuotes cs ++ rest) = afterLiteral? rest) ∧
    (Odd (backslashes cs) → afterLiteral? (guardQuotes cs ++ rest) = afterLiteral? ('\\' :: rest)) := by
  -- By induction on what has been read: all that it leaves behind is the parity of the backslashes.
  induction cs using List.reverseRecOn generalizing rest with
  | nil => exact ⟨fun _ => rfl, fun odd => absurd odd (by decide)⟩
  | append_singleton cs x ih =>
    obtain ⟨before, quote, lineBreak⟩ := guarded_concat_iff.mp guarded
    obtain ⟨ofEven, ofOdd⟩ := ih before (guardQuotes [x] ++ rest)
    rw [guardQuotes_concat]
    by_cases backslash : x = '\\'
    · subst backslash
      rw [backslashes_concat]
      refine ⟨fun even => ?_, fun odd => ?_⟩
      · rw [ofOdd (Nat.not_even_iff_odd.mp (Nat.even_add_one.mp even))]
        rfl
      · rw [ofEven (Nat.not_odd_iff_even.mp (Nat.odd_add_one.mp odd))]
        rfl
    · rw [backslashes_concat_of_ne cs backslash]
      refine ⟨fun _ => ?_, fun odd => absurd odd (by decide)⟩
      rcases Nat.even_or_odd (backslashes cs) with even | odd
      · rw [ofEven even]
        by_cases isQuote : x = '"'
        · subst isQuote
          rfl
        · have noBreak : x ≠ '\n' := fun isBreak => Nat.not_odd_iff_even.mpr even (lineBreak isBreak)
          rw [guardQuotes_singleton isQuote]
          exact afterLiteral?_cons ⟨isQuote, noBreak, backslash⟩
      · have noQuote : x ≠ '"' := fun isQuote => Nat.not_even_iff_odd.mpr odd (quote isQuote)
        rw [ofOdd odd, guardQuotes_singleton noQuote]
        rfl

theorem Guarded.afterLiteral?_quote (guarded : Guarded front) (odd : Odd (backslashes front))
    (back rest : List Char) :
    afterLiteral? (guardQuotes (front ++ '"' :: back) ++ rest) = some (guardQuotes back ++ rest) := by
  have whole : guardQuotes (front ++ '"' :: back) ++ rest =
      guardQuotes front ++ ('\\' :: '"' :: (guardQuotes back ++ rest)) := by
    simp [guardQuotes]
  rw [whole, (guarded.afterLiteral?_eq _).2 odd]
  rfl

theorem Guarded.afterLiteral?_newline (guarded : Guarded front) (even : Even (backslashes front))
    (back rest : List Char) : afterLiteral? (guardQuotes (front ++ '\n' :: back) ++ rest) = none := by
  have whole : guardQuotes (front ++ '\n' :: back) ++ rest =
      guardQuotes front ++ ('\n' :: (guardQuotes back ++ rest)) := by
    simp [guardQuotes]
  rw [whole, (guarded.afterLiteral?_eq _).1 even]
  rfl

theorem exists_of_not_guarded (broken : ¬Guarded cs) :
    ∃ front back, Guarded front ∧ (cs = front ++ '"' :: back ∧ Odd (backslashes front) ∨
      cs = front ++ '\n' :: back ∧ Even (backslashes front)) := by
  induction cs using List.reverseRecOn with
  | nil => exact absurd Guarded.nil broken
  | append_singleton cs x ih =>
    by_cases before : Guarded cs
    · rw [guarded_concat_iff] at broken
      by_cases quote : x = '"' → Even (backslashes cs)
      · have untaken : ¬(x = '\n' → Odd (backslashes cs)) := fun lineBreak =>
          broken ⟨before, quote, lineBreak⟩
        obtain ⟨rfl, even⟩ := Classical.not_imp.mp untaken
        exact ⟨cs, [], before, .inr ⟨rfl, Nat.not_odd_iff_even.mp even⟩⟩
      · obtain ⟨rfl, odd⟩ := Classical.not_imp.mp quote
        exact ⟨cs, [], before, .inl ⟨rfl, Nat.not_even_iff_odd.mp odd⟩⟩
    · obtain ⟨front, back, guarded, first⟩ := ih before
      refine ⟨front, back ++ [x], guarded, ?_⟩
      rcases first with ⟨rfl, odd⟩ | ⟨rfl, even⟩
      · exact .inl ⟨by simp, odd⟩
      · exact .inr ⟨by simp, even⟩

theorem afterLiteral?_guardQuotes_iff (cs : List Char) :
    afterLiteral? (guardQuotes cs ++ ['"']) = some [] ↔ Guarded cs ∧ Even (backslashes cs) := by
  constructor
  · intro whole
    by_cases guarded : Guarded cs
    · refine ⟨guarded, ?_⟩
      by_contra odd
      rw [(guarded.afterLiteral?_eq _).2 (Nat.not_even_iff_odd.mp odd)] at whole
      cases whole
    · obtain ⟨front, back, before, ⟨rfl, odd⟩ | ⟨rfl, even⟩⟩ := exists_of_not_guarded guarded
      · rw [before.afterLiteral?_quote odd] at whole
        simp at whole
      · rw [before.afterLiteral?_newline even] at whole
        cases whole
  · rintro ⟨guarded, even⟩
    exact (guarded.afterLiteral?_eq _).1 even

/-! ## Escape sequences -/

theorem inert_of_isOctal (octal : isOctal c = true) : Inert c := by
  refine ⟨?_, ?_, ?_⟩ <;> rintro rfl <;> cases octal

theorem inert_of_hexValue? (hex : Json.hexValue? c = some n) : Inert c := by
  refine ⟨?_, ?_, ?_⟩ <;> rintro rfl <;> cases hex

theorem inert_of_hexDigits? (digits : hexDigits? cs = some n) : ∀ c ∈ cs, Inert c := by
  unfold hexDigits? at digits
  generalize (0 : Nat) = start at digits
  induction cs generalizing start with
  | nil => exact forall_mem_nil _
  | cons c cs ih =>
    rw [foldlM_cons] at digits
    cases hex : Json.hexValue? c with
    | none =>
      rw [hex] at digits
      cases digits
    | some v =>
      rw [hex] at digits
      exact forall_mem_cons.mpr ⟨inert_of_hexValue? hex, ih _ digits⟩

theorem escape?_eq_some {chars rest' : List Char} (read : escape? d rest = some (chars, rest')) :
    ∃ digits, rest = digits ++ rest' ∧ ∀ c ∈ digits, Inert c := by
  unfold escape? at read
  split at read
  · cases read
    exact ⟨[], rfl, forall_mem_nil _⟩
  · split at read
    · cases read
      exact ⟨[], rfl, forall_mem_nil _⟩
    · split at read
      · rename_i octal
        obtain ⟨c, -, same⟩ := Option.map_eq_some_iff.mp read
        have first : ((d :: rest).take 3).takeWhile isOctal = d :: (rest.take 2).takeWhile isOctal := by
          rw [take_succ_cons, takeWhile_cons_of_pos octal]
        have front : (rest.take 2).takeWhile isOctal <+: rest :=
          ( takeWhile_prefix isOctal).trans ( take_prefix 2 rest)
        rw [first] at same
        cases same
        exact ⟨_, prefix_iff_eq_append.mp front |>.symm, fun c member =>
          inert_of_isOctal (mem_takeWhile_imp member)⟩
      · split at read
        · cases read
          exact ⟨[], rfl, forall_mem_nil _⟩
        · rename_i count _ _
          dsimp only at read
          split at read
          · obtain ⟨n, digits, coded⟩ := Option.bind_eq_some_iff.mp read
            obtain ⟨c, -, same⟩ := Option.bind_eq_some_iff.mp coded
            cases same
            exact ⟨rest.take count, (take_append_drop count rest).symm, inert_of_hexDigits? digits⟩
          · cases read
        · split at read
          · cases read
          · cases read
            exact ⟨[], rfl, forall_mem_nil _⟩

theorem afterLiteral?_of_readLiteral? {fuel : Nat} {text : List Char}
    (read : readLiteral? fuel cs = some (text, rest)) : afterLiteral? cs = some rest := by
  induction fuel generalizing cs text with
  | zero => cases read
  | succ fuel ih =>
    cases cs with
    | nil => cases read
    | cons c cs =>
      unfold readLiteral? at read
      split at read
      · rename_i quote
        cases read
        cases beq_iff_eq.mp quote
        rfl
      rename_i noQuote
      split at read
      · cases read
      rename_i noBreak
      split at read
      · rename_i noBackslash
        obtain ⟨⟨text', rest'⟩, later, same⟩ := Option.bind_eq_some_iff.mp read
        cases same
        rw [afterLiteral?_cons ⟨by simpa using noQuote, by simpa using noBreak, by simpa using noBackslash⟩]
        exact ih later
      · rename_i backslash
        obtain rfl : c = '\\' := by simpa using backslash
        cases cs with
        | nil => cases read
        | cons d ds =>
          obtain ⟨⟨chars, behind⟩, escaped, more⟩ := Option.bind_eq_some_iff.mp read
          obtain ⟨⟨text', rest'⟩, later, same⟩ := Option.bind_eq_some_iff.mp more
          cases same
          obtain ⟨digits, rfl, inert⟩ := escape?_eq_some escaped
          rw [afterLiteral?_backslash, afterLiteral?_append inert]
          exact ih later

/-- The literal that stands for a text is all that is written for it if and only if every quote of the text
and its end stand behind an even number of backslashes and every line break behind an odd number. Where a
quote is the first to stand behind an odd number, the text behind it is outside the literal. What the
reader of literals leaves is what is outside. -/
theorem literal_whole_iff (s : String) :
    (afterLiteral? (literalText s) = some [] ↔
      Guarded (plainBreaks s.toList) ∧ Even (backslashes (plainBreaks s.toList))) ∧
    (∀ front back, plainBreaks s.toList = front ++ '"' :: back → Guarded front →
      Odd (backslashes front) → afterLiteral? (literalText s) = some (guardQuotes back ++ ['"'])) ∧
    ∀ fuel text rest, readLiteral? fuel (literalText s) = some (text, rest) →
      afterLiteral? (literalText s) = some rest := by
  refine ⟨afterLiteral?_guardQuotes_iff _, ?_, fun fuel text rest => afterLiteral?_of_readLiteral?⟩
  intro front back whole guarded odd
  rw [literalText, whole]
  exact guarded.afterLiteral?_quote odd back ['"']

theorem literal_whole_iff_quoted_word :
    afterLiteral? (literalText "say \"hi\"\\n") = some [] ∧
    afterLiteral? (literalText "\\\"#") = some (guardQuotes ['#'] ++ ['"']) :=
  ⟨(literal_whole_iff "say \"hi\"\\n").1.mpr ⟨by decide, by decide⟩,
    (literal_whole_iff "\\\"#").2.1 ['\\'] ['#'] (by decide) (by decide) (by decide)⟩

/-- A quote behind a backslash ends the literal: what follows it is read as a remark, and lost. -/
theorem quote_behind_backslash_ends_literal :
    afterLiteral? (literalText "\\\"#") ≠ some [] ∧ unescape? "\\\"#" = some "\\" := by
  decide

end DreamBerd.Text
