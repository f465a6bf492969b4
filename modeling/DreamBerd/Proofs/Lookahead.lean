import DreamBerd.Token.Lexer
import Mathlib.Data.List.TakeWhile

/-!
# Looking ahead

A lexeme is often told by the character after it, and quotes are read up to another character. A text
that ends in a blank has that character for every lexeme, because only spacing is read through a blank.
`Refuses` says why a step stops, and `scan_ne_pastEnd` that reading such a text never stops for want of
a character.
-/

namespace DreamBerd.Lexer

open List

variable {line col n : Nat} {c d : Char} {rest cs : List Char} {e : Error} {k one two : TokenKind}
  {p : Char → Bool}

/-! ## Why a step stops -/

/-- The reasons for which a step stops: all that follows belongs to a lexeme whose end is looked for,
there are too many question marks, or a string cannot be read. -/
inductive Refuses (line : Nat) (c : Char) (rest : List Char) : Error → Prop where
  | pastEnd {p : Char → Bool} (solid : isSpacing c = false) (blank : p ' ' = false)
    (all : rest.dropWhile p = []) : Refuses line c rest (.pastEnd line)
  | confused (mark : c = '?') (many : 4 ≤ (rest.takeWhile (· == '?')).length) :
    Refuses line c rest (.userTooConfused line)
  | string {e : Error} (quote : isQuote c = true) (read : readString line (c :: rest) = .error e) :
    Refuses line c rest e

theorem run_eq_error (stopped : run k line col c p rest = .error e) :
    e = .pastEnd line ∧ rest.dropWhile p = [] := by
  unfold run at stopped
  split at stopped
  · rename_i all
    cases stopped
    exact ⟨rfl, all⟩
  · cases stopped

theorem oneOrTwo_eq_error (stopped : oneOrTwo one two d line col rest = .error e) :
    e = .pastEnd line ∧ rest = [] := by
  unfold oneOrTwo at stopped
  split at stopped
  · cases stopped
    exact ⟨rfl, rfl⟩
  · split at stopped <;> cases stopped

theorem Refuses.of_run (solid : isSpacing c = false) (blank : p ' ' = false)
    (stopped : run k line col c p rest = .error e) : Refuses line c rest e := by
  obtain ⟨rfl, all⟩ := run_eq_error stopped
  exact .pastEnd solid blank all

theorem Refuses.of_oneOrTwo (solid : isSpacing c = false)
    (stopped : oneOrTwo one two d line col rest = .error e) : Refuses line c rest e := by
  obtain ⟨rfl, rfl⟩ := oneOrTwo_eq_error stopped
  exact .pastEnd (p := fun _ => false) solid rfl rfl

theorem refuses_step (stopped : step line col c rest = .error e) : Refuses line c rest e := by
  unfold step at stopped
  split at stopped
  case h_14 | h_15 | h_16 | h_17 => exact .of_oneOrTwo rfl stopped
  case h_18 =>
    split at stopped
    · cases stopped
      exact .pastEnd (p := fun _ => false) rfl rfl rfl
    · exact .of_run rfl rfl stopped
    · cases stopped
  case h_19 => exact .of_run rfl rfl stopped
  case h_20 =>
    split at stopped
    · rename_i unended
      cases stopped
      exact .of_run rfl rfl unended
    · split at stopped
      · rename_i many
        cases stopped
        exact .confused rfl many
      · cases stopped
  case h_21 =>
    split at stopped
    · cases stopped
    · exact .of_run rfl rfl stopped
  case h_22 =>
    split at stopped
    · rename_i quote
      split at stopped
      · rename_i read
        cases stopped
        exact .string quote read
      · cases stopped
    · split at stopped
      · cases stopped
      · rename_i noSpacing
        exact .of_run (Bool.eq_false_iff.mpr noSpacing) rfl stopped
  all_goals cases stopped

/-! ## Texts that end in a blank -/

def Padded (cs : List Char) : Prop := ∀ c ∈ cs.getLast?, c = ' '

theorem Padded.append_blank (cs : List Char) : Padded (cs ++ [' ']) := by
  intro c last
  simpa using last.symm

theorem Padded.suffix {ds : List Char} (padded : Padded cs) (suffix : ds <:+ cs) : Padded ds := by
  obtain ⟨front, rfl⟩ := suffix
  intro c last
  refine padded c ?_
  rw [getLast?_append, Option.mem_def.mp last]
  rfl

theorem Padded.tail (padded : Padded (c :: rest)) : Padded rest := padded.suffix (suffix_cons c rest)

theorem Padded.blank_mem (padded : Padded (c :: rest)) (other : c ≠ ' ') : ' ' ∈ rest := by
  cases last : rest.getLast? with
  | none =>
    rw [getLast?_eq_none_iff] at last
    subst last
    exact absurd (padded c rfl) other
  | some d =>
    rw [← padded.tail d last]
    exact mem_of_getLast? last

theorem isQuote_ne_blank (quote : isQuote c = true) : c ≠ ' ' := by
  rintro rfl
  cases quote

theorem readOpening_ne_error {seen : List Char} (padded : Padded cs) (more : cs ≠ []) :
    readOpening line seen cs ≠ .error e := by
  fun_induction readOpening line seen cs with
  | case1 => exact absurd rfl more
  | case2 => rintro ⟨⟩
  | case3 seen c cs quote _ ih =>
    exact ih padded.tail (ne_nil_of_mem (padded.blank_mem (isQuote_ne_blank quote)))
  | case4 => rintro ⟨⟩

theorem readBody_eq_error {target running : Nat} {pending acc : List Char} (padded : Padded cs)
    (more : cs = [] → pending = []) (body : readBody line target running pending acc cs = .error e) :
    e = .unmatchedQuotes line := by
  fun_induction readBody line target running pending acc cs with
  | case1 running pending acc =>
    rw [more rfl] at body
    cases body
    rfl
  | case2 => cases body
  | case3 running pending acc c cs quote _ ih =>
    have blank := padded.blank_mem (isQuote_ne_blank quote)
    exact ih padded.tail (fun none => absurd none (ne_nil_of_mem blank)) body
  | case4 _ _ _ _ _ _ ih => exact ih padded.tail (fun _ => rfl) body

theorem readString_eq_error (padded : Padded (c :: rest))
    (read : readString line (c :: rest) = .error e) : e = .unmatchedQuotes line := by
  unfold readString at read
  split at read
  · rename_i unopened
    exact absurd unopened (readOpening_ne_error padded (cons_ne_nil c rest))
  · cases read
  · rename_i quotes inside opened
    exact readBody_eq_error (padded.suffix (suffix_readOpening opened)) (fun _ => rfl) read

/-- What a step looks at is in the text. -/
theorem Refuses.ne_pastEnd (refuses : Refuses line c rest e) (padded : Padded (c :: rest)) :
    e ≠ .pastEnd n := by
  cases refuses with
  | pastEnd solid blank all =>
    have other : c ≠ ' ' := by
      rintro rfl
      cases solid
    have through := dropWhile_eq_nil_iff.mp all ' ' (padded.blank_mem other)
    rw [through] at blank
    cases blank
  | confused => rintro ⟨⟩
  | string _ read =>
    rw [readString_eq_error padded read]
    rintro ⟨⟩

theorem scan_ne_pastEnd (padded : Padded cs) : scan line col cs ≠ .error (.pastEnd n) := by
  fun_induction scan line col cs with
  | case1 => rintro ⟨⟩
  | case2 line col c rest e stopped =>
    intro same
    cases same
    exact (refuses_step stopped).ne_pastEnd padded rfl
  | case3 line col c rest s stepped e later ih =>
    intro same
    cases same
    exact ih (padded.tail.suffix (reads_step stepped).suffix) later
  | case4 => rintro ⟨⟩

end DreamBerd.Lexer
