import DreamBerd.Proofs.Lookahead
import DreamBerd.Proofs.Splitting

/-!
# The places of tokens

A complaint can be located only where the source has the line that it points at. Reading starts at the
first line and counts a line for each line break that it passes, so a token never stands behind the
last line: `Source.tokens_cases` says that the tokens of a source stand in its lines, and that a text
that cannot be cut into tokens is reported at one of its lines.
-/

namespace DreamBerd

open List

namespace Source

variable {s : Source} {n : Int} {ts : List Token} {t : Token}

def lineCount (s : Source) : Nat := s.code.toList.count '\n' + 1

def HasLine (s : Source) (n : Int) : Prop := 1 ≤ n ∧ n ≤ s.lineCount

def Holds (s : Source) (ts : List Token) : Prop := ∀ t ∈ ts, s.HasLine t.line

theorem Holds.subset {us : List Token} (holds : s.Holds ts) (subset : us ⊆ ts) : s.Holds us :=
  fun t member => holds t (subset member)

theorem Holds.head (holds : s.Holds (t :: ts)) : s.HasLine t.line :=
  holds t mem_cons_self

theorem Holds.tail (holds : s.Holds (t :: ts)) : s.Holds ts :=
  holds.subset (subset_cons_self t ts)

theorem HasLine.exists_lineText? (has : s.HasLine n) : ∃ text, s.lineText? n = some text := by
  obtain ⟨first, last⟩ := has
  have inside : (n - 1).toNat < (s.code.splitOn "\n").length := by
    have count : (s.code.splitOn "\n").length = s.lineCount := length_splitOn_char s.code '\n'
    omega
  refine ⟨(s.code.splitOn "\n")[(n - 1).toNat], ?_⟩
  rw [lineText?, atPosition?, if_pos (by omega), getElem?_eq_getElem inside]

theorem HasLine.atLine (has : s.HasLine n) (c : Complaint) : ∃ r, s.atLine c n = .report r := by
  obtain ⟨text, found⟩ := has.exists_lineText?
  unfold Source.atLine placeOfLine?
  rw [found]
  split
  · rename_i p _
    exact ⟨⟨c, p⟩, rfl⟩
  · rename_i nowhere
    split at nowhere <;> cases nowhere

theorem HasLine.atToken (has : s.HasLine t.line) (c : Complaint) : ∃ r, s.atToken c t = .report r := by
  obtain ⟨text, found⟩ := has.exists_lineText?
  unfold Source.atToken placeOfToken?
  rw [found]
  split
  · rename_i p _
    exact ⟨⟨c, p⟩, rfl⟩
  · rename_i nowhere
    split at nowhere <;> cases nowhere

end Source

namespace Lexer

variable {s : Step} {e : Error} {cs : List Char}

def Error.line : Error → Nat
  | .unmatchedQuotes line => line
  | .userTooConfused line => line
  | .pastEnd line => line

/-- A step that starts at a line stays in it unless it reads a line break. Its tokens stand in the
line that it ends in, and what it leaves is an end of the text. -/
structure Follows (line : Nat) (c : Char) (rest : List Char) (s : Step) : Prop where
  line_eq : s.line = line + [c].count '\n'
  suffix : s.rest <:+ rest
  tokens : ∀ t ∈ s.tokens, t.line = s.line

variable {line col : Nat} {c : Char} {rest : List Char}

theorem ne_newline_of_run (kind : (k, c, d) ∈ runs) : c ≠ '\n' := by
  have all : ∀ r ∈ runs, r.2.1 ≠ '\n' := by decide
  exact all _ kind

theorem Reads.line_eq (reads : Reads line col c rest s) : s.line = line + [c].count '\n' := by
  have stays (same : c ≠ '\n') : line = line + [c].count '\n' := by simp [same]
  cases reads with
  | newline => simp
  | single kind spelled => exact stays (plainMark_of_single kind spelled).ne_newline
  | pair kind spelled => exact stays (plainMark_of_pair kind spelled).1.ne_newline
  | run kind => exact stays (ne_newline_of_run kind)
  | string quote =>
    refine stays ?_
    rintro rfl
    cases quote
  | emptyName => simp
  | blank spaced =>
    refine stays ?_
    rintro rfl
    cases spaced
  | name opens =>
    refine stays ?_
    rintro rfl
    cases opens

theorem Reads.tokens_line (reads : Reads line col c rest s) : ∀ t ∈ s.tokens, t.line = s.line := by
  cases reads <;> simp [Lexer.single, lexeme]

theorem not_mem_cons_takeWhile {p : Char → Bool} (other : x ≠ c) (fails : p x = false) :
    x ∉ c :: rest.takeWhile p := by
  rw [mem_cons, not_or]
  refine ⟨other, fun member => ?_⟩
  rw [mem_takeWhile_imp member] at fails
  cases fails

theorem length_takeWhile_add_dropWhile (p : Char → Bool) (cs : List Char) :
    (cs.takeWhile p).length + (cs.dropWhile p).length = cs.length := by
  rw [← length_append, takeWhile_append_dropWhile]

/-- Only behind a line break columns are counted anew. -/
theorem Reads.next_column (reads : Reads line col c rest s) :
    c = '\n' ∧ s.col = 1 ∨ s.col + s.rest.length = col + rest.length + 1 := by
  have cut (p : Char → Bool) :
      col + (rest.takeWhile p).length + 1 + (rest.dropWhile p).length = col + rest.length + 1 := by
    have whole := length_takeWhile_add_dropWhile p rest
    omega
  cases reads with
  | newline => exact .inl ⟨rfl, rfl⟩
  | single => exact .inr (Nat.add_right_comm _ _ _)
  | pair | emptyName =>
    simp only [length_cons]
    omega
  | run | blank | name => exact .inr (cut _)
  | string quote read =>
    have rests := (suffix_readString quote read).length_le
    dsimp only
    omega

theorem follows_step (stepped : step line col c rest = .ok s) : Follows line c rest s :=
  ⟨(reads_step stepped).line_eq, (reads_step stepped).suffix, (reads_step stepped).tokens_line⟩

theorem line_of_readOpening_error {seen : List Char}
    (stopped : readOpening line seen cs = .error e) : e.line = line := by
  fun_induction readOpening line seen cs with
  | case1 => cases stopped; rfl
  | case2 => cases stopped
  | case3 _ _ _ _ _ ih => exact ih stopped
  | case4 => cases stopped

theorem line_of_readBody_error {target running : Nat} {pending acc : List Char}
    (stopped : readBody line target running pending acc cs = .error e) : e.line = line := by
  fun_induction readBody line target running pending acc cs with
  | case1 => cases stopped; split <;> rfl
  | case2 => cases stopped
  | case3 _ _ _ _ _ _ _ ih | case4 _ _ _ _ _ _ ih => exact ih stopped

theorem line_of_readString_error (stopped : readString line cs = .error e) : e.line = line := by
  unfold readString at stopped
  split at stopped
  · rename_i unopened
    cases stopped
    exact line_of_readOpening_error unopened
  · cases stopped
  · exact line_of_readBody_error stopped

theorem line_of_step_error (stopped : step line col c rest = .error e) : e.line = line := by
  cases refuses_step stopped with
  | pastEnd => rfl
  | confused => rfl
  | string _ read => exact line_of_readString_error read

/-! ## Lines of a text -/

theorem Follows.line_le (follows : Follows line c rest s) :
    line ≤ s.line ∧ s.line + s.rest.count '\n' ≤ line + (c :: rest).count '\n' := by
  have fewer : s.rest.count '\n' ≤ rest.count '\n' := follows.suffix.sublist.count_le '\n'
  have whole : ([c] ++ rest).count '\n' = [c].count '\n' + rest.count '\n' := count_append
  have own := follows.line_eq
  rw [singleton_append] at whole
  omega

theorem scan_lines (line col : Nat) (cs : List Char) :
    (∀ ts, scan line col cs = .ok ts →
      ∀ t ∈ ts, (line : Int) ≤ t.line ∧ t.line ≤ (line + cs.count '\n' : Nat)) ∧
    (∀ e, scan line col cs = .error e → line ≤ e.line ∧ e.line ≤ line + cs.count '\n') := by
  fun_induction scan line col cs with
  | case1 =>
    constructor
    · rintro ts ⟨⟩ t ⟨⟩
    · rintro e ⟨⟩
  | case2 line col c rest e stopped =>
    constructor
    · rintro ts ⟨⟩
    · rintro e ⟨⟩
      rw [line_of_step_error stopped]
      exact ⟨Nat.le_refl _, Nat.le_add_right _ _⟩
  | case3 line col c rest s stepped e more ih =>
    have bounds := (follows_step stepped).line_le
    constructor
    · rintro ts ⟨⟩
    · rintro e ⟨⟩
      have later := ih.2 e more
      omega
  | case4 line col c rest s stepped ts more ih =>
    have follows := follows_step stepped
    have bounds := follows.line_le
    constructor
    · rintro _ ⟨⟩ t member
      rcases mem_append.mp member with own | later
      · rw [follows.tokens t own]
        omega
      · have within := ih.1 ts more t later
        omega
    · rintro e ⟨⟩

end Lexer

namespace Source

theorem lineCount_padded (s : Source) :
    lineCount { s with code := s.code ++ lexerPadding } = s.lineCount := by
  have none : lexerPadding.toList.count '\n' = 0 := by decide
  rw [lineCount, lineCount, String.toList_append, count_append, none]

theorem padded_code (s : Source) : Lexer.Padded (s.code ++ lexerPadding).toList := by
  rw [String.toList_append]
  exact (append_assoc s.code.toList [' ', ' '] [' ']) ▸ Lexer.Padded.append_blank _

theorem tokens_cases (s : Source) :
    (∃ ts, s.tokens = .ok ts ∧ s.Holds ts) ∨ ∃ r, s.tokens = .error (.report r) := by
  let padded : Source := { s with code := s.code ++ lexerPadding }
  have lines : padded.lineCount = s.lineCount := s.lineCount_padded
  have count : padded.lineCount = padded.code.toList.count '\n' + 1 := rfl
  obtain ⟨inside, stopped⟩ := Lexer.scan_lines 1 0 padded.code.toList
  unfold Source.tokens
  cases scanned : Lexer.scan 1 0 padded.code.toList with
  | ok ts =>
    refine Or.inl ⟨ts, by simp only [scanned, padded], ?_⟩
    intro t member
    have within := inside ts scanned t member
    exact ⟨by omega, by omega⟩
  | error e =>
    have within := stopped e scanned
    have has : padded.HasLine e.line := ⟨by omega, by omega⟩
    cases e with
    | unmatchedQuotes line =>
      obtain ⟨r, reported⟩ := has.atLine .unmatchedQuotes
      exact Or.inr ⟨r, by simp only [scanned, padded]; exact congrArg _ reported⟩
    | userTooConfused line =>
      obtain ⟨r, reported⟩ := has.atLine .userTooConfused
      exact Or.inr ⟨r, by simp only [scanned, padded]; exact congrArg _ reported⟩
    | pastEnd line => exact absurd scanned (Lexer.scan_ne_pastEnd s.padded_code)

end Source

end DreamBerd
