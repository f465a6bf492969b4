import DreamBerd.Clause.Read
import DreamBerd.Program.Parts
import DreamBerd.Proofs.Places

/-!
# The names in a file

A name may start with nearly any character, but it holds no semicolon and no line break
(`plain_of_mem_parts`): a semicolon and a line feed are lexemes of their own, and every other line break
of a file is read as a line feed. The parts of a file, with the headings between them, are its lines
(`Program.parts_partition`).
-/

namespace DreamBerd

open List

variable {text : String}

def Text.Plain (s : String) : Prop := ';' ∉ s.toList ∧ '\n' ∉ s.toList ∧ '\r' ∉ s.toList

namespace Lexer

variable {line col : Nat} {t : Token}

theorem Reads.name_text {rest : List Char} (reads : Reads line col c rest s)
    (member : t ∈ s.tokens) (name : t.kind = .name) :
    t.text = "" ∨ opensName c = true ∧ t.text = String.ofList (c :: rest.takeWhile isNameChar) ∧
      t.col = (col + (rest.takeWhile isNameChar).length : Nat) := by
  -- A lexeme of another kind holds no name.
  have other {k : TokenKind} {text : String} {l d : Int} (differs : k ≠ .name)
      (member : t ∈ [(⟨k, text, l, d⟩ : Token)]) : False := by
    rw [mem_singleton.mp member] at name
    exact differs name
  cases reads with
  | newline => exact (other (by decide) member).elim
  | single kind =>
    have all : ∀ k ∈ singles, k ≠ .name := by decide
    exact (other (all _ kind) member).elim
  | pair kind =>
    have all : ∀ k ∈ pairs, k ≠ .name := by decide
    exact (other (all _ kind) member).elim
  | run kind =>
    have all : ∀ r ∈ runs, r.1 ≠ .name := by decide
    exact (other (all _ kind) member).elim
  | string => exact (other (by decide) member).elim
  | emptyName =>
    simp only [mem_cons, not_mem_nil, or_false] at member
    rcases member with rfl | rfl | rfl
    · cases name
    · exact .inl rfl
    · cases name
  | blank => exact (other (by decide) member).elim
  | name opens =>
    rw [mem_singleton.mp member]
    exact .inr ⟨opens, rfl, rfl⟩

theorem plain_of_mem_scan {cs : List Char} {ts : List Token} (scanned : scan line col cs = .ok ts)
    (unified : '\r' ∉ cs) (member : t ∈ ts) (name : t.kind = .name) : Text.Plain t.text := by
  fun_induction scan line col cs generalizing ts with
  | case1 =>
    cases scanned
    cases member
  | case2 | case3 => cases scanned
  | case4 line col c rest s stepped more left ih =>
    cases scanned
    rcases mem_append.mp member with first | later
    · rcases (reads_step stepped).name_text first name with empty | ⟨opens, text, -⟩
      · rw [empty]
        exact ⟨not_mem_nil, not_mem_nil, not_mem_nil⟩
      · have other (d : Char) (opened : opensName d = false) : d ≠ c := by
          rintro rfl
          rw [opened] at opens
          cases opens
        have noReturn : '\r' ≠ c := fun same => unified (same ▸ mem_cons_self)
        rw [text, Text.Plain, String.toList_ofList]
        exact ⟨not_mem_cons_takeWhile (other ';' rfl) rfl, not_mem_cons_takeWhile (other '\n' rfl) rfl,
          not_mem_cons_takeWhile noReturn rfl⟩
    · refine ih left (fun there => unified ?_) later
      exact mem_cons_of_mem c ((follows_step stepped).suffix.subset there)

end Lexer

/-! ## Files -/

theorem Text.not_mem_unifyBreaks (cs : List Char) : '\r' ∉ unifyBreaks cs := by
  fun_induction unifyBreaks cs with
  | case1 => exact not_mem_nil
  | case2 cs ih => simpa using ih
  | case3 c cs _ ih =>
    intro there
    rcases mem_cons.mp there with here | later
    · split at here
      · cases here
      · exact absurd here.symm (by assumption)
    · exact ih later

theorem mem_of_mem_splitOn {cs l : List Char} (member : l ∈ cs.splitOn x) (there : c ∈ l) : c ∈ cs := by
  obtain ⟨a, parts, whole, -, cut, -⟩ := splitOn_eq_parts x cs
  rw [cut] at member
  rw [whole, mem_append, mem_flatMap]
  rcases mem_cons.mp member with rfl | later
  · exact .inl there
  · exact .inr ⟨l, later, mem_append_right _ there⟩

theorem eq_or_mem_of_mem_intersperse {ls : List α}
    (member : l ∈ ls.intersperse x) : l = x ∨ l ∈ ls := by
  fun_induction List.intersperse x ls <;> grind

theorem Text.not_mem_lines {line : String} (member : line ∈ lines text) : '\r' ∉ line.toList := by
  rw [lines, splitOn_char] at member
  obtain ⟨l, piece, rfl⟩ := mem_map.mp member
  rw [String.toList_ofList] at piece ⊢
  exact fun there => not_mem_unifyBreaks _ (mem_of_mem_splitOn piece there)

namespace Program

theorem not_mem_divide {name : String} {seen lines : List String} {part : Part}
    (before : ∀ l ∈ seen, '\r' ∉ l.toList) (after : ∀ l ∈ lines, '\r' ∉ l.toList)
    (member : part ∈ divide name seen lines) : '\r' ∉ part.code.toList := by
  induction lines generalizing name seen with
  | nil =>
    rw [mem_singleton.mp member]
    intro there
    simp only [String.toList_intercalate, List.intercalate, mem_flatten] at there
    obtain ⟨piece, among, there⟩ := there
    rcases eq_or_mem_of_mem_intersperse among with rfl | among
    · exact absurd there (by decide)
    · obtain ⟨l, passed, rfl⟩ := mem_map.mp among
      exact before l (mem_reverse.mp passed) there
  | cons line lines ih =>
    have later : ∀ l ∈ lines, '\r' ∉ l.toList := (forall_mem_cons.mp after).2
    unfold divide at member
    split at member
    · rcases mem_cons.mp member with rfl | member
      · simpa using before
      · exact ih (forall_mem_nil _) later member
    · exact ih (forall_mem_cons.mpr ⟨after line mem_cons_self, before⟩) later member

/-! ## Parts -/

/-- The texts of parts with the given lines: all but the last line of a file end with a line break. -/
def texts : List (List String) → List String
  | [] => []
  | [lines] => ["\n".intercalate lines]
  | lines :: more => String.join (lines.map (· ++ "\n")) :: texts more

/-- The lines of parts, with headings between them. -/
def interleave : List (List String) → List String → List String
  | lines :: more, heading :: headings => lines ++ heading :: interleave more headings
  | groups, _ => groups.flatten

theorem divide_partition (name : String) (seen lines : List String) : ∃ first more,
    (divide name seen lines).map Part.code = texts ((seen.reverse ++ first) :: more) ∧
    (divide name seen lines).map Part.name = name :: (lines.filter isHeading).map nameInHeading ∧
    more.length = (lines.filter isHeading).length ∧
    interleave (first :: more) (lines.filter isHeading) = lines ∧
    ∀ group ∈ first :: more, ∀ line ∈ group, isHeading line = false := by
  induction lines generalizing name seen with
  | nil => exact ⟨[], [], by rw [append_nil]; rfl, rfl, rfl, rfl, by simp⟩
  | cons line lines ih =>
    unfold divide
    by_cases heading : isHeading line = true
    · obtain ⟨first, more, codes, names, count, whole, plain⟩ := ih (nameInHeading line) []
      rw [if_pos heading, filter_cons_of_pos heading]
      refine ⟨[], first :: more, ?_, ?_, congrArg (· + 1) count, congrArg (line :: ·) whole, ?_⟩
      · rw [map_cons, codes, append_nil]
        rfl
      · rw [map_cons, names, map_cons]
      · rw [forall_mem_cons]
        exact ⟨forall_mem_nil _, plain⟩
    · obtain ⟨first, more, codes, names, count, whole, plain⟩ := ih name (line :: seen)
      rw [if_neg heading, filter_cons_of_neg heading]
      refine ⟨line :: first, more, ?_, names, count, ?_, ?_⟩
      · rw [codes, reverse_cons, append_assoc, singleton_append]
      · revert whole
        cases lines.filter isHeading <;> exact congrArg (line :: ·)
      · rw [forall_mem_cons] at plain ⊢
        exact ⟨forall_mem_cons.mpr ⟨Bool.eq_false_of_not_eq_true heading, plain.1⟩, plain.2⟩

/-- A file is divided without loss: the lines of its parts, none of which is a heading, are the lines of the file
when the headings are put between them. The first part has no name, and each further one that of its heading. -/
theorem parts_partition (text : String) : ∃ groups,
    (parts text).map Part.code = texts groups ∧
    (parts text).map Part.name = unnamed :: ((Text.lines text).filter isHeading).map nameInHeading ∧
    groups.length = ((Text.lines text).filter isHeading).length + 1 ∧
    interleave groups ((Text.lines text).filter isHeading) = Text.lines text ∧
    ∀ group ∈ groups, ∀ line ∈ group, isHeading line = false := by
  obtain ⟨first, more, codes, names, count, whole, plain⟩ := divide_partition unnamed [] (Text.lines text)
  exact ⟨first :: more, codes, names, congrArg (· + 1) count, whole, plain⟩

end Program

/-- The names in a file hold neither a semicolon nor a line break. -/
theorem plain_of_mem_parts {part : Program.Part} {ts : List Token} {t : Token}
    (member : part ∈ Program.parts text) (scanned : Source.tokens ⟨part.name, part.code⟩ = .ok ts)
    (there : t ∈ ts) (name : t.kind = .name) : Text.Plain t.text := by
  have unified : '\r' ∉ part.code.toList :=
    Program.not_mem_divide (forall_mem_nil _) (fun _ => Text.not_mem_lines) member
  refine Lexer.plain_of_mem_scan (Source.scan_of_tokens scanned) ?_ there name
  simpa [lexerPadding] using unified

end DreamBerd
