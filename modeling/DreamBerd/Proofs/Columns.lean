import DreamBerd.Proofs.Lexemes
import DreamBerd.Proofs.SourceNames
import Mathlib

/-!
# The columns of names

The lexer counts lines and columns as it goes. `Passes` says what it has passed and counted where it comes
to a lexeme, and `Passes.counted` compares the two. Columns are counted from one behind a line break and from
zero in the first line, so that a name is found from its column and its width (`Source.names_recorded`), but a
report about a name of the first line points to the left of it, and line breaks in strings are not counted
(`Source.pointed_at_iff`).
-/

namespace DreamBerd

open List

namespace Lexer

variable {line col : Nat} {c : Char} {rest before cs ds first strings : List Char} {lines : List (List Char)} {s : Step}

/-- What stands behind the last line break. -/
def openLine (cs : List Char) : List Char := cs.rtakeWhile (· != '\n')

theorem openLine_append (solid : '\n' ∉ ds) : openLine (cs ++ ds) = openLine cs ++ ds := by
  have all : ∀ d ∈ ds.reverse, (d != '\n') = true := fun d member =>
    bne_iff_ne.mpr (ne_of_mem_of_not_mem (mem_reverse.mp member) solid)
  rw [openLine, rtakeWhile, reverse_append, takeWhile_append_of_pos all, reverse_append, reverse_reverse]
  rfl

theorem openLine_newline : openLine (cs ++ ['\n']) = [] := rtakeWhile_concat_neg _ _ _ (by decide)

theorem splitOn_solid_append (solid : '\n' ∉ cs) (cut : ds.splitOn '\n' = first :: lines) :
    (cs ++ ds).splitOn '\n' = (cs ++ first) :: lines := by
  induction cs with
  | nil => exact cut
  | cons c cs ih =>
    rw [mem_cons, not_or] at solid
    rw [cons_append, splitOn_cons_eq_if_modifyHead, if_neg (by simpa using Ne.symm solid.1), ih solid.2,
      modifyHead_cons, cons_append]

/-- A text goes on in the line that is open. -/
theorem splitOn_append_drop (cut : ds.splitOn '\n' = first :: lines) :
    ((cs ++ ds).splitOn '\n').drop (cs.count '\n') = (openLine cs ++ first) :: lines := by
  induction cs using List.reverseRecOn generalizing ds first lines with
  | nil => exact cut
  | append_singleton cs c ih =>
    rw [append_assoc, count_append]
    by_cases newline : c = '\n'
    · subst newline
      have next : ('\n' :: ds).splitOn '\n' = [] :: first :: lines := by
        rw [splitOn_cons_eq_if_modifyHead, if_pos BEq.rfl, cut]
      rw [← drop_drop, singleton_append, ih next, openLine_newline]
      rfl
    · have solid : '\n' ∉ [c] := by simpa using Ne.symm newline
      rw [openLine_append solid, count_eq_zero.mpr solid, append_assoc]
      exact ih (splitOn_solid_append solid cut)

theorem Reads.count_newline (reads : Reads line col c rest s) (unquoted : isQuote c = false) :
    s.rest.count '\n' = rest.count '\n' := by
  have solid {p : Char → Bool} (ends : p '\n' = false) : (rest.dropWhile p).count '\n' = rest.count '\n' := by
    have none : (rest.takeWhile p).count '\n' = 0 := count_eq_zero.mpr fun there => by
      rw [mem_takeWhile_imp there] at ends
      cases ends
    conv_rhs => rw [← takeWhile_append_dropWhile (l := rest), count_append, none, Nat.zero_add]
  cases reads with
  | newline | single => rfl
  | pair kind spelled => exact (count_cons_of_ne (plainMark_of_pair kind spelled).2.ne_newline).symm
  | run kind =>
    have all : ∀ r ∈ runs, ('\n' == r.2.2) = false := by decide
    exact solid (all _ kind)
  | string quote =>
    rw [unquoted] at quote
    cases quote
  | emptyName => exact (count_cons_of_ne (by decide)).symm
  | blank | name => exact solid rfl

/-! ## Runs -/

/-- What the lexer has passed and counted where it comes to a lexeme: the strings, the line and the column,
and the whole text, with the rest. -/
inductive Passes : List Char → Nat → Nat → List Char → List Char → Prop where
  | start (cs : List Char) : Passes [] 1 0 [] cs
  | step {strings before rest lexeme : List Char} {line col : Nat} {c : Char} {s : Step}
    (passes : Passes strings line col before (c :: rest)) (stepped : step line col c rest = .ok s)
    (whole : lexeme ++ s.rest = c :: rest) :
    Passes (strings ++ if isQuote c then lexeme else []) s.line s.col (before ++ lexeme) s.rest

theorem Passes.counted (passes : Passes strings line col before rest) :
    1 ≤ line ∧ line + strings.count '\n' = before.count '\n' + 1 ∧
      ('\n' ∉ strings → col = (openLine before).length + if line = 1 then 0 else 1) := by
  induction passes with
  | start => exact ⟨Nat.le_refl 1, rfl, fun _ => rfl⟩
  | @step strings before rest lexeme line col c s _ stepped whole ih =>
    obtain ⟨one, lines, columns⟩ := ih
    rw [count_append, count_append]
    by_cases newline : c = '\n'
    · subst newline
      cases stepped
      cases append_cancel_right (show lexeme ++ rest = ['\n'] ++ rest from whole)
      refine ⟨Nat.le_add_left 1 line, ?_, fun _ => ?_⟩
      · show line + 1 + strings.count '\n' = before.count '\n' + 1 + 1
        rw [← lines, Nat.add_right_comm]
      · show 1 = (openLine (before ++ ['\n'])).length + if line + 1 = 1 then 0 else 1
        rw [openLine_newline, if_neg (by omega), length_nil]
    · have reads := reads_step stepped
      have same : s.line = line := by simpa [newline] using reads.line_eq
      have length := congrArg List.length whole
      rw [length_append, length_cons] at length
      have moved := reads.next_column.resolve_left fun there => newline there.1
      have count : (if isQuote c then lexeme else []).count '\n' = lexeme.count '\n' := by
        split
        · rfl
        · rename_i unquoted
          have count := congrArg (List.count '\n') whole
          have behind := reads.count_newline (Bool.eq_false_of_not_eq_true unquoted)
          rw [count_append, count_cons_of_ne newline] at count
          rw [count_nil]
          omega
      refine ⟨by omega, by omega, fun solid => ?_⟩
      rw [mem_append, not_or, ← count_eq_zero (l := ite _ _ _), count, count_eq_zero] at solid
      rw [openLine_append solid.2, length_append, same]
      have before := columns solid.1
      omega

theorem Passes.strings_eq_nil (passes : Passes strings line col before rest)
    (unquoted : ∀ c ∈ before ++ rest, isQuote c = false) : strings = [] := by
  induction passes with
  | start => rfl
  | step _ _ whole ih =>
    rw [append_assoc, whole] at unquoted
    rw [ih unquoted, if_neg]
    · rfl
    · rw [unquoted _ (mem_append_right _ mem_cons_self)]
      exact Bool.false_ne_true

/-- The lexer comes to the tokens of a step. -/
def Comes (cs strings before : List Char) (t : Token) : Prop :=
  ∃ line col c rest s, Passes strings line col before (c :: rest) ∧ before ++ c :: rest = cs ∧
    step line col c rest = .ok s ∧ t ∈ s.tokens

theorem Passes.comes {ts : List Token} {t : Token} (passes : Passes strings line col before rest)
    (scanned : scan line col rest = .ok ts) (member : t ∈ ts) :
    ∃ strings' before', Comes (before ++ rest) strings' before' t := by
  fun_induction scan line col rest generalizing strings before ts with
  | case1 =>
    cases scanned
    cases member
  | case2 | case3 => cases scanned
  | case4 line col c rest s stepped more later ih =>
    cases scanned
    rcases mem_append.mp member with own | behind
    · exact ⟨strings, before, line, col, c, rest, s, passes, rfl, stepped, own⟩
    · obtain ⟨lexeme, whole⟩ := (reads_step stepped).suffix.trans (suffix_cons c rest)
      rw [← whole, ← append_assoc]
      exact ih (passes.step stepped whole) later behind

theorem Comes.name {t : Token} (comes : Comes cs strings before t) (name : t.kind = .name) (nonempty : t.text ≠ "") :
    ∃ line col after, Passes strings line col before (t.text.toList ++ after) ∧
      before ++ t.text.toList ++ after = cs ∧ '\n' ∉ t.text.toList ∧ ' ' ∉ t.text.toList ∧
      t.line = line ∧ t.col + 1 = col + t.width := by
  obtain ⟨line, col, c, rest, s, passes, whole, stepped, member⟩ := comes
  have reads := reads_step stepped
  obtain ⟨opens, text, column⟩ := (reads.name_text member name).resolve_left nonempty
  have other (d : Char) (opened : opensName d = false) : d ≠ c := by
    rintro rfl
    rw [opened] at opens
    cases opens
  have same : s.line = line := by simpa [(other '\n' rfl).symm] using reads.line_eq
  refine ⟨line, col, rest.dropWhile isNameChar, ?_⟩
  rw [reads.tokens_line t member, same, column, Token.width, text, String.toList_ofList, append_assoc, cons_append,
    takeWhile_append_dropWhile, String.length_ofList, length_cons]
  exact ⟨passes, whole, not_mem_cons_takeWhile (other '\n' rfl) rfl, not_mem_cons_takeWhile (other ' ' rfl) rfl, rfl,
    by omega⟩

end Lexer

/-! ## Sources -/

/-- The place shows the line in which the text behind `before` starts, and marks as many characters from its
start as the token has. The line is shown behind two blanks, and the marks behind one more than the indent. -/
def Place.PointsAt (s : Source) (before : List Char) (t : Token) : Place → Prop
  | .token _ n text indent width => n = (before.count '\n' + 1 : Nat) ∧ s.lineText? n = some text ∧
    indent + 1 = (Lexer.openLine before).length + 2 ∧ width = t.width
  | _ => False

namespace Source

open Lexer

variable {s : Source} {ts : List Token} {t : Token}

theorem comes_of_mem (cut : s.tokens = .ok ts) (member : t ∈ ts) :
    ∃ strings before, Comes (s.code ++ lexerPadding).toList strings before t :=
  (Passes.start _).comes (scan_of_tokens cut) member

/-- The characters of the token end in its line in front of its column, or in the first line, with it. -/
def Recorded (s : Source) (t : Token) : Prop :=
  ∃ line, 1 ≤ t.line ∧ ((s.code ++ "   ").splitOn "\n")[(t.line - 1).toNat]? = some line ∧
    ∃ start : Nat, (start : Int) = t.col - t.width + (if t.line = 1 then 1 else 0) ∧
      (line.toList.drop start).take t.width = t.text.toList

theorem names_recorded (unquoted : ∀ c ∈ s.code.toList, isQuote c = false) (cut : s.tokens = .ok ts)
    (member : t ∈ ts) (name : t.kind = .name) (nonempty : t.text ≠ "") : s.Recorded t := by
  obtain ⟨strings, before, comes⟩ := comes_of_mem cut member
  obtain ⟨line, col, after, passes, whole, solid, -, atLine, atCol⟩ := comes.name name nonempty
  rw [append_assoc] at whole
  cases passes.strings_eq_nil (whole ▸ unquoted_padded unquoted)
  obtain ⟨one, lines, columns⟩ := passes.counted
  have columns := columns not_mem_nil
  rw [count_nil] at lines
  obtain ⟨first, others, -, -, cut, -⟩ := splitOn_eq_parts '\n' after
  have found := congrArg List.head? (@splitOn_append_drop before _ _ _ (splitOn_solid_append solid cut))
  rw [head?_drop, whole] at found
  have text : (s.code ++ "   ").splitOn "\n" = ((s.code ++ lexerPadding).toList.splitOn '\n').map String.ofList :=
    splitOn_char _ '\n'
  refine ⟨.ofList (openLine before ++ (t.text.toList ++ first)), by omega, ?_, (openLine before).length, ?_, ?_⟩
  · rw [text, getElem?_map, (by omega : (t.line - 1).toNat = before.count '\n'), found]
    rfl
  · split at columns <;> split <;> omega
  · rw [String.toList_ofList, drop_left, Token.width, ← String.length_toList, take_left]

theorem indented_name_recorded : Recorded ⟨"main.db", "a\n bc"⟩ ⟨.name, "bc", 2, 3⟩ :=
  names_recorded (unquoted_of_any (by decide)) (by cbv) (by simp) rfl (by decide)

/-- A report about a name shows its line and points at it unless the name is in the first line, or behind a
string with a line break. -/
theorem pointed_at_iff (cut : s.tokens = .ok ts) (member : t ∈ ts) (name : t.kind = .name) (nonempty : t.text ≠ "")
    (c : Complaint) :
    (∃ strings before, Comes (s.code ++ lexerPadding).toList strings before t) ∧
    ∀ strings before, Comes (s.code ++ lexerPadding).toList strings before t →
      ∃ p, s.atToken c t = .report ⟨c, p⟩ ∧ (p.PointsAt s before t ↔ t.line ≠ 1 ∧ '\n' ∉ strings) := by
  refine ⟨comes_of_mem cut member, fun strings before comes => ?_⟩
  obtain ⟨line, col, after, passes, whole, -, solid, atLine, atCol⟩ := comes.name name nonempty
  obtain ⟨one, lines, columns⟩ := passes.counted
  have has : s.HasLine t.line := by
    rcases s.tokens_cases with ⟨us, same, holds⟩ | ⟨r, reported⟩
    · cases cut.symm.trans same
      exact holds t member
    · cases cut.symm.trans reported
  obtain ⟨text, shown⟩ := has.exists_lineText?
  have some : s.code ≠ "" := by
    intro empty
    obtain ⟨d, own⟩ := exists_mem_of_ne_nil _ fun none => nonempty (String.toList_eq_nil_iff.mp none)
    have padding : d ∈ List.replicate 3 ' ' := by
      have blanks : (s.code ++ lexerPadding).toList = List.replicate 3 ' ' := by rw [empty]; decide
      rw [← blanks, ← whole]
      exact mem_append_left _ (mem_append_right _ own)
    exact solid (eq_of_mem_replicate padding ▸ own)
  refine ⟨.token s.file t.line text (t.col - t.width + 1).toNat t.width, ?_, ?_⟩
  · rw [atToken, placeOfToken?, if_neg (by simpa using some), shown]
    rfl
  · rw [Place.PointsAt, atLine]
    constructor
    · rintro ⟨same, -, indent, -⟩
      have absent : '\n' ∉ strings := count_eq_zero.mp (by omega)
      have columns := columns absent
      refine ⟨fun first => ?_, absent⟩
      rw [if_pos (by omega)] at columns
      omega
    · rintro ⟨later, absent⟩
      have columns := columns absent
      rw [if_neg (by omega)] at columns
      rw [count_eq_zero.mpr absent] at lines
      exact ⟨by omega, atLine ▸ shown, by omega, rfl⟩

theorem first_name_missed :
    ∃ strings before p, Comes "f => 1!   ".toList strings before ⟨.name, "f", 1, 0⟩ ∧
      Source.atToken ⟨"main.db", "f => 1!"⟩ .badFunctionKeywords ⟨.name, "f", 1, 0⟩ =
        .report ⟨.badFunctionKeywords, p⟩ ∧
      ¬p.PointsAt ⟨"main.db", "f => 1!"⟩ before ⟨.name, "f", 1, 0⟩ := by
  obtain ⟨⟨strings, before, comes⟩, points⟩ := @pointed_at_iff ⟨"main.db", "f => 1!"⟩ _ ⟨.name, "f", 1, 0⟩
    (by cbv) (by simp) rfl (by decide) .badFunctionKeywords
  obtain ⟨p, reported, iff⟩ := points strings before comes
  exact ⟨strings, before, p, comes, reported, fun pointed => (iff.mp pointed).1 rfl⟩

end Source

end DreamBerd
