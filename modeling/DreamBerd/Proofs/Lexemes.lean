import DreamBerd.Proofs.Places
import Mathlib.Data.List.Infix

/-!
# Cutting a text without quotes

Without quotes a text can only be refused for its question marks: `Source.tokens_or_report` says that
every text is cut into tokens or reported, and that a text without quotes is reported if and only if it
has five question marks in a row. `Source.tokens_lossless` says that cutting loses nothing: the texts of
the tokens, one after the other, are the source with its opening parentheses read as blanks. Closing
parentheses, which count as nothing, and quotes are what it leaves out.
-/

namespace DreamBerd

open List

variable {x : Char} {n : Nat} {rest : List Char}

/-- A run that is longer than the front of a text, and that does not go on behind it, lies behind it. -/
theorem replicate_infix_of_length_lt (front : List Char)
    (inside : List.replicate n x <:+: front ++ rest) (short : front.length < n)
    (stops : rest.head? ≠ some x) : List.replicate n x <:+: rest := by
  rcases infix_append_iff.mp inside with within | behind | ⟨first, second, whole, ends, starts⟩
  · have long := within.length_le
    rw [length_replicate] at long
    omega
  · exact behind
  · have count := congrArg List.length whole
    rw [length_replicate, length_append] at count
    have fits := ends.length_le
    cases second with
    | nil =>
      rw [length_nil] at count
      omega
    | cons y second =>
      obtain ⟨more, rfl⟩ := starts
      have member : y ∈ List.replicate n x := by simp [whole]
      exact absurd (congrArg some (eq_of_mem_replicate member)) stops

theorem replicate_infix_of_not_mem (front : List Char)
    (inside : List.replicate (n + 1) x <:+: front ++ rest) (absent : x ∉ front) :
    List.replicate (n + 1) x <:+: rest := by
  rcases infix_append_iff.mp inside with within | behind | ⟨first, second, whole, ends, starts⟩
  · exact absurd (within.subset (mem_replicate.mpr ⟨Nat.succ_ne_zero n, rfl⟩)) absent
  · exact behind
  · cases first with
    | nil => exact whole ▸ starts.isInfix
    | cons y first =>
      have member : y ∈ List.replicate (n + 1) x := by simp [whole]
      exact absurd (eq_of_mem_replicate member ▸ ends.subset mem_cons_self) absent

namespace Lexer

variable {line col : Nat} {c : Char} {cs : List Char} {s : Step}

/-! ## Question marks -/

def confusion : List Char := List.replicate 5 '?'

/-- A lexeme holds at most four question marks and ends behind them, so it is not the one that five of
them stand in. -/
theorem Reads.confusion_behind (reads : Reads line col c rest s) (unquoted : isQuote c = false)
    (inside : confusion <:+: c :: rest) : confusion <:+: s.rest := by
  have cut (p : Char → Bool) : c :: rest = (c :: rest.takeWhile p) ++ rest.dropWhile p := by
    rw [cons_append, takeWhile_append_dropWhile]
  have behind {p : Char → Bool} (other : '?' ≠ c) (fails : p '?' = false) :
      confusion <:+: rest.dropWhile p :=
    replicate_infix_of_not_mem _ (cut p ▸ inside) (not_mem_cons_takeWhile other fails)
  cases reads with
  | newline => exact replicate_infix_of_not_mem ['\n'] inside (by decide)
  | single kind spelled =>
    have mark := plainMark_of_single kind spelled
    refine replicate_infix_of_not_mem [c] inside ?_
    simpa using mark.ne_question.symm
  | pair kind spelled =>
    obtain ⟨first, second⟩ := plainMark_of_pair kind spelled
    refine replicate_infix_of_not_mem [c, _] inside ?_
    simpa using ⟨first.ne_question.symm, second.ne_question.symm⟩
  | @run k c d rest kind few =>
    have both : ∀ r ∈ runs, (r.2.1 = '?' ∧ r.2.2 = '?') ∨ ('?' ≠ r.2.1 ∧ ('?' == r.2.2) = false) := by
      decide
    rcases both _ kind with ⟨first, again⟩ | ⟨first, again⟩
    · subst first again
      have stops : (rest.dropWhile (· == '?')).head? ≠ some '?' := by
        intro starts
        have fails := head?_dropWhile_not (· == '?') rest
        rw [starts] at fails
        cases fails
      exact replicate_infix_of_length_lt ('?' :: rest.takeWhile (· == '?')) (cut _ ▸ inside)
        (Nat.succ_lt_succ (few rfl)) stops
    · exact behind first again
  | string quote =>
    rw [unquoted] at quote
    cases quote
  | emptyName => exact replicate_infix_of_not_mem ['(', ')'] inside (by decide)
  | blank spaced =>
    refine behind ?_ rfl
    rintro rfl
    cases spaced
  | name opens =>
    refine behind ?_ rfl
    rintro rfl
    cases opens

theorem confusion_starts (many : 4 ≤ (rest.takeWhile (· == '?')).length) : confusion <+: '?' :: rest := by
  have marks : List.replicate 4 '?' = (rest.takeWhile (· == '?')).take 4 := by
    symm
    rw [eq_replicate_iff, length_take, Nat.min_eq_left many]
    refine ⟨rfl, fun d member => ?_⟩
    simpa using mem_takeWhile_imp (mem_of_mem_take member)
  have first : List.replicate 4 '?' <+: rest :=
    marks ▸ ( take_prefix 4 _).trans ( takeWhile_prefix _)
  exact (prefix_cons_inj '?').mpr first

/-- Without quotes, only five question marks in a row stop the reading of a text. -/
theorem scan_fails_iff (padded : Padded cs) (unquoted : ∀ c ∈ cs, isQuote c = false) :
    (∃ e, scan line col cs = .error e) ↔ confusion <:+: cs := by
  fun_induction scan line col cs with
  | case1 => simp [confusion]
  | case2 line col c rest e stopped =>
    refine ⟨fun _ => ?_, fun _ => ⟨e, rfl⟩⟩
    have reason := refuses_step stopped
    cases reason with
    | pastEnd => exact absurd rfl ((refuses_step stopped).ne_pastEnd padded)
    | confused mark many =>
      subst mark
      exact (confusion_starts many).isInfix
    | string quote =>
      rw [unquoted c mem_cons_self] at quote
      cases quote
  | case3 line col c rest s stepped e later ih =>
    have reads := reads_step stepped
    have more := reads.suffix.trans (suffix_cons c rest)
    have confused := (ih (padded.suffix more) fun d member => unquoted d (more.subset member)).mp
      ⟨e, later⟩
    exact ⟨fun _ => confused.trans more.isInfix, fun _ => ⟨e, rfl⟩⟩
  | case4 line col c rest s stepped ts later ih =>
    have reads := reads_step stepped
    have more := reads.suffix.trans (suffix_cons c rest)
    refine ⟨?_, fun inside => ?_⟩
    · rintro ⟨e, ⟨⟩⟩
    have confused := reads.confusion_behind (unquoted c mem_cons_self) inside
    obtain ⟨e, failed⟩ :=
      (ih (padded.suffix more) fun d member => unquoted d (more.subset member)).mpr confused
    rw [later] at failed
    cases failed

/-! ## The texts of tokens -/

def spelled (ts : List Token) : List Char := ts.flatMap fun t => t.text.toList

def unparen (c : Char) : Char := if c = '(' then ' ' else c

theorem unparen_of_ne (other : c ≠ '(') : unparen c = c := if_neg other

theorem map_unparen (unopened : '(' ∉ cs) : cs.map unparen = cs := by
  have same : ∀ d ∈ cs, unparen d = d := fun d member =>
    unparen_of_ne (ne_of_mem_of_not_mem member unopened)
  rw [map_congr_left same, map_id']

theorem PlainMark.unparen_eq (mark : PlainMark c) : unparen c = c := by
  refine unparen_of_ne ?_
  rintro rfl
  exact absurd mark.mem_marks (by decide)

theorem spacing_eq (spaced : isSpacing c = true) (unclosed : c ≠ ')') : spacing c = [unparen c] := by
  simp only [isSpacing, Bool.or_eq_true, beq_iff_eq] at spaced
  rcases spaced with ((rfl | rfl) | rfl) | rfl
  · rfl
  · rfl
  · exact absurd rfl unclosed
  · rfl

theorem flatMap_spacing (spaced : ∀ d ∈ cs, isSpacing d = true) (unclosed : ')' ∉ cs) :
    cs.flatMap spacing = cs.map unparen := by
  induction cs with
  | nil => rfl
  | cons d ds ih =>
    rw [forall_mem_cons] at spaced
    rw [mem_cons, not_or] at unclosed
    rw [flatMap_cons, spacing_eq spaced.1 (Ne.symm unclosed.1), ih spaced.2 unclosed.2,
      map_cons, singleton_append]

theorem spelled_singleton (t : Token) : spelled [t] = t.text.toList := flatMap_singleton _ t

theorem Reads.spelled_append (reads : Reads line col c rest s) (unquoted : isQuote c = false)
    (unclosed : ')' ∉ c :: rest) :
    spelled s.tokens ++ s.rest.map unparen = (c :: rest).map unparen := by
  have cut (p : Char → Bool) : (c :: rest).map unparen =
      (c :: rest.takeWhile p).map unparen ++ (rest.dropWhile p).map unparen := by
    rw [← map_append, cons_append, takeWhile_append_dropWhile]
  have ofLexeme {k : TokenKind} {p : Char → Bool} (other : '(' ≠ c) (fails : p '(' = false) :
      spelled (lexeme k line col c (rest.takeWhile p) (rest.dropWhile p)).tokens ++
        (rest.dropWhile p).map unparen = (c :: rest).map unparen := by
    rw [cut p, map_unparen (not_mem_cons_takeWhile other fails), lexeme, spelled_singleton,
      String.toList_ofList]
  cases reads with
  | newline =>
    have text : "\n".toList = ['\n'] := by decide
    rw [spelled_singleton, text]
    rfl
  | single kind spells =>
    have mark := plainMark_of_single kind spells
    rw [map_cons, mark.unparen_eq, Lexer.single, spelled_singleton, spells, String.toList_ofList]
    rfl
  | pair kind spells =>
    obtain ⟨first, second⟩ := plainMark_of_pair kind spells
    rw [map_cons, map_cons, first.unparen_eq, second.unparen_eq, spelled_singleton, spells,
      String.toList_ofList]
    rfl
  | run kind =>
    have both : ∀ r ∈ runs, '(' ≠ r.2.1 ∧ ('(' == r.2.2) = false := by decide
    obtain ⟨other, fails⟩ := both _ kind
    exact ofLexeme other fails
  | string quote =>
    rw [unquoted] at quote
    cases quote
  | emptyName => exact absurd (by simp) unclosed
  | blank spaced =>
    rw [cut isSpacing, spelled_singleton, String.toList_ofList, flatMap_spacing]
    · rw [forall_mem_cons]
      exact ⟨spaced, fun d member => mem_takeWhile_imp member⟩
    · rw [mem_cons, not_or] at unclosed ⊢
      exact ⟨unclosed.1, fun member => unclosed.2 (( takeWhile_prefix _).subset member)⟩
  | name opens =>
    refine ofLexeme ?_ rfl
    rintro rfl
    cases opens

theorem spelled_scan {ts : List Token} (scanned : scan line col cs = .ok ts)
    (unquoted : ∀ c ∈ cs, isQuote c = false) (unclosed : ')' ∉ cs) :
    spelled ts = cs.map unparen := by
  fun_induction scan line col cs generalizing ts with
  | case1 =>
    cases scanned
    rfl
  | case2 | case3 => cases scanned
  | case4 line col c rest s stepped more later ih =>
    cases scanned
    have reads := reads_step stepped
    have behind := reads.suffix.trans (suffix_cons c rest)
    have others : spelled more = s.rest.map unparen :=
      ih later (fun d member => unquoted d (behind.subset member)) fun member =>
        unclosed (behind.subset member)
    rw [spelled, flatMap_append]
    show spelled s.tokens ++ spelled more = _
    rw [others, reads.spelled_append (unquoted c mem_cons_self) unclosed]

end Lexer

/-! ## Sources -/

namespace Source

open Lexer

variable {s : Source}

theorem tokens_of_scan {ts : List Token}
    (scanned : scan 1 0 (s.code ++ lexerPadding).toList = .ok ts) : s.tokens = .ok ts := by
  unfold Source.tokens
  simp only [scanned]

theorem unquoted_of_any {cs : List Char} (none : cs.any isQuote = false) :
    ∀ c ∈ cs, isQuote c = false :=
  fun c member => Bool.eq_false_of_not_eq_true (any_eq_false.mp none c member)

theorem unquoted_padded (unquoted : ∀ c ∈ s.code.toList, isQuote c = false) :
    ∀ c ∈ (s.code ++ lexerPadding).toList, isQuote c = false := by
  rw [String.toList_append, forall_mem_append]
  exact ⟨unquoted, unquoted_of_any (by decide)⟩

theorem confusion_padded :
    confusion <:+: (s.code ++ lexerPadding).toList ↔ confusion <:+: s.code.toList := by
  rw [String.toList_append]
  refine ⟨fun inside => ?_, fun inside => inside.trans (prefix_append _ _).isInfix⟩
  have reversed : confusion <:+: lexerPadding.toList.reverse ++ s.code.toList.reverse := by
    rw [← reverse_append]
    exact reverse_infix.mpr inside
  exact reverse_infix.mp (replicate_infix_of_not_mem _ reversed (by decide))

theorem scan_padded_fails_iff (unquoted : ∀ c ∈ s.code.toList, isQuote c = false) :
    (∃ e, scan 1 0 (s.code ++ lexerPadding).toList = .error e) ↔ confusion <:+: s.code.toList :=
  (scan_fails_iff s.padded_code (unquoted_padded unquoted)).trans confusion_padded

/-- Every text is cut into tokens or reported. A text without quotes is reported if and only if it has
five question marks in a row. -/
theorem tokens_or_report (s : Source) :
    ((∃ ts, s.tokens = .ok ts) ∨ ∃ r, s.tokens = .error (.report r)) ∧
    ((∀ c ∈ s.code.toList, isQuote c = false) →
      ((∃ r, s.tokens = .error (.report r)) ↔ List.replicate 5 '?' <:+: s.code.toList)) := by
  have cases : (∃ ts, s.tokens = .ok ts) ∨ ∃ r, s.tokens = .error (.report r) := by
    rcases s.tokens_cases with ⟨ts, cut, -⟩ | reported
    · exact .inl ⟨ts, cut⟩
    · exact .inr reported
  refine ⟨cases, fun unquoted => ?_⟩
  rw [← confusion, ← scan_padded_fails_iff unquoted]
  constructor
  · rintro ⟨r, reported⟩
    cases scanned : scan 1 0 (s.code ++ lexerPadding).toList with
    | error e => exact ⟨e, rfl⟩
    | ok ts =>
      rw [tokens_of_scan scanned] at reported
      cases reported
  · rintro ⟨e, failed⟩
    refine cases.resolve_left ?_
    rintro ⟨ts, cut⟩
    rw [scan_of_tokens cut] at failed
    cases failed

theorem tokens_or_report_questions :
    (∃ r, Source.tokens ⟨"main.db", "print (x)?????"⟩ = .error (.report r)) ∧
    ¬∃ r, Source.tokens ⟨"main.db", "print (x)????!?"⟩ = .error (.report r) :=
  ⟨((tokens_or_report ⟨"main.db", "print (x)?????"⟩).2 (unquoted_of_any (by decide))).mpr (by decide),
    fun reported => absurd (((tokens_or_report ⟨"main.db", "print (x)????!?"⟩).2
      (unquoted_of_any (by decide))).mp reported) (by decide)⟩

/-- Cutting a text without quotes and closing parentheses loses nothing: the texts of its tokens, one
after the other, are the text with its opening parentheses read as blanks, and the three blanks that end
every text. -/
theorem tokens_lossless (s : Source) (unquoted : ∀ c ∈ s.code.toList, isQuote c = false)
    (unclosed : ')' ∉ s.code.toList) (certain : ¬List.replicate 5 '?' <:+: s.code.toList) :
    ∃ ts, s.tokens = .ok ts ∧
      String.join (ts.map Token.text) = s.code.map (fun c => if c = '(' then ' ' else c) ++ "   " := by
  cases scanned : scan 1 0 (s.code ++ lexerPadding).toList with
  | error e => exact absurd ((scan_padded_fails_iff unquoted).mp ⟨e, scanned⟩) certain
  | ok ts =>
    refine ⟨ts, tokens_of_scan scanned, ?_⟩
    have unclosed' : ')' ∉ (s.code ++ lexerPadding).toList := by
      rw [String.toList_append, mem_append, not_or]
      exact ⟨unclosed, by decide⟩
    have texts := spelled_scan scanned (unquoted_padded unquoted) unclosed'
    rw [← String.toList_inj, String.toList_join, String.toList_append, String.toList_map, flatMap_map]
    rw [String.toList_append, map_append] at texts
    exact texts

theorem tokens_lossless_signs :
    ∃ ts, Source.tokens ⟨"main.db", "if (x;==y++\t<=>z?\n"⟩ = .ok ts ∧
      String.join (ts.map Token.text) = "if  x;==y++\t<=>z?\n   " := by
  obtain ⟨ts, cut, texts⟩ := tokens_lossless ⟨"main.db", "if (x;==y++\t<=>z?\n"⟩
    (unquoted_of_any (by decide)) (by decide) (by decide)
  refine ⟨ts, cut, texts.trans ?_⟩
  rw [← String.toList_inj, String.toList_append, String.toList_map]
  rfl

end Source
end DreamBerd
