import DreamBerd.Proofs.Failures
import DreamBerd.Proofs.Indentation

/-!
# Texts of one statement

A text is cut into statements before they are read. `Whole` describes the tokens that are cut as one
statement and that no type hint is dropped from: what ends with an exclamation or question mark and has
none before (`Whole.of_flat`), or ends with the brace that closes its scope (`Whole.of_scope`). A text
that holds such a statement and blanks around it is read as the statement is (`Whole.ofTokens_eq`).
`formsOf_braces` is about the forms of a statement with a scope.
-/

namespace DreamBerd

open List

namespace Clause

variable {src : Source} {ts rest front inside : List Token} {t first : Token} {depth outer scopes : Int}
  {atStart : Bool}

/-! ## Balanced brackets -/

/-- Whether brackets are balanced: none is closed before it is opened, and none is left open. `step` says
what opens and closes them, and `depth` of them are open before the tokens. -/
def balancedFrom (step : Token → Int) (depth : Int) : List Token → Bool
  | [] => depth == 0
  | t :: ts => decide (0 ≤ depth + step t) && balancedFrom step (depth + step t) ts

theorem balancedFrom_cons {step : Token → Int} :
    balancedFrom step depth (t :: ts) = true ↔
      0 ≤ depth + step t ∧ balancedFrom step (depth + step t) ts = true := by
  rw [balancedFrom, Bool.and_eq_true, decide_eq_true_iff]

theorem cutFrom_balanced {current : List Token} (inside : 0 < outer)
    (balanced : balancedFrom scopeStep depth ts = true) :
    cutFrom (outer + depth) current (ts ++ rest) = cutFrom outer (ts.reverse ++ current) rest := by
  induction ts generalizing depth current with
  | nil =>
    have level : depth = 0 := eq_of_beq balanced
    rw [level, Int.add_zero]
    rfl
  | cons t ts ih =>
    obtain ⟨least, more⟩ := balancedFrom_cons.mp balanced
    have goesOn : ¬(isTerminator t = true ∧ outer + depth + scopeStep t = 0) := by omega
    rw [cons_append, cutFrom_push goesOn, Int.add_assoc, ih more, reverse_cons,
      append_assoc, singleton_append]

/-! ## Colons -/

/-- A token that is no colon, and neither opens or closes a scope nor ends a statement. -/
def Unmarked (t : Token) : Prop := Flat t ∧ t.is .colon = false

theorem Unmarked.opens_no_scope (unmarked : Unmarked t) : t.is .lCurly = false := by
  obtain ⟨⟨level, -⟩, -⟩ := unmarked
  rw [Token.is, beq_eq_false_iff_ne]
  intro kind
  rw [scopeStep, if_pos kind] at level
  cases level

theorem colonsInside_unmarked (unmarked : ∀ t ∈ ts, Unmarked t) :
    colonsInside scopes (ts ++ rest) = colonsInside scopes rest := by
  induction ts with
  | nil => rfl
  | cons t ts ih =>
    obtain ⟨⟨level, -⟩, noColon⟩ := unmarked t mem_cons_self
    rw [cons_append, colonsInside, noColon, level, Int.add_zero,
      ih (forall_mem_cons.mp unmarked).2]
    rfl

theorem colonsInside_balanced (inside : 0 < outer) (balanced : balancedFrom scopeStep depth ts = true) :
    colonsInside (outer + depth) (ts ++ rest) = colonsInside outer rest := by
  induction ts generalizing depth with
  | nil =>
    have level : depth = 0 := eq_of_beq balanced
    rw [level, Int.add_zero]
    rfl
  | cons t ts ih =>
    obtain ⟨least, more⟩ := balancedFrom_cons.mp balanced
    have deep : (outer + depth + scopeStep t == 0) = false := by
      rw [beq_eq_false_iff_ne]
      omega
    rw [cons_append, colonsInside, deep, Bool.and_false, Int.add_assoc, ih more]
    rfl

/-! ## Indentation -/

theorem isSpace_of_blank (blank : t.isBlank = true) : isSpace t = true := by
  rw [isSpace, blank, Bool.true_or]

theorem Blank.kind (blank : Blank ts) (member : t ∈ ts) :
    t.kind = .whitespace := eq_of_beq (blank t member)

theorem Blank.flat (blank : Blank ts) : ∀ t ∈ ts, Flat t := by
  intro t member
  simp [Flat, scopeStep, isTerminator, Token.is, blank.kind member]

theorem Blank.unmarked (blank : Blank ts) : ∀ t ∈ ts, Unmarked t :=
  fun t member => ⟨blank.flat t member, is_of_kind (blank.kind member) .colon⟩

theorem newline_of_blank (blank : t.isBlank = true) : t.is .newline = false := by
  have kind : t.kind = .whitespace := eq_of_beq blank
  exact is_of_kind kind .newline

theorem checkIndent_append_blank {s after : List Token} {last : Token}
    (ends : s.getLast? = some last) (unbroken : last.is .newline = false) (blank : Blank after) :
    checkIndent src atStart (s ++ after) = checkIndent src atStart s := by
  obtain ⟨front, rfl⟩ := getLast?_eq_some_iff.mp ends
  have sameLine : startsLine atStart (front ++ [last]) = false := by
    rw [startsLine_concat, unbroken, Bool.and_false]
  have passes : checkIndent src false after = .ok () := by
    rw [← append_nil after, checkIndent_unbroken fun t member => newline_of_blank (blank t member)]
    rfl
  rw [checkIndent_append, sameLine, passes]
  cases checkIndent src atStart (front ++ [last]) <;> rfl

theorem checkIndent_concat (solid : t.isBlank = false) (fine : checkIndent src atStart ts = .ok ()) :
    checkIndent src atStart (ts ++ [t]) = .ok () := by
  have aligned : misaligned t = false := by rw [misaligned, solid, Bool.false_and]
  rw [checkIndent_append, fine]
  rw [checkIndent_cons, aligned, Bool.and_false]
  rfl

/-! ## Statements that are cut whole -/

/-- Tokens that are cut as one statement and that no type hint is dropped from. -/
structure Whole (s : List Token) : Prop where
  cut : ∀ current rest, cutFrom 0 current (s ++ rest) = (current.reverse ++ s) :: cutFrom 0 [] rest
  starts : ∃ first, s.head? = some first ∧ isSpace first = false
  ends : ∃ last, s.getLast? = some last ∧ isSpace last = false
  colons : colonsInside 0 s = true

section Blanks

variable {before after s : List Token}

theorem Whole.statements_eq (whole : Whole s) (blankBefore : Blank before) (blankAfter : Blank after) :
    statements (before ++ (s ++ after)) = [s] := by
  obtain ⟨first, starts, solid⟩ := whole.starts
  obtain ⟨last, ends, solid'⟩ := whole.ends
  have trimmed : trimSpace (before ++ s) = s := by
    refine trimSpace_append (fun t member => isSpace_of_blank (blankBefore t member)) ?_ ?_
    · intro t head
      rw [← Option.some.inj (starts.symm.trans head), solid]
    · intro t tail
      rw [← Option.some.inj (ends.symm.trans tail), solid']
  have nothing : trimSpace after = [] := by
    rw [← append_nil after]
    exact trimSpace_append (fun t member => isSpace_of_blank (blankAfter t member))
      (fun t head => by cases head) (fun t tail => by cases tail)
  have cut : cutFrom 0 [] (before ++ (s ++ after)) = [before ++ s, after] := by
    rw [cutFrom_flat blankBefore.flat, whole.cut, ← append_nil after, cutFrom_flat blankAfter.flat]
    simp [cutFrom]
  have some : s ≠ [] := by
    rintro rfl
    cases starts
  rw [statements, cut, map_cons, map_singleton, trimmed, nothing]
  simp [some]

theorem Whole.ofTokens_eq (whole : Whole s) (blankBefore : Blank before) (blankAfter : Blank after) :
    ofTokens src (before ++ (s ++ after)) = do
      checkIndent src false s
      return [← readStatement src s] := by
  obtain ⟨last, ends, solid⟩ := whole.ends
  have unbroken : last.is .newline = false := (Bool.or_eq_false_iff.mp solid).2
  rw [Clause.ofTokens_eq, readWith, whole.statements_eq blankBefore blankAfter,
    checkIndent_unbroken fun t member => newline_of_blank (blankBefore t member),
    checkIndent_append_blank ends unbroken blankAfter]
  rw [mapM_cons, dropHints_eq whole.colons rfl rfl]
  rfl

end Blanks

/-- A statement that its last token ends, and none before. -/
theorem Whole.of_flat {stop : Token} (unmarked : ∀ t ∈ front, Unmarked t)
    (starts : front.head? = some first) (solid : isSpace first = false)
    (ending : stop.kind = .bang ∨ stop.kind = .question) : Whole (front ++ [stop]) := by
  have level : scopeStep stop = 0 := by
    rcases ending with kind | kind <;> simp [scopeStep, kind]
  have terminates : isTerminator stop = true := by
    rcases ending with kind | kind <;> simp [isTerminator, Token.is, kind]
  have noSpace : isSpace stop = false := by
    rcases ending with kind | kind <;> simp [isSpace, Token.isBlank, Token.is, kind]
  have noColon : stop.is .colon = false := by
    rcases ending with kind | kind <;> exact is_of_kind kind .colon
  constructor
  · intro current rest
    rw [append_assoc, cutFrom_flat fun t member => (unmarked t member).1, singleton_append,
      cutFrom_stop terminates (by rw [level]; rfl)]
    simp
  · exact ⟨first, by rw [head?_append, starts]; rfl, solid⟩
  · exact ⟨stop, getLast?_concat, noSpace⟩
  · rw [colonsInside_unmarked unmarked, colonsInside, noColon]
    rfl

theorem Whole.of_scope (left : Mark .lCurly) (right : Mark .rCurly)
    (unmarked : ∀ t ∈ front, Unmarked t) (starts : front.head? = some first)
    (solid : isSpace first = false) (balanced : balancedFrom scopeStep 0 inside = true) :
    Whole (front ++ left.token :: (inside ++ [right.token])) := by
  have up : scopeStep left.token = 1 := by simp [scopeStep, left.kind]
  have down : scopeStep right.token = -1 := by simp [scopeStep, right.kind]
  have terminates : isTerminator right.token = true := by simp [isTerminator, is_of_kind right.kind]
  have goesOn : ¬(isTerminator left.token = true ∧ 0 + scopeStep left.token = 0) := by
    omega
  constructor
  · intro current rest
    have passes : cutFrom (1 + 0) (left.token :: (front.reverse ++ current))
        (inside ++ right.token :: rest) = cutFrom 1 (inside.reverse ++ left.token ::
          (front.reverse ++ current)) (right.token :: rest) :=
      cutFrom_balanced (by decide) balanced
    rw [Int.add_zero] at passes
    simp only [append_assoc, cons_append, nil_append]
    rw [cutFrom_flat fun t member => (unmarked t member).1, cutFrom_push goesOn, up, Int.zero_add,
      passes, cutFrom_stop terminates (by rw [down]; rfl)]
    simp
  · exact ⟨first, by rw [head?_append, starts]; rfl, solid⟩
  · refine ⟨right.token, ?_, by simp [isSpace, Token.isBlank, Token.is, right.kind]⟩
    rw [← cons_append, ← append_assoc, getLast?_concat]
  · have passes : colonsInside (1 + 0) (inside ++ [right.token]) = colonsInside 1 [right.token] :=
      colonsInside_balanced (by decide) balanced
    rw [Int.add_zero] at passes
    rw [colonsInside_unmarked unmarked, colonsInside, is_of_kind left.kind, up, Int.zero_add, passes,
      colonsInside, is_of_kind right.kind]
    rfl

theorem formsOf_braces {keyword : Token} {left : Mark .lCurly} {right : Mark .rCurly}
    {inner : List Token → Except Fault (List Clause)} {code : List Clause}
    (noScope : ∀ t ∈ front, t.is .lCurly = false) (solid : front.filter (!·.isBlank) = keyword :: rest)
    (isName : keyword.is .name = true) (reads : inner inside = .ok code) :
    formsOf src inner (front ++ left.token :: (inside ++ [right.token])) =
      scopedForms src (front ++ left.token :: (inside ++ [right.token]))
        ((front ++ left.token :: (inside ++ [right.token])).filter (!·.isBlank)) front.length code := by
  have hasScope : (front ++ left.token :: (inside ++ [right.token])).any (·.is .lCurly) = true := by
    simp [is_of_kind left.kind]
  have last : (front ++ left.token :: (inside ++ [right.token])).getLast? = some right.token := by
    rw [← cons_append, ← append_assoc, getLast?_concat]
  have starts : (front ++ left.token :: (inside ++ [right.token])).filter (!·.isBlank) =
      keyword :: (rest ++ (left.token :: (inside ++ [right.token])).filter (!·.isBlank)) := by
    rw [filter_append, solid, cons_append]
  have slice : Expr.slice (front ++ left.token :: (inside ++ [right.token])) (front.length + 1)
      ((front ++ left.token :: (inside ++ [right.token])).length - 1) = inside := by
    apply Expr.slice_middle rfl
    simp only [length_cons, length_append, length_nil]
    omega
  have header : (front ++ left.token :: (inside ++ [right.token])).takeWhile (!·.is .lCurly) = front :=
    takeWhile_before_scope noScope
  rw [formsOf_eq_scopedForms right hasScope last starts isName (by rw [header, slice, reads]), header,
    ← starts]

end Clause

end DreamBerd
