import DreamBerd.Proofs.Shapes

/-!
# Scopes are read as they are written

A `Forest` is a text, or the inside of a scope, taken apart: statements with line breaks and
indentation around them. A statement is a phrase that ends with an exclamation mark, or a keyword
and a header in front of a scope, which holds a forest again.

* `Forest.statements_tokens`: cutting the tokens of a forest gives back its statements.
* `formsOf_leaf` and `formsOf_scope`: what the two kinds of statements are read as.
* `ofTokens_forest`: a forest is read without a complaint, one clause for each of its statements.
-/

namespace DreamBerd

open List

variable {t : Token} {ts solid : List Token} {k : TokenKind} {src : Source} {code : List Clause}
  {inner : List Token → Except Fault (List Clause)} {scopes : Int}

def Form.code? {ε κ : Type} : Form ε κ → Option κ
  | function _ _ _ code _ => some code
  | classDeclaration _ _ code => some code
  | conditional _ _ code => some code
  | when _ _ code => some code
  | after _ _ code => some code
  | _ => none

def Form.guard? {ε κ : Type} : Form ε κ → Option (Token × ε)
  | conditional keyword e _ => some (keyword, e)
  | when keyword e _ => some (keyword, e)
  | after keyword e _ => some (keyword, e)
  | _ => none

namespace Clause

variable {current : List Token} {depth : Int}

/-! ## Forests -/

structure Mark (k : TokenKind) where
  token : Token
  kind : token.kind = k

def structural : List TokenKind :=
  [.newline, .lCurly, .rCurly, .bang, .question, .colon, .funcPoint]

/-- What can stand between a keyword and the scope it opens. -/
structure Header where
  tokens : List Token
  plain : ∀ t ∈ tokens, t.kind ∉ structural

/-- What can stand in front of an exclamation mark; blanks may end it, but not start it. -/
structure Phrase extends Header where
  nonempty : tokens ≠ []
  starts : ∀ t ∈ tokens.head?, t.isBlank = false

structure Gap where
  tokens : List Token
  spaces : ∀ t ∈ tokens, t.is .newline = true ∨ t.isBlank = true ∧ indentWidth t % 3 = 0

mutual

inductive Statement where
  | leaf (phrase : Phrase) (mark : Mark .bang)
  | scope (keyword : Mark .name) (header : Header) (left : Mark .lCurly) (inside : Forest)
      (right : Mark .rCurly)

/-- Statements with gaps before, between and after them. -/
inductive Forest where
  | last (gap : Gap)
  | before (gap : Gap) (first : Statement) (rest : Forest)

end

mutual

def Statement.tokens : Statement → List Token
  | .leaf phrase mark => phrase.tokens ++ [mark.token]
  | .scope keyword header left inside right =>
    keyword.token :: (header.tokens ++ left.token :: (inside.tokens ++ [right.token]))

def Forest.tokens : Forest → List Token
  | .last gap => gap.tokens
  | .before gap first rest => gap.tokens ++ (first.tokens ++ rest.tokens)

end

def Forest.statements : Forest → List Statement
  | .last _ => []
  | .before _ first rest => first :: rest.statements

/-! ## Kinds of tokens -/

theorem is_of_kind (kind : t.kind = k) (k' : TokenKind) : t.is k' = (k == k') := by
  rw [Token.is, kind]

theorem is_eq_false_of_plain (plain : t.kind ∉ structural) (among : k ∈ structural) :
    t.is k = false := by
  rw [Token.is, beq_eq_false_iff_ne]
  rintro rfl
  exact plain among

/-- A token that neither opens or closes a scope nor ends a statement. -/
def Flat (t : Token) : Prop := scopeStep t = 0 ∧ isTerminator t = false

theorem flat_of_plain (plain : t.kind ∉ structural) : Flat t := by
  constructor
  · unfold scopeStep
    rw [if_neg, if_neg]
    · rintro kind
      exact plain (kind ▸ by decide)
    · rintro kind
      exact plain (kind ▸ by decide)
  · unfold isTerminator
    rw [is_eq_false_of_plain plain (by decide), is_eq_false_of_plain plain (by decide),
      is_eq_false_of_plain plain (by decide)]
    rfl

theorem Mark.flat (t : Mark k) (plain : k ∉ structural) : Flat t.token := by
  apply flat_of_plain
  rwa [t.kind]

theorem Gap.isSpace (gap : Gap) : ∀ t ∈ gap.tokens, isSpace t = true := by
  intro t member
  unfold Clause.isSpace
  rcases gap.spaces t member with lineBreak | ⟨blank, -⟩
  · rw [lineBreak, Bool.or_true]
  · rw [blank, Bool.true_or]

theorem Gap.kind (gap : Gap) (member : t ∈ gap.tokens) : t.kind = .newline ∨ t.kind = .whitespace := by
  rcases gap.spaces t member with lineBreak | ⟨blank, -⟩
  · exact Or.inl (eq_of_beq lineBreak)
  · exact Or.inr (eq_of_beq blank)

theorem Gap.flat (gap : Gap) : ∀ t ∈ gap.tokens, Flat t := by
  intro t member
  rcases gap.kind member with kind | kind <;> simp [Flat, scopeStep, isTerminator, Token.is, kind]

/-! ## Cutting -/

theorem cutFrom_push (goesOn : ¬(isTerminator t = true ∧ depth + scopeStep t = 0)) :
    cutFrom depth current (t :: ts) = cutFrom (depth + scopeStep t) (t :: current) ts :=
  if_neg goesOn

theorem cutFrom_stop (terminator : isTerminator t = true) (outside : depth + scopeStep t = 0) :
    cutFrom depth current (t :: ts) = (t :: current).reverse :: cutFrom 0 [] ts := by
  have ended : isTerminator t = true ∧ depth + scopeStep t = 0 := ⟨terminator, outside⟩
  rw [cutFrom, if_pos ended, outside]

theorem cutFrom_flat {rest : List Token} (flat : ∀ t ∈ ts, Flat t) :
    cutFrom depth current (ts ++ rest) = cutFrom depth (ts.reverse ++ current) rest := by
  induction ts generalizing current with
  | nil => rfl
  | cons t ts ih =>
    obtain ⟨level, unended⟩ := flat t mem_cons_self
    have goesOn : ¬(isTerminator t = true ∧ depth + scopeStep t = 0) := by
      rw [unended]
      exact fun both => Bool.false_ne_true both.1
    rw [cons_append, cutFrom_push goesOn, level, Int.add_zero,
      ih (forall_mem_cons.mp flat).2, reverse_cons,
      append_assoc, singleton_append]

def Statement.stop : Statement → Token
  | .leaf _ mark => mark.token
  | .scope _ _ _ _ right => right.token

def Statement.front : Statement → List Token
  | .leaf phrase _ => phrase.tokens
  | .scope keyword header left inside _ =>
    keyword.token :: (header.tokens ++ left.token :: inside.tokens)

theorem Statement.tokens_eq (s : Statement) : s.tokens = s.front ++ [s.stop] := by
  cases s with
  | leaf phrase mark => rw [tokens, front, stop]
  | scope keyword header left inside right =>
    rw [tokens, front, stop, cons_append, append_assoc, cons_append]

theorem Statement.isTerminator_stop (s : Statement) : isTerminator s.stop = true := by
  cases s with
  | leaf phrase mark => simp [stop, isTerminator, is_of_kind mark.kind]
  | scope keyword header left inside right =>
    simp [stop, isTerminator, is_of_kind right.kind]

mutual

theorem Statement.cutFrom_front (s : Statement) {depth : Int} {current rest : List Token}
    (least : 0 ≤ depth) :
    cutFrom depth current (s.front ++ rest) =
      cutFrom (depth - scopeStep s.stop) (s.front.reverse ++ current) rest := by
  cases s with
  | leaf phrase mark =>
    have level : scopeStep mark.token = 0 := by simp [scopeStep, mark.kind]
    rw [Statement.front, Statement.stop, level, Int.sub_zero,
      cutFrom_flat fun t member => flat_of_plain (phrase.plain t member)]
  | scope keyword header left inside right =>
    have up : scopeStep left.token = 1 := by simp [scopeStep, left.kind]
    have down : scopeStep right.token = -1 := by simp [scopeStep, right.kind]
    have flatFront : ∀ t ∈ keyword.token :: header.tokens, Flat t := by
      intro t member
      rcases mem_cons.mp member with rfl | among
      · exact keyword.flat (by decide)
      · exact flat_of_plain (header.plain t among)
    have goesOn : ¬(isTerminator left.token = true ∧ depth + scopeStep left.token = 0) := by
      omega
    calc cutFrom depth current ((Statement.scope keyword header left inside right).front ++ rest)
        = cutFrom depth current
            ((keyword.token :: header.tokens) ++ (left.token :: (inside.tokens ++ rest))) := by
          simp [Statement.front]
      _ = cutFrom (depth + 1)
            (inside.tokens.reverse ++
              (left.token :: ((keyword.token :: header.tokens).reverse ++ current))) rest := by
          rw [cutFrom_flat flatFront, cutFrom_push goesOn, up,
            Forest.cutFrom_inside inside (by omega)]
      _ = _ := by
          simp [Statement.front, Statement.stop, down]

theorem Forest.cutFrom_inside (f : Forest) {depth : Int} {current rest : List Token}
    (inside : 0 < depth) :
    cutFrom depth current (f.tokens ++ rest) =
      cutFrom depth (f.tokens.reverse ++ current) rest := by
  cases f with
  | last gap => rw [Forest.tokens, cutFrom_flat gap.flat]
  | before gap first more =>
    have goesOn : ¬(isTerminator first.stop = true ∧
        depth - scopeStep first.stop + scopeStep first.stop = 0) := by omega
    calc cutFrom depth current ((Forest.before gap first more).tokens ++ rest)
        = cutFrom depth current
            (gap.tokens ++ (first.front ++ (first.stop :: (more.tokens ++ rest)))) := by
          simp [Forest.tokens, Statement.tokens_eq]
      _ = cutFrom depth (more.tokens.reverse ++
            (first.stop :: (first.front.reverse ++ (gap.tokens.reverse ++ current)))) rest := by
          rw [cutFrom_flat gap.flat, Statement.cutFrom_front first (by omega), cutFrom_push goesOn,
            Int.sub_add_cancel, Forest.cutFrom_inside more inside]
      _ = _ := by
          simp [Forest.tokens, Statement.tokens_eq]

end

theorem dropWhile_isSpace (starts : ∀ t ∈ ts.head?, isSpace t = false) : ts.dropWhile isSpace = ts := by
  cases ts with
  | nil => rfl
  | cons t ts => rw [dropWhile_cons, starts t rfl, if_neg Bool.false_ne_true]

theorem trimSpace_append {gap : List Token} (spaces : ∀ t ∈ gap, isSpace t = true)
    (starts : ∀ t ∈ ts.head?, isSpace t = false) (ends : ∀ t ∈ ts.getLast?, isSpace t = false) :
    trimSpace (gap ++ ts) = ts := by
  unfold trimSpace
  rw [dropWhile_append_of_pos spaces, dropWhile_isSpace starts, dropWhile_isSpace,
    reverse_reverse]
  rwa [head?_reverse]

theorem Phrase.exists_cons (phrase : Phrase) :
    ∃ first more, phrase.tokens = first :: more ∧ first.isBlank = false ∧
      first.kind ∉ structural := by
  cases shape : phrase.tokens with
  | nil => exact absurd shape phrase.nonempty
  | cons first more =>
    refine ⟨first, more, rfl, phrase.starts first ?_, phrase.plain first ?_⟩
    · rw [shape]
      rfl
    · rw [shape]
      exact mem_cons_self

theorem Statement.exists_cons (s : Statement) :
    ∃ first more, s.tokens = first :: more ∧ first.isBlank = false ∧
      first.is .newline = false := by
  cases s with
  | leaf phrase mark =>
    obtain ⟨first, more, shape, solid, plain⟩ := phrase.exists_cons
    refine ⟨first, more ++ [mark.token], ?_, solid, is_eq_false_of_plain plain (by decide)⟩
    rw [tokens, shape, cons_append]
  | scope keyword header left inside right =>
    refine ⟨keyword.token, _, by rw [tokens], ?_, ?_⟩
    · exact is_of_kind keyword.kind .whitespace
    · exact is_of_kind keyword.kind .newline

theorem Statement.isSpace_stop (s : Statement) : Clause.isSpace s.stop = false := by
  cases s with
  | leaf phrase mark => simp [stop, Clause.isSpace, Token.isBlank, Token.is, mark.kind]
  | scope keyword header left inside right =>
    simp [stop, Clause.isSpace, Token.isBlank, Token.is, right.kind]

theorem Statement.trimSpace_tokens (s : Statement) (gap : Gap) :
    trimSpace (gap.tokens ++ s.tokens) = s.tokens := by
  apply trimSpace_append gap.isSpace
  · obtain ⟨first, more, shape, solid, unbroken⟩ := s.exists_cons
    intro t head
    rw [shape, head?_cons, Option.mem_some_iff] at head
    rw [← head, Clause.isSpace, solid, unbroken]
    rfl
  · intro t last
    rw [s.tokens_eq, getLast?_concat, Option.mem_some_iff] at last
    rw [← last, s.isSpace_stop]

theorem Gap.statements_tokens (gap : Gap) : statements gap.tokens = [] := by
  have whole : cutFrom 0 [] (gap.tokens ++ []) = cutFrom 0 (gap.tokens.reverse ++ []) [] :=
    cutFrom_flat gap.flat
  rw [append_nil, append_nil, cutFrom, reverse_reverse] at whole
  have blank : trimSpace (gap.tokens ++ []) = [] :=
    trimSpace_append gap.isSpace (fun t head => by cases head) (fun t last => by cases last)
  rw [append_nil] at blank
  rw [statements, whole, map_singleton, blank]
  rfl

theorem Statement.statements_tokens (s : Statement) (gap : Gap) (rest : List Token) :
    statements (gap.tokens ++ (s.tokens ++ rest)) = s.tokens :: statements rest := by
  have cut : cutFrom 0 [] (gap.tokens ++ (s.tokens ++ rest)) =
      (gap.tokens ++ s.tokens) :: cutFrom 0 [] rest := by
    rw [s.tokens_eq, append_assoc, singleton_append, cutFrom_flat gap.flat,
      s.cutFrom_front (Int.le_refl 0), cutFrom_stop s.isTerminator_stop (Int.sub_add_cancel _ _)]
    simp
  have some : (!s.tokens.isEmpty) = true := by
    obtain ⟨first, more, shape, -⟩ := s.exists_cons
    rw [shape]
    rfl
  rw [statements, cut, map_cons, s.trimSpace_tokens gap, filter_cons,
    if_pos some]
  rfl

theorem Forest.statements_tokens :
    ∀ f : Forest, Clause.statements f.tokens = f.statements.map Statement.tokens
  | .last gap => by rw [tokens, gap.statements_tokens, statements, map_nil]
  | .before gap first rest => by
    rw [tokens, first.statements_tokens gap, rest.statements_tokens, statements, map_cons]

/-! ## Indentation -/

/-- Checking the indentation passes over these tokens, whatever comes before and after them. -/
def Indented (src : Source) (ts : List Token) : Prop :=
  ∀ atStart rest, ∃ atStart', checkIndent src atStart (ts ++ rest) = checkIndent src atStart' rest

section Indentation

theorem Indented.append {ts' : List Token} (left : Indented src ts) (right : Indented src ts') :
    Indented src (ts ++ ts') := by
  intro atStart rest
  obtain ⟨between, passesLeft⟩ := left atStart (ts' ++ rest)
  obtain ⟨after, passesRight⟩ := right between rest
  exact ⟨after, by rw [append_assoc, passesLeft, passesRight]⟩

theorem Gap.indented (gap : Gap) : Indented src gap.tokens := by
  obtain ⟨ts, spaces⟩ := gap
  induction ts with
  | nil => exact fun atStart rest => ⟨atStart, rfl⟩
  | cons t ts ih =>
    have later := ih (forall_mem_cons.mp spaces).2
    rintro (_ | _) rest
    · exact later _ _
    · have fine : (t.isBlank && indentWidth t % 3 != 0) = false := by
        rcases spaces t mem_cons_self with lineBreak | ⟨-, width⟩
        · have kind : t.kind = .newline := eq_of_beq lineBreak
          simp [Token.isBlank, kind]
        · simp [width]
      rw [cons_append, checkIndent, fine]
      exact later _ _

theorem checkIndent_unbroken {rest : List Token} (unbroken : ∀ t ∈ ts, t.is .newline = false) :
    checkIndent src false (ts ++ rest) = checkIndent src false rest := by
  induction ts with
  | nil => rfl
  | cons t ts ih =>
    rw [cons_append, checkIndent, unbroken t mem_cons_self]
    exact ih (forall_mem_cons.mp unbroken).2

theorem indented_cons (solid : t.isBlank = false)
    (unbroken : ∀ t' ∈ t :: ts, t'.is .newline = false) : Indented src (t :: ts) := by
  intro atStart rest
  refine ⟨false, ?_⟩
  have later : ∀ t' ∈ ts, t'.is .newline = false :=
    (forall_mem_cons.mp unbroken).2
  cases atStart with
  | false =>
    rw [cons_append, checkIndent, if_neg Bool.false_ne_true, unbroken t mem_cons_self,
      checkIndent_unbroken later]
  | true =>
    rw [cons_append, checkIndent, if_pos rfl, solid, Bool.false_and,
      if_neg Bool.false_ne_true, checkIndent_unbroken later]

theorem Header.unbroken (header : Header) : ∀ t ∈ header.tokens, t.is .newline = false :=
  fun t member => is_eq_false_of_plain (header.plain t member) (by decide)

mutual

theorem Statement.indented (s : Statement) : Indented src s.tokens := by
  cases s with
  | leaf phrase mark =>
    obtain ⟨first, more, shape, solid, -⟩ := phrase.exists_cons
    have unbroken : ∀ t ∈ first :: (more ++ [mark.token]), t.is .newline = false := by
      rw [← cons_append, ← shape, forall_mem_append, forall_mem_singleton]
      exact ⟨phrase.unbroken, is_of_kind mark.kind .newline⟩
    rw [Statement.tokens, shape]
    exact indented_cons solid unbroken
  | scope keyword header left inside right =>
    have unbroken : ∀ t ∈ keyword.token :: (header.tokens ++ [left.token]),
        t.is .newline = false := by
      rw [forall_mem_cons, forall_mem_append, forall_mem_singleton]
      exact ⟨is_of_kind keyword.kind .newline, header.unbroken,
        is_of_kind left.kind .newline⟩
    have brace : ∀ t ∈ [right.token], t.is .newline = false := by
      rw [forall_mem_singleton]
      exact is_of_kind right.kind .newline
    have parts : (Statement.scope keyword header left inside right).tokens =
        (keyword.token :: (header.tokens ++ [left.token])) ++ (inside.tokens ++ [right.token]) := by
      simp [Statement.tokens]
    rw [parts]
    exact (indented_cons (is_of_kind keyword.kind .whitespace) unbroken).append
      ((Forest.indented inside).append
        (indented_cons (is_of_kind right.kind .whitespace) brace))

theorem Forest.indented (f : Forest) : Indented src f.tokens := by
  cases f with
  | last gap =>
    exact gap.indented
  | before gap first rest =>
    exact gap.indented.append ((Statement.indented first).append (Forest.indented rest))

end

theorem Forest.checkIndent_tokens (f : Forest) : checkIndent src false f.tokens = .ok () := by
  have whole : Indented src f.tokens := f.indented
  obtain ⟨atStart, passes⟩ := whole false []
  rw [append_nil] at passes
  rw [passes, checkIndent]

end Indentation

/-! ## Type hints and functions -/

/-- A token that starts neither a type hint nor the body of a function. -/
def Ordinary (t : Token) : Prop := t.is .colon = false ∧ t.is .funcPoint = false

theorem ordinary_of_plain (plain : t.kind ∉ structural) : Ordinary t :=
  ⟨is_eq_false_of_plain plain (by decide), is_eq_false_of_plain plain (by decide)⟩

theorem Mark.ordinary (t : Mark k) (noHint : k ≠ .colon) (noBody : k ≠ .funcPoint) :
    Ordinary t.token := by
  unfold Ordinary
  rw [is_of_kind t.kind, is_of_kind t.kind, beq_eq_false_iff_ne, beq_eq_false_iff_ne]
  exact ⟨noHint, noBody⟩

theorem Gap.ordinary (gap : Gap) : ∀ t ∈ gap.tokens, Ordinary t := by
  intro t member
  rcases gap.kind member with kind | kind
  all_goals exact ⟨is_of_kind kind .colon, is_of_kind kind .funcPoint⟩

mutual

theorem Statement.ordinary (s : Statement) : ∀ t ∈ s.tokens, Ordinary t := by
  cases s with
  | leaf phrase mark =>
    rw [Statement.tokens, forall_mem_append, forall_mem_singleton]
    exact ⟨fun t member => ordinary_of_plain (phrase.plain t member),
      mark.ordinary (by decide) (by decide)⟩
  | scope keyword header left inside right =>
    rw [Statement.tokens, forall_mem_cons, forall_mem_append, forall_mem_cons,
      forall_mem_append, forall_mem_singleton]
    exact ⟨keyword.ordinary (by decide) (by decide),
      fun t member => ordinary_of_plain (header.plain t member),
      left.ordinary (by decide) (by decide), Forest.ordinary inside,
      right.ordinary (by decide) (by decide)⟩

theorem Forest.ordinary (f : Forest) : ∀ t ∈ f.tokens, Ordinary t := by
  cases f with
  | last gap =>
    exact gap.ordinary
  | before gap first rest =>
    rw [Forest.tokens, forall_mem_append, forall_mem_append]
    exact ⟨gap.ordinary, Statement.ordinary first, Forest.ordinary rest⟩

end

section Forms

variable {tokens rest : List Token} {keyword : Token} {form : Form (List Token) (List Clause)}
  {forms : List (Form (List Token) (List Clause))}

def colonsInside (scopes : Int) : List Token → Bool
  | [] => true
  | t :: ts => !(t.is .colon && scopes + scopeStep t == 0) && colonsInside (scopes + scopeStep t) ts

theorem colonsInside_cons :
    colonsInside scopes (t :: ts) = true ↔
      (t.is .colon && scopes + scopeStep t == 0) = false ∧
        colonsInside (scopes + scopeStep t) ts = true := by
  rw [colonsInside, Bool.and_eq_true, Bool.not_eq_true']

theorem dropHints_eq {state : HintState} (colons : colonsInside state.scopes ts = true)
    (keeping : state.keeping = true) (outside : state.skipping = none) :
    dropHints src state ts = .ok ts := by
  induction ts generalizing state with
  | nil => rw [dropHints, outside]
  | cons t ts ih =>
    obtain ⟨noHint, later⟩ := colonsInside_cons.mp colons
    rw [dropHints, outside, Option.isSome_none, if_neg Bool.false_ne_true]
    dsimp only
    rw [noHint, if_neg Bool.false_ne_true, if_pos keeping]
    have rest : dropHints src ⟨state.keeping, state.scopes + scopeStep t,
        state.squares + Expr.depthStep t, state.hintSquares, none⟩ ts = .ok ts :=
      ih later keeping rfl
    rw [rest]
    rfl

theorem colonsInside_of_ordinary (ordinary : ∀ t ∈ ts, Ordinary t) : colonsInside scopes ts = true := by
  induction ts generalizing scopes with
  | nil => rfl
  | cons t ts ih =>
    obtain ⟨⟨noColon, -⟩, later⟩ := forall_mem_cons.mp ordinary
    exact colonsInside_cons.mpr ⟨by rw [noColon]; rfl, ih later⟩

theorem filter_cons_solid (solid : t.isBlank = false) :
    (t :: ts).filter (!·.isBlank) = t :: ts.filter (!·.isBlank) := by
  rw [filter_cons, solid]
  rfl

def Codeless (forms : List (Form (List Token) (List Clause))) : Prop :=
  ∀ form ∈ forms, form.code? = none

/-- What a statement without a scope can be. -/
inductive PlainForm (tokens : List Token) (head : Token) (rest : List Token) (debug confidence : Nat) :
    Form (List Token) (List Clause) → Prop
  | expression : PlainForm tokens head rest debug confidence (.expression tokens.dropLast debug)
  | returns : PlainForm tokens head rest debug confidence (.returns (some head) tokens.tail.dropLast debug)
  | delete {name : Token} : name ∈ rest → PlainForm tokens head rest debug confidence (.delete head name debug)
  | imports : PlainForm tokens head rest debug confidence
      (.imports head (rest.dropLast.filter (·.is .name)) debug)
  | exports {names : List Token} {toward target : Token} : rest.dropLast.reverse = target :: toward :: names →
      PlainForm tokens head rest debug confidence
        (.exports head (names.reverse.filter (·.is .name)) toward target debug)
  | declaration {name : Token} {modifiers : List Token} {lifetime : Option String} :
      (declarationHead [] (head :: rest)).1.reverse = name :: modifiers →
      PlainForm tokens head rest debug confidence (.declaration name modifiers.reverse lifetime
        (tokens.dropWhile (!isAssignSign ·)).tail.dropLast debug confidence)
  | assignment : PlainForm tokens head rest debug confidence
      (.assignment head (tokens.dropWhile (!isAssignSign ·)).tail.dropLast debug
        (assignmentIndexes 0 false [] tokens) confidence)

section Plain

variable {head : Token} {debug confidence : Nat}

theorem mem_declarationForms (member : form ∈ declarationForms tokens solid debug confidence) :
    ∃ name modifiers lifetime, (declarationHead [] solid).1.reverse = name :: modifiers ∧
      form = .declaration name modifiers.reverse lifetime
        (tokens.dropWhile (!isAssignSign ·)).tail.dropLast debug confidence := by
  unfold declarationForms at member
  dsimp only at member
  split at member
  · rename_i name modifiers names
    obtain ⟨-, only⟩ := mem_ite_nil_right.mp member
    exact ⟨name, modifiers, _, names, mem_singleton.mp only⟩
  · cases member

theorem plainForm_of_mem (read : plainForms tokens (head :: rest) debug confidence = .ok forms)
    (member : form ∈ forms) : PlainForm tokens head rest debug confidence form := by
  cases read
  simp only [mem_cons, mem_append, mem_ite_nil_right, not_mem_nil, or_false] at member
  rcases member with rfl | (((((⟨-, rfl⟩ | deletes) | ⟨-, rfl⟩) | exports) | ⟨-, declares⟩) | ⟨-, rfl⟩)
  · exact .expression
  · exact .returns
  · split at deletes
    · obtain ⟨-, only⟩ := mem_ite_nil_right.mp deletes
      rw [mem_singleton.mp only]
      exact .delete mem_cons_self
    · cases deletes
  · exact .imports
  · split at exports
    · rename_i names
      obtain ⟨-, only⟩ := mem_ite_nil_right.mp exports
      rw [mem_singleton.mp only]
      exact .exports names
    · cases exports
  · obtain ⟨name, modifiers, lifetime, names, rfl⟩ := mem_declarationForms declares
    exact .declaration names
  · exact .assignment

theorem codeless_plainForms (read : plainForms tokens solid debug confidence = .ok forms) :
    Codeless forms := by
  intro form member
  cases solid with
  | nil => cases read
  | cons head rest => cases plainForm_of_mem read member <;> rfl

end Plain

theorem any_append_mark (absent : ∀ t' ∈ ts, t'.is k = false)
    (other : t.is k = false) : (ts ++ [t]).any (·.is k) = false := by
  rw [any_eq_false]
  intro t' member
  rcases mem_append.mp member with among | last
  · rw [absent t' among]
    exact Bool.false_ne_true
  · rw [mem_singleton.mp last, other]
    exact Bool.false_ne_true

theorem formsOf_leaf (phrase : Phrase) (mark : Mark .bang) :
    ∃ forms, formsOf src inner (phrase.tokens ++ [mark.token]) = .ok forms ∧
      .expression phrase.tokens 0 ∈ forms ∧ Codeless forms := by
  have absent : ∀ k ∈ structural, ∀ t ∈ phrase.tokens, t.is k = false :=
    fun k among t member => is_eq_false_of_plain (phrase.plain t member) among
  have noScope : (phrase.tokens ++ [mark.token]).any (·.is .lCurly) = false :=
    any_append_mark (absent _ (by decide)) (is_of_kind mark.kind .lCurly)
  have noBody : (phrase.tokens ++ [mark.token]).any (·.is .funcPoint) = false :=
    any_append_mark (absent _ (by decide)) (is_of_kind mark.kind .funcPoint)
  have noQuestion : mark.token.is .question = false := is_of_kind mark.kind .question
  have solidMark : mark.token.isBlank = false := is_of_kind mark.kind .whitespace
  obtain ⟨first, more, shape, solid, -⟩ := phrase.exists_cons
  have solids : (phrase.tokens ++ [mark.token]).filter (!·.isBlank) =
      first :: (more.filter (!·.isBlank) ++ [mark.token]) := by
    rw [shape, cons_append, filter_cons_solid solid, filter_append,
      filter_cons_solid solidMark, filter_nil]
  unfold formsOf
  rw [noScope, solids]
  unfold unscopedForms
  rw [getLast?_concat]
  dsimp only
  rw [noQuestion, noBody]
  cases more.filter (!·.isBlank) with
  | nil =>
    refine ⟨_, rfl, ?_, by simp [Codeless, Form.code?]⟩
    rw [dropLast_concat]
    exact mem_cons_of_mem _ mem_cons_self
  | cons second others =>
    obtain ⟨third, last, three⟩ : ∃ third last, others ++ [mark.token] = third :: last :=
      exists_cons_of_ne_nil (by simp)
    obtain ⟨forms, reads, whole⟩ : ∃ forms, plainForms (phrase.tokens ++ [mark.token])
        (first :: second :: third :: last) 0 mark.token.width = .ok forms ∧
        .expression (phrase.tokens ++ [mark.token]).dropLast 0 ∈ forms := ⟨_, rfl, mem_cons_self⟩
    rw [dropLast_concat] at whole
    rw [cons_append, three]
    exact ⟨forms, reads, whole, codeless_plainForms reads⟩

def scopeForms (keyword : Token) (header : List Token) (code : List Clause) (name? : Option Token) :
    List (Form (List Token) (List Clause)) :=
  (name?.map (.classDeclaration keyword · code)).toList ++
    [.conditional keyword header code, .after keyword header code, .when keyword header code]

theorem mem_scopeForms {header : List Token} {name? : Option Token} :
    form ∈ scopeForms keyword header code name? ↔
      (∃ name ∈ name?, form = .classDeclaration keyword name code) ∨
        form = .conditional keyword header code ∨ form = .after keyword header code ∨
          form = .when keyword header code := by
  cases name? <;> simp [scopeForms]

theorem scopedForms_eq {openAt : Nat} (head : tokens.head? = some keyword)
    (solid : keyword.isBlank = false)
    (noBody : ((keyword :: rest).take openAt).any (·.is .funcPoint) = false) :
    ∃ name?, scopedForms src tokens (keyword :: rest) openAt code =
      .ok (scopeForms keyword (Expr.slice tokens 1 openAt) code name?) := by
  unfold scopedForms
  rw [noBody, if_neg Bool.false_ne_true]
  dsimp only
  rw [head, Option.any_some, solid]
  split
  · split
    · rename_i name _ _ _
      exact ⟨some name, rfl⟩
    · exact ⟨none, rfl⟩
  · exact ⟨none, rfl⟩

theorem takeWhile_before_scope {front back : List Token} {left : Mark .lCurly}
    (absent : ∀ t ∈ front, t.is .lCurly = false) :
    (front ++ (left.token :: back)).takeWhile (!·.is .lCurly) = front := by
  have opens : left.token.is .lCurly = true := is_of_kind left.kind .lCurly
  rw [takeWhile_append_of_pos fun t member => by rw [absent t member]; rfl,
    takeWhile_cons, opens]
  exact append_nil front

theorem formsOf_eq_scopedForms (right : Mark .rCurly)
    (hasScope : tokens.any (·.is .lCurly) = true) (last : tokens.getLast? = some right.token)
    (solid : tokens.filter (!·.isBlank) = keyword :: rest) (isName : keyword.is .name = true)
    (reads : inner (Expr.slice tokens ((tokens.takeWhile (!·.is .lCurly)).length + 1)
      (tokens.length - 1)) = .ok code) :
    formsOf src inner tokens =
      scopedForms src tokens (keyword :: rest) (tokens.takeWhile (!·.is .lCurly)).length code := by
  have closes : right.token.is .rCurly = true := is_of_kind right.kind .rCurly
  have noBang : right.token.is .bang = false := is_of_kind right.kind .bang
  have noQuestion : right.token.is .question = false := is_of_kind right.kind .question
  have atEnd : tokens[tokens.length - 1]? = some right.token := by
    rw [← getLast?_eq_getElem?, last]
  unfold formsOf
  rw [hasScope, if_pos rfl, last, solid, head?_cons]
  dsimp only
  rw [noBang, noQuestion, Bool.or_self, if_neg Bool.false_ne_true, Nat.sub_zero, Nat.sub_zero,
    atEnd, Option.any_some, closes, isName, reads]
  rfl

section Scope

variable (keyword : Mark .name) (header : Header) (left : Mark .lCurly) (inside : Forest)
  (right : Mark .rCurly)

theorem takeWhile_scope :
    (Statement.scope keyword header left inside right).tokens.takeWhile (!·.is .lCurly) =
      keyword.token :: header.tokens := by
  have front : ∀ t ∈ keyword.token :: header.tokens, t.is .lCurly = false := by
    rw [forall_mem_cons]
    exact ⟨is_of_kind keyword.kind .lCurly,
      fun t member => is_eq_false_of_plain (header.plain t member) (by decide)⟩
  exact takeWhile_before_scope front

theorem slice_inside :
    Expr.slice (Statement.scope keyword header left inside right).tokens
        ((keyword.token :: header.tokens).length + 1)
        ((Statement.scope keyword header left inside right).tokens.length - 1) = inside.tokens := by
  have whole : (Statement.scope keyword header left inside right).tokens =
      (keyword.token :: header.tokens) ++ (left.token :: (inside.tokens ++ [right.token])) := by
    rw [Statement.tokens, cons_append]
  apply Expr.slice_middle whole
  simp only [Statement.tokens, length_cons, length_append, length_nil]
  omega

theorem slice_header :
    Expr.slice (Statement.scope keyword header left inside right).tokens 1
      (keyword.token :: header.tokens).length = header.tokens := by
  have whole : (Statement.scope keyword header left inside right).tokens =
      [] ++ (keyword.token :: (header.tokens ++
        (left.token :: (inside.tokens ++ [right.token])))) := by
    rw [Statement.tokens, nil_append]
  apply Expr.slice_middle whole
  rw [length_cons, length_nil, Nat.add_comm]

theorem formsOf_scope (reads : inner inside.tokens = .ok code) :
    ∃ name?, formsOf src inner (Statement.scope keyword header left inside right).tokens =
      .ok (scopeForms keyword.token header.tokens code name?) := by
  have ordinary := (Statement.scope keyword header left inside right).ordinary
  have solidKeyword : keyword.token.isBlank = false := is_of_kind keyword.kind .whitespace
  have opens : left.token.is .lCurly = true := is_of_kind left.kind .lCurly
  have openAt := takeWhile_scope keyword header left inside right
  have within := slice_inside keyword header left inside right
  have guard := slice_header keyword header left inside right
  have last := (Statement.scope keyword header left inside right).tokens_eq
  have shape : (Statement.scope keyword header left inside right).tokens = keyword.token ::
      (header.tokens ++ left.token :: (inside.tokens ++ [right.token])) := by rw [Statement.tokens]
  generalize (Statement.scope keyword header left inside right).tokens = tokens at *
  have solid : tokens.filter (!·.isBlank) = keyword.token ::
      (header.tokens ++ left.token :: (inside.tokens ++ [right.token])).filter (!·.isBlank) := by
    rw [shape, filter_cons_solid solidKeyword]
  have head : tokens.head? = some keyword.token := by rw [shape, head?_cons]
  have noBody : ((tokens.filter (!·.isBlank)).take (keyword.token :: header.tokens).length).any
      (·.is .funcPoint) = false := by
    rw [any_eq_false]
    intro t member
    rw [(ordinary t (mem_of_mem_filter (mem_of_mem_take member))).2]
    exact Bool.false_ne_true
  rw [solid] at noBody
  rw [formsOf_eq_scopedForms right ?hasScope ?last solid (is_of_kind keyword.kind .name) ?reads,
    openAt]
  case hasScope =>
    rw [shape]
    simp [opens]
  case last => rw [last, getLast?_concat, Statement.stop]
  case reads =>
    rwa [openAt, within]
  obtain ⟨name?, forms⟩ := scopedForms_eq head solidKeyword noBody
  rw [guard] at forms
  exact ⟨name?, forms⟩

end Scope

end Forms

/-! ## Reading a forest -/

section Reading

def Reads (src : Source) : Statement → Clause → Prop
  | .leaf phrase _, clause =>
    .expression phrase.tokens 0 ∈ clause.forms ∧ ∀ form ∈ clause.forms, form.code? = none
  | .scope keyword header _ inside _, clause =>
    ∃ code, ofTokens src inside.tokens = .ok code ∧
      (∀ form ∈ clause.forms, form.code? = some code) ∧
      (∀ form ∈ clause.forms, ∀ guard ∈ form.guard?, guard = (keyword.token, header.tokens)) ∧
      .conditional keyword.token header.tokens code ∈ clause.forms ∧
      .after keyword.token header.tokens code ∈ clause.forms ∧
      .when keyword.token header.tokens code ∈ clause.forms

theorem reads_scopeForms {keyword : Mark .name} {header : Header} {left : Mark .lCurly}
    {inside : Forest} {right : Mark .rCurly} {name? : Option Token}
    (reads : ofTokens src inside.tokens = .ok code) :
    Reads src (.scope keyword header left inside right)
      (.mk (scopeForms keyword.token header.tokens code name?)) := by
  refine ⟨code, reads, ?_, ?_, ?_, ?_, ?_⟩
  · intro form member
    rcases mem_scopeForms.mp member with ⟨name, -, rfl⟩ | rfl | rfl | rfl <;> rfl
  · intro form member guard guarded
    rcases mem_scopeForms.mp member with ⟨name, -, rfl⟩ | rfl | rfl | rfl <;> cases guarded <;> rfl
  · exact mem_scopeForms.mpr (Or.inr (Or.inl rfl))
  · exact mem_scopeForms.mpr (Or.inr (Or.inr (Or.inl rfl)))
  · exact mem_scopeForms.mpr (Or.inr (Or.inr (Or.inr rfl)))

theorem Forest.ofTokens_tokens {f : Forest} {clauses : List Clause}
    (each : List.Forall₂ (fun s clause => formsOf src (ofTokens src) s.tokens = .ok clause.forms)
      f.statements clauses) : ofTokens src f.tokens = .ok clauses := by
  have hintless : (Clause.statements f.tokens).mapM (dropHints src {}) =
      .ok (f.statements.map Statement.tokens) := by
    rw [f.statements_tokens]
    apply mapM_eq_ok_iff.mpr
    rw [List.forall₂_same, forall_mem_map]
    exact fun s _ => dropHints_eq (colonsInside_of_ordinary s.ordinary) rfl rfl
  have read : (f.statements.map Statement.tokens).mapM (fun ts =>
      (orUnreadable src (ts.filter (!·.isBlank)) (formsOf src (ofTokens src) ts)).map mk) =
        .ok clauses := by
    apply mapM_eq_ok_iff.mpr
    rw [List.forall₂_map_left_iff]
    refine each.imp ?_
    rintro s ⟨forms⟩ reads
    rw [reads]
    rfl
  rwa [ofTokens_eq, readWith, f.checkIndent_tokens, hintless]

mutual

theorem Statement.exists_reads (s : Statement) :
    ∃ clause : Clause, formsOf src (ofTokens src) s.tokens = .ok clause.forms ∧
      Reads src s clause := by
  cases s with
  | leaf phrase mark =>
    obtain ⟨forms, read, expression, codeless⟩ := formsOf_leaf phrase mark
    exact ⟨.mk forms, read, expression, codeless⟩
  | scope keyword header left inside right =>
    obtain ⟨code, each, -⟩ := Forest.exists_reads inside
    have reads : ofTokens src inside.tokens = .ok code := Forest.ofTokens_tokens each
    obtain ⟨name?, read⟩ := formsOf_scope keyword header left inside right reads
    exact ⟨.mk _, read, reads_scopeForms reads⟩

theorem Forest.exists_reads (f : Forest) :
    ∃ clauses : List Clause,
      List.Forall₂ (fun s clause => formsOf src (ofTokens src) s.tokens = .ok clause.forms)
        f.statements clauses ∧ List.Forall₂ (Reads src) f.statements clauses := by
  cases f with
  | last gap => exact ⟨[], .nil, .nil⟩
  | before gap first rest =>
    obtain ⟨clause, forms, reads⟩ := Statement.exists_reads first
    obtain ⟨clauses, formsRest, readsRest⟩ := Forest.exists_reads rest
    exact ⟨clause :: clauses, .cons forms formsRest, .cons reads readsRest⟩

end

/-- A forest is read without a complaint, as one clause for each of its statements, in order. -/
theorem ofTokens_forest (src : Source) (forest : Forest) :
    ∃ clauses, ofTokens src forest.tokens = .ok clauses ∧
      List.Forall₂ (Reads src) forest.statements clauses := by
  obtain ⟨clauses, each, reads⟩ := forest.exists_reads
  exact ⟨clauses, Forest.ofTokens_tokens each, reads⟩

end Reading

end Clause

end DreamBerd
