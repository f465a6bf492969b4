import DreamBerd.Proofs.LoneStatements

/-!
# Assignments to elements

An `IndexedAssignment` is a statement such as `a[i][j] = 1!`. Two searches take it apart: one collects the
tokens inside brackets, up to the equals sign that stands outside them, and one looks for the first equals
sign. The first keeps the tokens of each index but for the brackets inside it (`assignmentIndexes_tokens`),
and the second does not look at brackets, so it stops at an equals sign inside an index
(`value_kept_iff`). `ofTokens_indexedAssignment` says what becomes of the whole statement.
-/

namespace DreamBerd

open List Token

def Form.isBinding {ε κ : Type} : Form ε κ → Bool
  | declaration .. => true
  | assignment .. => true
  | _ => false

namespace Clause

/-- The kinds that end a statement, drop a part of it or make another one of it. -/
def marking : List TokenKind := [.lCurly, .rCurly, .bang, .question, .colon, .funcPoint]

/-- Brackets with an index between them, and the blanks before them. -/
structure Subscript where
  gap : List Token
  left : Mark .lSquare
  index : List Token
  right : Mark .rSquare
  blank : Blank gap
  some : index ≠ []
  plain : ∀ t ∈ index, t.kind ∉ marking
  balanced : balancedFrom Expr.depthStep 0 index = true

/-- A name with subscripts, an equals sign, a value and an exclamation mark. -/
structure IndexedAssignment where
  name : Mark .name
  subscripts : List Subscript
  gap : List Token
  sign : Token
  value : List Token
  stop : Mark .bang
  blank : Blank gap
  isSign : isAssignSign sign = true
  some : value ≠ []
  plain : ∀ t ∈ value, t.kind ∉ marking

def Subscript.tokens (s : Subscript) : List Token :=
  s.gap ++ s.left.token :: (s.index ++ [s.right.token])

namespace IndexedAssignment

variable (a : IndexedAssignment)

def target : List Token := a.name.token :: (a.subscripts.flatMap Subscript.tokens ++ a.gap)

def tokens : List Token := a.target ++ a.sign :: (a.value ++ [a.stop.token])

def indexes : List (List Token) := a.subscripts.map Subscript.index

end IndexedAssignment

/-! ## The search for the indexes -/

section Search

variable {depth : Int} {adding : Bool} {current ts rest : List Token}

theorem assignmentIndexes_skip (outside : ∀ t ∈ ts, t.isBracket = false ∧ t.is .equal = false) :
    assignmentIndexes 0 false [] (ts ++ rest) = assignmentIndexes 0 false [] rest := by
  induction ts with
  | nil => rfl
  | cons t ts ih =>
    obtain ⟨bracket, equal⟩ := outside t mem_cons_self
    obtain ⟨left, right⟩ := Bool.or_eq_false_iff.mp bracket
    rw [cons_append, assignmentIndexes, left, right, equal]
    exact ih (forall_mem_cons.mp outside).2

theorem Blank.unbracketed (blank : Blank ts) : ∀ t ∈ ts, t.isBracket = false ∧ t.is .equal = false := by
  intro t member
  have kind : t.kind = .whitespace := eq_of_beq (blank t member)
  simp [isBracket, is, kind]

theorem assignmentIndexes_inside (balanced : balancedFrom Expr.depthStep depth ts = true) :
    assignmentIndexes (1 + depth) true current (ts ++ rest) =
      assignmentIndexes 1 true ((ts.filter (!·.isBracket)).reverse ++ current) rest := by
  induction ts generalizing depth current with
  | nil =>
    have level : depth = 0 := eq_of_beq balanced
    rw [level]
    rfl
  | cons t ts ih =>
    obtain ⟨least, more⟩ := balancedFrom_cons.mp balanced
    rw [cons_append, assignmentIndexes]
    by_cases left : t.kind = .lSquare
    · have up : Expr.depthStep t = 1 := by rw [Expr.depthStep, if_pos left]
      have dropped : t.isBracket = true := isBracket_of_kind (.inl left)
      rw [up] at more
      rw [is_of_kind left, Bool.true_or, Int.add_assoc, ih more, filter_cons, dropped]
      rfl
    · by_cases right : t.kind = .rSquare
      · have down : Expr.depthStep t = -1 := by rw [Expr.depthStep, if_neg left, if_pos right]
        have dropped : t.isBracket = true := isBracket_of_kind (.inr right)
        have stays : ¬1 + depth - 1 = 0 := by omega
        rw [down] at more
        rw [is_of_kind right, is_of_kind right, if_neg (by decide), if_pos (by rfl), if_neg stays,
          Int.sub_eq_add_neg, Int.add_assoc, ih more, filter_cons, dropped]
        rfl
      · have level : Expr.depthStep t = 0 := by rw [Expr.depthStep, if_neg left, if_neg right]
        have noLeft : t.is .lSquare = false := beq_eq_false_iff_ne.mpr left
        have noRight : t.is .rSquare = false := beq_eq_false_iff_ne.mpr right
        have kept : t.isBracket = false := by rw [isBracket, noLeft, noRight]; rfl
        have deep : ¬(1 + depth = 0 ∧ t.is .equal = true) := by omega
        rw [level, Int.add_zero] at more
        rw [noLeft, noRight, if_neg Bool.false_ne_true, if_neg Bool.false_ne_true, if_neg deep,
          if_pos rfl, ih more, filter_cons, kept]
        simp

theorem assignmentIndexes_subscript (s : Subscript) :
    assignmentIndexes 0 false [] (s.tokens ++ rest) =
      s.index.filter (!·.isBracket) :: assignmentIndexes 0 false [] rest := by
  have inside : assignmentIndexes (1 + 0) true [] (s.index ++ s.right.token :: rest) =
      assignmentIndexes 1 true ((s.index.filter (!·.isBracket)).reverse ++ []) (s.right.token :: rest) :=
    assignmentIndexes_inside s.balanced
  rw [Int.add_zero, append_nil] at inside
  simp only [Subscript.tokens, append_assoc, cons_append, nil_append]
  rw [assignmentIndexes_skip s.blank.unbracketed, assignmentIndexes, is_of_kind s.left.kind, if_pos (by rfl),
    Int.zero_add]
  show assignmentIndexes 1 true [] _ = _
  rw [inside, assignmentIndexes, is_of_kind s.right.kind, is_of_kind s.right.kind, if_neg (by decide),
    if_pos (by rfl), if_pos (by decide), reverse_reverse]

theorem assignmentIndexes_subscripts (ss : List Subscript) :
    assignmentIndexes 0 false [] (ss.flatMap Subscript.tokens ++ rest) =
      ss.map (fun s => s.index.filter (!·.isBracket)) ++ assignmentIndexes 0 false [] rest := by
  induction ss with
  | nil => rfl
  | cons s ss ih =>
    rw [flatMap_cons, append_assoc, assignmentIndexes_subscript, ih]
    rfl

end Search

namespace IndexedAssignment

variable (a : IndexedAssignment)
variable {t : Token}

theorem kind_sign : a.sign.kind = .equal := eq_of_beq (Bool.and_eq_true_iff.mp a.isSign).1

theorem assignmentIndexes_tokens :
    assignmentIndexes 0 false [] a.tokens = a.indexes.map (List.filter (!·.isBracket)) := by
  have name : ∀ t ∈ [a.name.token], t.isBracket = false ∧ t.is .equal = false := by
    simp [isBracket, is_of_kind a.name.kind]
  have ends : assignmentIndexes 0 false [] (a.sign :: (a.value ++ [a.stop.token])) = [] := by
    simp [assignmentIndexes, is_of_kind a.kind_sign]
  rw [tokens, target, ← singleton_append, append_assoc, assignmentIndexes_skip name,
    append_assoc, assignmentIndexes_subscripts, assignmentIndexes_skip a.blank.unbracketed, ends,
    append_nil, indexes, map_map]
  rfl

theorem indexes_kept_iff : a.indexes.map (List.filter (!·.isBracket)) = a.indexes ↔
    ∀ i ∈ a.indexes, ∀ t ∈ i, t.isBracket = false := by
  conv_lhs => rhs; rw [← map_id a.indexes]
  rw [map_inj_left]
  refine forall₂_congr fun i _ => ?_
  rw [id, filter_eq_self]
  simp only [Bool.not_eq_true']

theorem isAssignSign_eq_false (other : t.kind ≠ .equal) : isAssignSign t = false := by
  rw [isAssignSign, is, beq_eq_false_iff_ne.mpr other, Bool.false_and]

theorem kind_target (member : t ∈ a.target) :
    t.kind ∈ [.name, .whitespace, .lSquare, .rSquare] ∨ ∃ i ∈ a.indexes, t ∈ i := by
  have blanks : ∀ {ts : List Token}, Blank ts → t ∈ ts →
      t.kind ∈ [.name, .whitespace, .lSquare, .rSquare] := by
    intro ts blank among
    rw [show t.kind = .whitespace from eq_of_beq (blank t among)]
    decide
  rcases mem_cons.mp member with rfl | later
  · exact .inl (by simp [a.name.kind])
  · rcases mem_append.mp later with subscript | gap
    · obtain ⟨s, written, held⟩ := mem_flatMap.mp subscript
      rcases mem_append.mp held with gap | held
      · exact .inl (blanks s.blank gap)
      · rcases mem_cons.mp held with rfl | held
        · exact .inl (by simp [s.left.kind])
        · rcases mem_append.mp held with index | last
          · exact .inr ⟨s.index, mem_map_of_mem written, index⟩
          · rw [mem_singleton.mp last]
            exact .inl (by simp [s.right.kind])
    · exact .inl (blanks a.blank gap)

theorem target_signless_iff : (∀ t ∈ a.target, isAssignSign t = false) ↔
    ∀ i ∈ a.indexes, ∀ t ∈ i, isAssignSign t = false := by
  constructor
  · intro signless i among t member
    obtain ⟨s, written, rfl⟩ := mem_map.mp among
    refine signless t (mem_cons_of_mem _ (mem_append_left _ ?_))
    exact mem_flatMap.mpr ⟨s, written, by simp [Subscript.tokens, member]⟩
  · intro signless t member
    rcases a.kind_target member with other | ⟨i, among, inside⟩
    · apply isAssignSign_eq_false
      intro sign
      rw [sign] at other
      revert other
      decide
    · exact signless i among t inside

theorem value_kept_iff : (a.tokens.dropWhile (!isAssignSign ·)).tail.dropLast = a.value ↔
    ∀ i ∈ a.indexes, ∀ t ∈ i, isAssignSign t = false := by
  have found : (a.sign :: (a.value ++ [a.stop.token])).dropWhile (!isAssignSign ·) =
      a.sign :: (a.value ++ [a.stop.token]) := by
    rw [dropWhile_cons, a.isSign]
    rfl
  have signless : (a.target.dropWhile (!isAssignSign ·)).isEmpty = true ↔
      ∀ t ∈ a.target, isAssignSign t = false := by
    rw [List.isEmpty_iff, List.dropWhile_eq_nil_iff]
    simp only [Bool.not_eq_true']
  rw [← a.target_signless_iff, ← signless, tokens, dropWhile_append, found]
  cases passed : a.target.dropWhile (!isAssignSign ·) with
  | nil => simp
  | cons sign more =>
    -- what follows the earlier sign holds the value and the sign before it
    have longer : (more ++ a.sign :: (a.value ++ [a.stop.token])).dropLast.length ≠ a.value.length := by
      simp
      omega
    constructor
    · intro kept
      exact absurd (congrArg List.length kept) longer
    · intro empty
      cases empty

/-! ## The statement -/

theorem front_unmarked : ∀ t ∈ a.target ++ a.sign :: a.value, t.kind ∉ marking := by
  intro t member
  rcases mem_append.mp member with target | later
  · rcases a.kind_target target with other | ⟨i, among, inside⟩
    · revert other
      cases t.kind <;> decide
    · obtain ⟨s, -, rfl⟩ := mem_map.mp among
      exact s.plain t inside
  · rcases mem_cons.mp later with rfl | value
    · rw [a.kind_sign]
      decide
    · exact a.plain t value

theorem tokens_eq_front : a.tokens = (a.target ++ a.sign :: a.value) ++ [a.stop.token] := by
  rw [tokens, append_assoc, cons_append]

theorem whole : Whole a.tokens := by
  rw [tokens_eq_front]
  refine Whole.of_flat ?_ rfl ?_ (.inl a.stop.kind)
  · intro t member
    have unmarked := a.front_unmarked t member
    revert unmarked
    simp only [Unmarked, Flat, scopeStep, isTerminator, is]
    cases t.kind <;> decide
  · simp [isSpace, isBlank, is, a.name.kind]

end IndexedAssignment

theorem formsOf_eq_plainForms {src : Source} {inner : List Token → Except Fault (List Clause)}
    {tokens : List Token} {last : Token} (noScope : tokens.any (·.is .lCurly) = false)
    (noArrow : tokens.any (·.is .funcPoint) = false) (ends : tokens.getLast? = some last)
    (long : 3 ≤ (tokens.filter (!·.isBlank)).length) :
    formsOf src inner tokens = plainForms tokens (tokens.filter (!·.isBlank))
      (if last.is .question then last.width else 0) (if last.is .question then 0 else last.width) := by
  unfold formsOf unscopedForms
  rw [noScope, if_neg Bool.false_ne_true, ends]
  dsimp only
  split
  · rename_i pair
    rw [pair] at long
    simp at long
  · rw [noArrow, if_neg Bool.false_ne_true]

theorem declarationForms_assignment {tokens solid e : List Token} {debug confidence d c : Nat}
    {is : List (List Token)} :
    .assignment n e d is c ∉ declarationForms tokens solid debug confidence := by
  unfold declarationForms
  split
  split <;> simp

/-- Whether a statement with these tokens, and these among them that are no blanks, can assign. -/
def assigns (tokens : List Token) (head second : Token) (more : List Token) : Prop :=
  tokens.any isAssignSign = true ∧ 2 ≤ more.length ∧ head.is .name = true ∧
    (second.is .equal = true ∨ second.is .lSquare = true)

theorem binding_mem_plainForms (tokens : List Token) (head second : Token) (more : List Token)
    (debug confidence : Nat) :
    ∃ forms, plainForms tokens (head :: second :: more) debug confidence = .ok forms ∧
      ∀ form, form.isBinding = true → (form ∈ forms ↔
        (tokens.any isAssignSign = true ∧ ¬assigns tokens head second more) ∧
          form ∈ declarationForms tokens (head :: second :: more) debug confidence ∨
        assigns tokens head second more ∧
          form = .assignment head (tokens.dropWhile (!isAssignSign ·)).tail.dropLast debug
            (assignmentIndexes 0 false [] tokens) confidence) := by
  have assignable : (tokens.any isAssignSign && decide ((head :: second :: more).length ≥ 4) &&
      head.is .name && ((second :: more).head?.any (·.is .equal) ||
        (second :: more).head?.any (·.is .lSquare))) = true ↔ assigns tokens head second more := by
    simp [assigns, and_assoc]
  refine ⟨_, rfl, ?_⟩
  intro form binding
  simp only [mem_cons, mem_append, mem_ite_nil_right, not_mem_nil, or_false]
  constructor
  · rintro (rfl | ((((((⟨-, rfl⟩ | deletes) | ⟨-, rfl⟩) | exports) | ⟨holds, declares⟩) | ⟨holds, rfl⟩)))
    · cases binding
    · cases binding
    · split at deletes
      · obtain ⟨-, only⟩ := mem_ite_nil_right.mp deletes
        obtain rfl := mem_singleton.mp only
        cases binding
      · cases deletes
    · cases binding
    · split at exports
      · obtain ⟨-, only⟩ := mem_ite_nil_right.mp exports
        obtain rfl := mem_singleton.mp only
        cases binding
      · cases exports
    · obtain ⟨signed, unassignable⟩ := Bool.and_eq_true_iff.mp holds
      refine .inl ⟨⟨signed, fun assigning => ?_⟩, declares⟩
      rw [assignable.mpr assigning] at unassignable
      cases unassignable
    · exact .inr ⟨assignable.mp holds, rfl⟩
  · rintro (⟨⟨signed, unassignable⟩, declares⟩ | ⟨assigning, rfl⟩)
    · refine .inr (.inl (.inr ⟨Bool.and_eq_true_iff.mpr ⟨signed, ?_⟩, declares⟩))
      rw [Bool.eq_false_iff.mpr fun holds => unassignable (assignable.mp holds)]
      rfl
    · exact .inr (.inr ⟨assignable.mpr assigning, rfl⟩)

theorem assignment_mem_plainForms (tokens : List Token) (head second : Token) (more : List Token)
    (debug confidence : Nat) :
    ∃ forms, plainForms tokens (head :: second :: more) debug confidence = .ok forms ∧
      ∀ n e d is c, .assignment n e d is c ∈ forms ↔
        (tokens.any isAssignSign = true ∧ 2 ≤ more.length ∧ head.is .name = true ∧
          (second.is .equal = true ∨ second.is .lSquare = true)) ∧
        n = head ∧ e = (tokens.dropWhile (!isAssignSign ·)).tail.dropLast ∧ d = debug ∧
        is = assignmentIndexes 0 false [] tokens ∧ c = confidence := by
  obtain ⟨forms, read, bindings⟩ := binding_mem_plainForms tokens head second more debug confidence
  refine ⟨forms, read, ?_⟩
  intro n e d is c
  rw [bindings _ rfl, Form.assignment.injEq]
  constructor
  · rintro (⟨-, declares⟩ | assigning)
    · exact absurd declares declarationForms_assignment
    · exact assigning
  · exact .inr

namespace IndexedAssignment

variable (a : IndexedAssignment)

theorem solid_tokens : ∃ second more, a.tokens.filter (!·.isBlank) = a.name.token :: second :: more ∧
    (second.is .equal = true ∨ second.is .lSquare = true) ∧ more ≠ [] ∧
    (2 ≤ more.length ↔ (a.subscripts = [] → ∃ t ∈ a.value, t.isBlank = false)) := by
  have marks : ∀ {k : TokenKind} (m : Mark k), k ≠ .whitespace → m.token.isBlank = false := by
    intro k m other
    exact beq_eq_false_iff_ne.mpr (by rwa [m.kind])
  have name := marks a.name (by decide)
  have stop := marks a.stop (by decide)
  have sign : a.sign.isBlank = false := is_of_kind a.kind_sign .whitespace
  cases written : a.subscripts with
  | nil =>
    refine ⟨a.sign, a.value.filter (!·.isBlank) ++ [a.stop.token], ?_, ?_, ?_, ?_⟩
    · simp [tokens, target, written, name, sign, stop, a.blank.filter_eq_nil]
    · exact .inl (is_of_kind a.kind_sign .equal)
    · simp
    · rw [length_append, length_singleton, Nat.succ_le_iff, Nat.lt_add_left_iff_pos,
        length_pos_iff_exists_mem]
      simp
  | cons s ss =>
    have left := marks s.left (by decide)
    have right := marks s.right (by decide)
    refine ⟨s.left.token, s.index.filter (!·.isBlank) ++ s.right.token ::
      ((ss.flatMap Subscript.tokens ++ a.gap).filter (!·.isBlank) ++
        a.sign :: (a.value.filter (!·.isBlank) ++ [a.stop.token])), ?_, ?_, ?_, ?_⟩
    · simp [tokens, target, written, Subscript.tokens, name, sign, stop, left, right, s.blank.filter_eq_nil]
    · exact .inr (is_of_kind s.left.kind .lSquare)
    · simp
    · simp
      omega

theorem any_is_eq_false (marked : k ∈ marking) (other : k ≠ .bang) : a.tokens.any (·.is k) = false := by
  rw [any_eq_false, tokens_eq_front]
  intro t member isKind
  have kind : t.kind = k := eq_of_beq isKind
  rcases mem_append.mp member with front | last
  · exact a.front_unmarked t front (kind ▸ marked)
  · rw [mem_singleton.mp last, a.stop.kind] at kind
    exact other kind.symm

/-- The statement opens no scope and defines no function. -/
theorem formsOf_tokens (src : Source) (inner : List Token → Except Fault (List Clause)) :
    formsOf src inner a.tokens =
      plainForms a.tokens (a.tokens.filter (!·.isBlank)) 0 a.stop.token.width := by
  obtain ⟨second, more, solid, -, some, -⟩ := a.solid_tokens
  obtain ⟨third, rest, rfl⟩ := exists_cons_of_ne_nil some
  have last : a.tokens.getLast? = .some a.stop.token := by
    rw [tokens_eq_front, getLast?_concat]
  rw [formsOf_eq_plainForms (a.any_is_eq_false (by decide) (by decide))
    (a.any_is_eq_false (by decide) (by decide)) last (by simp [solid]), is_of_kind a.stop.kind]
  rfl

end IndexedAssignment

/-- A statement `n [i] … [j] = e !` has at most one form that assigns. It is there unless the statement
assigns blanks to a name without subscripts. Its indexes are those of the statement without the brackets
in them, and its value is what follows the first equals sign, so index by index and token by token the
form is the assignment that is written if and only if no index holds a bracket or an equals sign. -/
theorem ofTokens_indexedAssignment (src : Source) (a : IndexedAssignment) {before after : List Token}
    (blankBefore : Blank before) (blankAfter : Blank after) :
    ∃ forms, ofTokens src (before ++ (a.tokens ++ after)) = (do
        checkIndent src false a.tokens
        return [.mk forms]) ∧
      (∀ n e d is c, .assignment n e d is c ∈ forms →
        n = a.name.token ∧ is = a.indexes.map (List.filter (!·.isBracket))) ∧
      (.assignment a.name.token a.value 0 a.indexes a.stop.token.width ∈ forms ↔
        (a.subscripts = [] → ∃ t ∈ a.value, t.isBlank = false) ∧
        ∀ i ∈ a.indexes, ∀ t ∈ i, t.isBracket = false ∧ isAssignSign t = false) := by
  obtain ⟨second, more, solid, sign, -, long⟩ := a.solid_tokens
  obtain ⟨forms, read, assignments⟩ :=
    assignment_mem_plainForms a.tokens a.name.token second more 0 a.stop.token.width
  refine ⟨forms, ?_, ?_, ?_⟩
  · rw [a.whole.ofTokens_eq blankBefore blankAfter, readStatement, a.formsOf_tokens, solid, read]
    rfl
  · intro n e d is c member
    obtain ⟨-, name, -, -, indexes, -⟩ := (assignments n e d is c).mp member
    exact ⟨name, indexes.trans a.assignmentIndexes_tokens⟩
  · have signed : a.tokens.any isAssignSign = true :=
      any_eq_true.mpr ⟨a.sign, by simp [IndexedAssignment.tokens], a.isSign⟩
    rw [assignments, a.assignmentIndexes_tokens, eq_comm (a := a.value), a.value_kept_iff, long,
      eq_comm (a := a.indexes), a.indexes_kept_iff]
    constructor
    · rintro ⟨⟨-, long, -⟩, -, signless, -, bracketless, -⟩
      exact ⟨long, fun i among t member => ⟨bracketless i among t member, signless i among t member⟩⟩
    · rintro ⟨long, plain⟩
      exact ⟨⟨signed, long, is_of_kind a.name.kind .name, sign⟩, rfl,
        fun i among t member => (plain i among t member).2, rfl,
        fun i among t member => (plain i among t member).1, rfl⟩

def firstElement : Subscript where
  gap := []
  left := ⟨⟨.lSquare, "[", 1, 1⟩, rfl⟩
  index := [⟨.name, "0", 1, 2⟩]
  right := ⟨⟨.rSquare, "]", 1, 6⟩, rfl⟩
  blank := by simp [Blank]
  some := by decide
  plain := by decide
  balanced := by decide

def nestedElement : Subscript :=
  { firstElement with
    index := [⟨.name, "b", 1, 2⟩, ⟨.lSquare, "[", 1, 3⟩, ⟨.name, "0", 1, 4⟩, ⟨.rSquare, "]", 1, 5⟩]
    some := by decide
    plain := by decide
    balanced := by decide }

def assignOne (subscripts : List Subscript) : IndexedAssignment where
  name := ⟨⟨.name, "a", 1, 0⟩, rfl⟩
  subscripts := subscripts
  gap := [⟨.whitespace, " ", 1, 7⟩]
  sign := ⟨.equal, "=", 1, 8⟩
  value := [⟨.whitespace, " ", 1, 9⟩, ⟨.name, "1", 1, 10⟩]
  stop := ⟨⟨.bang, "!", 1, 11⟩, rfl⟩
  blank := by simp [Blank, isBlank]
  isSign := by decide
  some := by decide
  plain := by decide

/-- Both indexes of `a[0][0] = 1!` are kept. -/
theorem assignOne_twice_indexed : Blank [] ∧ Blank [⟨.whitespace, " ", 1, 12⟩] ∧
    ∃ forms, ofTokens ⟨"main.db", "a[0][0] = 1! "⟩
        ([] ++ ((assignOne [firstElement, firstElement]).tokens ++ [⟨.whitespace, " ", 1, 12⟩])) =
      .ok [.mk forms] ∧
    .assignment ⟨.name, "a", 1, 0⟩ [⟨.whitespace, " ", 1, 9⟩, ⟨.name, "1", 1, 10⟩] 0
      [[⟨.name, "0", 1, 2⟩], [⟨.name, "0", 1, 2⟩]] 1 ∈ forms := by
  have nothing : Blank [] := by simp [Blank]
  have blank : Blank [⟨.whitespace, " ", 1, 12⟩] := by simp [Blank, isBlank]
  obtain ⟨forms, read, -, kept⟩ := ofTokens_indexedAssignment ⟨"main.db", "a[0][0] = 1! "⟩
    (assignOne [firstElement, firstElement]) nothing blank
  refine ⟨nothing, blank, forms, read.trans rfl, kept.mpr ⟨?_, by decide⟩⟩
  intro bare
  cases bare

/-- The index of `a[b[0]] = 1!` becomes that of `a[b 0] = 1!`. -/
theorem nested_index_unkept :
    (assignOne [nestedElement]).indexes =
      [[⟨.name, "b", 1, 2⟩, ⟨.lSquare, "[", 1, 3⟩, ⟨.name, "0", 1, 4⟩, ⟨.rSquare, "]", 1, 5⟩]] ∧
    ofTokens ⟨"main.db", "a[b[0]] = 1!"⟩ (assignOne [nestedElement]).tokens = .ok [.mk [
      .expression (assignOne [nestedElement]).tokens.dropLast 0,
      .returns (some ⟨.name, "a", 1, 0⟩) (assignOne [nestedElement]).tokens.tail.dropLast 0,
      .assignment ⟨.name, "a", 1, 0⟩ [⟨.whitespace, " ", 1, 9⟩, ⟨.name, "1", 1, 10⟩] 0
        [[⟨.name, "b", 1, 2⟩, ⟨.name, "0", 1, 4⟩]] 1]] :=
  ⟨rfl, rfl⟩

end Clause

end DreamBerd
