import DreamBerd.Proofs.LoneStatements

/-!
# Definitions of functions

A function is defined by names and commas, an arrow and a body, which is an expression or a block. In front
of the arrow, the names that follow one another are counted. So `fn f x` and `async fn f` look alike, and
each of them has two forms: `Signature.forms` lists the forms for any names as keywords. A text that holds
one definition is read as the forms of its signature, with what its body is read as
(`Arrowed.ofTokens_tokens`).
-/

namespace DreamBerd

open List

variable {t : Token} {ts : List Token}

namespace Clause

variable {src : Source}

/-! ## Signatures -/

structure Spelled extends Mark .name where
  some : token.text.isEmpty = false

/-- The parameters of a function. A pair of brackets with nothing between them is an empty name. -/
inductive Parameters where
  | none
  | unit (empty : Mark .name) (text : empty.token.text.isEmpty = true)
  | list (first : Spelled) (others : List (Mark .comma × Spelled))

namespace Parameters

def more (others : List (Mark .comma × Spelled)) : List Token :=
  others.flatMap fun p => [p.1.token, p.2.token]

def tokens : Parameters → List Token
  | none => []
  | unit empty _ => [empty.token]
  | list first others => first.token :: more others

def names : Parameters → List Token
  | none | unit .. => []
  | list first others => first.token :: others.map (·.2.token)

theorem kind_tokens {ps : Parameters} (member : t ∈ ps.tokens) : t.kind = .name ∨ t.kind = .comma := by
  cases ps with
  | none => cases member
  | unit empty text =>
    rw [mem_singleton.mp member]
    exact .inl empty.kind
  | list first others =>
    rcases mem_cons.mp member with rfl | later
    · exact .inl first.kind
    · obtain ⟨p, -, among⟩ := mem_flatMap.mp later
      rcases mem_pair.mp among with rfl | rfl
      · exact .inr p.1.kind
      · exact .inl p.2.kind

end Parameters

/-- What stands before the arrow. The word before the keyword makes a function asynchronous. -/
structure Signature where
  async? : Option Spelled
  keyword : Spelled
  name : Spelled
  parameters : Parameters

namespace Signature

variable (s : Signature)

def keywords : List Token := (s.async?.map (·.token)).toList ++ [s.keyword.token]

def isAsync : Bool := s.async?.isSome

def solid : List Token := s.keywords ++ s.name.token :: s.parameters.tokens

/-- The forms of a function. A name behind the keyword and the name can be a parameter, or the name of a
function whose keywords are the two before. -/
def forms (code : List Clause) : List (Form (List Token) (List Clause)) :=
  match s.async?, s.parameters.names with
  | none, [p] =>
    [.function [s.keyword.token] s.name.token [p] code false,
      .function [s.keyword.token, s.name.token] p [] code true]
  | some a, [] =>
    [.function [a.token] s.keyword.token [s.name.token] code false,
      .function [a.token, s.keyword.token] s.name.token [] code true]
  | _, ps => [.function s.keywords s.name.token ps code s.isAsync]

theorem kind_solid (member : t ∈ s.solid) : t.kind = .name ∨ t.kind = .comma := by
  rcases mem_append.mp member with keyword | later
  · rcases mem_append.mp keyword with async | keyword
    · obtain ⟨a, -, rfl⟩ := Option.map_eq_some_iff.mp (Option.mem_toList.mp async)
      exact .inl a.kind
    · rw [mem_singleton.mp keyword]
      exact .inl s.keyword.kind
  · rcases mem_cons.mp later with rfl | parameter
    · exact .inl s.name.kind
    · exact Parameters.kind_tokens parameter

theorem solid_eq_cons : ∃ first more, s.solid = first :: more ∧ first.is .name = true := by
  rw [solid, keywords]
  cases s.async? with
  | none => exact ⟨_, _, rfl, is_of_kind s.keyword.kind .name⟩
  | some a => exact ⟨_, _, rfl, is_of_kind a.kind .name⟩

end Signature

/-! ## The names in a signature -/

section Head

variable {arrow : Mark .funcPoint} {inRow : Bool} {rest : List Token}

theorem functionHead_arrow : functionHead src inRow (arrow.token :: rest) = .ok ⟨[], []⟩ := by
  rw [functionHead, is_of_kind arrow.kind]
  rfl

theorem functionHead_name {name : Mark .name} (some : name.token.text.isEmpty = false) :
    functionHead src true (name.token :: ts) =
      (functionHead src true ts).map fun h => { h with inRow := name.token :: h.inRow } := by
  rw [functionHead, is_of_kind name.kind, is_of_kind name.kind, some]
  rfl

theorem functionHead_more (others : List (Mark .comma × Spelled)) :
    functionHead src inRow (Parameters.more others ++ arrow.token :: rest) =
      .ok ⟨[], others.map (·.2.token)⟩ := by
  induction others generalizing inRow with
  | nil => exact functionHead_arrow
  | cons p others ih =>
    obtain ⟨comma, name⟩ := p
    have behind : functionHead src inRow
        (comma.token :: name.token :: (Parameters.more others ++ arrow.token :: rest)) =
        functionHead src false (name.token :: (Parameters.more others ++ arrow.token :: rest)) := by
      rw [functionHead]
      simp only [is_of_kind comma.kind]
      cases inRow <;> rfl
    show functionHead src inRow
      (comma.token :: name.token :: (Parameters.more others ++ arrow.token :: rest)) = _
    rw [behind, functionHead, is_of_kind name.kind, is_of_kind name.kind, name.some, ih]
    rfl

theorem functionHead_parameters (ps : Parameters) :
    functionHead src true (ps.tokens ++ arrow.token :: rest) =
      .ok ⟨ps.names.take 1, ps.names.drop 1⟩ := by
  cases ps with
  | none => exact functionHead_arrow
  | unit empty text =>
    show functionHead src true (empty.token :: arrow.token :: rest) = _
    rw [functionHead, is_of_kind empty.kind, is_of_kind empty.kind, text]
    exact functionHead_arrow
  | list first others =>
    show functionHead src true (first.token :: (Parameters.more others ++ arrow.token :: rest)) = _
    rw [functionHead_name first.some, functionHead_more]
    rfl

theorem functionHead_signature (s : Signature) :
    functionHead src true (s.solid ++ arrow.token :: rest) =
      .ok ⟨s.keywords ++ s.name.token :: s.parameters.names.take 1, s.parameters.names.drop 1⟩ := by
  have row : functionHead src true (s.keyword.token :: s.name.token ::
      (s.parameters.tokens ++ arrow.token :: rest)) =
      .ok ⟨s.keyword.token :: s.name.token :: s.parameters.names.take 1, s.parameters.names.drop 1⟩ := by
    rw [functionHead_name s.keyword.some, functionHead_name s.name.some, functionHead_parameters]
    rfl
  rw [Signature.solid, Signature.keywords]
  cases s.async? with
  | none => exact row
  | some a =>
    show functionHead src true (a.token :: s.keyword.token :: s.name.token ::
      (s.parameters.tokens ++ arrow.token :: rest)) = _
    rw [functionHead_name a.some, row]
    rfl

theorem functionForms_signature (s : Signature) (code : List Clause) :
    functionForms src (s.solid ++ arrow.token :: rest) code = .ok (s.forms code) := by
  unfold functionForms
  rw [functionHead_signature, Signature.forms, Signature.keywords, Signature.isAsync]
  -- two, three or four names in a row, the last of them the first parameter if there is one
  cases s.async? with
  | none => rcases s.parameters.names with _ | ⟨p, _ | ⟨q, qs⟩⟩ <;> rfl
  | some a => rcases s.parameters.names with _ | ⟨p, ps⟩ <;> rfl

end Head

/-! ## Bodies -/

theorem checkIndent_of_read {code : List Clause} (reads : ofTokens src ts = .ok code) :
    checkIndent src false ts = .ok () := by
  rw [Clause.ofTokens_eq, readWith] at reads
  cases indent : checkIndent src false ts with
  | ok => rfl
  | error f =>
    rw [indent] at reads
    cases reads

/-- What stands behind the arrow: an expression and the end of the statement, or a block. -/
inductive Body where
  | expression (value : List Token) (stop : Token) (plain : ∀ t ∈ value, Unmarked t)
    (ending : stop.kind = .bang ∨ stop.kind = .question)
  | block (gap : List Token) (left : Mark .lCurly) (inside : List Token) (right : Mark .rCurly)
    (blank : Blank gap) (balanced : balancedFrom scopeStep 0 inside = true)

namespace Body

def tokens : Body → List Token
  | expression value stop _ _ => value ++ [stop]
  | block gap left inside right _ _ => gap ++ left.token :: (inside ++ [right.token])

def code (src : Source) : Body → Except Fault (List Clause)
  | expression value stop _ _ => do
    checkIndent src false value
    return [.mk [.returns none value (if stop.is .question then stop.width else 0)]]
  | block _ _ inside _ _ _ => ofTokens src inside

theorem checkIndent_of_code {body : Body} {code : List Clause} (reads : body.code src = .ok code) :
    checkIndent src false body.tokens = .ok () := by
  cases body with
  | expression value stop plain ending =>
    have solid : stop.isBlank = false := by
      rcases ending with kind | kind <;> exact is_of_kind kind .whitespace
    refine checkIndent_concat solid ?_
    cases indent : checkIndent src false value with
    | ok => rfl
    | error f =>
      rw [Body.code, indent] at reads
      cases reads
  | block gap left inside right blank balanced =>
    have unbroken : ∀ t ∈ gap ++ [left.token], t.is .newline = false := by
      rw [forall_mem_append, forall_mem_singleton]
      exact ⟨fun t member => newline_of_blank (blank t member), is_of_kind left.kind .newline⟩
    rw [tokens, ← singleton_append, ← append_assoc, checkIndent_unbroken unbroken]
    exact checkIndent_concat (is_of_kind right.kind .whitespace) (checkIndent_of_read reads)

end Body

/-! ## One definition -/

/-- A signature, an arrow and a body. -/
structure Arrowed where
  signature : Signature
  /-- The signature with its blanks. -/
  front : List Token
  layout : front.filter (!·.isBlank) = signature.solid
  starts : ∃ first, front.head? = some first ∧ first.isBlank = false
  arrow : Mark .funcPoint
  body : Body

namespace Arrowed

variable (d : Arrowed)
variable {code : List Clause} {stop : Token} {inner : List Token → Except Fault (List Clause)}

def tokens : List Token := d.front ++ d.arrow.token :: d.body.tokens

theorem kind_front (member : t ∈ d.front) : t.kind ∈ [.name, .comma, .whitespace] := by
  cases blank : t.isBlank with
  | true => simp [show t.kind = .whitespace from eq_of_beq blank]
  | false =>
    have solid : t ∈ d.signature.solid := by
      rw [← d.layout]
      exact mem_filter.mpr ⟨member, by rw [blank]; rfl⟩
    rcases d.signature.kind_solid solid with kind | kind <;> simp [kind]

theorem front_is_eq_false (member : t ∈ d.front)
    (other : k ∉ [.name, .comma, .whitespace]) : t.is k = false := by
  rw [Token.is, beq_eq_false_iff_ne]
  rintro rfl
  exact other (d.kind_front member)

theorem unmarked {more : List Token} (plain : ∀ t ∈ more, Unmarked t) :
    ∀ t ∈ d.front ++ d.arrow.token :: more, Unmarked t := by
  rw [forall_mem_append, forall_mem_cons]
  refine ⟨?_, ?_, plain⟩
  · intro t member
    have kind := d.kind_front member
    revert kind
    simp only [Unmarked, Flat, scopeStep, isTerminator, Token.is]
    cases t.kind <;> decide
  · simp [Unmarked, Flat, scopeStep, isTerminator, Token.is, d.arrow.kind]

theorem filter_tokens : d.tokens.filter (!·.isBlank) =
    d.signature.solid ++ d.arrow.token :: d.body.tokens.filter (!·.isBlank) := by
  have solid : d.arrow.token.isBlank = false := is_of_kind d.arrow.kind .whitespace
  rw [tokens, filter_append, d.layout, filter_cons_solid solid]

theorem whole : Whole d.tokens := by
  obtain ⟨first, head, solid⟩ := d.starts
  have noSpace : isSpace first = false := by
    rw [isSpace, solid, d.front_is_eq_false (mem_of_mem_head? head) (by decide)]
    rfl
  have starts : ∀ more, (d.front ++ more).head? = some first := by
    intro more
    rw [head?_append, head]
    rfl
  rw [tokens]
  cases d.body with
  | expression value stop plain ending =>
    have flat := Whole.of_flat (d.unmarked plain) (starts _) noSpace ending
    rwa [append_assoc, cons_append] at flat
  | block gap left inside right blank balanced =>
    have scope := Whole.of_scope left right (d.unmarked blank.unmarked) (starts _) noSpace balanced
    rwa [append_assoc, cons_append] at scope

theorem checkIndent_tokens (reads : d.body.code src = .ok code) :
    checkIndent src false d.tokens = .ok () := by
  have unbroken : ∀ t ∈ d.front ++ [d.arrow.token], t.is .newline = false := by
    rw [forall_mem_append, forall_mem_singleton]
    exact ⟨fun t member => d.front_is_eq_false member (by decide), is_of_kind d.arrow.kind .newline⟩
  rw [tokens, ← singleton_append, ← append_assoc, checkIndent_unbroken unbroken]
  exact Body.checkIndent_of_code reads

theorem not_pair {keyword : Token} : d.tokens.filter (!·.isBlank) ≠ [keyword, stop] := by
  intro pair
  have length := congrArg List.length pair
  rw [filter_tokens, Signature.solid, Signature.keywords] at length
  simp at length
  omega

theorem formsOf_expression {value : List Token} {plain : ∀ t ∈ value, Unmarked t}
    {ending : stop.kind = .bang ∨ stop.kind = .question}
    (body : d.body = .expression value stop plain ending) :
    formsOf src inner d.tokens = .ok (d.signature.forms
      [.mk [.returns none value (if stop.is .question then stop.width else 0)]]) := by
  have whole : d.tokens = d.front ++ d.arrow.token :: (value ++ [stop]) := by
    rw [tokens, body]
    rfl
  have last : d.tokens.getLast? = some stop := by
    rw [whole, ← cons_append, ← append_assoc, getLast?_concat]
  have noScope : d.tokens.any (·.is .lCurly) = false := by
    have noBrace : stop.is .lCurly = false := by
      rcases ending with kind | kind <;> exact is_of_kind kind .lCurly
    rw [whole, ← cons_append, ← append_assoc]
    exact any_append_mark (fun t member => (d.unmarked plain t member).opens_no_scope) noBrace
  have arrow : d.arrow.token.is .funcPoint = true := is_of_kind d.arrow.kind .funcPoint
  have hasArrow : d.tokens.any (·.is .funcPoint) = true := by
    simp [whole, arrow]
  have behind : (d.tokens.dropWhile (!·.is .funcPoint)).tail.dropLast = value := by
    rw [whole, dropWhile_append_of_pos fun t member => by
      rw [d.front_is_eq_false member (by decide)]; rfl, dropWhile_cons, arrow]
    simp
  unfold formsOf unscopedForms
  rw [noScope, if_neg Bool.false_ne_true, last]
  dsimp only
  split
  · rename_i pair
    exact absurd pair d.not_pair
  · rw [hasArrow, if_pos rfl, behind, filter_tokens, functionForms_signature]

theorem take_hasArrow (beyond : d.front.length < n) :
    ((d.tokens.filter (!·.isBlank)).take n).any (·.is .funcPoint) = true := by
  have shorter : d.signature.solid.length ≤ d.front.length := by
    rw [← d.layout]
    exact length_filter_le _ _
  obtain ⟨m, more⟩ : ∃ m, n - d.signature.solid.length = m + 1 :=
    ⟨n - d.signature.solid.length - 1, by omega⟩
  rw [filter_tokens, take_append, more]
  simp [is_of_kind d.arrow.kind]

theorem formsOf_block {gap inside : List Token} {left : Mark .lCurly} {right : Mark .rCurly}
    {blank : Blank gap} {balanced : balancedFrom scopeStep 0 inside = true}
    (body : d.body = .block gap left inside right blank balanced) (reads : inner inside = .ok code) :
    formsOf src inner d.tokens = .ok (d.signature.forms code) := by
  have whole : d.tokens =
      (d.front ++ d.arrow.token :: gap) ++ left.token :: (inside ++ [right.token]) := by
    rw [tokens, body, append_assoc]
    rfl
  have noScope : ∀ t ∈ d.front ++ d.arrow.token :: gap, t.is .lCurly = false :=
    fun t member => (d.unmarked blank.unmarked t member).opens_no_scope
  obtain ⟨first, more, solid, isName⟩ := d.signature.solid_eq_cons
  have starts : (d.front ++ d.arrow.token :: gap).filter (!·.isBlank) =
      first :: (more ++ (d.arrow.token :: gap).filter (!·.isBlank)) := by
    rw [filter_append, d.layout, solid, cons_append]
  rw [whole, formsOf_braces noScope starts isName reads, ← whole]
  unfold scopedForms
  rw [d.take_hasArrow (by simp), if_pos rfl, filter_tokens, functionForms_signature]

theorem formsOf_tokens (reads : d.body.code src = .ok code) :
    formsOf src (ofTokens src) d.tokens = .ok (d.signature.forms code) := by
  cases body : d.body with
  | expression value stop plain ending =>
    rw [body, Body.code] at reads
    rw [d.formsOf_expression body]
    cases indent : checkIndent src false value with
    | ok =>
      rw [indent] at reads
      cases reads
      rfl
    | error f =>
      rw [indent] at reads
      cases reads
  | block gap left inside right blank balanced =>
    rw [body] at reads
    exact d.formsOf_block body reads

theorem ofTokens_tokens {before after : List Token} (blankBefore : Blank before)
    (blankAfter : Blank after) (reads : d.body.code src = .ok code) :
    ofTokens src (before ++ (d.tokens ++ after)) = .ok [.mk (d.signature.forms code)] := by
  rw [d.whole.ofTokens_eq blankBefore blankAfter, d.checkIndent_tokens reads, readStatement,
    d.formsOf_tokens reads]
  rfl

end Arrowed

end Clause

end DreamBerd
