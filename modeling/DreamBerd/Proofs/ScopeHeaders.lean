import DreamBerd.Proofs.LoneStatements

/-!
# What a header decides

A statement with a scope is a function if an arrow stands before the brace that opens the scope. The
search for the arrow skips blanks, and it stops after as many tokens as stand before the brace with the
blanks counted. So each blank of the header but the first lets the search see one token of the body
(`any_take_solid`). Where it sees no arrow the header alone decides how the statement is read, and where
it sees one the statement is a function or is not read (`header_decides_iff`).
-/

namespace DreamBerd

open List

def Form.shape {ε κ : Type} (form : Form ε κ) : Form ε Unit := form.map id fun _ => ()

def Form.isFunction {ε κ : Type} : Form ε κ → Bool
  | .function .. => true
  | _ => false

namespace Clause

variable {code : List Clause}

/-- What stands before the brace of a scope, without an arrow. -/
structure Opening where
  tokens : List Token
  noScope : ∀ t ∈ tokens, t.is .lCurly = false
  noArrow : ∀ t ∈ tokens, t.is .funcPoint = false

namespace Opening

variable (h : Opening)
variable {inner : List Token → Except Fault (List Clause)} {keyword : Token} {rest : List Token}

def solid : List Token := h.tokens.filter (!·.isBlank)

def blanks : Nat := h.tokens.countP Token.isBlank

def isNamed : Bool := h.solid.head?.any (·.is .name)

def className? : Option Token :=
  match h.solid with
  | [_, name] => if name.is .name then some name else none
  | _ => none

def guard : List Token := h.tokens.drop ((if h.tokens.head?.any Token.isBlank then 1 else 0) + 1)

/-- The forms, without their blocks, of a statement that opens so. -/
def shapes : List (Form (List Token) Unit) :=
  match h.solid with
  | [] => []
  | keyword :: _ =>
    (h.className?.map (.classDeclaration keyword · ())).toList ++
      [.conditional keyword h.guard (), .after keyword h.guard (), .when keyword h.guard ()]

def scope (left : Mark .lCurly) (right : Mark .rCurly) (body : List Token) : List Token :=
  h.tokens ++ left.token :: (body ++ [right.token])

def reachesArrow (body : List Token) : Bool :=
  ((body.filter (!·.isBlank)).take (h.blanks - 1)).any (·.is .funcPoint)

variable {src : Source} {left : Mark .lCurly} {right : Mark .rCurly} {body : List Token}

theorem length_solid : h.tokens.length - h.solid.length = h.blanks := by
  have both := h.tokens.length_eq_countP_add_countP Token.isBlank
  have solid : h.solid.length = h.tokens.countP fun t => decide ¬t.isBlank = true := by
    rw [Opening.solid, countP_eq_length_filter]
    simp
  rw [blanks]
  omega

theorem filter_scope : (h.scope left right body).filter (!·.isBlank) =
    h.solid ++ left.token :: (body.filter (!·.isBlank) ++ [right.token]) := by
  have leftSolid : left.token.isBlank = false := is_of_kind left.kind .whitespace
  have rightSolid : right.token.isBlank = false := is_of_kind right.kind .whitespace
  simp [scope, solid, leftSolid, rightSolid]

theorem any_take_solid :
    (((h.scope left right body).filter (!·.isBlank)).take h.tokens.length).any (·.is .funcPoint) =
      h.reachesArrow body := by
  have header : ∀ n, (h.solid.take n).any (·.is .funcPoint) = false := by
    intro n
    rw [any_eq_false]
    intro t member
    rw [h.noArrow t (mem_of_mem_filter (mem_of_mem_take member))]
    exact Bool.false_ne_true
  have noLeft : left.token.is .funcPoint = false := is_of_kind left.kind .funcPoint
  have noRight : ∀ n, ([right.token].take n).any (·.is .funcPoint) = false := by
    intro n
    cases n with
    | zero => rfl
    | succ n => simp [is_of_kind right.kind]
  rw [filter_scope, take_append, length_solid, any_append, header, Bool.false_or, reachesArrow]
  cases h.blanks with
  | zero => rfl
  | succ n =>
    rw [take_succ_cons, any_cons, noLeft, Bool.false_or, take_append, any_append,
      noRight, Bool.or_false, Nat.add_sub_cancel]

/-! ## One statement -/

theorem any_lCurly : (h.scope left right body).any (·.is .lCurly) = true := by
  simp [scope, is_of_kind left.kind]

theorem getLast?_scope : (h.scope left right body).getLast? = some right.token := by
  rw [scope, ← cons_append, ← append_assoc, getLast?_concat]

theorem slice_guard : Expr.slice (h.scope left right body)
    ((if h.tokens.head?.any Token.isBlank then 1 else 0) + 1) h.tokens.length = h.guard := by
  rw [Expr.slice, scope, take_left, guard]

theorem formsOf_unnamed (unnamed : h.isNamed = false) :
    formsOf src inner (h.scope left right body) =
      .error (src.atToken .scopeWithoutKeyword (h.solid.head?.getD left.token)) := by
  have closes : (h.scope left right body)[(h.scope left right body).length - 1]? = some right.token := by
    rw [← getLast?_eq_getElem?, getLast?_scope]
  have head : ((h.scope left right body).filter (!·.isBlank)).head? =
      some (h.solid.head?.getD left.token) := by
    rw [filter_scope]
    cases h.solid <;> rfl
  have noName : (h.solid.head?.getD left.token).is .name = false := by
    rw [isNamed] at unnamed
    cases starts : h.solid.head? with
    | none => exact is_of_kind left.kind .name
    | some first => rwa [starts] at unnamed
  unfold formsOf
  rw [any_lCurly, if_pos rfl, getLast?_scope, head]
  simp [is_of_kind right.kind, closes, noName]

theorem scopedForms_scope (solid : h.solid = keyword :: rest) (unseen : h.reachesArrow body = false) :
    scopedForms src (h.scope left right body) ((h.scope left right body).filter (!·.isBlank))
      h.tokens.length code = .ok (scopeForms keyword h.guard code h.className?) := by
  have starts : (h.scope left right body).head? = h.tokens.head? := by
    cases tokens : h.tokens with
    | nil => rw [Opening.solid, tokens] at solid; cases solid
    | cons t ts => rw [scope, tokens]; rfl
  have noBrace : ∀ t ∈ rest, t.is .lCurly = false := by
    intro t member
    apply h.noScope
    apply mem_of_mem_filter
    rw [← Opening.solid, solid]
    exact mem_cons_of_mem keyword member
  have noLeft : left.token.is .name = false := is_of_kind left.kind .name
  have opens : left.token.is .lCurly = true := is_of_kind left.kind .lCurly
  unfold scopedForms
  rw [any_take_solid, unseen, filter_scope, className?, solid, cons_append]
  dsimp only
  rw [starts, slice_guard]
  rcases rest with _ | ⟨name, _ | ⟨other, more⟩⟩
  -- the brace comes second, third or later
  · obtain ⟨after, more, second⟩ : ∃ t ts, body.filter (!·.isBlank) ++ [right.token] = t :: ts :=
      exists_cons_of_ne_nil (by simp)
    rw [nil_append, second]
    dsimp only
    rw [noLeft]
    rfl
  · rw [cons_append, nil_append]
    dsimp only
    rw [opens]
    cases name.is .name <;> rfl
  · rw [cons_append, cons_append]
    dsimp only
    rw [noBrace other (by simp), Bool.and_false]
    rfl

theorem formsOf_named (solid : h.solid = keyword :: rest) (isName : keyword.is .name = true)
    (reads : inner body = .ok code) :
    formsOf src inner (h.scope left right body) =
      if h.reachesArrow body then
        functionForms src ((h.scope left right body).filter (!·.isBlank)) code
      else .ok (scopeForms keyword h.guard code h.className?) := by
  rw [scope, formsOf_braces h.noScope solid isName reads, ← scope]
  cases seen : h.reachesArrow body with
  | true =>
    unfold scopedForms
    rw [any_take_solid, seen]
    rfl
  | false =>
    rw [scopedForms_scope h solid seen]
    rfl

end Opening

theorem functionForms_functions {src : Source} {solid : List Token}
    {forms : List (Form (List Token) (List Clause))} (read : functionForms src solid code = .ok forms) :
    forms ≠ [] ∧ ∀ form ∈ forms, form.isFunction = true := by
  unfold functionForms at read
  split at read
  · cases read
  · split at read
    · cases read
      simp [Form.isFunction]
    · split at read <;> cases read <;> simp [Form.isFunction]
    · cases read
      simp [Form.isFunction]
    · split at read <;> cases read

theorem scopeForms_no_function {keyword : Token} {header : List Token} {name? : Option Token} :
    ∀ form ∈ scopeForms keyword header code name?, form.isFunction = false := by
  intro form member
  rcases mem_scopeForms.mp member with ⟨name, -, rfl⟩ | rfl | rfl | rfl <;> rfl

namespace Opening

variable {h : Opening} {src : Source} {left : Mark .lCurly} {right : Mark .rCurly} {body : List Token}

theorem exists_keyword (named : h.isNamed = true) :
    ∃ keyword rest, h.solid = keyword :: rest ∧ keyword.is .name = true := by
  rw [isNamed] at named
  cases starts : h.solid with
  | nil =>
    rw [starts] at named
    cases named
  | cons keyword rest =>
    rw [starts] at named
    exact ⟨keyword, rest, rfl, named⟩

theorem map_shape_scopeForms {keyword : Token} {rest : List Token} (solid : h.solid = keyword :: rest) :
    (scopeForms keyword h.guard code h.className?).map Form.shape = h.shapes := by
  rw [shapes, solid]
  cases h.className? <;> rfl

theorem reachesArrow_eq_false_iff (named : h.isNamed = true) (reads : ofTokens src body = .ok code) :
    h.reachesArrow body = false ↔
      ∃ forms, formsOf src (ofTokens src) (h.scope left right body) = .ok forms ∧
        ∀ form ∈ forms, form.isFunction = false := by
  obtain ⟨keyword, rest, solid, isName⟩ := exists_keyword named
  rw [h.formsOf_named solid isName reads]
  cases h.reachesArrow body with
  | true =>
    constructor
    · intro unseen
      cases unseen
    · rintro ⟨forms, read, noFunction⟩
      obtain ⟨some, functions⟩ := functionForms_functions read
      obtain ⟨form, more, rfl⟩ := exists_cons_of_ne_nil some
      cases (functions form mem_cons_self).symm.trans (noFunction form mem_cons_self)
  | false => exact ⟨fun _ => ⟨_, rfl, scopeForms_no_function⟩, fun _ => rfl⟩

end Opening

/-- Two statements that open in the same way and have bodies that can be read on their own. Without a
keyword both are refused, and for one reason. With a keyword, both are read as the header says, and as no
functions, if and only if the search for an arrow finds none in either body. -/
theorem header_decides_iff (src : Source) (h : Opening) (left : Mark .lCurly) (right : Mark .rCurly)
    {body body' : List Token} {code code' : List Clause} (reads : ofTokens src body = .ok code)
    (reads' : ofTokens src body' = .ok code') :
    (h.isNamed = false →
      ∃ f, formsOf src (ofTokens src) (h.scope left right body) = .error f ∧
        formsOf src (ofTokens src) (h.scope left right body') = .error f) ∧
    (h.isNamed = true →
      ((∃ forms forms', formsOf src (ofTokens src) (h.scope left right body) = .ok forms ∧
          formsOf src (ofTokens src) (h.scope left right body') = .ok forms' ∧
          forms.map Form.shape = h.shapes ∧ forms'.map Form.shape = h.shapes ∧
          (∀ form ∈ forms, form.isFunction = false) ∧ ∀ form ∈ forms', form.isFunction = false) ↔
        h.reachesArrow body = false ∧ h.reachesArrow body' = false)) := by
  constructor
  · intro unnamed
    exact ⟨_, h.formsOf_unnamed unnamed, h.formsOf_unnamed unnamed⟩
  · intro named
    constructor
    · rintro ⟨forms, forms', read, read', -, -, noFunction, noFunction'⟩
      exact ⟨(Opening.reachesArrow_eq_false_iff named reads).mpr ⟨forms, read, noFunction⟩,
        (Opening.reachesArrow_eq_false_iff named reads').mpr ⟨forms', read', noFunction'⟩⟩
    · rintro ⟨unseen, unseen'⟩
      obtain ⟨keyword, rest, solid, isName⟩ := Opening.exists_keyword named
      rw [h.formsOf_named solid isName reads, h.formsOf_named solid isName reads', unseen, unseen']
      exact ⟨_, _, rfl, rfl, Opening.map_shape_scopeForms solid, Opening.map_shape_scopeForms solid,
        scopeForms_no_function, scopeForms_no_function⟩

/-- The header `if x ` of a condition. -/
def ifX : Opening where
  tokens := [⟨.name, "if", 1, 1⟩, ⟨.whitespace, " ", 1, 2⟩, ⟨.name, "x", 1, 3⟩, ⟨.whitespace, " ", 1, 4⟩]
  noScope := by decide
  noArrow := by decide

/-- The header `if g x y ` of a condition. -/
def ifCall : Opening where
  tokens := [⟨.name, "if", 1, 1⟩, ⟨.whitespace, " ", 1, 2⟩, ⟨.name, "g", 1, 3⟩, ⟨.whitespace, " ", 1, 4⟩,
    ⟨.name, "x", 1, 5⟩, ⟨.whitespace, " ", 1, 6⟩, ⟨.name, "y", 1, 7⟩, ⟨.whitespace, " ", 1, 8⟩]
  noScope := by decide
  noArrow := by decide

def leftBrace : Mark .lCurly := ⟨⟨.lCurly, "\x7b", 1, 9⟩, rfl⟩

def rightBrace : Mark .rCurly := ⟨⟨.rCurly, "\x7d", 1, 22⟩, rfl⟩

def functionBody : List Token :=
  [⟨.whitespace, " ", 1, 10⟩, ⟨.name, "fn", 1, 12⟩, ⟨.whitespace, " ", 1, 13⟩, ⟨.name, "f", 1, 14⟩,
    ⟨.whitespace, " ", 1, 15⟩, ⟨.funcPoint, "=>", 1, 17⟩, ⟨.whitespace, " ", 1, 18⟩, ⟨.name, "1", 1, 19⟩,
    ⟨.bang, "!", 1, 20⟩, ⟨.whitespace, " ", 1, 21⟩]

def functionCode : List Clause :=
  [.mk [.function [⟨.name, "fn", 1, 12⟩] ⟨.name, "f", 1, 14⟩ []
    [.mk [.returns none [⟨.whitespace, " ", 1, 18⟩, ⟨.name, "1", 1, 19⟩] 0]] false]]

theorem ifX_function_body : ofTokens default functionBody = .ok functionCode ∧
    ofTokens default [] = .ok [] ∧ ifX.isNamed = true ∧
    ∃ forms forms',
      formsOf default (ofTokens default) (ifX.scope leftBrace rightBrace functionBody) = .ok forms ∧
      formsOf default (ofTokens default) (ifX.scope leftBrace rightBrace []) = .ok forms' ∧
      forms.map Form.shape = ifX.shapes ∧ forms'.map Form.shape = ifX.shapes := by
  have reads : ofTokens default functionBody = .ok functionCode := rfl
  have empty : ofTokens default [] = .ok [] := rfl
  obtain ⟨forms, forms', read, read', shapes, shapes', -⟩ :=
    ((header_decides_iff default ifX leftBrace rightBrace reads empty).2 (by decide)).mpr (by decide)
  exact ⟨reads, empty, by decide, forms, forms', read, read', shapes, shapes'⟩

/-- The same function in the body of `if g x y` makes a function of the statement. -/
theorem ifCall_becomes_function : ofTokens default functionBody = .ok functionCode ∧
    formsOf default (ofTokens default) (ifCall.scope leftBrace rightBrace functionBody) =
      .ok [.function [⟨.name, "if", 1, 1⟩, ⟨.name, "g", 1, 3⟩] ⟨.name, "x", 1, 5⟩
        [⟨.name, "y", 1, 7⟩, ⟨.name, "fn", 1, 12⟩, ⟨.name, "f", 1, 14⟩] functionCode true] :=
  ⟨rfl, rfl⟩

end Clause

end DreamBerd
