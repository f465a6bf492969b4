import DreamBerd.Proofs.ScopeHeaders
import DreamBerd.Proofs.Signatures
import DreamBerd.Proofs.TypeHints

/-!
# Type hints on parameters

A comma is an operator and ends the hint of a parameter, but an arrow is none. So the hint of the last
parameter goes on through the arrow, and what is left of the definition is no function. Hints on other
parameters change nothing (`parameter_hints_end_at_commas`).
-/

namespace DreamBerd

open List

namespace Clause

variable {src : Source} {forms : List (Form (List Token) (List Clause))} {ts rest : List Token}

/-! ## Statements without an arrow -/

theorem isFunction_of_codeless {form : Form (List Token) (List Clause)} (codeless : form.code? = none) :
    form.isFunction = false := by
  cases form with
  | function => cases codeless
  | _ => rfl

theorem scopedForms_no_function {tokens solid : List Token} {openAt : Nat} {code : List Clause}
    (noArrow : (solid.take openAt).any (·.is .funcPoint) = false)
    (read : scopedForms src tokens solid openAt code = .ok forms) :
    ∀ form ∈ forms, form.isFunction = false := by
  unfold scopedForms at read
  rw [noArrow, if_neg Bool.false_ne_true] at read
  split at read
  · dsimp only at read
    split at read
    · split at read <;> cases read <;> simp [Form.isFunction]
    · cases read
      simp [Form.isFunction]
  · cases read

theorem formsOf_no_function {inner : List Token → Except Fault (List Clause)}
    (read : formsOf src inner ts = .ok forms) (noArrow : ∀ t ∈ ts, t.is .funcPoint = false) :
    ∀ form ∈ forms, form.isFunction = false := by
  have nowhere : ∀ {part : List Token}, part ⊆ ts → part.any (·.is .funcPoint) = false := by
    intro part subset
    rw [any_eq_false]
    intro t member
    rw [noArrow t (subset member)]
    exact Bool.false_ne_true
  unfold formsOf at read
  dsimp only at read
  split at read
  · split at read
    · rename_i last head ends starts
      generalize (if (last.is .bang || last.is .question) = true then 1 else 0) = ending at read
      split at read
      · cases read
      · split at read
        · cases read
        · split at read
          · cases read
          · exact scopedForms_no_function
              (nowhere (List.Subset.trans (take_subset _ _) (filter_subset_self _))) read
    · cases read
  · unfold unscopedForms at read
    split at read
    · cases read
    · dsimp only at read
      split at read
      · cases read
        simp [Form.isFunction]
      · rw [nowhere (List.Subset.refl ts)] at read
        intro form member
        exact isFunction_of_codeless (codeless_plainForms read form member)

/-! ## Parameters -/

theorem balancedFrom_of_passive (passive : ∀ t ∈ ts, Passive t) :
    balancedFrom Expr.depthStep 0 ts = true := by
  induction ts with
  | nil => rfl
  | cons t ts ih =>
    rw [forall_mem_cons] at passive
    rw [balancedFrom_cons, passive.1.2]
    exact ⟨Int.le_refl 0, ih passive.2⟩

/-- The hint of a parameter: a colon and the name of a type, with blanks around it. -/
structure TypeName where
  colon : Mark .colon
  left : List Token
  name : Mark .name
  right : List Token
  blankLeft : Blank left
  blankRight : Blank right
  proper : ∀ t ∈ colon.token :: (left ++ name.token :: right), t.proper = true

namespace TypeName

variable (n : TypeName)
variable {t : Token}

def tokens : List Token := n.left ++ n.name.token :: n.right

theorem kind_tokens (member : t ∈ n.tokens) : t.kind ∈ [.name, .whitespace] := by
  rcases mem_append.mp member with left | later
  · simp [n.blankLeft.kind left]
  · rcases mem_cons.mp later with rfl | right
    · simp [n.name.kind]
    · simp [n.blankRight.kind right]

theorem passive (member : t ∈ n.tokens) : Passive t :=
  passive_of_kind (n.kind_tokens member) (by decide)

theorem noOperator (member : t ∈ n.tokens) : t.operator? = none := by
  have proper := n.proper t (mem_cons_of_mem _ member)
  have kind := n.kind_tokens member
  simp only [mem_cons, not_mem_nil, or_false] at kind
  rcases kind with kind | kind
  all_goals
    rw [Token.proper, kind] at proper
    exact Option.isNone_iff_eq_none.mp proper

def hint : Hint where
  colon := n.colon
  tokens := n.tokens
  plain := by
    intro t member
    have kind := n.kind_tokens member
    revert kind
    cases t.kind <;> decide
  noOperator := fun _ => n.noOperator
  balanced := balancedFrom_of_passive fun _ => n.passive
  proper := n.proper

end TypeName

/-- A parameter with the blanks behind it, and perhaps a hint. -/
structure Parameter where
  name : Spelled
  gap : List Token
  blank : Blank gap
  type? : Option TypeName

namespace Parameter

variable (p : Parameter)
variable {t : Token}

def bare : List Token := p.name.token :: p.gap

def tokens : List Token := p.bare ++ (p.type?.map (·.hint.written)).getD []

theorem kind_bare (member : t ∈ p.bare) : t.kind ∈ [.name, .comma, .whitespace] := by
  rcases mem_cons.mp member with rfl | gap
  · simp [p.name.kind]
  · simp [p.blank.kind gap]

theorem calm (member : t ∈ p.tokens) : Calm t := by
  rcases mem_append.mp member with own | hinted
  · exact calm_of_kind (p.kind_bare own) (by decide)
  · cases type : p.type? with
    | none =>
      rw [type] at hinted
      cases hinted
    | some n =>
      rw [type] at hinted
      exact n.hint.calm hinted

theorem dropHints_eq (next : rest.head?.any (·.is .lessThan) = false) :
    dropHints src {} (p.tokens ++ rest) =
      (dropHints src { keeping := p.type?.isNone } rest).map (p.bare ++ ·) := by
  have passive : ∀ t ∈ p.bare, Passive t := fun t member =>
    passive_of_kind (p.kind_bare member) (by decide)
  rw [tokens, append_assoc, dropHints_front passive]
  cases p.type? with
  | none => rfl
  | some n => exact congrArg (Except.map (p.bare ++ ·)) (n.hint.dropHints_eq next)

end Parameter

structure Separator extends Mark .comma where
  gap : List Token
  blank : Blank gap
  proper : token.proper = true

namespace Separator

variable (c : Separator)

def tokens : List Token := c.token :: c.gap

theorem kind_tokens {t : Token} (member : t ∈ c.tokens) : t.kind ∈ [.name, .comma, .whitespace] := by
  rcases mem_cons.mp member with rfl | gap
  · simp [c.kind]
  · simp [c.blank.kind gap]

theorem isSome_operator : c.token.operator?.isSome = true := by
  have proper := c.proper
  rw [Token.proper, c.kind] at proper
  rw [Token.operator?, eq_of_beq proper]
  rfl

theorem dropHints_eq {keeping : Bool} :
    dropHints src { keeping := keeping } (c.tokens ++ rest) =
      (dropHints src {} rest).map (c.tokens ++ ·) := by
  have passive : ∀ t ∈ c.tokens, Passive t := fun t member =>
    passive_of_kind (c.kind_tokens member) (by decide)
  cases keeping with
  | true => exact dropHints_front passive
  | false =>
    rw [tokens, forall_mem_cons] at passive
    show dropHints src { keeping := false } (c.token :: (c.gap ++ rest)) = _
    rw [dropHints_resumed passive.1 c.isSome_operator, dropHints_front passive.2]
    show ((dropHints src {} rest).map (c.gap ++ ·)).map ([c.token] ++ ·) = _
    rw [map_append_append]
    rfl

end Separator

/-- The parameters of a function that has some. -/
inductive ParameterList where
  | last (p : Parameter)
  | more (p : Parameter) (comma : Separator) (rest : ParameterList)

namespace ParameterList

variable {t : Token}

def tokens : ParameterList → List Token
  | last p => p.tokens
  | more p comma rest => p.tokens ++ (comma.tokens ++ rest.tokens)

def bare : ParameterList → List Token
  | last p => p.bare
  | more p comma rest => p.bare ++ (comma.tokens ++ rest.bare)

def endsHinted : ParameterList → Bool
  | last p => p.type?.isSome
  | more _ _ rest => rest.endsHinted

def first : ParameterList → Spelled
  | last p | more p _ _ => p.name

def others : ParameterList → List (Mark .comma × Spelled)
  | last _ => []
  | more _ comma rest => (comma.toMark, rest.first) :: rest.others

def parameters (ps : ParameterList) : Parameters := .list ps.first ps.others

variable (ps : ParameterList)

theorem kind_bare (member : t ∈ ps.bare) : t.kind ∈ [.name, .comma, .whitespace] := by
  induction ps with
  | last p => exact p.kind_bare member
  | more p comma rest ih =>
    rcases mem_append.mp member with own | later
    · exact p.kind_bare own
    · rcases mem_append.mp later with between | behind
      · exact comma.kind_tokens between
      · exact ih behind

theorem calm (member : t ∈ ps.tokens) : Calm t := by
  induction ps with
  | last p => exact p.calm member
  | more p comma rest ih =>
    rcases mem_append.mp member with own | later
    · exact p.calm own
    · rcases mem_append.mp later with between | behind
      · exact calm_of_kind (comma.kind_tokens between) (by decide)
      · exact ih behind

/-- Of the hints only the last can go on behind the parameters. -/
theorem dropHints_eq (next : rest.head?.any (·.is .lessThan) = false) :
    dropHints src {} (ps.tokens ++ rest) =
      (dropHints src { keeping := !ps.endsHinted } rest).map (ps.bare ++ ·) := by
  induction ps with
  | last p =>
    rw [endsHinted, Option.not_isSome]
    exact p.dropHints_eq next
  | more p comma others ih =>
    have goesOn : (comma.tokens ++ (others.tokens ++ rest)).head?.any (·.is .lessThan) = false :=
      is_of_kind comma.kind .lessThan
    simp only [tokens, bare, append_assoc]
    rw [p.dropHints_eq goesOn, comma.dropHints_eq, ih, map_append_append, map_append_append, endsHinted]
    simp only [append_assoc]

theorem filter_bare : ps.bare.filter (!·.isBlank) = ps.parameters.tokens := by
  have own : ∀ p : Parameter, p.bare.filter (!·.isBlank) = [p.name.token] := by
    intro p
    rw [Parameter.bare, filter_cons_solid (is_of_kind p.name.kind .whitespace), p.blank.filter_eq_nil]
  induction ps with
  | last p => exact own p
  | more p comma rest ih =>
    have between : comma.tokens.filter (!·.isBlank) = [comma.token] := by
      rw [Separator.tokens, filter_cons_solid (is_of_kind comma.kind .whitespace),
        comma.blank.filter_eq_nil]
    rw [bare, filter_append, filter_append, own, between, ih]
    rfl

end ParameterList

/-! ## Definitions -/

structure HintedDefinition where
  async? : Option Spelled
  keyword : Spelled
  name : Spelled
  /-- The keywords and the name, with the blanks before the parameters. -/
  lead : List Token
  layout : lead.filter (!·.isBlank) = (async?.map (·.token)).toList ++ [keyword.token, name.token]
  starts : ∃ first, lead.head? = some first ∧ first.isBlank = false
  parameters : ParameterList
  arrow : Mark .funcPoint
  proper : arrow.token.proper = true
  body : Body

namespace HintedDefinition

variable (d : HintedDefinition)
variable {before after : List Token}

def signature : Signature := ⟨d.async?, d.keyword, d.name, d.parameters.parameters⟩

def front : List Token := d.lead ++ d.parameters.tokens

def tokens : List Token := d.front ++ d.arrow.token :: d.body.tokens

theorem layout_bare : (d.lead ++ d.parameters.bare).filter (!·.isBlank) = d.signature.solid := by
  rw [filter_append, d.layout, d.parameters.filter_bare, Signature.solid, Signature.keywords,
    signature]
  simp

def bare : Arrowed where
  signature := d.signature
  front := d.lead ++ d.parameters.bare
  layout := d.layout_bare
  starts := by
    obtain ⟨first, head, solid⟩ := d.starts
    exact ⟨first, by rw [head?_append, head]; rfl, solid⟩
  arrow := d.arrow
  body := d.body

theorem passive_bare : ∀ t ∈ d.bare.front, Passive t :=
  fun _ member => passive_of_kind (d.bare.kind_front member) (by decide)

theorem dropHints_front (next : rest.head?.any (·.is .lessThan) = false) :
    dropHints src {} (d.front ++ rest) =
      (dropHints src { keeping := !d.parameters.endsHinted } rest).map (d.bare.front ++ ·) := by
  have passive : ∀ t ∈ d.lead, Passive t := fun t member =>
    d.passive_bare t (mem_append_left _ member)
  rw [front, append_assoc, Clause.dropHints_front passive, d.parameters.dropHints_eq next,
    map_append_append]
  rfl

/-! ## One statement -/

theorem stem {params : List Token} (calm : ∀ t ∈ params, Calm t) :
    Stem (d.lead ++ params ++ [d.arrow.token]) := by
  obtain ⟨first, head, solid⟩ := d.starts
  refine Stem.concat ?_ ?_ (is_of_kind d.arrow.kind .whitespace)
  · simp only [forall_mem_append, forall_mem_singleton]
    exact ⟨⟨fun t member => calm_of_kind (d.bare.kind_front (mem_append_left _ member)) (by decide),
      calm⟩, calm_of_kind (mem_singleton.mpr d.arrow.kind) (by decide)⟩
  · intro t starts
    rw [append_assoc, head?_append, head] at starts
    rw [← Option.some.inj starts, solid]

theorem stem_tokens : Stem (d.front ++ [d.arrow.token]) := d.stem fun _ => d.parameters.calm

theorem stem_bare : Stem (d.bare.front ++ [d.arrow.token]) :=
  d.stem fun _ member => calm_of_kind (d.parameters.kind_bare member) (by decide)

theorem tokens_eq : d.tokens = d.front ++ [d.arrow.token] ++ d.body.tokens := by
  rw [tokens, append_assoc, singleton_append]

theorem tokens_bare : d.bare.tokens = d.bare.front ++ [d.arrow.token] ++ d.body.tokens := by
  rw [append_assoc]
  rfl

theorem statements_tokens (blankBefore : Blank before) (blankAfter : Blank after) :
    statements (before ++ (d.tokens ++ after)) = [d.tokens] := by
  obtain ⟨s, more, cut⟩ := exists_statements_stem (d.body.tokens ++ after)
  have whole := d.bare.whole.statements_eq blankBefore blankAfter
  rw [tokens_bare, append_assoc, cut blankBefore d.stem_bare, List.cons.injEq,
    append_cancel_left_eq] at whole
  rw [tokens_eq, append_assoc, cut blankBefore d.stem_tokens, whole.1, whole.2]

/-! ## Hints before commas -/

theorem ofTokens_tokens (kept : d.parameters.endsHinted = false) (blank : Blank before)
    (more : List Token) :
    ofTokens src (before ++ (d.tokens ++ more)) = ofTokens src (before ++ (d.bare.tokens ++ more)) := by
  have same : ∀ s, dropHints src {} (d.front ++ [d.arrow.token] ++ s) =
      dropHints src {} (d.bare.front ++ [d.arrow.token] ++ s) := by
    intro s
    have next : ([d.arrow.token] ++ s).head?.any (·.is .lessThan) = false :=
      is_of_kind d.arrow.kind .lessThan
    rw [append_assoc, append_assoc, d.dropHints_front next,
      Clause.dropHints_front d.passive_bare, kept]
    rfl
  rw [tokens_eq, tokens_bare, append_assoc, append_assoc (d.bare.front ++ _)]
  exact ofTokens_interchange d.stem_tokens d.stem_bare blank same (d.body.tokens ++ more)

/-! ## A hint before the arrow -/

theorem operator_arrow : d.arrow.token.operator? = none := by
  have proper := d.proper
  rw [Token.proper, d.arrow.kind] at proper
  rw [Token.operator?, eq_of_beq proper]
  rfl

theorem dropHints_tokens (dropped : d.parameters.endsHinted = true) :
    dropHints src {} d.tokens =
      (dropHints src { keeping := false } d.body.tokens).map (d.bare.front ++ ·) := by
  have passive : Passive d.arrow.token :=
    passive_of_kind (mem_singleton.mpr d.arrow.kind) (by decide)
  have noName : (d.arrow.token.is .name && d.body.tokens.head?.any (·.is .lessThan)) = false := by
    rw [is_of_kind d.arrow.kind]
    rfl
  have behind : dropHints src { keeping := false } (d.arrow.token :: d.body.tokens) =
      dropHints src ⟨false, 0, 0 + Expr.depthStep d.arrow.token, 0, none⟩ d.body.tokens :=
    dropHints_dropped passive.1 d.operator_arrow noName
  have next : (d.arrow.token :: d.body.tokens).head?.any (·.is .lessThan) = false :=
    is_of_kind d.arrow.kind .lessThan
  rw [passive.2] at behind
  rw [tokens, d.dropHints_front next, dropped]
  exact congrArg (Except.map (d.bare.front ++ ·)) behind

theorem no_function (dropped : d.parameters.endsHinted = true)
    (noArrow : ∀ t ∈ d.body.tokens, t.is .funcPoint = false) (blankBefore : Blank before)
    (blankAfter : Blank after) {clauses : List Clause}
    (read : ofTokens src (before ++ (d.tokens ++ after)) = .ok clauses) :
    ∀ c ∈ clauses, ∀ form ∈ c.forms, form.isFunction = false := by
  intro c member
  obtain ⟨hintless, drops, reads⟩ := ofTokens_ok read
  obtain ⟨ts, among, reads⟩ := exists_of_mem_mapM reads member
  rw [Hintless, d.statements_tokens blankBefore blankAfter] at drops
  obtain ⟨statement, own, drops⟩ := exists_of_mem_mapM drops among
  rw [mem_singleton.mp own, d.dropHints_tokens dropped] at drops
  obtain ⟨left, behind, rfl⟩ := map_eq_ok_iff.mp drops
  refine formsOf_no_function (formsOf_of_readStatement reads) ?_
  rw [forall_mem_append]
  exact ⟨fun t member => d.bare.front_is_eq_false member (by decide),
    fun t member => noArrow t ((dropHints_sublist behind).subset member)⟩

end HintedDefinition

/-- If the last parameter has no hint, the hints change nothing, whatever follows the definition. If it has
one, the definition is read as no function, unless its body holds an arrow. Without hints, a definition
whose body can be read has the forms of its signature. -/
theorem parameter_hints_end_at_commas (src : Source) (d : HintedDefinition) {before : List Token}
    (blankBefore : Blank before) :
    (d.parameters.endsHinted = false → ∀ more,
      ofTokens src (before ++ (d.tokens ++ more)) = ofTokens src (before ++ (d.bare.tokens ++ more))) ∧
    (∀ after code, Blank after → d.body.code src = .ok code →
      ofTokens src (before ++ (d.bare.tokens ++ after)) = .ok [.mk (d.signature.forms code)]) ∧
    (d.parameters.endsHinted = true → (∀ t ∈ d.body.tokens, t.is .funcPoint = false) →
      ∀ after clauses, Blank after → ofTokens src (before ++ (d.tokens ++ after)) = .ok clauses →
        ∀ c ∈ clauses, ∀ form ∈ c.forms, form.isFunction = false) :=
  ⟨fun kept more => d.ofTokens_tokens kept blankBefore more,
    fun _ _ blankAfter reads => d.bare.ofTokens_tokens blankBefore blankAfter reads,
    fun dropped noArrow _ _ blankAfter read => d.no_function dropped noArrow blankBefore blankAfter read⟩

theorem blank_nil : Blank [] := by
  simp [Blank]

theorem blank_space {col : Int} : Blank [⟨.whitespace, " ", 1, col⟩] := by
  simp [Blank, Token.isBlank]

def aOfT (right : List Token) (blank : Blank right) (proper : ∀ t ∈ right, t.proper = true) :
    Parameter where
  name := ⟨⟨⟨.name, "a", 1, 5⟩, rfl⟩, by decide⟩
  gap := []
  blank := blank_nil
  type? := some
    { colon := ⟨⟨.colon, ":", 1, 6⟩, rfl⟩
      left := [⟨.whitespace, " ", 1, 7⟩]
      name := ⟨⟨.name, "T", 1, 8⟩, rfl⟩
      right := right
      blankLeft := blank_space
      blankRight := blank
      proper := by
        simp only [forall_mem_cons, forall_mem_append]
        exact ⟨by decide, by decide, by decide, proper⟩ }

/-- The function `f` with the body `a!`, and with its arrow in the given column. -/
def fnF (parameters : ParameterList) (col : Int) : HintedDefinition where
  async? := none
  keyword := ⟨⟨⟨.name, "fn", 1, 1⟩, rfl⟩, by decide⟩
  name := ⟨⟨⟨.name, "f", 1, 3⟩, rfl⟩, by decide⟩
  lead := [⟨.name, "fn", 1, 1⟩, ⟨.whitespace, " ", 1, 2⟩, ⟨.name, "f", 1, 3⟩, ⟨.whitespace, " ", 1, 4⟩]
  layout := rfl
  starts := ⟨_, rfl, rfl⟩
  parameters := parameters
  arrow := ⟨⟨.funcPoint, "=>", 1, col⟩, rfl⟩
  proper := rfl
  body := .expression [⟨.whitespace, " ", 1, col + 1⟩, ⟨.name, "a", 1, col + 2⟩] ⟨.bang, "!", 1, col + 3⟩
    (by simp [Unmarked, Flat, scopeStep, isTerminator, Token.is]) (.inl rfl)

def hintedFirst : HintedDefinition :=
  let comma : Separator := ⟨⟨⟨.comma, ",", 1, 9⟩, rfl⟩, [⟨.whitespace, " ", 1, 10⟩], blank_space, rfl⟩
  let b : Parameter :=
    ⟨⟨⟨⟨.name, "b", 1, 11⟩, rfl⟩, by decide⟩, [⟨.whitespace, " ", 1, 13⟩], blank_space, none⟩
  fnF (.more (aOfT [] blank_nil (by decide)) comma (.last b)) 15

def hintedLast : HintedDefinition :=
  fnF (.last (aOfT [⟨.whitespace, " ", 1, 10⟩] blank_space (by decide))) 12

/-- Of the two definitions only the first is read as a function. -/
theorem only_hintedFirst_read : Blank [] ∧ hintedFirst.parameters.endsHinted = false ∧
    (∃ code, hintedFirst.body.code default = .ok code ∧
      ofTokens default ([] ++ (hintedFirst.tokens ++ [])) =
        .ok [.mk [.function [⟨.name, "fn", 1, 1⟩] ⟨.name, "f", 1, 3⟩
          [⟨.name, "a", 1, 5⟩, ⟨.name, "b", 1, 11⟩] code false]]) ∧
    hintedLast.parameters.endsHinted = true ∧
    (∀ t ∈ hintedLast.body.tokens, t.is .funcPoint = false) ∧
    ∀ clauses, ofTokens default ([] ++ (hintedLast.tokens ++ [])) = .ok clauses →
      ∀ c ∈ clauses, ∀ form ∈ c.forms, form.isFunction = false := by
  obtain ⟨same, read, -⟩ := parameter_hints_end_at_commas default hintedFirst blank_nil
  obtain ⟨-, -, lost⟩ := parameter_hints_end_at_commas default hintedLast blank_nil
  have noArrow : ∀ t ∈ hintedLast.body.tokens, t.is .funcPoint = false := by decide
  refine ⟨blank_nil, rfl, ⟨_, rfl, ?_⟩, rfl, noArrow, ?_⟩
  · exact (same rfl []).trans (read [] _ blank_nil rfl)
  · exact fun clauses => lost rfl noArrow [] clauses blank_nil

/-- Of `fn f(a: T) => a!` only `fn f a` is left, and that is no function. -/
theorem hint_hides_arrow :
    (∃ forms, ofTokens default hintedLast.tokens = .ok [.mk forms] ∧
      ∀ form ∈ forms, form.isFunction = false) ∧
    ∃ forms, ofTokens default hintedLast.bare.tokens = .ok [.mk forms] ∧
      ∀ form ∈ forms, form.isFunction = true := by
  refine ⟨⟨_, rfl, ?_⟩, ⟨_, rfl, ?_⟩⟩
  · decide
  · decide

end Clause

end DreamBerd
