import DreamBerd.Proofs.Cuts
import DreamBerd.Proofs.Subscripts

/-!
# Type hints

A type hint is dropped from its colon up to the next operator on the same level of brackets
(`Hint.dropHints_eq`). Hints are dropped from one statement at a time, before it is known what the statement
is. Two ways to start a statement that come out the same when hints are dropped can be interchanged in every
text (`ofTokens_interchange`), and a declaration is read in the same way with a hint and without it
(`hint_changes_nothing`).
-/

namespace DreamBerd

open List Token

/-- Whether a token can be cut from a text, by its kind and its text: names and blanks spell no operator, and
a sign carries its symbol. -/
def Token.proper (t : Token) : Bool :=
  match t.kind with
  | .name | .whitespace => t.operator?.isNone
  | .string | .equal | .notEqual | .bang | .question => true
  | k => t.text == k.symbol

namespace Clause

variable {src : Source} {t : Token} {ks : List TokenKind}

/-! ## Dropping a hint -/

theorem map_append_append {r : Except Fault (List Token)} {xs ys : List Token} :
    (r.map (ys ++ ·)).map (xs ++ ·) = r.map (xs ++ ys ++ ·) := by
  cases r with
  | error f => rfl
  | ok rest => exact congrArg Except.ok (append_assoc xs ys rest).symm

def Passive (t : Token) : Prop := Unmarked t ∧ Expr.depthStep t = 0

theorem passive_of_kind (kind : t.kind ∈ ks)
    (plain : ∀ k ∈ ks, k ∉ [.lCurly, .rCurly, .lSquare, .rSquare, .bang, .question, .colon]) :
    Passive t := by
  have other := plain t.kind kind
  revert other
  simp only [Passive, Unmarked, Flat, scopeStep, isTerminator, is, Expr.depthStep]
  cases t.kind <;> decide

def Calm (t : Token) : Prop := Flat t ∧ t.is .newline = false

theorem calm_of_kind (kind : t.kind ∈ ks)
    (plain : ∀ k ∈ ks, k ∉ [.lCurly, .rCurly, .bang, .question, .newline]) : Calm t := by
  have other := plain t.kind kind
  revert other
  simp only [Calm, Flat, scopeStep, isTerminator, is]
  cases t.kind <;> decide

section Drop

variable {keeping : Bool} {squares hintSquares : Int} {ts rest : List Token}

theorem dropHints_kept (passive : Passive t) : dropHints src {} (t :: ts) =
    (dropHints src {} ts).map (t :: ·) := by
  obtain ⟨⟨⟨level, -⟩, noColon⟩, bracket⟩ := passive
  rw [dropHints]
  simp only [noColon, level, bracket]
  rfl

theorem dropHints_front (passive : ∀ t ∈ ts, Passive t) :
    dropHints src {} (ts ++ rest) = (dropHints src {} rest).map (ts ++ ·) := by
  induction ts with
  | nil =>
    show dropHints src {} rest = (dropHints src {} rest).map ([] ++ ·)
    cases dropHints src {} rest <;> rfl
  | cons t ts ih =>
    rw [cons_append, dropHints_kept (passive t mem_cons_self),
      ih (forall_mem_cons.mp passive).2]
    show ((dropHints src {} rest).map (ts ++ ·)).map ([t] ++ ·) = _
    rw [map_append_append]
    rfl

theorem dropHints_colon (kind : t.kind = .colon) (noOperator : t.operator? = none) :
    dropHints src {} (t :: ts) = dropHints src { keeping := false } ts := by
  have level : scopeStep t = 0 := by simp [scopeStep, kind]
  have bracket : Expr.depthStep t = 0 := by simp [Expr.depthStep, kind]
  rw [dropHints]
  simp only [is_of_kind kind, level, bracket, noOperator]
  rfl

theorem dropHints_dropped (unmarked : Unmarked t) (noOperator : t.operator? = none)
    (noArguments : (t.is .name && ts.head?.any (·.is .lessThan)) = false) :
    dropHints src ⟨false, 0, squares, 0, none⟩ (t :: ts) =
      dropHints src ⟨false, 0, squares + Expr.depthStep t, 0, none⟩ ts := by
  obtain ⟨⟨level, -⟩, noColon⟩ := unmarked
  rw [dropHints]
  simp only [noColon, level, noOperator, noArguments]
  rfl

theorem dropHints_resumed (passive : Passive t) (operator : t.operator?.isSome = true) :
    dropHints src { keeping := false } (t :: ts) = (dropHints src {} ts).map (t :: ·) := by
  obtain ⟨⟨⟨level, -⟩, noColon⟩, bracket⟩ := passive
  rw [dropHints]
  simp only [noColon, level, bracket, operator]
  rfl

theorem dropHints_balanced (unmarked : ∀ t ∈ ts, Unmarked t) (noOperator : ∀ t ∈ ts, t.operator? = none)
    (noLess : ∀ t ∈ ts, t.is .lessThan = false) (next : rest.head?.any (·.is .lessThan) = false)
    (balanced : balancedFrom Expr.depthStep squares ts = true) :
    dropHints src ⟨false, 0, squares, 0, none⟩ (ts ++ rest) = dropHints src { keeping := false } rest := by
  induction ts generalizing squares with
  | nil =>
    have level : squares = 0 := eq_of_beq balanced
    rw [level]
    rfl
  | cons t ts ih =>
    have noArguments : (ts ++ rest).head?.any (·.is .lessThan) = false := by
      cases ts with
      | nil => exact next
      | cons t' ts => exact noLess t' (by simp)
    rw [cons_append, dropHints_dropped (unmarked t mem_cons_self)
      (noOperator t mem_cons_self) (by rw [noArguments, Bool.and_false])]
    exact ih ((forall_mem_cons.mp unmarked).2)
      ((forall_mem_cons.mp noOperator).2)
      ((forall_mem_cons.mp noLess).2) (balancedFrom_cons.mp balanced).2

end Drop

/-- A type hint: a colon and tokens with balanced brackets and without operators. -/
structure Hint where
  colon : Mark .colon
  tokens : List Token
  plain : ∀ t ∈ tokens, t.kind ∉ [.colon, .newline, .lCurly, .rCurly, .bang, .question]
  noOperator : ∀ t ∈ tokens, t.operator? = none
  balanced : balancedFrom Expr.depthStep 0 tokens = true
  proper : ∀ t ∈ colon.token :: tokens, t.proper = true

namespace Hint

variable (h : Hint)
def written : List Token := h.colon.token :: h.tokens

theorem text_colon : h.colon.token.text = ":" := by
  have proper := h.proper h.colon.token mem_cons_self
  rw [Token.proper, h.colon.kind] at proper
  exact eq_of_beq proper

/-- A sign `<` spells an operator. -/
theorem noLess (member : t ∈ h.tokens) : t.is .lessThan = false := by
  rw [is, beq_eq_false_iff_ne]
  intro kind
  have proper := h.proper t (mem_cons_of_mem _ member)
  rw [Token.proper, kind] at proper
  have plain := h.noOperator t member
  rw [operator?, eq_of_beq proper] at plain
  cases plain

theorem calm (member : t ∈ h.written) : Calm t := by
  rcases mem_cons.mp member with rfl | inside
  · exact calm_of_kind (mem_singleton.mpr h.colon.kind) (by decide)
  · refine calm_of_kind (mem_singleton.mpr rfl) ?_
    rw [forall_mem_singleton]
    exact fun marks => h.plain t inside (mem_cons_of_mem _ (by revert marks; cases t.kind <;> decide))

theorem unmarked (member : t ∈ h.tokens) : Unmarked t := by
  refine ⟨(h.calm (mem_cons_of_mem _ member)).1, ?_⟩
  have plain := h.plain t member
  revert plain
  simp only [is]
  cases t.kind <;> decide

theorem dropHints_eq {rest : List Token} (next : rest.head?.any (·.is .lessThan) = false) :
    dropHints src {} (h.written ++ rest) = dropHints src { keeping := false } rest := by
  have noOperator : h.colon.token.operator? = none := by
    rw [operator?, h.text_colon]
    rfl
  rw [written, cons_append, dropHints_colon h.colon.kind noOperator]
  exact dropHints_balanced (fun _ member => h.unmarked member) h.noOperator
    (fun _ member => h.noLess member) next h.balanced

end Hint

/-! ## The start of a statement -/

/-- Tokens that can start a statement: none of them ends it or a line, or opens a scope, and neither the
first nor the last is space. -/
structure Stem (ts : List Token) : Prop where
  calm : ∀ t ∈ ts, Calm t
  starts : ∀ t ∈ ts.head?, isSpace t = false
  ends : ∀ t ∈ ts.getLast?, isSpace t = false
  some : ts ≠ []

section Stems

variable {before a b rest : List Token}

theorem Stem.concat {stop : Token} (calm : ∀ t ∈ a ++ [stop], Calm t)
    (starts : ∀ t ∈ (a ++ [stop]).head?, t.isBlank = false) (solid : stop.isBlank = false) :
    Stem (a ++ [stop]) where
  calm := calm
  starts := by
    intro t first
    rw [isSpace, starts t first, (calm t (mem_of_mem_head? first)).2]
    rfl
  ends := by
    intro t last
    rw [getLast?_concat, Option.mem_some_iff] at last
    rw [← last, isSpace, solid, (calm stop (by simp)).2]
    rfl
  some := by simp

theorem Stem.flat (stem : Stem a) : ∀ t ∈ a, Flat t := fun t member => (stem.calm t member).1

theorem Stem.unbroken (stem : Stem a) : ∀ t ∈ a, t.is .newline = false :=
  fun t member => (stem.calm t member).2

theorem Stem.dropWhile_eq (stem : Stem a) (blank : Blank before) :
    (before ++ (a ++ rest)).dropWhile isSpace = a ++ rest := by
  rw [dropWhile_append_of_pos fun t member => isSpace_of_blank (blank t member)]
  apply dropWhile_isSpace
  rw [head?_append_of_ne_nil _ stem.some]
  exact stem.starts

theorem Stem.trimSpace_eq (stem : Stem a) (blank : Blank before) :
    trimSpace (before ++ (a ++ rest)) = a ++ (rest.reverse.dropWhile isSpace).reverse := by
  have ends : a.reverse.dropWhile isSpace = a.reverse := by
    apply dropWhile_isSpace
    rw [head?_reverse]
    exact stem.ends
  have front : (rest.reverse ++ a.reverse).dropWhile isSpace =
      rest.reverse.dropWhile isSpace ++ a.reverse := by
    rw [dropWhile_append, ends]
    split
    · rename_i empty
      rw [isEmpty_iff.mp empty, nil_append]
    · rfl
  rw [trimSpace, stem.dropWhile_eq blank, reverse_append, front, reverse_append,
    reverse_reverse]

/-- What follows the start of a statement is cut in the same way behind every start. -/
theorem exists_statements_stem (rest : List Token) : ∃ s more, ∀ {before a : List Token}, Blank before →
    Stem a → statements (before ++ (a ++ rest)) = (a ++ s) :: more := by
  have flat : ∀ {before a : List Token}, Blank before → Stem a → ∀ t ∈ before ++ a, Flat t := by
    intro before a blank stem
    rw [forall_mem_append]
    exact ⟨blank.flat, stem.flat⟩
  rcases uncut_or_first_end rest with uncut | ⟨front, t, after, rfl, uncut, ends⟩
  · refine ⟨(rest.reverse.dropWhile isSpace).reverse, [], ?_⟩
    intro before a blank stem
    have whole : Uncut (before ++ (a ++ rest)) := by
      rw [← append_assoc]
      exact uncut_flat_append (flat blank stem) uncut
    rw [statements_of_uncut whole, stem.trimSpace_eq blank, filter_cons_of_pos (by simp [stem.some])]
    rfl
  · refine ⟨front ++ [t], statements after, ?_⟩
    intro before a blank stem
    have unended : Uncut (before ++ (a ++ front)) := by
      rw [← append_assoc]
      exact uncut_flat_append (flat blank stem) uncut
    have ended : EndsAt (before ++ (a ++ front)) t := by
      rwa [← append_assoc, endsAt_append (depth_flat (flat blank stem))]
    have whole : before ++ (a ++ (front ++ t :: after)) = before ++ (a ++ front) ++ t :: after := by simp
    rw [whole, statements_of_end unended ended, stem.dropWhile_eq blank, append_assoc]

theorem ofTokens_interchange (stem : Stem a) (stem' : Stem b) (blank : Blank before)
    (same : ∀ s, dropHints src {} (a ++ s) = dropHints src {} (b ++ s)) (rest : List Token) :
    ofTokens src (before ++ (a ++ rest)) = ofTokens src (before ++ (b ++ rest)) := by
  obtain ⟨s, more, cut⟩ := exists_statements_stem rest
  have unbroken : ∀ t ∈ before, t.is .newline = false := fun t member => newline_of_blank (blank t member)
  rw [Clause.ofTokens_eq, Clause.ofTokens_eq, readWith, readWith, cut blank stem, cut blank stem',
    mapM_cons, mapM_cons, same, checkIndent_unbroken unbroken, checkIndent_unbroken unbroken,
    checkIndent_unbroken stem.unbroken, checkIndent_unbroken stem'.unbroken]

end Stems

/-! ## Declarations -/

/-- How long a variable lives. -/
structure Duration where
  left : Mark .lessThan
  text : Mark .name
  right : Mark .greaterThan

def Duration.tokens (d : Duration) : List Token := [d.left.token, d.text.token, d.right.token]

/-- A declaration: two or three modifiers, a name, perhaps a lifetime, an equals sign, a value and an end. -/
structure Declared where
  modifiers : List (Mark .name)
  few : modifiers.length = 2 ∨ modifiers.length = 3
  name : Mark .name
  duration? : Option Duration
  /-- What stands before the equals sign, with its blanks. -/
  front : List Token
  layout : front.filter (!·.isBlank) =
    modifiers.map (·.token) ++ name.token :: (duration?.map Duration.tokens).getD []
  starts : ∀ t ∈ front.head?, t.isBlank = false
  sign : Token
  isSign : isAssignSign sign = true
  value : List Token
  plain : ∀ t ∈ value, t.kind ∉ marking
  stop : Token
  ending : stop.kind = .bang ∨ stop.kind = .question

namespace Declared

variable (d : Declared)
variable {before : List Token}

def tokens : List Token := d.front ++ d.sign :: (d.value ++ [d.stop])

def hinted (h : Hint) : List Token := d.front ++ (h.written ++ d.sign :: (d.value ++ [d.stop]))

def form : Form (List Token) (List Clause) :=
  .declaration d.name.token (d.modifiers.map (·.token)) (d.duration?.map (·.text.token.text)) d.value
    (if d.stop.is .question then d.stop.width else 0) (if d.stop.is .question then 0 else d.stop.width)

theorem kind_front (member : t ∈ d.front) : t.kind ∈ [.whitespace, .name, .lessThan, .greaterThan] := by
  cases blank : t.isBlank with
  | true =>
    rw [show t.kind = .whitespace from eq_of_beq blank]
    decide
  | false =>
    have solid : t ∈ d.front.filter (!·.isBlank) := mem_filter.mpr ⟨member, by rw [blank]; rfl⟩
    rw [d.layout] at solid
    rcases mem_append.mp solid with modifier | later
    · obtain ⟨m, -, rfl⟩ := mem_map.mp modifier
      simp [m.kind]
    · rcases mem_cons.mp later with rfl | lifetime
      · simp [d.name.kind]
      · cases lives : d.duration? with
        | none =>
          rw [lives] at lifetime
          cases lifetime
        | some duration =>
          simp only [lives, Option.map_some, Option.getD_some, Duration.tokens, mem_cons,
            not_mem_nil, or_false] at lifetime
          rcases lifetime with rfl | rfl | rfl
          · simp [duration.left.kind]
          · simp [duration.text.kind]
          · simp [duration.right.kind]

theorem kind_sign : d.sign.kind = .equal := eq_of_beq (Bool.and_eq_true_iff.mp d.isSign).1

theorem text_sign : d.sign.text = "=" := eq_of_beq (Bool.and_eq_true_iff.mp d.isSign).2

theorem passive_sign : Passive d.sign :=
  passive_of_kind (mem_singleton.mpr d.kind_sign) (by decide)

theorem passive_front : ∀ t ∈ d.front, Passive t :=
  fun _ member => passive_of_kind (d.kind_front member) (by decide)

theorem front_ne_nil : d.front ≠ [] := by
  intro empty
  have solid := d.layout
  rw [empty] at solid
  simp at solid

theorem calm_front (member : t ∈ d.front) : Calm t :=
  calm_of_kind (d.kind_front member) (by decide)

/-! ## The hint of a declaration -/

theorem stem {between : List Token} (calm : ∀ t ∈ between, Calm t) :
    Stem (d.front ++ between ++ [d.sign]) := by
  refine Stem.concat ?_ ?_ (is_of_kind d.kind_sign .whitespace)
  · simp only [forall_mem_append, forall_mem_singleton]
    exact ⟨⟨fun t member => d.calm_front member, calm⟩,
      calm_of_kind (mem_singleton.mpr d.kind_sign) (by decide)⟩
  · rw [append_assoc, head?_append_of_ne_nil _ d.front_ne_nil]
    exact d.starts

theorem dropHints_hinted (src : Source) (h : Hint) (s : List Token) :
    dropHints src {} (d.front ++ h.written ++ [d.sign] ++ s) =
      dropHints src {} (d.front ++ [] ++ [d.sign] ++ s) := by
  have operator : d.sign.operator?.isSome = true := by
    rw [operator?, d.text_sign]
    rfl
  have next : (d.sign :: s).head?.any (·.is .lessThan) = false := is_of_kind d.kind_sign .lessThan
  simp only [append_assoc, cons_append, nil_append]
  rw [dropHints_front d.passive_front, dropHints_front d.passive_front, h.dropHints_eq next,
    dropHints_resumed d.passive_sign operator, dropHints_kept d.passive_sign]

theorem ofTokens_hinted (h : Hint) (blank : Blank before) (more : List Token) :
    ofTokens src (before ++ (d.hinted h ++ more)) = ofTokens src (before ++ (d.tokens ++ more)) := by
  have same := ofTokens_interchange (d.stem fun _ => h.calm)
    (d.stem fun t (member : t ∈ []) => absurd member not_mem_nil) blank
    (d.dropHints_hinted src h) (d.value ++ d.stop :: more)
  simpa [hinted, tokens] using same

/-! ## The forms of a declaration -/

theorem unmarked (member : t ∈ d.front ++ d.sign :: d.value) : Unmarked t := by
  rcases mem_append.mp member with front | later
  · exact (d.passive_front t front).1
  · rcases mem_cons.mp later with rfl | value
    · exact d.passive_sign.1
    · have plain := d.plain t value
      revert plain
      simp only [Unmarked, Flat, scopeStep, isTerminator, is]
      cases t.kind <;> decide

theorem tokens_eq : d.tokens = (d.front ++ d.sign :: d.value) ++ [d.stop] := by
  rw [tokens, append_assoc, cons_append]

theorem whole : Whole d.tokens := by
  obtain ⟨first, more, front⟩ := exists_cons_of_ne_nil d.front_ne_nil
  have starts : d.front.head? = some first := by
    rw [front]
    rfl
  have noSpace : isSpace first = false := by
    rw [isSpace, d.starts first starts, (d.calm_front (mem_of_mem_head? starts)).2]
    rfl
  rw [tokens_eq]
  refine Whole.of_flat (fun _ member => d.unmarked member) ?_ noSpace d.ending
  rw [head?_append, starts]
  rfl

theorem filter_tokens : d.tokens.filter (!·.isBlank) = d.modifiers.map (·.token) ++ d.name.token ::
    ((d.duration?.map Duration.tokens).getD [] ++
      d.sign :: (d.value.filter (!·.isBlank) ++ [d.stop])) := by
  have sign : d.sign.isBlank = false := is_of_kind d.kind_sign .whitespace
  have stop : d.stop.isBlank = false := by
    rcases d.ending with kind | kind <;> exact is_of_kind kind .whitespace
  simp [tokens, d.layout, sign, stop]

theorem value_tokens : (d.tokens.dropWhile (!isAssignSign ·)).tail.dropLast = d.value := by
  have front : ∀ t ∈ d.front, (!isAssignSign t) = true := by
    intro t member
    have kind := d.kind_front member
    rw [IndexedAssignment.isAssignSign_eq_false]
    · rfl
    · rintro sign
      rw [sign] at kind
      revert kind
      decide
  rw [tokens, dropWhile_append_of_pos front, dropWhile_cons, d.isSign]
  simp

theorem declarationHead_names (names : List (Mark .name)) {passed rest : List Token} :
    declarationHead passed (names.map (·.token) ++ rest) =
      declarationHead ((names.map (·.token)).reverse ++ passed) rest := by
  induction names generalizing passed with
  | nil => rfl
  | cons n names ih =>
    rw [map_cons, cons_append, declarationHead, is_of_kind n.kind, ih]
    simp

theorem declarationHead_tokens : declarationHead [] (d.tokens.filter (!·.isBlank)) =
    (d.modifiers.map (·.token) ++ [d.name.token], d.duration?.map (·.text.token.text)) := by
  have row : d.tokens.filter (!·.isBlank) = (d.modifiers ++ [d.name]).map (·.token) ++
      ((d.duration?.map Duration.tokens).getD [] ++
        d.sign :: (d.value.filter (!·.isBlank) ++ [d.stop])) := by
    rw [filter_tokens]
    simp
  rw [row, declarationHead_names]
  cases d.duration? with
  | none => simp [declarationHead, is_of_kind d.kind_sign]
  | some lifetime =>
    simpa [declarationHead, Duration.tokens, lifetimeText, is_of_kind lifetime.left.kind,
      is_of_kind lifetime.text.kind, is_of_kind lifetime.right.kind] using d.few.resolve_left

theorem declarationForms_tokens {debug confidence : Nat} :
    declarationForms d.tokens (d.tokens.filter (!·.isBlank)) debug confidence =
      [.declaration d.name.token (d.modifiers.map (·.token)) (d.duration?.map (·.text.token.text)) d.value
        debug confidence] := by
  unfold declarationForms
  rw [declarationHead_tokens]
  simpa [value_tokens] using d.few.resolve_left

theorem any_is_eq_false (other : k ∉ [.bang, .question])
    (front : ∀ t ∈ d.front ++ d.sign :: d.value, t.is k = false) : d.tokens.any (·.is k) = false := by
  rw [tokens_eq]
  refine any_append_mark front ?_
  rw [is, beq_eq_false_iff_ne]
  rintro rfl
  apply other
  rcases d.ending with kind | kind <;> simp [kind]

theorem noArrow (member : t ∈ d.front ++ d.sign :: d.value) : t.is .funcPoint = false := by
  rw [is, beq_eq_false_iff_ne]
  intro kind
  rcases mem_append.mp member with front | later
  · have plain := d.kind_front front
    rw [kind] at plain
    revert plain
    decide
  · rcases mem_cons.mp later with rfl | value
    · cases d.kind_sign.symm.trans kind
    · exact d.plain t value (by rw [kind]; decide)

theorem exists_modifiers : ∃ first second more, d.modifiers = first :: second :: more := by
  have few := d.few
  revert few
  rcases d.modifiers with _ | ⟨first, _ | ⟨second, more⟩⟩
  · simp
  · simp
  · exact fun _ => ⟨first, second, more, rfl⟩

/-- Of the forms of a declaration one declares a variable, and none assigns one. -/
theorem exists_forms (src : Source) (inner : List Token → Except Fault (List Clause)) :
    ∃ forms, formsOf src inner d.tokens = .ok forms ∧
      ∀ form, form.isBinding = true → (form ∈ forms ↔ form = d.form) := by
  obtain ⟨first, second, more, modifiers⟩ := d.exists_modifiers
  have solid := d.filter_tokens
  rw [modifiers, map_cons, map_cons, cons_append, cons_append] at solid
  have last : d.tokens.getLast? = some d.stop := by rw [tokens_eq, getLast?_concat]
  have signed : d.tokens.any isAssignSign = true :=
    any_eq_true.mpr ⟨d.sign, by simp [tokens], d.isSign⟩
  have long : 3 ≤ (d.tokens.filter (!·.isBlank)).length := by
    rw [solid]
    simp
    omega
  have read : formsOf src inner d.tokens = plainForms d.tokens (d.tokens.filter (!·.isBlank))
      (if d.stop.is .question then d.stop.width else 0)
      (if d.stop.is .question then 0 else d.stop.width) :=
    formsOf_eq_plainForms
      (d.any_is_eq_false (by decide) fun _ member => (d.unmarked member).opens_no_scope)
      (d.any_is_eq_false (by decide) fun _ member => d.noArrow member) last long
  obtain ⟨forms, plain, bindings⟩ := binding_mem_plainForms d.tokens first.token second.token
    (more.map (·.token) ++ d.name.token :: ((d.duration?.map Duration.tokens).getD [] ++
      d.sign :: (d.value.filter (!·.isBlank) ++ [d.stop])))
    (if d.stop.is .question then d.stop.width else 0) (if d.stop.is .question then 0 else d.stop.width)
  rw [← solid] at plain bindings
  refine ⟨forms, read.trans plain, ?_⟩
  intro form binding
  have noAssignment : ∀ more, ¬assigns d.tokens first.token second.token more := by
    rintro more ⟨-, -, -, equal | bracket⟩
    · rw [is_of_kind second.kind] at equal
      cases equal
    · rw [is_of_kind second.kind] at bracket
      cases bracket
  rw [bindings form binding, declarationForms_tokens, mem_singleton]
  constructor
  · rintro (⟨-, declares⟩ | ⟨assigning, -⟩)
    · exact declares
    · exact absurd assigning (noAssignment _)
  · intro declares
    exact .inl ⟨⟨signed, noAssignment _⟩, declares⟩

theorem ofTokens_tokens {after : List Token} (blankBefore : Blank before) (blankAfter : Blank after)
    (indented : checkIndent src false d.value = .ok ()) :
    ∃ forms, ofTokens src (before ++ (d.tokens ++ after)) = .ok [.mk forms] ∧
      ∀ form, form.isBinding = true → (form ∈ forms ↔ form = d.form) := by
  obtain ⟨forms, read, bindings⟩ := d.exists_forms src (ofTokens src)
  have solid : d.stop.isBlank = false := by
    rcases d.ending with kind | kind <;> exact is_of_kind kind .whitespace
  have unbroken : ∀ t ∈ d.front ++ [d.sign], t.is .newline = false := by
    rw [forall_mem_append, forall_mem_singleton]
    exact ⟨fun t member => (d.calm_front member).2, is_of_kind d.kind_sign .newline⟩
  have indent : checkIndent src false d.tokens = .ok () := by
    rw [tokens, ← singleton_append, ← append_assoc, checkIndent_unbroken unbroken]
    exact checkIndent_concat solid indented
  refine ⟨forms, ?_, bindings⟩
  rw [d.whole.ofTokens_eq blankBefore blankAfter, indent, readStatement, read]
  rfl

end Declared

/-- A hint on a declaration changes nothing, whatever follows the declaration. If the lines of the value are
indented as they should be, the declaration is read, and the only form that declares or assigns has its
name, its modifiers, its lifetime and its value. -/
theorem hint_changes_nothing (src : Source) (d : Declared) (h : Hint) {before : List Token}
    (blankBefore : Blank before) :
    (∀ more, ofTokens src (before ++ (d.hinted h ++ more)) = ofTokens src (before ++ (d.tokens ++ more))) ∧
    ∀ after, Blank after → checkIndent src false d.value = .ok () →
      ∃ forms, ofTokens src (before ++ (d.hinted h ++ after)) = .ok [.mk forms] ∧
        ofTokens src (before ++ (d.tokens ++ after)) = .ok [.mk forms] ∧
        ∀ form, form.isBinding = true → (form ∈ forms ↔ form = d.form) := by
  have same : ∀ more, ofTokens src (before ++ (d.hinted h ++ more)) =
      ofTokens src (before ++ (d.tokens ++ more)) := fun more => d.ofTokens_hinted h blankBefore more
  refine ⟨same, ?_⟩
  intro after blankAfter indented
  obtain ⟨forms, read, bindings⟩ := d.ofTokens_tokens blankBefore blankAfter indented
  exact ⟨forms, (same after).trans read, read, bindings⟩

def ninefold : Declared where
  modifiers := [⟨⟨.name, "const", 1, 4⟩, rfl⟩, ⟨⟨.name, "var", 1, 8⟩, rfl⟩]
  few := .inl rfl
  name := ⟨⟨.name, "xs", 1, 11⟩, rfl⟩
  duration? := some
    { left := ⟨⟨.lessThan, "<", 1, 12⟩, rfl⟩
      text := ⟨⟨.name, "9", 1, 13⟩, rfl⟩
      right := ⟨⟨.greaterThan, ">", 1, 14⟩, rfl⟩ }
  front := [⟨.name, "const", 1, 4⟩, ⟨.whitespace, " ", 1, 5⟩, ⟨.name, "var", 1, 8⟩, ⟨.whitespace, " ", 1, 9⟩,
    ⟨.name, "xs", 1, 11⟩, ⟨.lessThan, "<", 1, 12⟩, ⟨.name, "9", 1, 13⟩, ⟨.greaterThan, ">", 1, 14⟩]
  layout := rfl
  starts := by simp [isBlank]
  sign := ⟨.equal, "=", 1, 24⟩
  isSign := rfl
  value := [⟨.whitespace, " ", 1, 25⟩, ⟨.lSquare, "[", 1, 26⟩, ⟨.name, "1", 1, 27⟩, ⟨.rSquare, "]", 1, 28⟩]
  plain := by decide
  stop := ⟨.question, "?", 1, 29⟩
  ending := .inr rfl

def threeInts : Hint where
  colon := ⟨⟨.colon, ":", 1, 15⟩, rfl⟩
  tokens := [⟨.whitespace, " ", 1, 16⟩, ⟨.name, "Int", 1, 19⟩, ⟨.lSquare, "[", 1, 20⟩, ⟨.name, "3", 1, 21⟩,
    ⟨.rSquare, "]", 1, 22⟩, ⟨.whitespace, " ", 1, 23⟩]
  plain := by decide
  noOperator := by decide
  balanced := by decide
  proper := by decide

/-- A declaration with a lifetime in front of its hint is read with both. -/
theorem ninefold_threeInts : Blank [] ∧ checkIndent default false ninefold.value = .ok () ∧
    ∃ forms, ofTokens default ([] ++ (ninefold.hinted threeInts ++ [])) = .ok [.mk forms] ∧
      .declaration ⟨.name, "xs", 1, 11⟩ [⟨.name, "const", 1, 4⟩, ⟨.name, "var", 1, 8⟩] (some "9")
        ninefold.value 1 0 ∈ forms := by
  have nothing : Blank [] := by simp [Blank]
  have indented : checkIndent default false ninefold.value = .ok () := rfl
  obtain ⟨forms, read, -, bindings⟩ :=
    (hint_changes_nothing default ninefold threeInts nothing).2 [] nothing indented
  exact ⟨nothing, indented, forms, read, (bindings _ rfl).mpr rfl⟩

end Clause

end DreamBerd
