import DreamBerd.Proofs.Extents
import DreamBerd.Proofs.Publication

/-!
# Published code

Every statement of a source that can be read survives publication: it is read as it was published, and
the description that is read belongs to no other statement. `Datum.survives_ofForm` says so of one
form, given its expressions and its block; `Clause.block_induction` carries it to any depth. The
numbers of a source are never too long to be written, as it would have to be too long itself.
-/

namespace DreamBerd

open List

variable {form : Form (List Token) (List Clause)} {code : List Clause}

/-! ## Induction over blocks -/

theorem Form.sizeOf_code? (block : form.code? = some code) : sizeOf code < sizeOf form := by
  cases form with
  | function ks n as c a | classDeclaration k n c | conditional k e c | when k e c | after k e c =>
    cases block
    simp
  | _ => cases block

theorem Clause.block_induction {motive : List Clause → Prop}
    (step : ∀ clauses, (∀ c ∈ clauses, ∀ form ∈ c.forms, ∀ code, form.code? = some code →
      motive code) → motive clauses) (clauses : List Clause) : motive clauses := by
  induction size : sizeOf clauses using Nat.strongRecOn generalizing clauses with
  | ind n ih =>
    apply step
    intro c member form among code block
    refine ih (sizeOf code) ?_ code rfl
    rcases c with ⟨forms⟩
    have inner := form.sizeOf_code? block
    have outer := sizeOf_lt_of_mem member
    have middle := sizeOf_lt_of_mem among
    simp only [Clause.forms, Clause.mk.sizeOf_spec] at middle outer
    omega

/-! ## Short numbers -/

/-- The line and the column of the token are not too long to be written. -/
def Token.Short (t : Token) : Prop :=
  t.line.natAbs < 10 ^ Decimal.maxDigits ∧ t.col.natAbs < 10 ^ Decimal.maxDigits

/-- The numbers of the form outside its block are not too long to be written. -/
structure Form.Short {κ : Type} (form : Form (List Token) κ) : Prop where
  own : ∀ t ∈ form.ownTokens, t.Short
  expressions : ∀ e ∈ form.expressions, ∀ t ∈ e, t.Short
  counts : ∀ n ∈ form.counts, n < 10 ^ Decimal.maxDigits

namespace Datum

variable {fields : List (String × Datum)} {ds : List Datum} {κ : Type} {clauses : List Clause}

/-! ## Parts that survive -/

/-- The datum is published, read as it was, and equal to itself. -/
structure Survives (d : Datum) : Prop where
  returns : Returns d
  equal : same d d = true

theorem survives_none : Survives none :=
  ⟨returns_none, by simp [same, sameAtom, number?]⟩

theorem survives_truth (b : Bool) : Survives (truth b) := ⟨returns_truth b, same_truth b⟩

theorem survives_int (short : n.natAbs < 10 ^ Decimal.maxDigits) : Survives (int n) :=
  ⟨returns_int short, same_int n⟩

theorem survives_text (s : String) : Survives (text s) := ⟨returns_text s, same_text s⟩

theorem ofSymbol?_symbol (k : TokenKind) : TokenKind.ofSymbol? k.symbol = some k := by
  cases k <;> rfl

theorem survives_kind (k : TokenKind) : Survives (kind k) := by
  refine ⟨⟨plainForm "TokenType" (.text k.symbol), by rw [publish], ?_⟩, ?_⟩
  · have read : ofPublished (plainForm "TokenType" (.text k.symbol)) =
        readAtom "TokenType" (.text k.symbol) := rfl
    simp [read, readAtom, readWord, ofSymbol?_symbol]
  · simp [same, sameAtom, number?]

theorem survives_tuple (all : ∀ d ∈ ds, Survives d) : Survives (tuple ds) := by
  refine ⟨returns_tuple fun d member => (all d member).returns, ?_⟩
  rw [same]
  exact sameAll_self fun d member => (all d member).equal

theorem ofPublished_list {items : List Json} :
    ofPublished (plainForm "list" (.list items)) = (do return list (← readAll items)) := rfl

theorem survives_list (all : ∀ d ∈ ds, Survives d) : Survives (list ds) := by
  rcases returns_all fun d member => (all d member).returns with ⟨js, publishedAll, readsAll⟩
  refine ⟨⟨plainForm "list" (.list js), ?_, ?_⟩, ?_⟩
  · rw [publish, publishedAll]
    rfl
  · rw [ofPublished_list, readsAll]
    rfl
  · rw [same]
    exact sameAll_self fun d member => (all d member).equal

/-! ## Records -/

theorem putAttribute_of_not_mem {read : List (String × Datum)}
    (fresh : a.1 ∉ read.map (·.1)) : putAttribute read a = read ++ [a] := by
  induction read with
  | nil => rfl
  | cons b bs ih =>
    rw [map_cons, mem_cons, not_or] at fresh
    rw [putAttribute, if_neg (by simpa using Ne.symm fresh.1), ih fresh.2, cons_append]

theorem returns_fields (all : ∀ f ∈ fields, Returns f.2) :
    ∃ js, publishFields fields = .ok js ∧
      ∀ read, ((read ++ fields).map (·.1)).Nodup →
        readAttributes (attributeForms js) read = .ok (read ++ fields) := by
  induction fields with
  | nil =>
    refine ⟨[], by rw [publishFields], ?_⟩
    intro read _
    rw [attributeForms, map_nil, readAttributes, append_nil]
  | cons f fs ih =>
    rcases all f mem_cons_self with ⟨j, published, reads⟩
    rcases ih (forall_mem_cons.mp all).2 with ⟨js, publishedAll, readsAll⟩
    refine ⟨(f.1, j) :: js, ?_, ?_⟩
    · rw [publishFields, published, publishedAll]
      rfl
    · intro read distinct
      have fresh : f.1 ∉ read.map (·.1) := by
        rw [map_append, nodup_append] at distinct
        exact fun member => distinct.2.2 f.1 member f.1 mem_cons_self rfl
      rw [readAttributes_cons, reads]
      show readAttributes (attributeForms js) (putAttribute read f) = _
      rw [putAttribute_of_not_mem fresh, readsAll _ (by simpa using distinct), append_assoc,
        singleton_append]

theorem sameFields_self (all : ∀ f ∈ fields, same f.2 f.2 = true) :
    sameFields fields fields = true := by
  induction fields with
  | nil => rw [sameFields]; rfl
  | cons f fs ih =>
    rw [sameFields]
    simp only [beq_self_eq_true, all f mem_cons_self]
    exact ih (forall_mem_cons.mp all).2

theorem parameters_nodup (t : RecordType) : (t.parameters.map (·.1)).Nodup := by
  cases t <;> decide

theorem survives_described {t : RecordType} (known : RecordType.published.contains t = true)
    (full : ds.length = t.parameters.length)
    (made : make t ((t.parameters.map (·.1)).zip ds) = .ok (described t ds))
    (all : ∀ d ∈ ds, Survives d) : Survives (described t ds) := by
  have distinct := parameters_nodup t
  have named : ((t.parameters.map (·.1)).zip ds).map (·.1) = t.parameters.map (·.1) :=
    map_fst_zip (by rw [length_map, full])
  have each : ∀ f ∈ (t.parameters.map (·.1)).zip ds, Survives f.2 :=
    fun f member => all f.2 (of_mem_zip member).2
  rw [← named] at distinct
  rcases returns_fields fun f member => (each f member).returns with ⟨js, published, readsAll⟩
  refine ⟨⟨recordForm t.typeName js, ?_, ?_⟩, ?_⟩
  · rw [described, publish, if_pos known, published]
    rfl
  · rw [ofPublished_attributeForms, recordTypeOf_typeName known, readsAll [] (by simpa using distinct)]
    exact made
  · rw [described, same]
    simp only [beq_self_eq_true]
    exact sameFields_self fun f member => (each f member).equal

/-! ## Tokens and forms -/

theorem survives_ofToken {t : Token} (short : t.Short) : Survives (ofToken t) := by
  apply survives_described rfl rfl rfl
  simp only [forall_mem_cons]
  exact ⟨survives_kind t.kind, survives_text t.text, survives_int short.1, survives_int short.2,
    forall_mem_nil _⟩

theorem survives_ofTokens {ts : List Token} (short : ∀ t ∈ ts, t.Short) : Survives (ofTokens ts) := by
  apply survives_list
  intro d member
  rcases mem_map.mp member with ⟨t, among, rfl⟩
  exact survives_ofToken (short t among)

theorem survives_count {n : Nat} (short : n < 10 ^ Decimal.maxDigits) : Survives (int n) :=
  survives_int (by rwa [Int.natAbs_natCast])

theorem survives_ofForm {describe : κ → Datum} {form : Form (List Token) κ} (short : form.Short)
    (block : ∀ code, form.code? = some code → Survives (describe code)) :
    Survives (ofForm ofTokens describe form) := by
  rcases short with ⟨own, expressions, counts⟩
  cases form
  all_goals
    apply survives_described rfl rfl rfl
    simp only [Form.ownTokens, Form.expressions, Form.counts, forall_mem_append, forall_mem_cons]
      at own expressions counts ⊢
  case function ks n as c a =>
    exact ⟨survives_ofTokens own.1, survives_ofToken own.2.1, survives_ofTokens own.2.2,
      block c rfl, survives_truth a, forall_mem_nil _⟩
  case classDeclaration k n c =>
    exact ⟨survives_ofToken own.1, survives_ofToken own.2.1, block c rfl, forall_mem_nil _⟩
  case declaration n ms l e d c =>
    refine ⟨survives_ofToken own.1, survives_ofTokens own.2, ?_, survives_ofTokens expressions.1,
      survives_count counts.1, survives_count counts.2.1, forall_mem_nil _⟩
    cases l with
    | none => exact survives_none
    | some s => exact survives_text s
  case assignment n e d is c =>
    refine ⟨survives_ofToken own.1, survives_ofTokens expressions.1, survives_count counts.1, ?_,
      survives_count counts.2.1, forall_mem_nil _⟩
    apply survives_list
    intro f member
    rcases mem_map.mp member with ⟨index, among, rfl⟩
    exact survives_ofTokens (expressions.2 index among)
  case conditional k e c | when k e c | after k e c =>
    exact ⟨survives_ofToken own.1, survives_ofTokens expressions.1, block c rfl, forall_mem_nil _⟩
  case returns k e d =>
    refine ⟨?_, survives_ofTokens expressions.1, survives_count counts.1, forall_mem_nil _⟩
    cases k with
    | none => exact survives_none
    | some t => exact survives_ofToken (own t mem_cons_self)
  case delete k n d =>
    exact ⟨survives_ofToken own.1, survives_ofToken own.2.1, survives_count counts.1, forall_mem_nil _⟩
  case reverse k d => exact ⟨survives_ofToken own.1, survives_count counts.1, forall_mem_nil _⟩
  case expression e d =>
    exact ⟨survives_ofTokens expressions.1, survives_count counts.1, forall_mem_nil _⟩
  case exports k ns t f d =>
    exact ⟨survives_ofToken own.1, survives_ofTokens own.2.2.2, survives_ofToken own.2.1,
      survives_ofToken own.2.2.1, survives_count counts.1, forall_mem_nil _⟩
  case imports k ns d =>
    exact ⟨survives_ofToken own.1, survives_ofTokens own.2, survives_count counts.1, forall_mem_nil _⟩

/-! ## Blocks -/

theorem ofForms_eq (forms : List (Form (List Token) (List Clause))) :
    ofForms forms = forms.map (ofForm ofTokens ofBlock) := by
  induction forms with
  | nil => rw [ofForms, map_nil]
  | cons form forms ih =>
    have own : ofForm ofTokens (fun _ => ofInner form) form = ofForm ofTokens ofBlock form := by
      cases form <;> simp only [ofForm, ofInner]
    rw [ofForms, own, ih, map_cons]

theorem ofClauses_eq (clauses : List Clause) :
    ofClauses clauses = clauses.map fun c => tuple (c.forms.map (ofForm ofTokens ofBlock)) := by
  induction clauses with
  | nil => rw [ofClauses, map_nil]
  | cons c clauses ih =>
    rcases c with ⟨forms⟩
    rw [ofClauses, ofForms_eq, ih, map_cons, Clause.forms]

theorem ofBlock_eq (clauses : List Clause) :
    ofBlock clauses =
      list (clauses.map fun c => tuple (c.forms.map (ofForm ofTokens ofBlock))) := by
  rw [ofBlock, ofClauses_eq]

theorem survives_ofBlock (short : ∀ form, Clause.Within clauses form → form.Short) :
    Survives (ofBlock clauses) := by
  induction clauses using Clause.block_induction with
  | step clauses ih =>
    rw [ofBlock_eq]
    apply survives_list
    intro d member
    rcases mem_map.mp member with ⟨c, among, rfl⟩
    apply survives_tuple
    intro d member
    rcases mem_map.mp member with ⟨form, own, rfl⟩
    refine survives_ofForm (short form (.own among own)) fun code block => ?_
    exact ih c among form own code block fun inner within => short inner (.inside among own block within)

/-! ## Descriptions tell statements apart -/

theorem ofToken_injective : Function.Injective ofToken := by
  intro t u equal
  rcases t with ⟨k, s, l, c⟩
  rcases u with ⟨k', s', l', c'⟩
  simpa [ofToken, described, RecordType.parameters, RecordType.required] using equal

theorem ofTokens_injective : Function.Injective ofTokens := by
  intro ts us equal
  simp only [ofTokens, list.injEq] at equal
  exact map_injective_iff.mpr ofToken_injective equal

theorem keyword_inj {k k' : Option Token} :
    (k.map ofToken).getD none = (k'.map ofToken).getD none ↔ k = k' := by
  constructor
  · intro equal
    cases k with
    | none =>
      cases k' with
      | none => rfl
      | some u => cases equal
    | some t =>
      cases k' with
      | none => cases equal
      | some u => rw [ofToken_injective equal]
  · intro equal
    rw [equal]

theorem lifetime_inj {l l' : Option String} :
    (l.map text).getD none = (l'.map text).getD none ↔ l = l' := by
  cases l <;> cases l' <;> simp

theorem ofForm_inj {describe : κ → Datum} {form other : Form (List Token) κ}
    (block : ∀ code, form.code? = some code →
      ∀ code', describe code = describe code' ↔ code = code')
    (equal : ofForm ofTokens describe form = ofForm ofTokens describe other) : form = other := by
  have indexes : ∀ is is' : List (List Token), is.map ofTokens = is'.map ofTokens ↔ is = is' :=
    fun is is' => (map_injective_iff.mpr ofTokens_injective).eq_iff
  -- descriptions of forms of different kinds differ in their type names
  cases form <;> cases other <;> injection equal with kind fields <;> first
    | contradiction
    | simp_all [Form.code?, RecordType.parameters, RecordType.required, ofToken_injective.eq_iff,
        ofTokens_injective.eq_iff, keyword_inj, lifetime_inj]

theorem eq_of_map_eq {f : α → β} {xs ys : List α}
    (apart : ∀ x ∈ xs, ∀ y, f x = f y → x = y) (equal : xs.map f = ys.map f) : xs = ys := by
  induction xs generalizing ys with
  | nil => exact (map_eq_nil_iff.mp equal.symm).symm
  | cons x xs ih =>
    cases ys with
    | nil => cases equal
    | cons y ys =>
      rw [map_cons, map_cons, List.cons.injEq] at equal
      rw [apart x mem_cons_self y equal.1,
        ih ((forall_mem_cons.mp apart).2) equal.2]

theorem ofBlock_inj {others : List Clause} : ofBlock clauses = ofBlock others ↔ clauses = others := by
  refine ⟨fun equal => ?_, fun equal => by rw [equal]⟩
  induction clauses using Clause.block_induction generalizing others with
  | step clauses ih =>
    rw [ofBlock_eq, ofBlock_eq, list.injEq] at equal
    refine eq_of_map_eq (fun c member c' same => ?_) equal
    rw [tuple.injEq] at same
    rcases c with ⟨forms⟩
    rcases c' with ⟨forms'⟩
    refine congrArg Clause.mk (eq_of_map_eq (fun form among other same => ?_) same)
    refine ofForm_inj (fun code block code' => ?_) same
    exact ⟨ih _ member form among code block, fun equal => by rw [equal]⟩

theorem ofReadForm_injective : Function.Injective ofReadForm := by
  intro form other equal
  exact ofForm_inj (fun _ _ _ => ofBlock_inj) equal

end Datum

/-! ## The statements of a source -/

theorem Clause.Within.trans {clauses : List Clause} {outer : Form (List Token) (List Clause)}
    (outside : Within clauses outer) (block : outer.code? = some code) (within : Within code form) :
    Within clauses form := by
  induction outside with
  | own member among => exact .inside member among block within
  | inside member among block' _ ih => exact .inside member among block' (ih block)

namespace Source

variable {src : Source} {clauses : List Clause}

theorem short_of_within (fits : src.code.length + lexerPadding.length < 10 ^ Decimal.maxDigits)
    (read : src.clauses = .ok clauses) (within : Clause.Within clauses form) : form.Short := by
  rcases src.tokens_cases with ⟨tokens, cut, -⟩ | ⟨r, reported⟩
  · have bounds := bounds_tokens cut
    have short : ∀ t ∈ tokens, t.Short := by
      intro t member
      have bound := bounds t member
      exact ⟨Nat.lt_of_le_of_lt bound.1 fits, Nat.lt_of_le_of_lt bound.2.1 fits⟩
    rw [clauses_of_tokens cut] at read
    rcases within.drawn read with ⟨⟨own, counts⟩, expressions⟩
    refine ⟨fun t member => short t (own member), ?_, ?_⟩
    · exact fun e member t among => short t (expressions e member among)
    · intro n member
      rcases counts n member with zero | ⟨t, among, width⟩
      · rw [zero]
        exact Nat.pow_pos (by decide)
      · rw [width]
        exact Nat.lt_of_le_of_lt (bounds t among).2.2 fits
  · rw [Source.clauses, reported] at read
    cases read

/-- Code survives publication. Every form of every statement of a source, at any depth, is published
and read as it was, what is read is equal to it, and it is the description of no other form. No
machine holds a text that is too long for its columns to be written. -/
theorem restored_of_within (fits : src.code.length + lexerPadding.length < 10 ^ Decimal.maxDigits)
    (read : src.clauses = .ok clauses) (within : Clause.Within clauses form) :
    ∃ j, (Datum.ofReadForm form).publish = .ok j ∧
      Datum.ofPublished j = .ok (Datum.ofReadForm form) ∧
      (Datum.ofReadForm form).same (Datum.ofReadForm form) = true ∧
      ∀ other, Datum.ofPublished j = .ok (Datum.ofReadForm other) → other = form := by
  have survives : Datum.Survives (Datum.ofReadForm form) := by
    refine Datum.survives_ofForm (short_of_within fits read within) fun code block => ?_
    exact Datum.survives_ofBlock fun inner inside =>
      short_of_within fits read (within.trans block inside)
  rcases survives.returns with ⟨j, published, reads⟩
  refine ⟨j, published, reads, survives.equal, fun other also => ?_⟩
  rw [reads, Except.ok.injEq] at also
  exact Datum.ofReadForm_injective also.symm

def nested : Source := ⟨"main.db", "if a \x7b\n   b!\n\x7d"⟩

/-- The inner statement, read as a reversal. -/
def nestedForm : Form (List Token) (List Clause) := .reverse ⟨.name, "b", 2, 4⟩ 0

theorem nested_reads : ∃ clauses, nested.clauses = .ok clauses ∧ Clause.Within clauses nestedForm := by
  have cut : nested.tokens = .ok [⟨.name, "if", 1, 1⟩, ⟨.whitespace, " ", 1, 2⟩, ⟨.name, "a", 1, 3⟩,
      ⟨.whitespace, " ", 1, 4⟩, ⟨.lCurly, "\x7b", 1, 5⟩, ⟨.newline, "\n", 2, 0⟩,
      ⟨.whitespace, "   ", 2, 3⟩, ⟨.name, "b", 2, 4⟩, ⟨.bang, "!", 2, 5⟩, ⟨.newline, "\n", 3, 0⟩,
      ⟨.rCurly, "\x7d", 3, 1⟩, ⟨.whitespace, "   ", 3, 4⟩] := by
    decide +kernel
  refine ⟨_, (clauses_of_tokens cut).trans rfl, ?_⟩
  exact .inside mem_cons_self mem_cons_self rfl
    (.own mem_cons_self mem_cons_self)

theorem restored_of_within_nested :
    ∃ clauses j, nested.clauses = .ok clauses ∧ Clause.Within clauses nestedForm ∧
      (Datum.ofReadForm nestedForm).publish = .ok j ∧
      Datum.ofPublished j = .ok (Datum.ofReadForm nestedForm) := by
  rcases nested_reads with ⟨clauses, read, within⟩
  have fits : nested.code.length + lexerPadding.length < 10 ^ Decimal.maxDigits :=
    calc
      _ < 10 ^ 2 := by decide
      _ ≤ 10 ^ Decimal.maxDigits := Nat.pow_le_pow_right (by decide) (by decide)
  rcases restored_of_within fits read within with ⟨j, published, returned, -⟩
  exact ⟨clauses, j, read, within, published, returned⟩

end Source

end DreamBerd
