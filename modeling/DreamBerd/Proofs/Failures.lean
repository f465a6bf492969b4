import DreamBerd.Proofs.Scopes

/-!
# How reading a source fails

A source is cut into tokens, the tokens are read into clauses, and the expressions that the clauses
hold are read when they are needed. At each stage a source that cannot be read is reported with a
complaint that points into it, with two exceptions, which break down instead:

* a statement that is only a type hint has no tokens left when the hint is dropped (`MeetsBareHint`);
  inside a scope the statement around it turns the breakdown into a complaint;
* an expression whose reading comes to a part that cannot be split (`Expr.Stumbles`).

`Source.faults_of_reading` says that there are no others.
-/

namespace DreamBerd

open List

variable {src : Source} {tokens e : List Token} {f : Fault} {clauses : List Clause} {inRow : Bool}

namespace Form

variable {ε κ : Type}

def expressions : Form ε κ → List ε
  | declaration _ _ _ e _ _ => [e]
  | assignment _ e _ indexes _ => e :: indexes
  | conditional _ e _ => [e]
  | returns _ e _ => [e]
  | expression e _ => [e]
  | when _ e _ => [e]
  | after _ e _ => [e]
  | _ => []

def ownTokens : Form ε κ → List Token
  | function ks n as _ _ => ks ++ n :: as
  | classDeclaration k n _ => [k, n]
  | declaration n ms _ _ _ _ => n :: ms
  | assignment n _ _ _ _ => [n]
  | conditional k _ _ => [k]
  | returns k _ _ => k.toList
  | delete k n _ => [k, n]
  | reverse k _ => [k]
  | expression _ _ => []
  | when k _ _ => [k]
  | after k _ _ => [k]
  | exports k ns t f _ => k :: t :: f :: ns
  | imports k ns _ => k :: ns

def counts : Form ε κ → List Nat
  | declaration _ _ _ _ d c => [d, c]
  | assignment _ _ d _ c => [d, c]
  | returns _ _ d => [d]
  | delete _ _ d => [d]
  | reverse _ d => [d]
  | expression _ d => [d]
  | exports _ _ _ _ d => [d]
  | imports _ _ d => [d]
  | _ => []

end Form

namespace Clause

variable {solid ts current : List Token} {forms : List (Form (List Token) (List Clause))}
  {inner : List Token → Except Fault (List Clause)} {code : List Clause} {debug confidence openAt : Nat}
  {state : HintState} {form : Form (List Token) (List Clause)} {c : Prop} {depth : Int}
  {hintless : List (List Token)} {α : Type}

/-! ## Reports -/

theorem reported_of_checkIndent {atStart : Bool} (holds : src.Holds tokens)
    (refused : checkIndent src atStart tokens = .error f) : f.Reported := by
  fun_induction checkIndent src atStart tokens
  case case1 => cases refused
  case case2 =>
    cases refused
    exact holds.head.atToken _
  case case3 ih | case4 ih => exact ih holds.tail refused

theorem skipping_of_ite [Decidable c] {state' : HintState}
    (skips : (if c then state else state').skipping = some t)
    (same : state.skipping = state'.skipping) : state'.skipping = some t := by
  split at skips
  · exact same.symm.trans skips
  · exact skips

theorem reported_of_dropHints (holds : src.Holds tokens)
    (skipping : ∀ t, state.skipping = some t → src.HasLine t.line)
    (refused : dropHints src state tokens = .error f) : f.Reported := by
  fun_induction dropHints src state tokens
  case case1 skipped =>
    cases refused
    exact (skipping _ skipped).atToken _
  case case2 => cases refused
  case case3 ih =>
    refine ih holds.tail ?_ refused
    rintro t ⟨⟩
  case case4 ih => exact ih holds.tail skipping refused
  case case5 ih | case6 ih =>
    refine ih holds.tail ?_ (map_eq_error_iff.mp refused)
    intro t skips
    have kept := skipping_of_ite skips rfl
    exact skipping t kept
  case case7 ih =>
    refine ih holds.tail ?_ refused
    rintro t ⟨⟩
    exact holds.head
  case case8 ih =>
    refine ih holds.tail ?_ refused
    intro t skips
    have kept := skipping_of_ite skips rfl
    exact skipping t kept

theorem reported_of_functionHead (holds : src.Holds tokens)
    (refused : functionHead src inRow tokens = .error f) : f.Reported := by
  fun_induction functionHead src inRow tokens
  case case1 | case2 => cases refused
  case case3 ih | case4 ih => exact ih holds.tail refused
  case case5 ih | case6 ih => exact ih holds.tail (map_eq_error_iff.mp refused)
  case case7 ih => exact ih holds.tail refused
  case case8 =>
    cases refused
    exact holds.head.atToken _

theorem fault_of_functionForms (holds : src.Holds solid)
    (failed : functionForms src solid code = .error f) : f.Reported ∨ f = .breakdown .position := by
  unfold functionForms at failed
  split at failed
  · rename_i refused
    cases failed
    exact Or.inl (reported_of_functionHead holds refused)
  · split at failed
    · cases failed
    · split at failed <;> cases failed
    · cases failed
    · split at failed
      · rename_i t starts
        cases failed
        exact Or.inl ((holds t (mem_of_mem_head? starts)).atToken _)
      · cases failed
        exact Or.inr rfl

theorem fault_of_scopedForms (holds : src.Holds solid)
    (failed : scopedForms src tokens solid openAt code = .error f) :
    f.Reported ∨ f = .breakdown .position := by
  unfold scopedForms at failed
  split at failed
  · exact fault_of_functionForms holds failed
  · split at failed
    · dsimp only at failed
      split at failed
      · split at failed <;> cases failed
      · cases failed
    · cases failed
      exact Or.inr rfl

theorem fault_of_unscopedForms (holds : src.Holds solid)
    (failed : unscopedForms src tokens solid = .error f) : f.Reported ∨ f = .breakdown .position := by
  unfold unscopedForms at failed
  split at failed
  · cases failed
    exact Or.inr rfl
  · dsimp only at failed
    split at failed
    · cases failed
    · split at failed
      · exact fault_of_functionForms holds failed
      · cases solid with
        | nil =>
          cases failed
          exact Or.inr rfl
        | cons head rest => cases failed

/-- The inside of a scope is a shorter piece of the statement that holds it. -/
theorem part_inside (some : tokens ≠ []) (start ending : Nat) :
    Expr.Part tokens (Expr.slice tokens (start + 1) (tokens.length - ending - 1)) :=
  .slice some _ _

theorem fault_of_formsOf (holds : src.Holds tokens) (failed : formsOf src inner tokens = .error f) :
    f.Reported ∨ f = .breakdown .position ∨
      ∃ inside, Expr.Part tokens inside ∧ inner inside = .error f := by
  have solids : src.Holds (tokens.filter (!·.isBlank)) := holds.subset (filter_subset_self _)
  unfold formsOf at failed
  dsimp only at failed
  split at failed
  · split at failed
    · rename_i last head ends starts
      have some : tokens ≠ [] := by
        rintro rfl
        cases ends
      generalize (if (last.is .bang || last.is .question) = true then 1 else 0) = ending at failed
      split at failed
      · cases failed
        exact Or.inl ((holds last (mem_of_getLast? ends)).atToken _)
      · split at failed
        · cases failed
          exact Or.inl ((solids head (mem_of_mem_head? starts)).atToken _)
        · split at failed
          · rename_i g refused
            cases failed
            exact Or.inr (Or.inr ⟨_, part_inside some _ _, refused⟩)
          · exact (fault_of_scopedForms solids failed).imp_right Or.inl
    · cases failed
      exact Or.inr (Or.inl rfl)
  · exact (fault_of_unscopedForms solids failed).imp_right Or.inl

/-! ## Statements are made of the tokens of the text -/

theorem moved_subset (t : Token) (current ts : List Token) :
    t :: current ++ ts ⊆ current ++ t :: ts := by
  intro t' among
  simp only [mem_cons, mem_append] at among ⊢
  tauto

theorem reverse_subset_append (xs ys : List Token) : xs.reverse ⊆ xs ++ ys :=
  List.Subset.trans (reverse_subset.mpr (List.Subset.refl xs)) (subset_append_left xs ys)

theorem later_subset (t : Token) (current ts : List Token) : current ++ ts ⊆ current ++ t :: ts :=
  ((sublist_cons_self t ts).append_left current).subset

/-- The statements of a text without their hints. -/
def Hintless (src : Source) (tokens : List Token) (hintless : List (List Token)) : Prop :=
  (statements tokens).mapM (dropHints src {}) = .ok hintless

theorem Hintless.sublist (dropped : Hintless src tokens hintless) (member : ts ∈ hintless) :
    ts <+ tokens := by
  obtain ⟨statement, among, drops⟩ := exists_of_mem_mapM dropped member
  exact (dropHints_sublist drops).trans (sublist_of_mem_statements among)

/-! ## Faults of reading a text -/

def readStatement (src : Source) (ts : List Token) : Except Fault Clause :=
  (orUnreadable src (ts.filter (!·.isBlank)) (formsOf src (ofTokens src) ts)).map .mk

theorem ofTokens_eq_error_iff : ofTokens src tokens = .error f ↔
    checkIndent src false tokens = .error f ∨
    checkIndent src false tokens = .ok () ∧ ((statements tokens).mapM (dropHints src {}) = .error f ∨
      ∃ hintless, Hintless src tokens hintless ∧
        hintless.mapM (readStatement src) = .error f) := by
  rw [ofTokens_eq]
  unfold readWith Hintless
  cases checkIndent src false tokens with
  | error g => simp [bind, Except.bind]
  | ok _ =>
    cases (statements tokens).mapM (dropHints src {}) with
    | error g => simp [bind, Except.bind]
    | ok hintless =>
      show hintless.mapM (readStatement src) = .error f ↔ _
      simp

/-- Where a statement has a token to point at, a missing position becomes a complaint. -/
theorem fault_of_orUnreadable (holds : src.Holds solid) (some : solid ≠ [])
    (failed : orUnreadable src solid r = .error f) :
    f.Reported ∨ f ≠ .breakdown .position ∧ r = .error f := by
  obtain ⟨t, ts, rfl⟩ := exists_cons_of_ne_nil some
  unfold orUnreadable at failed
  split at failed
  · cases failed
    exact Or.inl (holds.head.atLine _)
  · rename_i other
    subst failed
    refine Or.inr ⟨?_, rfl⟩
    rintro rfl
    exact other rfl

def Blank (ts : List Token) : Prop := ∀ t ∈ ts, t.isBlank = true

theorem Blank.any_eq_false (blank : Blank ts) (other : k ≠ .whitespace) : ts.any (·.is k) = false := by
  rw [List.any_eq_false]
  intro t member isKind
  have kind : t.kind = .whitespace := eq_of_beq (blank t member)
  exact other ((eq_of_beq isKind).symm.trans kind)

theorem Blank.filter_eq_nil (blank : Blank ts) : ts.filter (!·.isBlank) = [] := by
  rw [filter_eq_nil_iff]
  intro t member
  rw [blank t member]
  exact Bool.false_ne_true

theorem blank_of_filter_eq_nil (none : ts.filter (!·.isBlank) = []) : Blank ts := by
  intro t member
  have solid := filter_eq_nil_iff.mp none t member
  simpa using solid

theorem Blank.formsOf_eq (blank : Blank tokens) :
    formsOf src inner tokens = .error (.breakdown .position) := by
  unfold formsOf
  rw [blank.any_eq_false (by decide), if_neg Bool.false_ne_true, blank.filter_eq_nil]
  unfold unscopedForms
  rw [blank.any_eq_false (by decide)]
  split
  · rfl
  · rfl

theorem Blank.readStatement_eq (blank : Blank tokens) :
    readStatement src tokens = .error (.breakdown .position) := by
  rw [readStatement, blank.filter_eq_nil, blank.formsOf_eq]
  rfl

theorem fault_of_readStatement (holds : src.Holds tokens)
    (inside : ∀ part, Expr.Part tokens part → ∀ g, ofTokens src part = .error g →
      g.Reported ∨ g = .breakdown .position) (failed : readStatement src tokens = .error f) :
    f.Reported ∨ f = .breakdown .position ∧ Blank tokens := by
  by_cases none : tokens.filter (!·.isBlank) = []
  · have blank := blank_of_filter_eq_nil none
    rw [blank.readStatement_eq] at failed
    cases failed
    exact Or.inr ⟨rfl, blank⟩
  · have solids : src.Holds (tokens.filter (!·.isBlank)) := holds.subset (filter_subset_self _)
    rcases fault_of_orUnreadable solids none (map_eq_error_iff.mp failed) with reported | ⟨other, own⟩
    · exact Or.inl reported
    · rcases fault_of_formsOf holds own with reported | breaks | ⟨part, isPart, fails⟩
      · exact Or.inl reported
      · exact absurd breaks other
      · rcases inside part isPart f fails with reported | breaks
        · exact Or.inl reported
        · exact absurd breaks other

/-- Reading comes to a statement of which nothing is left when its hints are dropped. -/
structure MeetsBareHint (src : Source) (tokens : List Token) : Prop where
  indented : checkIndent src false tokens = .ok ()
  blank : ∃ before ts after, Hintless src tokens (before ++ ts :: after) ∧
    (∀ b ∈ before, ∃ c, readStatement src b = .ok c) ∧ Blank ts

theorem MeetsBareHint.ofTokens_eq (meets : MeetsBareHint src tokens) :
    ofTokens src tokens = .error (.breakdown .position) := by
  obtain ⟨before, ts, after, hintless, read, blank⟩ := meets.blank
  refine ofTokens_eq_error_iff.mpr (Or.inr ⟨meets.indented, Or.inr ⟨_, hintless, ?_⟩⟩)
  exact mapM_eq_error_iff.mpr ⟨before, ts, after, rfl, read, blank.readStatement_eq⟩

theorem fault_of_ofTokens (holds : src.Holds tokens) (failed : ofTokens src tokens = .error f) :
    f.Reported ∨ f = .breakdown .position ∧ MeetsBareHint src tokens := by
  induction length : tokens.length using Nat.strongRecOn generalizing tokens f with
  | ind n ih =>
    rcases ofTokens_eq_error_iff.mp failed with indent | ⟨indented, hints | ⟨hintless, dropped, fails⟩⟩
    · exact Or.inl (reported_of_checkIndent holds indent)
    · obtain ⟨before, statement, after, whole, -, fails⟩ := mapM_eq_error_iff.mp hints
      have among : statement ∈ statements tokens := by simp [whole]
      refine Or.inl (reported_of_dropHints (holds.subset (sublist_of_mem_statements among).subset) ?_ fails)
      rintro t ⟨⟩
    · obtain ⟨before, ts, after, rfl, read, fails⟩ := mapM_eq_error_iff.mp fails
      have among : ts ∈ before ++ ts :: after := by simp
      have own : src.Holds ts := holds.subset (dropped.sublist among).subset
      have inside : ∀ part, Expr.Part ts part → ∀ g, ofTokens src part = .error g →
          g.Reported ∨ g = .breakdown .position := by
        intro part isPart g stops
        have shorter : part.length < n :=
          length ▸ Nat.lt_of_lt_of_le isPart.2 (dropped.sublist among).length_le
        exact (ih part.length shorter (isPart.holds own) stops rfl).imp_right And.left
      rcases fault_of_readStatement own inside fails with reported | ⟨rfl, blank⟩
      · exact Or.inl reported
      · exact Or.inr ⟨rfl, indented, before, ts, after, dropped, read, blank⟩

/-! ## Forms are made of the tokens of the text -/

def Counted (ts : List Token) (n : Nat) : Prop := n = 0 ∨ ∃ t ∈ ts, n = t.width

/-- The keywords and names of the form, and the lengths of its endings, are taken from the tokens. -/
def Marked {κ : Type} (ts : List Token) (form : Form (List Token) κ) : Prop :=
  form.ownTokens ⊆ ts ∧ ∀ n ∈ form.counts, Counted ts n

def Drawn {κ : Type} (ts : List Token) (form : Form (List Token) κ) : Prop :=
  Marked ts form ∧ ∀ e ∈ form.expressions, e ⊆ ts

theorem Marked.mono {form : Form (List Token) κ} (marked : Marked ts form)
    (subset : ts ⊆ us) : Marked us form := by
  refine ⟨List.Subset.trans marked.1 subset, fun n member => ?_⟩
  rcases marked.2 n member with zero | ⟨t, among, width⟩
  · exact Or.inl zero
  · exact Or.inr ⟨t, subset among, width⟩

theorem Drawn.mono {form : Form (List Token) κ} (drawn : Drawn ts form)
    (subset : ts ⊆ us) : Drawn us form :=
  ⟨drawn.1.mono subset, fun e member => List.Subset.trans (drawn.2 e member) subset⟩

theorem functionHead_subset
    (read : functionHead src inRow tokens = .ok h) : h.inRow ⊆ tokens ∧ h.others ⊆ tokens := by
  fun_induction functionHead src inRow tokens generalizing h
  case case1 | case2 =>
    cases read
    exact ⟨nil_subset _, nil_subset _⟩
  case case3 ih | case4 ih | case7 ih =>
    have rest := ih read
    exact ⟨subset_cons_of_subset _ rest.1, subset_cons_of_subset _ rest.2⟩
  case case5 ih =>
    rcases map_eq_ok_iff.mp read with ⟨h', more, rfl⟩
    have rest := ih more
    exact ⟨cons_subset_cons _ rest.1, subset_cons_of_subset _ rest.2⟩
  case case6 ih =>
    rcases map_eq_ok_iff.mp read with ⟨h', more, rfl⟩
    have rest := ih more
    exact ⟨subset_cons_of_subset _ rest.1, cons_subset_cons _ rest.2⟩
  case case8 => cases read

attribute [local simp] Drawn Marked Form.ownTokens Form.counts Form.expressions Form.code?

theorem functionForms_ok (read : functionForms src solid code = .ok forms) :
    ∀ form ∈ forms, Drawn solid form ∧ form.code? = some code := by
  unfold functionForms at read
  split at read
  · cases read
  · rename_i inRow others headed
    have subset := functionHead_subset headed
    split at read
    · cases read
      simp_all
    · split at read <;> cases read <;>
        simp_all
    · cases read
      simp_all
    · split at read <;> cases read

theorem scopedForms_ok (solids : solid ⊆ tokens)
    (read : scopedForms src tokens solid openAt code = .ok forms) :
    ∀ form ∈ forms, Drawn tokens form ∧ form.code? = some code := by
  have guard : ∀ start, Expr.slice tokens start openAt ⊆ tokens := fun start =>
    List.Subset.trans (drop_suffix _ _).subset ( take_prefix _ _).subset
  unfold scopedForms at read
  split at read
  · intro form member
    exact (functionForms_ok read form member).imp_left (·.mono solids)
  · split at read
    · have named := solids mem_cons_self
      dsimp only at read
      split at read
      · have second := solids (mem_cons_of_mem _ mem_cons_self)
        split at read <;> cases read <;> simp [guard, named, second]
      · cases read
        simp [guard, named]
    · cases read

theorem assignmentIndexes_subset {adding : Bool} {index : List Token}
    (member : index ∈ assignmentIndexes depth adding current ts) : index ⊆ current ++ ts := by
  fun_induction assignmentIndexes depth adding current ts
  case case1 => cases member
  case case2 ih => exact List.Subset.trans (ih member) (later_subset _ _ _)
  case case3 current t ts _ _ _ ih =>
    rcases mem_cons.mp member with rfl | later
    · exact reverse_subset_append _ _
    · exact List.Subset.trans (ih later) (List.Subset.trans (subset_append_right current ts)
        (later_subset _ _ _))
  case case4 ih => exact List.Subset.trans (ih member) (later_subset _ _ _)
  case case5 => cases member
  case case6 adding current t ts _ _ _ ih =>
    have rest := ih member
    split at rest
    · exact List.Subset.trans rest (moved_subset t current ts)
    · exact List.Subset.trans rest (later_subset t current ts)

theorem behindSign_subset (p : Token → Bool) : (tokens.dropWhile p).tail.dropLast ⊆ tokens :=
  List.Subset.trans (dropLast_subset _) (List.Subset.trans (tail_suffix _).subset
    (dropWhile_suffix p).subset)

theorem declarationHead_subset (names ts : List Token) :
    (declarationHead names ts).1 ⊆ names ++ ts := by
  fun_induction declarationHead names ts with
  | case1 names => simp
  | case2 names t ts _ ih => exact List.Subset.trans ih (moved_subset t names ts)
  | case3 names t ts | case4 names t ts => exact reverse_subset_append _ _

theorem PlainForm.drawn {head : Token} {rest : List Token} (solids : head :: rest ⊆ tokens)
    (debugs : Counted tokens debug) (confidences : Counted tokens confidence)
    (plain : PlainForm tokens head rest debug confidence form) : Drawn tokens form := by
  obtain ⟨named, others⟩ := cons_subset.mp solids
  have inner : rest.dropLast ⊆ tokens := List.Subset.trans (dropLast_subset _) others
  cases plain with
  | expression =>
    simp [debugs, dropLast_subset]
  | returns =>
    have behind : tokens.tail.dropLast ⊆ tokens :=
      List.Subset.trans (dropLast_subset _) (tail_suffix _).subset
    simp [debugs, named, behind]
  | delete second =>
    simp [debugs, named, others second]
  | imports =>
    have names : rest.dropLast.filter (·.is .name) ⊆ tokens :=
      List.Subset.trans (filter_subset_self _) inner
    simp [debugs, named, names]
  | @exports names toward target reversed =>
    rw [← reverse_subset, reversed, cons_subset, cons_subset] at inner
    obtain ⟨last, before, listed⟩ := inner
    have exported : names.filter (·.is .name) ⊆ tokens :=
      List.Subset.trans (filter_subset_self _) listed
    simp [debugs, named, last, before, exported]
  | @declaration name modifiers _ names =>
    have row := List.Subset.trans (declarationHead_subset [] (head :: rest)) solids
    rw [← reverse_subset, names, cons_subset] at row
    simp [debugs, confidences, row, behindSign_subset]
  | assignment =>
    have indexes : ∀ index ∈ assignmentIndexes 0 false [] tokens, index ⊆ tokens :=
      fun index => assignmentIndexes_subset
    simpa [debugs, confidences, named, behindSign_subset] using indexes

/-- What the block of a form is made of: the inside of a scope, or one form without a block. -/
inductive BodyOf (inner : List Token → Except Fault (List Clause)) (ts : List Token) :
    List Clause → Prop
  | inside {part : List Token} {code : List Clause} (isPart : Expr.Part ts part)
      (read : inner part = .ok code) : BodyOf inner ts code
  | arrow {form : Form (List Token) (List Clause)} (drawn : Drawn ts form)
      (codeless : form.code? = none) : BodyOf inner ts [.mk [form]]

theorem bodyOf_of_codeless (codeless : form.code? = none) :
    ∀ code, form.code? = some code → BodyOf inner ts code := by
  intro code block
  rw [codeless] at block
  cases block

theorem bodyOf_of_code? (block : form.code? = some code) (body : BodyOf inner ts code) :
    ∀ code', form.code? = some code' → BodyOf inner ts code' := by
  intro code' block'
  rw [block, Option.some.injEq] at block'
  exact block' ▸ body

theorem unscopedForms_ok (solids : solid ⊆ tokens)
    (read : unscopedForms src tokens solid = .ok forms) : ∀ form ∈ forms,
      Drawn tokens form ∧ ∀ code, form.code? = some code → BodyOf inner tokens code := by
  unfold unscopedForms at read
  split at read
  · cases read
  · rename_i last ends
    have member := mem_of_getLast? ends
    have debugs : Counted tokens (if last.is .question then last.width else 0) := by
      split
      · exact Or.inr ⟨last, member, rfl⟩
      · exact Or.inl rfl
    have confidences : Counted tokens (if last.is .question then 0 else last.width) := by
      split
      · exact Or.inl rfl
      · exact Or.inr ⟨last, member, rfl⟩
    dsimp only at read
    split at read
    · rename_i keyword stop
      cases read
      have own : keyword ∈ tokens := solids mem_cons_self
      simp [own, debugs, dropLast_subset]
    · split at read
      · intro form among
        obtain ⟨drawn, block⟩ := functionForms_ok read form among
        refine ⟨drawn.mono solids, bodyOf_of_code? block (.arrow ?_ rfl)⟩
        simp [debugs, behindSign_subset]
      · intro form among
        refine ⟨?_, bodyOf_of_codeless (codeless_plainForms read form among)⟩
        cases solid with
        | nil => cases read
        | cons head rest => exact (plainForm_of_mem read among).drawn solids debugs confidences

theorem formsOf_ok (read : formsOf src inner tokens = .ok forms) : ∀ form ∈ forms,
    Drawn tokens form ∧ ∀ code, form.code? = some code → BodyOf inner tokens code := by
  have solids : tokens.filter (!·.isBlank) ⊆ tokens := filter_subset_self _
  unfold formsOf at read
  dsimp only at read
  split at read
  · split at read
    · rename_i last head ends starts
      have some : tokens ≠ [] := ne_nil_of_mem (mem_of_getLast? ends)
      generalize (if (last.is .bang || last.is .question) = true then 1 else 0) = ending at read
      split at read
      · cases read
      · split at read
        · cases read
        · split at read
          · cases read
          · rename_i code inside
            intro form member
            obtain ⟨drawn, block⟩ := scopedForms_ok solids read form member
            exact ⟨drawn, bodyOf_of_code? block (.inside (part_inside some _ _) inside)⟩
    · cases read
  · exact unscopedForms_ok solids read

inductive Stores : List Clause → List Token → Prop
  | own {clauses : List Clause} {c : Clause} {form : Form (List Token) (List Clause)}
      {e : List Token} (member : c ∈ clauses) (among : form ∈ c.forms)
      (holds : e ∈ form.expressions) : Stores clauses e
  | inside {clauses code : List Clause} {c : Clause} {form : Form (List Token) (List Clause)}
      {e : List Token} (member : c ∈ clauses) (among : form ∈ c.forms)
      (block : form.code? = some code) (stores : Stores code e) : Stores clauses e

inductive Within : List Clause → Form (List Token) (List Clause) → Prop
  | own {clauses : List Clause} {c : Clause} {form : Form (List Token) (List Clause)}
      (member : c ∈ clauses) (among : form ∈ c.forms) : Within clauses form
  | inside {clauses code : List Clause} {c : Clause} {outer form : Form (List Token) (List Clause)}
      (member : c ∈ clauses) (among : outer ∈ c.forms) (block : outer.code? = some code)
      (within : Within code form) : Within clauses form

theorem Within.arrow {form' : Form (List Token) (List Clause)} (codeless : form.code? = none)
    (within : Within [.mk [form]] form') : form' = form := by
  cases within with
  | own member among =>
    rw [mem_singleton.mp member] at among
    exact mem_singleton.mp among
  | inside member among block _ =>
    rw [mem_singleton.mp member] at among
    rw [mem_singleton.mp among, codeless] at block
    cases block

theorem ofTokens_ok (read : ofTokens src tokens = .ok clauses) :
    ∃ hintless, Hintless src tokens hintless ∧ hintless.mapM (readStatement src) = .ok clauses := by
  rw [ofTokens_eq] at read
  obtain ⟨_, -, read⟩ := bind_eq_ok_iff.mp read
  exact bind_eq_ok_iff.mp read

theorem formsOf_of_readStatement {c : Clause} (read : readStatement src tokens = .ok c) :
    formsOf src (ofTokens src) tokens = .ok c.forms := by
  obtain ⟨forms, reads, rfl⟩ := map_eq_ok_iff.mp read
  unfold orUnreadable at reads
  split at reads
  · split at reads <;> cases reads
  · exact reads

theorem drawn_of_mem {c : Clause} (read : ofTokens src tokens = .ok clauses) (member : c ∈ clauses)
    (among : form ∈ c.forms) : ∃ ts ⊆ tokens, Drawn ts form ∧
      ∀ code, form.code? = some code → BodyOf (ofTokens src) ts code := by
  obtain ⟨hintless, dropped, reads⟩ := ofTokens_ok read
  obtain ⟨ts, statement, reads⟩ := exists_of_mem_mapM reads member
  exact ⟨ts, (dropped.sublist statement).subset, formsOf_ok (formsOf_of_readStatement reads) _ among⟩

theorem Within.drawn (within : Within clauses form) (read : ofTokens src tokens = .ok clauses) :
    Drawn tokens form := by
  induction within generalizing tokens with
  | own member among =>
    obtain ⟨ts, subset, drawn, -⟩ := drawn_of_mem read member among
    exact drawn.mono subset
  | inside member among block within ih =>
    obtain ⟨ts, subset, -, body⟩ := drawn_of_mem read member among
    refine Drawn.mono ?_ subset
    cases body _ block with
    | inside isPart reads => exact (ih reads).mono isPart.1.subset
    | arrow drawn codeless => exact within.arrow codeless ▸ drawn

theorem Stores.exists_within (stores : Stores clauses e) :
    ∃ form, Within clauses form ∧ e ∈ form.expressions := by
  induction stores with
  | own member among holds => exact ⟨_, .own member among, holds⟩
  | inside member among block _ ih =>
    obtain ⟨form, within, holds⟩ := ih
    exact ⟨form, .inside member among block within, holds⟩

theorem Stores.subset (stores : Stores clauses e) (read : ofTokens src tokens = .ok clauses) :
    e ⊆ tokens := by
  obtain ⟨form, within, holds⟩ := stores.exists_within
  exact (within.drawn read).2 e holds

end Clause

namespace Expr

theorem fault_of_ofTokens (holds : src.Holds tokens) (failed : ofTokens src tokens = .error f) :
    f.Reported ∨ f = .plain .nothingToRead ∨ f = .breakdown .position := by
  obtain ⟨part, reaches, fails⟩ := ofTokens_eq_error_iff.mp failed
  rcases fault_of_split (reaches.holds holds) fails with reported | plain | ⟨breaks, -⟩
  · exact Or.inl reported
  · exact Or.inr (Or.inl plain)
  · exact Or.inr (Or.inr breaks)

theorem ofTokens_eq_breakdown_iff (holds : src.Holds tokens) :
    ofTokens src tokens = .error (.breakdown .position) ↔
      ∃ part, Reaches src tokens part ∧ Stumbles src part := by
  rw [ofTokens_eq_error_iff]
  constructor
  · rintro ⟨part, reaches, fails⟩
    exact ⟨part, reaches, (split_eq_breakdown_iff (reaches.holds holds)).mp fails⟩
  · rintro ⟨part, reaches, stumbles⟩
    exact ⟨part, reaches, stumbles.split_eq⟩

end Expr

namespace Source

/-- Reading the source comes to a statement of which nothing is left when its hints are dropped. -/
def MeetsBareHint (src : Source) : Prop :=
  ∃ tokens, src.tokens = .ok tokens ∧ Clause.MeetsBareHint src tokens

theorem clauses_of_tokens (cut : src.tokens = .ok tokens) :
    src.clauses = Clause.ofTokens src tokens := by
  rw [clauses, cut]
  rfl

theorem MeetsBareHint.clauses_eq (meets : src.MeetsBareHint) :
    src.clauses = .error (.breakdown .position) := by
  obtain ⟨tokens, cut, meets⟩ := meets
  rw [clauses_of_tokens cut]
  exact meets.ofTokens_eq

theorem fault_of_clauses (failed : src.clauses = .error f) :
    f.Reported ∨ f = .breakdown .position ∧ src.MeetsBareHint := by
  rcases src.tokens_cases with ⟨tokens, cut, holds⟩ | ⟨r, reported⟩
  · rw [clauses_of_tokens cut] at failed
    rcases Clause.fault_of_ofTokens holds failed with reported | ⟨breaks, meets⟩
    · exact Or.inl reported
    · exact Or.inr ⟨breaks, tokens, cut, meets⟩
  · rw [clauses, reported] at failed
    cases failed
    exact Or.inl ⟨r, rfl⟩

theorem clauses_eq_breakdown_iff : src.clauses = .error (.breakdown .position) ↔ src.MeetsBareHint := by
  refine ⟨fun failed => ?_, MeetsBareHint.clauses_eq⟩
  rcases fault_of_clauses failed with ⟨r, reported⟩ | ⟨-, meets⟩
  · cases reported
  · exact meets

/-- The expressions of a source stand in its lines. -/
theorem holds_of_stores (read : src.clauses = .ok clauses)
    (stores : Clause.Stores clauses e) : src.Holds e := by
  rcases src.tokens_cases with ⟨tokens, cut, holds⟩ | ⟨r, reported⟩
  · rw [clauses_of_tokens cut] at read
    exact holds.subset (stores.subset read)
  · rw [Source.clauses, reported] at read
    cases read

/-- How reading a source fails. What cannot be read into clauses is reported, or it breaks down, which
happens exactly where reading comes to a bare hint. An expression of the clauses, at any depth, that
cannot be read is reported, or there is nothing to read in it, or it breaks down, which happens
exactly where reading comes to a part that cannot be split. -/
theorem faults_of_reading (src : Source) :
    (∀ f, src.clauses = .error f → f.Reported ∨ f = .breakdown .position) ∧
    (src.clauses = .error (.breakdown .position) ↔ src.MeetsBareHint) ∧
    ∀ clauses e, src.clauses = .ok clauses → Clause.Stores clauses e →
      (∀ f, Expr.ofTokens src e = .error f →
        f.Reported ∨ f = .plain .nothingToRead ∨ f = .breakdown .position) ∧
      (Expr.ofTokens src e = .error (.breakdown .position) ↔
        ∃ part, Expr.Reaches src e part ∧ Expr.Stumbles src part) := by
  refine ⟨?_, clauses_eq_breakdown_iff, ?_⟩
  · intro f failed
    exact (fault_of_clauses failed).imp_right And.left
  · intro clauses e read stores
    have holds := holds_of_stores read stores
    exact ⟨fun f => Expr.fault_of_ofTokens holds, Expr.ofTokens_eq_breakdown_iff holds⟩

def bareHint : Source := ⟨"main.db", ": Int!"⟩

theorem bareHint_breaks_down : ∃ f, bareHint.clauses = .error f ∧ ¬f.Reported := by
  have cut : bareHint.tokens = .ok [⟨.colon, ":", 1, 0⟩, ⟨.whitespace, " ", 1, 1⟩,
      ⟨.name, "Int", 1, 4⟩, ⟨.bang, "!", 1, 5⟩, ⟨.whitespace, "   ", 1, 8⟩] := by
    decide +kernel
  have meets : bareHint.MeetsBareHint := by
    refine ⟨_, cut, rfl, [], [], [], rfl, ?_, ?_⟩
    · exact fun b none => absurd none not_mem_nil
    · exact fun t none => absurd none not_mem_nil
  refine ⟨_, meets.clauses_eq, ?_⟩
  rintro ⟨r, ⟨⟩⟩

end Source

end DreamBerd
