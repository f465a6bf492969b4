import DreamBerd.Proofs.Queues

/-!
# Results of expressions

The value of an expression is a value of the language or a bare text, and bare texts come from one
place: an element that is read out of a string is not made a string again
(`eval_value_or_bare_text`). Literals, lists and operators other than `|` and `&` make a new value of
the language whatever their operands are (`makes_evaluate`).
-/

namespace DreamBerd

/-- A reference to a value of the language. -/
def Store.IsProper (s : Store) (r : ValueRef) : Prop :=
  ∃ v, s.values[r.index]? = some v ∧ v.isBare = false

theorem Store.IsProper.isBare_value {s : Store} {r : ValueRef} (proper : s.IsProper r) :
    (s.value r).isBare = false := by
  obtain ⟨v, found, proper⟩ := proper
  rwa [Store.value, found]

def Expr.isMade : Expr → Bool
  | value t => t.is .string
  | list _ | unary .. => true
  | binary op _ l r => (op != .or && op != .and) || (l.isMade && r.isMade)
  | index .. | call .. => false

namespace Run

variable {α : Type} {w w' : World} {r a b : ValueRef} {i : Interpreter} {op : Operator} {t : Token}
  {c : Context} {raw : Bool}

/-! ## What makes values -/

def Makes (x : Run ValueRef) : Prop := ∀ ⦃w r w'⦄, x w = .ok r w' → w'.store.IsProper r

theorem makes_newValue (proper : v.isBare = false) : Makes (newValue v) := by
  intro w r w' done
  cases done
  exact ⟨v, Array.getElem?_push_size, proper⟩

theorem makes_throw (f : Fault) : Makes (throw f) := by
  intro w r w' done
  cases done

theorem makes_bind {f : α → Run ValueRef} (rest : ∀ a, Makes (f a)) : Makes (x >>= f) := by
  intro w r w' done
  obtain ⟨a, v, -, last⟩ := bind_eq_ok done
  exact rest a last

theorem makes_newText (s : String) : Makes (newText s) :=
  makes_bind fun _ => makes_newValue rfl

theorem makes_newList (items : List ValueRef) : Makes (newList items) :=
  makes_bind fun _ => makes_newValue rfl

theorem makes_complainAt (c : Complaint) (t : Token) : Makes (complainAt c t) :=
  makes_bind fun _ => makes_throw _

theorem makes_operateUnary (op : Token) (r : ValueRef) : Makes (operateUnary op r) := by
  unfold operateUnary
  split
  · refine makes_bind fun v => ?_
    cases v with
    | number n => exact makes_bind fun _ => makes_newValue rfl
    | list row members => exact makes_newList _
    | string row members => exact makes_newText _
    | _ => exact makes_complainAt _ op
  · exact makes_bind fun _ => makes_newValue rfl
  · exact makes_complainAt _ op

theorem makes_addValues (a b : ValueRef) : Makes (addValues a b) := by
  refine makes_bind fun v => makes_bind fun v' => ?_
  split
  · exact makes_bind fun _ => makes_bind fun _ => makes_newText _
  · exact makes_bind fun _ => makes_bind fun _ => makes_bind fun _ => makes_newValue rfl

theorem makes_divideNumbers (m n : Number) : Makes (divideNumbers m n) := by
  refine makes_bind fun _ => makes_bind fun small => ?_
  split
  · exact makes_newValue rfl
  · exact makes_bind fun _ => makes_newValue rfl

theorem makes_powerOfNumbers (m n : Number) : Makes (powerOfNumbers m n) := by
  have power : ∀ u : Unit, Makes (do newNumber (← ofExcept (m.pow n))) := fun _ =>
    makes_bind fun _ => makes_newValue rfl
  refine makes_bind fun negative => ?_
  split
  · refine makes_bind fun whole => ?_
    split
    · exact makes_bind power
    · exact power ()
  · exact power ()

theorem makes_operate (notOr : op ≠ .or) (notAnd : op ≠ .and) (t : Token) (a b : ValueRef) :
    Makes (operate op t a b) := by
  cases op with
  | or => exact absurd rfl notOr
  | and => exact absurd rfl notAnd
  | add => exact makes_addValues a b
  | sub | mul =>
    exact makes_bind fun _ => makes_bind fun _ => makes_bind fun _ => makes_newValue rfl
  | div => exact makes_bind fun _ => makes_bind fun _ => makes_divideNumbers _ _
  | exp => exact makes_bind fun _ => makes_bind fun _ => makes_powerOfNumbers _ _
  | e | ee | ne | eee | nee => exact makes_bind fun _ => makes_bind fun _ => makes_newValue rfl
  | eeee | neee | le | gt | lt | ge => exact makes_bind fun _ => makes_newValue rfl
  | comma => exact makes_complainAt _ t

/-! ## What passes values on -/

theorem refuseDeleted_eq_ok (done : refuseDeleted r w = .ok r' w') : r' = r ∧ w' = w := by
  obtain ⟨deleted, v, asked, done⟩ := bind_eq_ok done
  cases asked
  split at done
  · obtain ⟨_, _, -, failed⟩ := bind_eq_ok done
    cases failed
  · cases done
    exact ⟨rfl, rfl⟩

theorem refuseDeleted_of_nil (nothing : w.part.deleted = []) : refuseDeleted r w = .ok r w := by
  have kept : isDeleted r w = .ok false w := by
    refine congrArg (EStateM.Result.ok · w) ?_
    rw [nothing]
    rfl
  unfold refuseDeleted
  rw [bind_ok kept]
  rfl

theorem makes_refuseDeleted (makes : Makes x) : Makes (x >>= refuseDeleted) := by
  intro w r w' done
  obtain ⟨r₁, w₁, made, done⟩ := bind_eq_ok done
  obtain ⟨rfl, rfl⟩ := refuseDeleted_eq_ok done
  exact makes made

theorem truthOf_eq_ok {t : Truth} (done : truthOf r w = .ok t w') :
    (w.store.value r).truth = .ok t ∧ w' = w := by
  have read : ofExcept (w.store.value r).truth w = .ok t w' := done
  cases truth : (w.store.value r).truth with
  | ok u =>
    rw [truth] at read
    cases read
    exact ⟨rfl, rfl⟩
  | error f =>
    rw [truth] at read
    cases read

theorem store_of_modifyGet {f : World → α × World} (same : ∀ w, (f w).2.store = w.store) {a : α}
    (done : (modifyGet f : Run α) w = .ok a w') : w'.store = w.store := by
  cases done
  exact same w

theorem store_of_luck {lucky : Bool} (asked : luck w = .ok lucky w') : w'.store = w.store := by
  obtain ⟨c, v, drawn, done⟩ := bind_eq_ok asked
  cases done
  refine store_of_modifyGet (fun w => ?_) drawn
  cases w.around.chances with
  | nil => rfl
  | cons c cs => rfl

theorem either_eq_ok (done : either a b w = .ok r w') : (r = a ∨ r = b) ∧ w'.store = w.store := by
  obtain ⟨lucky, v, drawn, done⟩ := bind_eq_ok done
  have kept := store_of_luck drawn
  cases lucky with
  | true =>
    cases done
    exact ⟨.inl rfl, kept⟩
  | false =>
    cases done
    exact ⟨.inr rfl, kept⟩

theorem of_truths {f : Truth → Truth → Run ValueRef}
    (each : ∀ t u, f t u = pure a ∨ f t u = pure b ∨ f t u = either a b)
    (done : (do let t ← truthOf a; f t (← truthOf b)) w = .ok r w') :
    (r = a ∨ r = b) ∧ w'.store = w.store := by
  obtain ⟨t, v, first, rest⟩ := bind_eq_ok done
  obtain ⟨u, v', second, last⟩ := bind_eq_ok rest
  obtain ⟨-, rfl⟩ := truthOf_eq_ok first
  obtain ⟨-, rfl⟩ := truthOf_eq_ok second
  rcases each t u with same | same | same
  · rw [same] at last
    cases last
    exact ⟨.inl rfl, rfl⟩
  · rw [same] at last
    cases last
    exact ⟨.inr rfl, rfl⟩
  · rw [same] at last
    exact either_eq_ok last

theorem operate_logical_eq_ok (logical : op = .or ∨ op = .and)
    (done : operate op t a b w = .ok r w') : (r = a ∨ r = b) ∧ w'.store = w.store := by
  rcases logical with rfl | rfl
  all_goals
    refine of_truths (fun t u => ?_) done
    cases t <;> cases u <;> simp

/-! ## Expressions -/

theorem makes_evaluate [Framed .queues i] (c : Context) (raw : Bool) (e : Expr)
    (made : e.isMade = true) : Makes (evaluate i c raw e) := by
  cases e with
  | value t =>
    have text : t.is .string = true := made
    unfold evaluate evaluateToken
    rw [if_pos text]
    refine makes_refuseDeleted (makes_bind fun s => ?_)
    split
    · exact makes_newText s
    · split
      · exact makes_newText _
      · exact makes_throw _
  | list items =>
    exact makes_bind fun items => makes_refuseDeleted (makes_newList items)
  | unary op e =>
    exact makes_bind fun v => makes_refuseDeleted (makes_operateUnary op v)
  | binary op t l r =>
    by_cases logical : op = .or ∨ op = .and
    · -- the value is that of an operand, which a value of the language stays
      obtain ⟨leftMade, rightMade⟩ : l.isMade = true ∧ r.isMade = true := by
        rcases logical with rfl | rfl <;> simpa [Expr.isMade] using made
      intro w x w' done
      obtain ⟨a, w₁, left, done⟩ := bind_eq_ok done
      have proper := makes_evaluate c false l leftMade left
      obtain ⟨u, w₂, asked, rest⟩ := bind_eq_ok done
      obtain ⟨-, rfl⟩ := truthOf_eq_ok asked
      split at rest
      · obtain ⟨rfl, rfl⟩ := refuseDeleted_eq_ok rest
        exact proper
      · obtain ⟨b, w₃, right, rest⟩ := bind_eq_ok rest
        obtain ⟨x', w₄, chosen, rest⟩ := bind_eq_ok rest
        obtain ⟨rfl, rfl⟩ := refuseDeleted_eq_ok rest
        obtain ⟨which, same⟩ := operate_logical_eq_ok logical chosen
        rw [same]
        rcases which with rfl | rfl
        · exact ValueSteps.proper ((keeps_evaluate (F := .queues) false r).ok right).values proper
        · exact makes_evaluate c false r rightMade right
    · obtain ⟨notOr, notAnd⟩ := not_or.mp logical
      refine makes_bind fun a => makes_bind fun u => ?_
      have whole : ¬((u == .yes && op == .or) || (u == .no && op == .and)) = true := by
        simp [notOr, notAnd]
      rw [if_neg whole]
      exact makes_bind fun b => makes_refuseDeleted (makes_operate notOr notAnd t a b)
  | index v n | call site args => cases made

theorem evaluate_index_string {v k : Expr} {x n : ValueRef} {w₁ w₂ : World} {row : CharRow}
    {members : ScopeRef} (done : evaluate i c raw (.index v k) w = .ok r w')
    (whole : evaluate i c false v w = .ok x w₁) (place : evaluate i c false k w₁ = .ok n w₂)
    (held : w₂.store.value x = .string row members) :
    ∃ chars, row.get (w₂.store.value n).number? = .ok chars ∧
      w'.store.value r = .bare (.text (String.ofList chars)) := by
  unfold evaluate at done
  rw [bind_ok whole, bind_ok place] at done
  obtain ⟨r', w₃, read, done⟩ := bind_eq_ok done
  obtain ⟨rfl, rfl⟩ := refuseDeleted_eq_ok done
  have looked : value x w₂ = .ok (.string row members) w₂ := by rw [← held]; rfl
  have indexable : (Value.string row members).isIndexable = true := rfl
  unfold evaluateIndex at read
  rw [bind_ok looked, if_pos indexable, getIndex, bind_ok looked] at read
  obtain ⟨index, _, asked, read⟩ := bind_eq_ok read
  cases asked
  obtain ⟨chars, _, got, made⟩ := bind_eq_ok read
  cases given : row.get (w₂.store.value n).number? with
  | error fault =>
    rw [given] at got
    cases got
  | ok chars' =>
    rw [given] at got
    cases got
    cases made
    refine ⟨chars, rfl, ?_⟩
    rw [Store.value, Array.getElem?_push_size]
    rfl

/-- What an evaluation adds to values of the language are values of the language and bare texts, and
what was there stays a value of the language. Literals, lists and operators give values of the language;
an element of a string is always a bare text. -/
theorem eval_value_or_bare_text {n : Nat} {c : Context} {raw : Bool} {e : Expr} {w w' : World}
    {r : ValueRef} (proper : ∀ v ∈ w.store.values, v.isBare = false)
    (done : (interpreter n).eval c raw e w = .ok r w') :
    ((w'.store.value r).isBare = true → ∃ s, s ≠ "" ∧ w'.store.value r = .bare (.text s)) ∧
    (∀ v ∈ w'.store.values, v.isBare = true → ∃ s, s ≠ "" ∧ v = .bare (.text s)) ∧
    (∀ x : ValueRef, x.index < w.store.values.size → (w'.store.value x).isBare = false) ∧
    (e.isMade = true → (w'.store.value r).isBare = false) ∧
    ∀ v k x m w₁ w₂ row members, e = .index v k → (interpreter n).eval c false v w = .ok x w₁ →
      (interpreter n).eval c false k w₁ = .ok m w₂ → w₂.store.value x = .string row members →
      ∃ chars, row.get (w₂.store.value m).number? = .ok chars ∧
        w'.store.value r = .bare (.text (String.ofList chars)) := by
  cases n with
  | zero => cases done
  | succ n =>
    have := framed_interpreter .queues trivial n
    have steps := ((keeps_evaluate (F := .queues) raw e).ok done).values
    have texts : ∀ v ∈ w'.store.values, v.isBare = true → ∃ s, s ≠ "" ∧ v = .bare (.text s) := by
      intro v member bare
      cases v with
      | bare d =>
        rcases ValueSteps.origin steps member with old | ⟨s, some, rfl⟩
        · cases proper _ old
        · exact ⟨s, some, rfl⟩
      | _ => cases bare
    refine ⟨fun bare => ?_, texts, fun x inside => ?_, fun made => ?_, ?_⟩
    · rcases w'.store.value_eq_or_mem r with undefined | member
      · rw [undefined] at bare
        cases bare
      · exact texts _ member bare
    · have old : w.store.IsProper x :=
        ⟨_, Array.getElem?_eq_getElem inside, proper _ (Array.getElem_mem inside)⟩
      exact Store.IsProper.isBare_value (ValueSteps.proper steps old)
    · exact (makes_evaluate c raw e made done).isBare_value
    · rintro v k x m w₁ w₂ row members rfl whole place held
      have index : evaluate (interpreter n) c raw (.index v k) w = .ok r w' := done
      exact evaluate_index_string index whole place held

def elementWorld : World :=
  { (default : World) with
    store := { Store.empty with
      values := #[.string (.ofText "abc") ⟨1⟩, .number (.int 0)]
      scopes := #[⟨[("s", .named "s" ⟨0⟩), ("k", .named "k" ⟨1⟩)]⟩, .empty] } }

def elementContext : Context := ⟨[⟨0⟩], ⟨0⟩, []⟩

def elementExpr : Expr := .index (.value ⟨.name, "s", 1, 0⟩) (.value ⟨.name, "k", 1, 2⟩)

def elementRead : World :=
  { elementWorld with
    store := { elementWorld.store with
      values := #[.string (.ofText "abc") ⟨1⟩, .number (.int 0), .bare (.text "b")] } }

theorem eval_element : (interpreter 1).eval elementContext false elementExpr elementWorld =
    .ok ⟨2⟩ elementRead := rfl

theorem elementWorld_proper : ∀ v ∈ elementWorld.store.values, v.isBare = false := by
  simp [elementWorld, Value.isBare]

/-- The element of a string that is read, and the string that it is read from. -/
theorem eval_value_or_bare_text_element :
    (∀ v ∈ elementWorld.store.values, v.isBare = false) ∧
    (interpreter 1).eval elementContext false elementExpr elementWorld = .ok ⟨2⟩ elementRead ∧
    (∃ s, s ≠ "" ∧ elementRead.store.value ⟨2⟩ = .bare (.text s)) ∧
    (elementRead.store.value ⟨0⟩).isBare = false := by
  have spec := eval_value_or_bare_text elementWorld_proper eval_element
  exact ⟨elementWorld_proper, eval_element, spec.1 rfl, spec.2.2.1 ⟨0⟩ (by decide)⟩

/-- The value of an expression over values of the language need not be one. -/
theorem string_element_leaves_language :
    (∀ v ∈ elementWorld.store.values, v.isBare = false) ∧
    ∃ r w', (interpreter 1).eval elementContext false elementExpr elementWorld = .ok r w' ∧
      w'.store.value r = .bare (.text "b") :=
  ⟨elementWorld_proper, _, _, eval_element, rfl⟩

end Run

end DreamBerd
