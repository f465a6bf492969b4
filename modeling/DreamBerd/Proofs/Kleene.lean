import DreamBerd.Proofs.Copies
import DreamBerd.Proofs.Elements
import DreamBerd.Proofs.Indices

/-!
# Three-valued logic

The operators `|`, `&` and `;` compute the strong Kleene connectives on the truth of their operands,
whatever the operands are (`Run.evaluate_kleene`). Where `|` and `&` choose an operand by chance,
both are maybe, so that chance decides which value is passed on, but not its truth
(`Run.gives_either`).

A formula only adds to the store: negation adds a truth value, and the name of a promise a copy of
what was promised. So what the names of a formula stand for is the same while it is evaluated
(`Store.Extends.lookup_eq`).
-/

namespace DreamBerd

open List

variable {name : String} {leaf : Token → Truth}

/-! ## Truth -/

def Truth.degree : Truth → Nat
  | no => 0
  | maybe => 1
  | yes => 2

theorem Truth.degree_le (t : Truth) : t.degree ≤ 2 := by
  cases t <;> decide

theorem Truth.degree_not (t : Truth) : t.not.degree = 2 - t.degree := by
  cases t <;> rfl

theorem Truth.degree_injective : Function.Injective Truth.degree := by
  intro t u same
  cases t <;> cases u <;> first | rfl | cases same

theorem Number.exists_truthOf {n : Number} {q : ℚ} (finite : n.extent? = some (.finite q)) :
    ∃ t, n.truthOf = .ok t := by
  have rounds : ∃ k, n.round = .ok k := by
    cases n with
    | int k => exact ⟨k, rfl⟩
    | truth b => exact ⟨_, rfl⟩
    | tuple xs => cases finite
    | real x =>
      have value := toRat?_of_extent? finite
      rw [round, integral, Binary64.round?]
      rw [Binary64.toRat?] at value
      cases shape : Binary64.shape x with
      | finite negative m q => exact ⟨_, rfl⟩
      | _ =>
        rw [shape] at value
        cases value
  have compares : ∃ a b, n.abs = .ok a ∧ lt (.real precision) a = .ok b := by
    cases n with
    | int k | truth b => exact ⟨_, _, rfl, rfl⟩
    | tuple xs => cases finite
    | real x => exact ⟨_, _, rfl, rfl⟩
  obtain ⟨k, rounded⟩ := rounds
  obtain ⟨a, b, size, compared⟩ := compares
  unfold truthOf
  rw [rounded, size]
  show ∃ t, (if k != 0 then Except.ok Truth.yes else _) = .ok t
  split
  · exact ⟨_, rfl⟩
  · show ∃ t, (lt (.real precision) a >>= _) = .ok t
    rw [compared]
    cases b <;> exact ⟨_, rfl⟩

theorem Value.exists_truth {v : Value}
    (finite : ∀ n, v = .number n → ∃ q, n.extent? = some (.finite q)) : ∃ t, v.truth = .ok t := by
  cases v with
  | number n =>
    obtain ⟨q, extent⟩ := finite n rfl
    exact Number.exists_truthOf extent
  | _ => exact ⟨_, rfl⟩

/-! ## Copies -/

theorem Redirection.truth_ofValue (f : Redirection) (v : Value) : (f.ofValue v).truth = v.truth := by
  cases v with
  | list row members =>
    show Except.ok (Truth.ofBool !(row.items.map f.value).isEmpty) = _
    rw [isEmpty_map]
    rfl
  | map entries =>
    show Except.ok (Truth.ofBool !(entries.entries.map _).isEmpty) = _
    rw [isEmpty_map]
    rfl
  | promise held => cases held <;> rfl
  | _ => rfl

namespace Store

variable {s s' : Store} {changed : List ScopeRef}

/-! ## Names in a store that has grown -/

theorem Extends.size_values (grows : Extends changed s s') : s.values.size ≤ s'.values.size := by
  simpa using grows.values.length_le

structure Has (s : Store) (e : Entry) : Prop where
  slot : ∀ r, e = .variable r → r.index < s.slots.size
  value : ∀ r, s.entryValue e = .ok r → r.index < s.values.size

theorem has_named {v : ValueRef} (inside : v.index < s.values.size) :
    s.Has (.named name v) where
  slot r same := by cases same
  value r same := by
    cases same
    exact inside

/-- What scopes, promises and the members of values lead to is in the store. -/
structure Closed (s : Store) : Prop where
  entry : ∀ x, ∀ e ∈ (s.scope x).entries, s.Has e.2
  members : ∀ r m, (s.value r).members? = some m → m.index < s.scopes.size
  promise : ∀ r v, s.value r = .promise (some v) → v.index < s.values.size

section Growth

variable {e : Entry} {x : ScopeRef} {scopes : List ScopeRef} {names : List String}

theorem Closed.has (closed : s.Closed) (found : (s.scope x).get? name = some e) : s.Has e := by
  obtain ⟨_, member, -⟩ := Ledger.exists_mem_of_get? found
  exact closed.entry x _ member

theorem Extends.entryValue_eq (grows : Extends [] s s') (has : s.Has e) :
    s'.entryValue e = s.entryValue e := by
  cases e with
  | predefined v => rfl
  | named name v => rfl
  | «variable» r => rw [entryValue, entryValue, grows.variableOf_eq (has.slot r rfl)]

theorem Extends.innermost_eq (grows : Extends [] s s') (known : ∀ x ∈ scopes, x.index < s.scopes.size) :
    s'.innermost name scopes = s.innermost name scopes :=
  innermost_congr fun x member => by rw [grows.scopes x not_mem_nil (known x member)]

theorem Closed.has_innermost (closed : s.Closed) (found : s.innermost name scopes = some (e, x)) :
    s.Has e :=
  closed.has (scope_of_innermost found)

theorem Extends.member_eq (grows : Extends [] s s') (closed : s.Closed) (has : s.Has e) :
    s'.member e names = s.member e names := by
  induction names generalizing e with
  | nil => rfl
  | cons name names ih =>
    rw [member, member, grows.entryValue_eq has]
    cases bound : s.entryValue e with
    | error fault => rfl
    | ok r =>
      dsimp only [bind, Except.bind]
      rw [grows.value_eq (has.value r bound)]
      cases held : (s.value r).members? with
      | none => rfl
      | some m =>
        dsimp only
        rw [grows.scopes m not_mem_nil (closed.members r m held)]
        cases found : (s.scope m).get? name with
        | none => rfl
        | some e => exact ih (closed.has found)

theorem Extends.lookup_eq (grows : Extends [] s s') (closed : s.Closed)
    (known : ∀ x ∈ scopes, x.index < s.scopes.size) : s'.lookup scopes name = s.lookup scopes name := by
  unfold lookup
  split
  · rw [grows.innermost_eq known]
    split
    · rename_i found
      exact grows.member_eq closed (closed.has_innermost found)
    · rfl
  · rw [grows.innermost_eq known]

theorem Closed.has_member (closed : s.Closed) (has : s.Has e)
    (found : s.member e names = .ok (some e')) : s.Has e' := by
  induction names generalizing e with
  | nil =>
    cases found
    exact has
  | cons name names ih =>
    obtain ⟨r, -, found⟩ := bind_eq_ok_iff.mp found
    split at found
    · cases found
    · split at found
      · cases found
      · rename_i there
        exact ih (closed.has there) found

theorem Closed.has_lookup (closed : s.Closed) (found : s.lookup scopes name = .ok (some e)) :
    s.Has e := by
  unfold lookup at found
  split at found
  · split at found
    · rename_i first
      exact closed.has_member (closed.has_innermost first) found
    · cases found
  · obtain ⟨⟨e', x⟩, first, rfl⟩ := Option.map_eq_some_iff.mp (Except.ok.inj found)
    exact closed.has_innermost first

end Growth

/-- The value that is read where a name is bound to a value: a promise stands for what it holds. -/
def settled (s : Store) (r : ValueRef) : Value :=
  match s.value r with
  | .promise none => .undefined
  | .promise (some v) => s.value v
  | v => v

structure Names (s : Store) (scopes : List ScopeRef) (t : Token) (v : Value) : Prop where
  word : t.is .string = false
  bound : ∃ e r, s.lookup scopes t.text = .ok (some e) ∧ s.entryValue e = .ok r ∧ s.settled r = v
  finite : ∀ n, v = .number n → ∃ q, n.extent? = some (.finite q)

end Store

/-! ## Formulas -/

namespace Expr

inductive Formula (leaf : Token → Prop) : Expr → Prop
  | name {t : Token} : leaf t → Formula leaf (.value t)
  | not {op : Token} {e : Expr} : op.kind = .semicolon → Formula leaf e → Formula leaf (.unary op e)
  | or (t : Token) {l r : Expr} :
    Formula leaf l → Formula leaf r → Formula leaf (.binary .or t l r)
  | and (t : Token) {l r : Expr} :
    Formula leaf l → Formula leaf r → Formula leaf (.binary .and t l r)

/-- The strong Kleene value of a formula: a disjunction has the largest and a conjunction the smallest
degree of its parts, and negation turns the order around. -/
def degree (leaf : Token → Truth) : Expr → Nat
  | .value t => (leaf t).degree
  | .unary _ e => 2 - e.degree leaf
  | .binary .or _ l r => max (l.degree leaf) (r.degree leaf)
  | .binary .and _ l r => min (l.degree leaf) (r.degree leaf)
  | _ => 0

theorem Formula.degree_le {P : Token → Prop} {e : Expr}
    (formula : Formula P e) : e.degree leaf ≤ 2 := by
  induction formula with
  | name _ => exact Truth.degree_le _
  | not _ _ _ => exact Nat.sub_le _ _
  | or t _ _ left right => exact Nat.max_le.mpr ⟨left, right⟩
  | and t _ _ left _ => exact (Nat.min_le_left _ _).trans left

end Expr

namespace Run

variable {x : Run ValueRef} {d' : Nat} {token : Token} {v : Value} {l : Expr}

/-! ## Computations that only add to the store -/

/-- The second world differs from the first one in what was added to the store, and in what is around. -/
structure Grown (w w' : World) : Prop where
  store : w.store.Extends [] w'.store
  part : w'.part = w.part

variable {w w' w'' : World} {r a b : ValueRef} {t u : Truth} {d : Nat}

theorem Grown.refl (w : World) : Grown w w := ⟨.refl _, rfl⟩

theorem Grown.trans (first : Grown w w') (second : Grown w' w'') : Grown w w'' :=
  ⟨first.store.trans second.store, second.part.trans first.part⟩

theorem Grown.nothing (grown : Grown w w') (nothing : w.part.deleted = []) : w'.part.deleted = [] := by
  rw [grown.part, nothing]

structure Stands (w : World) (r : ValueRef) (t : Truth) : Prop where
  inside : r.index < w.store.values.size
  truth : (w.store.value r).truth = .ok t

theorem Stands.grown (stands : Stands w r t) (grown : Grown w w') : Stands w' r t where
  inside := Nat.lt_of_lt_of_le stands.inside grown.store.size_values
  truth := by rw [grown.store.value_eq stands.inside, stands.truth]

theorem Stands.truthOf_eq (stands : Stands w r t) : truthOf r w = .ok t w :=
  (ofExcept_ok stands.truth : ofExcept (w.store.value r).truth w = .ok t w)

/-- The computation gives a value with a truth of the given degree and only adds to the store. -/
def Gives (w : World) (x : Run ValueRef) (d : Nat) : Prop :=
  ∃ r w' t, x w = .ok r w' ∧ Grown w w' ∧ Stands w' r t ∧ t.degree = d

theorem Gives.bind {f : ValueRef → Run ValueRef} (first : Gives w x d)
    (rest : ∀ r w' t, Grown w w' → Stands w' r t → t.degree = d → Gives w' (f r) d') :
    Gives w (x >>= f) d' := by
  obtain ⟨r, w', t, done, grown, stands, same⟩ := first
  obtain ⟨r', w'', t', done', grown', last⟩ := rest r w' t grown stands same
  exact ⟨r', w'', t', (bind_ok done).trans done', grown.trans grown', last⟩

theorem Gives.of_eq (same : x w = y w) (gives : Gives w y d) : Gives w x d := by
  unfold Gives
  rwa [same]

theorem gives_pure (stands : Stands w r t) : Gives w (pure r) t.degree :=
  ⟨r, w, t, rfl, .refl w, stands, rfl⟩

theorem gives_refuseDeleted (nothing : w.part.deleted = []) (stands : Stands w r t) :
    Gives w (refuseDeleted r) t.degree :=
  ⟨r, w, t, refuseDeleted_of_nil nothing, .refl w, stands, rfl⟩

theorem Gives.refused (gives : Gives w x d) (nothing : w.part.deleted = []) :
    Gives w (x >>= refuseDeleted) d :=
  gives.bind fun _ _ _ grown stands same =>
    same ▸ gives_refuseDeleted (grown.nothing nothing) stands

theorem gives_newValue (truth : v.truth = .ok t) : Gives w (newValue v) t.degree := by
  have grown : Grown w { w with store := { w.store with values := w.store.values.push v } } :=
    ⟨⟨⟨[v], by simp⟩, prefix_rfl, prefix_rfl, Nat.le_refl _, fun _ _ _ => rfl, rfl⟩, rfl⟩
  refine ⟨⟨w.store.values.size⟩, _, t, rfl, grown, ⟨by simp, ?_⟩, rfl⟩
  rwa [Store.value, Array.getElem?_push_size]

theorem gives_copyValue (truth : (w.store.value r).truth = .ok t) : Gives w (copyValue r) t.degree := by
  obtain ⟨inside, copy⟩ := w.store.value_withCopies w.store r
  refine ⟨_, _, t, rfl, ⟨w.store.extends_withCopies _ _, rfl⟩, ⟨inside, ?_⟩, rfl⟩
  exact (congrArg Value.truth copy).trans ((Redirection.truth_ofValue _ _).trans truth)

theorem luck_grown (w : World) : ∃ lucky w', luck w = .ok lucky w' ∧ Grown w w' := by
  obtain ⟨c, w', drawn, grown⟩ : ∃ c w', chance w = .ok c w' ∧ Grown w w' := by
    refine ⟨_, _, rfl, ?_⟩
    cases w.around.chances with
    | nil => exact .refl w
    | cons c cs => exact ⟨.refl _, rfl⟩
  exact ⟨_, w', bind_ok drawn, grown⟩

/-- Chance decides between two values, but not about their truth. -/
theorem gives_either (left : Stands w a t) (right : Stands w b t) : Gives w (either a b) t.degree := by
  obtain ⟨lucky, w', drawn, grown⟩ := luck_grown w
  refine ⟨if lucky then a else b, w', t, ?_, grown, ?_, rfl⟩
  · rw [either, bind_ok drawn]
    cases lucky <;> rfl
  · cases lucky
    · exact right.grown grown
    · exact left.grown grown

/-- The operators that join truths, and what they do to degrees. -/
def Joins (op : Operator) (join : Nat → Nat → Nat) : Prop := op = .or ∧ join = max ∨ op = .and ∧ join = min

theorem gives_operate (joins : Joins op join) (left : Stands w a t) (right : Stands w b u) :
    Gives w (operate op token a b) (join t.degree u.degree) := by
  rcases joins with ⟨rfl, rfl⟩ | ⟨rfl, rfl⟩
  all_goals
    refine .of_eq ((bind_ok left.truthOf_eq).trans (bind_ok right.truthOf_eq)) ?_
    cases t <;> cases u
    all_goals first | exact gives_pure left | exact gives_pure right | exact gives_either left right

theorem gives_not {op : Token} (negates : op.kind = .semicolon) (stands : Stands w r t) :
    Gives w (operateUnary op r) (2 - t.degree) := by
  unfold operateUnary
  rw [negates, ← t.degree_not]
  exact .of_eq (bind_ok stands.truthOf_eq) (gives_newValue rfl)

/-! ## Names -/

variable {start : World} {c : Context} {i : Interpreter} {raw : Bool}

theorem gives_name (closed : start.store.Closed)
    (known : ∀ x ∈ c.scopes, x.index < start.store.scopes.size)
    (names : start.store.Names c.scopes token v) (truth : v.truth = .ok t) (grown : Grown start w) :
    Gives w (evaluateToken i c raw token) t.degree := by
  obtain ⟨e, r, found, bound, settled⟩ := names.bound
  -- other operands may have added values since the beginning, but the name leads to what was there
  have has := closed.has_lookup found
  have inside := has.value r bound
  rw [← grown.store.lookup_eq closed known] at found
  rw [← grown.store.entryValue_eq has] at bound
  have kept := grown.store.value_eq inside
  rw [evaluateToken, names.word]
  refine .of_eq ((bind_ok (lookup_ok found)).trans (bind_ok (entryValue_ok bound))) ?_
  refine .of_eq (bind_ok value_ok) ?_
  have bounds := Nat.lt_of_lt_of_le inside grown.store.size_values
  rw [kept]
  rw [Store.settled] at settled
  cases held : start.store.value r with
  | promise content =>
    rw [held] at settled
    cases content with
    | none =>
      cases settled
      exact gives_newValue truth
    | some x =>
      cases settled
      refine gives_copyValue ?_
      rwa [grown.store.value_eq (closed.promise r x held)]
  | _ =>
    rw [held] at settled kept
    cases settled
    refine gives_pure ⟨bounds, ?_⟩
    rwa [kept]

/-! ## Evaluation -/

theorem gives_binary {r : Expr} (joins : Joins op join) (nothing : w.part.deleted = [])
    (left : Gives w (evaluate i c false l) d)
    (right : ∀ w', Grown w w' → Gives w' (evaluate i c false r) d') (bound : d' ≤ 2) :
    Gives w (evaluate i c raw (.binary op token l r)) (join d d') := by
  refine left.bind fun a w₁ t grown stands same => ?_
  refine .of_eq (bind_ok stands.truthOf_eq) ?_
  subst same
  split
  · rename_i decided
    have absorbs : join t.degree d' = t.degree := by
      rcases joins with ⟨rfl, rfl⟩ | ⟨rfl, rfl⟩
      · obtain rfl : t = .yes := by simpa using decided
        exact Nat.max_eq_left bound
      · obtain rfl : t = .no := by simpa using decided
        exact Nat.min_eq_left (Nat.zero_le _)
    exact absorbs.symm ▸ gives_refuseDeleted (grown.nothing nothing) stands
  · refine (right w₁ grown).bind fun b w₂ u grown' stands' same => ?_
    subst same
    exact (gives_operate joins (stands.grown grown') stands').refused ((grown.trans grown').nothing nothing)

theorem gives_evaluate {e : Expr} {held : Token → Value} (closed : start.store.Closed)
    (known : ∀ x ∈ c.scopes, x.index < start.store.scopes.size) (nothing : start.part.deleted = [])
    (truths : ∀ t, start.store.Names c.scopes t (held t) → (held t).truth = .ok (leaf t))
    (formula : e.Formula fun t => start.store.Names c.scopes t (held t)) (grown : Grown start w) :
    Gives w (evaluate i c raw e) (e.degree leaf) := by
  induction formula generalizing w raw with
  | @name t names =>
    exact (gives_name closed known names (truths t names) grown).refused (grown.nothing nothing)
  | not negates _ ih =>
    refine (ih grown).bind fun a w₁ t grown' stands same => ?_
    rw [Expr.degree, ← same]
    exact (gives_not negates stands).refused ((grown.trans grown').nothing nothing)
  | or token left right ihl ihr =>
    exact gives_binary (.inl ⟨rfl, rfl⟩) (grown.nothing nothing) (ihl grown)
      (fun w' grown' => ihr (grown.trans grown')) right.degree_le
  | and token left right ihl ihr =>
    exact gives_binary (.inr ⟨rfl, rfl⟩) (grown.nothing nothing) (ihl grown)
      (fun w' grown' => ihr (grown.trans grown')) right.degree_le

def withChances (w : World) (chances : List Float) : World :=
  { w with around := { w.around with chances } }

/-- The value of a formula over names, where nothing is deleted, always exists, and whatever the chances
are, its truth is the strong Kleene value of the truths of what the names stand for. -/
theorem evaluate_kleene {e : Expr} {held : Token → Value} (closed : w.store.Closed)
    (known : ∀ x ∈ c.scopes, x.index < w.store.scopes.size) (nothing : w.part.deleted = [])
    (formula : e.Formula fun t => w.store.Names c.scopes t (held t)) :
    ∃ (leaf : Token → Truth) (t : Truth),
      (∀ token, w.store.Names c.scopes token (held token) → (held token).truth = .ok (leaf token)) ∧
      t.degree = e.degree leaf ∧
      ∀ chances, ∃ r w', evaluate i c raw e (withChances w chances) = .ok r w' ∧
        (w'.store.value r).truth = .ok t := by
  have exist : ∀ token, ∃ t, w.store.Names c.scopes token (held token) →
      (held token).truth = .ok t := by
    intro token
    by_cases names : w.store.Names c.scopes token (held token)
    · exact (Value.exists_truth names.finite).imp fun t truth _ => truth
    · exact ⟨.no, fun names' => absurd names' names⟩
  obtain ⟨leaf, truths⟩ := Classical.axiomOfChoice exist
  have gives : ∀ chances, Gives (withChances w chances) (evaluate i c raw e) (e.degree leaf) :=
    fun chances => gives_evaluate closed known nothing truths formula ⟨.refl _, rfl⟩
  -- the truth without chances is that with any, since the degree is the same
  obtain ⟨-, -, t, -, -, -, same⟩ := gives []
  refine ⟨leaf, t, truths, same, fun chances => ?_⟩
  obtain ⟨r, w', u, done, -, stands, same'⟩ := gives chances
  cases Truth.degree_injective (same.trans same'.symm)
  exact ⟨r, w', done, stands.truth⟩

/-- A world in which `a` is maybe, `b` a blank string and `c` the promise of an empty list. -/
def logicWorld : World :=
  { (default : World) with
    store := { Store.empty with
      values := #[.boolean .maybe, .string (.ofText " ") ⟨1⟩, .list (.ofList []) ⟨1⟩,
        .promise (some ⟨2⟩)]
      scopes := #[⟨[("a", .named "a" ⟨0⟩), ("b", .named "b" ⟨1⟩), ("c", .named "c" ⟨3⟩)]⟩, .empty] } }

def logicContext : Context := ⟨[⟨0⟩], ⟨0⟩, []⟩

/-- What the names of the world stand for. -/
def logicValue (t : Token) : Value :=
  if t.text == "a" then .boolean .maybe
  else if t.text == "b" then .string (.ofText " ") ⟨1⟩
  else .list (.ofList []) ⟨1⟩

def logicExpr : Expr :=
  .binary .and ⟨.name, "&", 1, 8⟩
    (.binary .or ⟨.name, "|", 1, 3⟩ (.value ⟨.name, "a", 1, 1⟩) (.value ⟨.name, "b", 1, 5⟩))
    (.unary ⟨.semicolon, ";", 1, 10⟩ (.value ⟨.name, "c", 1, 11⟩))

theorem logicWorld_closed : logicWorld.store.Closed := by
  refine ⟨?_, ?_, ?_⟩
  · rintro ⟨i⟩ e member
    rcases i with _ | _ | i
    · have each : e = ("a", .named "a" ⟨0⟩) ∨ e = ("b", .named "b" ⟨1⟩) ∨ e = ("c", .named "c" ⟨3⟩) := by
        simpa [logicWorld, Store.scope] using member
      rcases each with rfl | rfl | rfl
      · exact Store.has_named (by decide)
      · exact Store.has_named (by decide)
      · exact Store.has_named (by decide)
    · cases member
    · cases member
  · rintro ⟨i⟩ m found
    rcases i with _ | _ | _ | _ | i
    all_goals cases found
    all_goals decide
  · rintro ⟨i⟩ v found
    rcases i with _ | _ | _ | _ | i
    all_goals cases found
    decide

theorem logicWorld_names :
    logicWorld.store.Names logicContext.scopes ⟨.name, "a", 1, 1⟩ (.boolean .maybe) ∧
    logicWorld.store.Names logicContext.scopes ⟨.name, "b", 1, 5⟩ (.string (.ofText " ") ⟨1⟩) ∧
    logicWorld.store.Names logicContext.scopes ⟨.name, "c", 1, 11⟩ (.list (.ofList []) ⟨1⟩) :=
  ⟨⟨rfl, ⟨_, _, Store.lookup_eq (by decide) _, rfl, rfl⟩, fun n same => by cases same⟩,
    ⟨rfl, ⟨_, _, Store.lookup_eq (by decide) _, rfl, rfl⟩, fun n same => by cases same⟩,
    ⟨rfl, ⟨_, _, Store.lookup_eq (by decide) _, rfl, rfl⟩, fun n same => by cases same⟩⟩

theorem logicExpr_formula : logicExpr.Formula fun t =>
    logicWorld.store.Names logicContext.scopes t (logicValue t) := by
  obtain ⟨a, b, c⟩ := logicWorld_names
  exact .and _ (.or _ (.name a) (.name b)) (.not rfl (.name c))

/-- The value of `(a | b) & ;c` is maybe, whatever the chances are. -/
theorem evaluate_kleene_logic :
    logicWorld.store.Closed ∧ logicWorld.part.deleted = [] ∧
    (logicExpr.Formula fun t => logicWorld.store.Names logicContext.scopes t (logicValue t)) ∧
    ∀ chances, ∃ r w', evaluate (interpreter 0) logicContext false logicExpr
      (withChances logicWorld chances) = .ok r w' ∧ (w'.store.value r).truth = .ok .maybe := by
  obtain ⟨leaf, t, truths, same, results⟩ := @evaluate_kleene logicWorld logicContext
    (interpreter 0) false _ _ logicWorld_closed (by decide) rfl logicExpr_formula
  obtain ⟨a, b, c⟩ := logicWorld_names
  have first : leaf ⟨.name, "a", 1, 1⟩ = .maybe := (Except.ok.inj (truths _ a)).symm
  have second : leaf ⟨.name, "b", 1, 5⟩ = .maybe := (Except.ok.inj (truths _ b)).symm
  have third : leaf ⟨.name, "c", 1, 11⟩ = .no := (Except.ok.inj (truths _ c)).symm
  have maybe : t = .maybe := by
    apply Truth.degree_injective
    rw [same, logicExpr, Expr.degree, Expr.degree, Expr.degree, Expr.degree, Expr.degree,
      Expr.degree, first, second, third]
    rfl
  rw [maybe] at results
  exact ⟨logicWorld_closed, rfl, logicExpr_formula, results⟩

end Run

end DreamBerd
