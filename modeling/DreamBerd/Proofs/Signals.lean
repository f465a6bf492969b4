import DreamBerd.Proofs.Overloading

/-!
# Signals

A signal is a function that sets a value when it is called with one, and that is to give the value when it
is called without any. It does remember the value that was set last. But a call without arguments is one
with a blank argument, which is taken away before the number of the arguments is compared with that of the
parameters. A signal has one parameter, so every call that should read it is refused
(`signal_kept_but_unread`).
-/

namespace DreamBerd.Run

variable {w w' : World} {c : Context} {s t : Token} {e : Expr} {cell : Nat} {f v v₀ : ValueRef}
  {arity : Int} {a : Action} {i : Interpreter} {raw : Bool} {scopes : List ScopeRef}

/-- A name without points stands for a value. -/
structure Named (w : World) (scopes : List ScopeRef) (t : Token) (v : ValueRef) : Prop where
  word : t.is .string = false
  plain : '.' ∉ t.text.toList
  bound : ∃ e x, w.store.innermost t.text scopes = some (e, x) ∧ w.store.entryValue e = .ok v

/-- A name that can be given to a signal. The name of a promise stands for a copy of what it holds. -/
structure Settable (w : World) (scopes : List ScopeRef) (t : Token) (v : ValueRef) : Prop extends
    Named w scopes t v where
  some : w.store.value v ≠ .blank
  kept : ∀ held, w.store.value v ≠ .promise held
  there : w.store.isDeleted w.part.deleted v = false

/-- The name of the function of a signal. -/
structure Signal (w : World) (scopes : List ScopeRef) (s : Token) (f : ValueRef) (cell : Nat) : Prop extends
    Named w scopes s f where
  acts : w.store.value f = .builtin 1 (.signalCell cell) false
  inside : cell < w.store.signals.size

def setEach (i : Interpreter) (c : Context) (s : Token) : List Token → Run Unit
  | [] => pure ()
  | t :: ts => do
    let _ ← evaluate i c false (.call s [.value t])
    setEach i c s ts

/-! ## Names and calls -/

theorem refuseDeleted_of_there (there : w.store.isDeleted w.part.deleted v = false) :
    refuseDeleted v w = .ok v w := by
  unfold refuseDeleted
  rw [bind_ok (show isDeleted v w = .ok false w from congrArg (EStateM.Result.ok · w) there)]
  rfl

namespace Named

theorem lookup_eq (named : Named w c.scopes t v) :
    ∃ e, lookup c.scopes t.text w = .ok (some e) w ∧ entryValue e w = .ok v w := by
  obtain ⟨e, x, found, holds⟩ := named.bound
  refine ⟨e, lookup_ok ((Store.lookup_eq named.plain _).trans ?_), entryValue_ok holds⟩
  rw [found]
  rfl

theorem evaluate_eq (named : Named w c.scopes t v) (kept : ∀ held, w.store.value v ≠ .promise held)
    (there : w.store.isDeleted w.part.deleted v = false) : evaluate i c raw (.value t) w = .ok v w := by
  obtain ⟨e, found, holds⟩ := named.lookup_eq
  have read : evaluateToken i c raw t w = .ok v w := by
    unfold evaluateToken
    rw [if_neg (by simp [named.word]), valueOfToken, bind_ok found]
    refine (bind_ok holds).trans ((bind_ok value_ok).trans ?_)
    cases held : w.store.value v with
    | promise r => exact absurd held (kept r)
    | _ => rfl
  unfold evaluate
  rw [bind_ok read, refuseDeleted_of_there there]

/-- A call of a built-in function with one argument. A blank argument is none. -/
theorem call_eq (named : Named w c.scopes s f) (acts : w.store.value f = .builtin arity a false)
    (argument : evaluate i c false e w = .ok v w) {args : List ValueRef}
    (given : w.store.value v = .blank ∧ args = [] ∨ w.store.value v ≠ .blank ∧ args = [v]) :
    evaluate i c raw (.call s [e]) w =
      (callValue i c s (.builtin arity a false) args >>= refuseDeleted) w := by
  obtain ⟨entry, found, holds⟩ := named.lookup_eq
  have held : value f w = .ok (.builtin arity a false) w := congrArg (EStateM.Result.ok · w) acts
  have called : calledEntry c s entry w = .ok (none, []) w := by
    unfold calledEntry
    rw [bind_ok holds, bind_ok held, callerOf, nameParts_of_plain named.plain]
    rfl
  have arguments : evaluateAll i c [e] w = .ok [v] w := by
    unfold evaluateAll
    rw [bind_ok argument]
    rfl
  have entered : callEntry i c s none entry false [v] w =
      callValue i c s (.builtin arity a false) args w := by
    refine (bind_ok value_ok).trans ?_
    rcases given with ⟨blank, rfl⟩ | ⟨some, rfl⟩
    · rw [blank]
      exact (bind_ok holds).trans (bind_ok held)
    · cases argument : w.store.value v with
      | blank => exact absurd argument some
      | _ => exact (bind_ok holds).trans (bind_ok held)
  unfold evaluate
  rw [bind_ok found]
  refine (bind_ok holds).trans ((bind_ok held).trans ?_)
  exact (bind_ok called).trans ((bind_ok arguments).trans (bind_of_eq entered))

end Named

theorem callValue_one (other : ∀ n, a ≠ .construct n) :
    callValue i c s (.builtin 1 a false) [v] w = (perform a [v] >>= orUndefined) w := by
  cases a with
  | construct n => exact absurd rfl (other n)
  | _ => rfl

/-! ## Sets in a row -/

/-- The world after a signal has been set. The call gives a new value, which is undefined. -/
def afterSet (w : World) (cell : Nat) (v : ValueRef) : World :=
  { w with store := { w.store with
    signals := w.store.signals.setIfInBounds cell v
    values := w.store.values.push .undefined } }

def afterUse (w : World) (v : ValueRef) : World :=
  { w with store := { w.store with
    signals := w.store.signals.push v
    values := w.store.values.push (.builtin 1 (.signalCell w.store.signals.size) false) } }

/-- A reference to no value is as good as one to an undefined value. -/
theorem value_afterSet (r : ValueRef) : (afterSet w cell v).store.value r = w.store.value r := by
  change (w.store.values.push Value.undefined)[r.index]?.getD .undefined = w.store.values[r.index]?.getD _
  rw [Array.getElem?_push]
  split
  · rw [‹r.index = _›, Array.getElem?_size]
    rfl
  · rfl

theorem Named.afterSet (named : Named w scopes t f) : Named (afterSet w cell v) scopes t f := by
  obtain ⟨e, x, found, holds⟩ := named.bound
  refine ⟨named.word, named.plain, e, x, ?_, holds⟩
  rw [← found]
  exact Store.innermost_congr fun _ _ => rfl

theorem Settable.afterSet (settable : Settable w scopes t u) :
    Settable (afterSet w cell v) scopes t u := by
  have same : (Run.afterSet w cell v).store.value = w.store.value := funext value_afterSet
  refine ⟨settable.toNamed.afterSet, same ▸ settable.some, same ▸ settable.kept, ?_⟩
  rw [← settable.there]
  unfold Store.isDeleted Store.hasFreshMembers
  rw [same]
  rfl

theorem Signal.afterSet (signal : Signal w scopes s f cell) : Signal (afterSet w cell v) scopes s f cell :=
  ⟨signal.toNamed.afterSet, (value_afterSet f).trans signal.acts, by simpa [Run.afterSet] using signal.inside⟩

theorem Signal.set_eq (signal : Signal w c.scopes s f cell) (settable : Settable w c.scopes t v) :
    evaluate i c raw (.call s [.value t]) w = .ok ⟨w.store.values.size⟩ (Run.afterSet w cell v) := by
  have argument : evaluate i c false (.value t) w = .ok v w :=
    settable.evaluate_eq settable.kept settable.there
  have used : useSignal cell v w =
      .ok none { w with store := { w.store with signals := w.store.signals.setIfInBounds cell v } } := by
    refine (bind_ok value_ok).trans ?_
    cases held : w.store.value v with
    | blank => exact absurd held settable.some
    | _ => rfl
  have called : callValue i c s (.builtin 1 (.signalCell cell) false) [v] w =
      .ok ⟨w.store.values.size⟩ (Run.afterSet w cell v) :=
    (callValue_one (by simp)).trans (bind_ok used)
  have undefined : (Run.afterSet w cell v).store.value ⟨w.store.values.size⟩ = .undefined :=
    congrArg (·.getD Value.undefined) Array.getElem?_push_size
  rw [signal.call_eq signal.acts argument (.inr ⟨settable.some, rfl⟩)]
  refine (bind_ok called).trans (refuseDeleted_of_there ?_)
  rw [Store.isDeleted, undefined, Bool.and_false]

/-- After any number of sets, the cell holds the value of the last one. -/
theorem Signal.setEach_eq {ts : List Token} {vs : List ValueRef} (signal : Signal w c.scopes s f cell)
    (start : w.store.signals[cell]? = some v₀) (settable : List.Forall₂ (Settable w c.scopes) ts vs) :
    ∃ w', setEach i c s ts w = .ok () w' ∧ Signal w' c.scopes s f cell ∧
      w'.store.signals[cell]? = some (vs.getLast?.getD v₀) ∧ w'.part = w.part ∧
      (∀ r, w'.store.value r = w.store.value r) ∧
      ∀ t r, Named w c.scopes t r → Named w' c.scopes t r := by
  induction ts generalizing w v₀ vs with
  | nil =>
    cases settable
    exact ⟨w, rfl, signal, start, rfl, fun _ => rfl, fun _ _ => id⟩
  | cons t ts ih =>
    obtain ⟨v, vs, first, rest, rfl⟩ := List.forall₂_cons_left_iff.mp settable
    have holds : (Run.afterSet w cell v).store.signals[cell]? = some v :=
      Array.getElem?_setIfInBounds_self_of_lt signal.inside
    obtain ⟨w', done, signal', last, part, same, names⟩ :=
      ih signal.afterSet holds (rest.imp fun _ _ => Settable.afterSet)
    refine ⟨w', (bind_ok (signal.set_eq first)).trans done, signal', ?_, part,
      fun r => (same r).trans (value_afterSet r), fun t r named => names t r named.afterSet⟩
    rw [last, List.getLast?_cons]
    rfl

theorem Signal.get_eq (signal : Signal w c.scopes s f cell) (named : Named w c.scopes t v)
    (blank : w.store.value v = .blank) : evaluate i c raw (.call s [.value t]) w =
      .error (w.part.source.atToken (.tooFewArguments 1) s) w := by
  have there : w.store.isDeleted w.part.deleted v = false := by
    rw [Store.isDeleted, blank, Bool.and_false]
  have argument : evaluate i c false (.value t) w = .ok v w := named.evaluate_eq (by simp [blank]) there
  rw [signal.call_eq signal.acts argument (.inl ⟨blank, rfl⟩)]
  rfl

/-- A call of `use` makes a signal, and the calls of the signal with values all succeed. Then its cell holds
the value of the last of them, or else the one that `use` was given, and the function of the signal would
give it for a blank argument. But the call without arguments is refused. -/
theorem signal_kept_but_unread (i : Interpreter) (raw : Bool) {u t₀ : Token} {g : ValueRef} (uses : Named w c.scopes u g)
    (acts : w.store.value g = .builtin 1 .signal false) (start : Settable w c.scopes t₀ v₀) :
    ∃ f w₁, evaluate i c raw (.call u [.value t₀]) w = .ok f w₁ ∧
      ∀ (c' : Context) (s : Token) (w₂ : World) (ts : List Token) (vs : List ValueRef),
        Named w₂ c'.scopes s f → w₂.store.value f = w₁.store.value f →
        w₂.store.signals = w₁.store.signals → List.Forall₂ (Settable w₂ c'.scopes) ts vs →
        ∃ w₃ cell, setEach i c' s ts w₂ = .ok () w₃ ∧ Signal w₃ c'.scopes s f cell ∧
          w₃.store.signals[cell]? = some (vs.getLast?.getD v₀) ∧
          ∀ (t : Token) (r : ValueRef), Named w₂ c'.scopes t r → w₂.store.value r = .blank →
            useSignal cell r w₃ = .ok (some (vs.getLast?.getD v₀)) w₃ ∧
            evaluate i c' raw (.call s [.value t]) w₃ =
              .error (w₃.part.source.atToken (.tooFewArguments 1) s) w₃ := by
  have argument : evaluate i c false (.value t₀) w = .ok v₀ w := start.evaluate_eq start.kept start.there
  have made : (afterUse w v₀).store.value ⟨w.store.values.size⟩ =
      .builtin 1 (.signalCell w.store.signals.size) false :=
    congrArg (·.getD Value.undefined) Array.getElem?_push_size
  refine ⟨⟨w.store.values.size⟩, afterUse w v₀, ?_, ?_⟩
  · rw [uses.call_eq acts argument (.inr ⟨start.some, rfl⟩)]
    have new : newSignal v₀ w = .ok ⟨w.store.values.size⟩ (afterUse w v₀) := rfl
    have performed : perform .signal [v₀] w = .ok (some ⟨w.store.values.size⟩) (afterUse w v₀) := bind_ok new
    have called : callValue i c u (.builtin 1 .signal false) [v₀] w =
        .ok ⟨w.store.values.size⟩ (afterUse w v₀) := by
      rw [callValue_one (by simp), bind_ok performed]
      have held : value ⟨w.store.values.size⟩ (afterUse w v₀) = .ok _ (afterUse w v₀) :=
        congrArg (EStateM.Result.ok · (afterUse w v₀)) made
      exact bind_ok held
    refine (bind_ok called).trans (refuseDeleted_of_there ?_)
    rw [Store.isDeleted, made, Bool.and_false]
  · intro c' s w₂ ts vs named holds cells settable
    have signal : Signal w₂ c'.scopes s ⟨w.store.values.size⟩ w.store.signals.size :=
      ⟨named, holds.trans made, by simp [cells, afterUse]⟩
    obtain ⟨w₃, done, signal', last, part, same, names⟩ := signal.setEach_eq (i := i)
      (by rw [cells]; exact Array.getElem?_push_size) settable
    refine ⟨w₃, _, done, signal', last, fun t r blank held => ⟨?_, ?_⟩⟩
    · refine (bind_ok (rfl : value r w₃ = .ok (w₃.store.value r) w₃)).trans ?_
      rw [same, held, ← last]
      rfl
    · exact signal'.get_eq (names t r blank) ((same r).trans held)

/-- A world with `use`, the blank and two numbers; a name is kept for the value that is made next. -/
def signalWorld : World :=
  { (default : World) with store := { Store.empty with
    values := #[.builtin 1 .signal false, .blank, .number (.int 0), .number (.int 9)]
    scopes := #[⟨[("use", .predefined ⟨0⟩), ("", .predefined ⟨1⟩), ("zero", .named "zero" ⟨2⟩),
      ("nine", .named "nine" ⟨3⟩), ("score", .named "score" ⟨4⟩)]⟩] } }

/-- After `score(nine)`, the signal that `use(zero)` has made holds nine, and `score()` is refused. -/
theorem score_unread :
    Expr.ofTokens ⟨"main.db", "score()"⟩
        [nameToken "score", ⟨.whitespace, "", 1, 5⟩, ⟨.name, "", 1, 5⟩] =
      .ok (.call (nameToken "score") [.value ⟨.name, "", 1, 5⟩]) ∧
    ∃ (w : World) (cell : Nat), setEach (interpreter 1) keywordContext (nameToken "score") [nameToken "nine"]
        (afterUse signalWorld ⟨2⟩) = .ok () w ∧ w.store.signals[cell]? = some (⟨3⟩ : ValueRef) ∧
      evaluate (interpreter 1) keywordContext false
        (.call (nameToken "score") [.value ⟨.name, "", 1, 5⟩]) w =
        .error (w.part.source.atToken (.tooFewArguments 1) (nameToken "score")) w := by
  have uses : Named signalWorld keywordContext.scopes (nameToken "use") ⟨0⟩ :=
    ⟨rfl, by decide, _, _, rfl, rfl⟩
  have start : Settable signalWorld keywordContext.scopes (nameToken "zero") ⟨2⟩ :=
    ⟨⟨rfl, by decide, _, _, rfl, rfl⟩, Value.noConfusion, fun _ => Value.noConfusion, rfl⟩
  refine ⟨rfl, ?_⟩
  obtain ⟨f, w₁, ⟨⟩, history⟩ := signal_kept_but_unread (interpreter 1) false uses rfl start
  obtain ⟨w, cell, done, signal, last, unread⟩ := history keywordContext (nameToken "score")
    (afterUse signalWorld ⟨2⟩) [nameToken "nine"] [⟨3⟩] ⟨rfl, by decide, _, _, rfl, rfl⟩ rfl rfl
    (.cons ⟨⟨rfl, by decide, _, _, rfl, rfl⟩, Value.noConfusion, fun _ => Value.noConfusion, rfl⟩ .nil)
  exact ⟨w, cell, done, last, (unread ⟨.name, "", 1, 5⟩ ⟨1⟩ ⟨rfl, by decide, _, _, rfl, rfl⟩ rfl).2⟩

end DreamBerd.Run
