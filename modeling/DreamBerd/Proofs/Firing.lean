import DreamBerd.Proofs.Frames
import Mathlib

/-!
# How often conditions are evaluated

When a variable is set, an element is set, or a list or a text is changed by a function, the conditions of
the watchers are evaluated. To count this, the functions are run with a notebook (`Noted`): whenever the
condition of a watcher is evaluated, the number of the watcher is noted. Without its notebook such a run is
the run of the function itself (`Erases`). What the code of a watcher causes in its turn is not noted.

An assignment notes no watcher twice. A function that changes a value notes a watcher as often as it is
posted for the value (`Counted`), which is as often as the condition mentioned the value when it was
registered (`watch_posts`): see `conditions_evaluated`, and `push_evaluates_twice` for a condition that is
evaluated twice.
-/

namespace DreamBerd

open List Run

variable {α β σ : Type}

def World.posted (w : World) (b : BoardRef) (k : WatchKey) : List Watcher :=
  (((w.store.boards[b.index]?).getD .empty).get? k).getD []

def World.watchers (w : World) (boards : List BoardRef) (k : WatchKey) : List Watcher :=
  (boards.reverse.map (w.posted · k)).flatten

abbrev Noted := EStateM Fault (World × List Nat)

namespace Noted

variable {w w' : World} {visited before : List Nat} {b : BoardRef}

/-- A computation that notes nothing. -/
def lift (x : Run α) : Noted α := fun s =>
  match x s.1 with
  | .ok a w => .ok a (w, s.2)
  | .error f w => .error f (w, s.2)

def note (id : Nat) : Noted Unit := fun s => .ok () (s.1, s.2 ++ [id])

def condition (i : Interpreter) (c : Context) (w : Watcher) : Noted ValueRef := do
  note w.id
  lift (i.eval c false w.condition)

/-!
## The functions that tell watchers

Each does what the function of `Run` with the same name does, and evaluates conditions by `condition`.
-/

def fire (i : Interpreter) (c : Context) (w : Watcher) : Noted Unit := do
  let v ← condition i c w
  let _ ← lift (runIf i c.scopes c.boards v w.code)

def tellValueWatchers (i : Interpreter) (c : Context) (r : ValueRef) (visited : List Nat) :
    Noted (List Nat) := do
  let mut visited := visited
  for w in ← lift (watchersOf c.boards (.value r)) do
    if !visited.contains w.id then
      fire i c w
      visited := visited ++ [w.id]
  return visited

def tellVariableWatchers (i : Interpreter) (c : Context) (r : VariableRef) (v : ValueRef)
    (visited : List Nat) : Noted Unit := do
  let mut visited := visited
  for w in ← lift (watchersOf c.boards (.variable r)) do
    if !visited.contains w.id then
      let condition ← condition i c w
      lift (followValue c.boards r v w)
      let _ ← lift (runIf i c.scopes c.boards condition w.code)
      visited := visited ++ [w.id]

def assignInside (i : Interpreter) (c : Context) (line : Int) (new : ValueRef) :
    List ValueRef → ValueRef → List Nat → Noted (List Nat)
  | [], _, _ => lift (breakDown .position)
  | n :: rest, r, visited => do
    let v ← lift (value r)
    if !v.isPresent || !v.isIndexable then lift (complainAtLine .assignIntoUnindexable line)
    let visited ←
      if rest.isEmpty then do
        lift (setIndex r n new)
        pure visited
      else
        let inner ← lift (getIndex r n)
        assignInside i c line new rest inner visited
    tellValueWatchers i c r visited

def assignEntry (i : Interpreter) (c : Context) (a : Assignment) (e : Entry) (indexes : List ValueRef)
    (v : ValueRef) : Noted (List Nat) := do
  if indexes.isEmpty then
    lift (assignWhole a.name a.confidence e v)
    return []
  else
    lift (checkEditable (some e) (complainAt .cannotEdit a.name))
    assignInside i c a.name.line v indexes (← lift (entryValue e)) []

def assign (i : Interpreter) (c : Context) (a : Assignment) (indexes : List ValueRef) (v : ValueRef) :
    Noted Unit := do
  match ← lift (lookupWithin c.scopes a.name.text) with
  | (some e, some x) =>
    lift (debugAssignment c.scopes a.debug a.name a.expression a.indexes indexes v)
    let visited ← assignEntry i c a e indexes v
    lift (tellVigil i c (lastPart a.name.text, x) v)
    match e with
    | .variable r => tellVariableWatchers i c r v visited
    | _ => pure ()
  | _ => lift (complainAt .assignUndefined a.name)

def callAndTell (i : Interpreter) (c : Context) (site : Token) (f : Value) (args : List ValueRef) :
    Noted ValueRef := do
  let result ← lift (callValue i c site f args)
  match args with
  | [] => lift (breakDown .position)
  | r :: _ =>
    for w in ← lift (watchersOf c.boards (.value r)) do
      fire i c w
    return result

def callModifier (i : Interpreter) (c : Context) (site : Token) (caller : Option String) (f : Value)
    (args : List ValueRef) : Noted ValueRef := do
  lift (checkCaller c caller)
  callAndTell i c site f args

/-! ## The notebook can be left out -/

def forget : EStateM.Result Fault (World × List Nat) α → EStateM.Result Fault World α
  | .ok a s => .ok a s.1
  | .error f s => .error f s.1

/-- Without its notebook, the first computation is the second one. -/
def Erases (x : Noted α) (y : Run α) : Prop := ∀ w notes, forget (x (w, notes)) = y w

theorem erases_pure (a : α) : Erases (pure a) (pure a) := fun _ _ => rfl

theorem erases_lift (y : Run α) : Erases (lift y) y := by
  intro w notes
  rw [lift]
  cases y w <;> rfl

theorem Erases.bind {x : Noted α} {f : α → Noted β} {g : α → Run β} (first : Erases x y)
    (rest : ∀ a, Erases (f a) (g a)) : Erases (x >>= f) (y >>= g) := by
  intro w notes
  have step := first w notes
  show forget (EStateM.bind x f (w, notes)) = EStateM.bind y g w
  rw [EStateM.bind, EStateM.bind, ← step]
  cases x (w, notes) with
  | ok a s => exact rest a s.1 s.2
  | error f s => rfl

section

variable (i : Interpreter) (c : Context)

include i c

theorem erases_condition (w : Watcher) :
    Erases (condition i c w) (i.eval c false w.condition) :=
  fun u notes => erases_lift (i.eval c false w.condition) u (notes ++ [w.id])

omit i c in
theorem erases_forIn {f : α → σ → Noted (ForInStep σ)} {g : α → σ → Run (ForInStep σ)}
    (each : ∀ a s, Erases (f a s) (g a s)) (as : List α) (s : σ) :
    Erases (forIn as s f) (forIn as s g) := by
  induction as generalizing s with
  | nil => exact erases_pure s
  | cons a as ih =>
    rw [forIn_cons, forIn_cons]
    refine (each a s).bind fun step => ?_
    cases step with
    | done s => exact erases_pure s
    | yield s => exact ih s

theorem erases_fire (w : Watcher) :
    Erases (fire i c w) (Run.fire i c w) :=
  (erases_condition i c w).bind fun _ => (erases_lift _).bind fun _ => erases_pure _

attribute [grind ←] erases_pure erases_lift Erases.bind erases_condition erases_forIn erases_fire

@[grind ←]
theorem erases_tellValueWatchers (r : ValueRef) (visited : List Nat) :
    Erases (tellValueWatchers i c r visited) (Run.tellValueWatchers i c r visited) := by
  unfold tellValueWatchers Run.tellValueWatchers
  grind

@[grind ←]
theorem erases_tellVariableWatchers (r : VariableRef) (v : ValueRef)
    (visited : List Nat) :
    Erases (tellVariableWatchers i c r v visited) (Run.tellVariableWatchers i c r v visited) := by
  unfold tellVariableWatchers Run.tellVariableWatchers
  grind

@[grind ←]
theorem erases_assignInside (line : Int) (new : ValueRef)
    (indexes : List ValueRef) (r : ValueRef) (visited : List Nat) :
    Erases (assignInside i c line new indexes r visited)
      (Run.assignInside i c line new indexes r visited) := by
  induction indexes generalizing r with
  | nil => exact erases_lift _
  | cons n rest ih =>
    unfold assignInside Run.assignInside
    grind

@[grind ←]
theorem erases_assignEntry (a : Assignment) (e : Entry) (indexes : List ValueRef) (v : ValueRef) :
    Erases (assignEntry i c a e indexes v) (Run.assignEntry i c a e indexes v) := by
  unfold assignEntry Run.assignEntry
  grind

theorem erases_assign (a : Assignment) (indexes : List ValueRef)
    (v : ValueRef) : Erases (assign i c a indexes v) (Run.assign i c a indexes v) := by
  refine (erases_lift _).bind fun found => ?_
  rcases found with ⟨_ | e, _ | x⟩
  · exact erases_lift _
  · exact erases_lift _
  · exact erases_lift _
  · refine (erases_lift _).bind fun _ => ?_
    grind

theorem erases_callModifier (site : Token) (caller : Option String)
    (f : Value) (args : List ValueRef) :
    Erases (callModifier i c site caller f args) (Run.callModifier i c site caller f args) := by
  refine (erases_lift _).bind fun _ => (erases_lift _).bind fun result => ?_
  cases args with
  | nil => exact erases_lift _
  | cons r rest => grind

end

/-! ## What is noted -/

def notes : EStateM.Result Fault (World × List Nat) α → List Nat
  | .ok _ s => s.2
  | .error _ s => s.2

/-- Started with the given notes, a computation ends with notes as described, or it fails and nothing has
been noted twice. -/
def Notes (before : List Nat) (x : Noted α) (after : α → List Nat → Prop) : Prop :=
  ∀ w, (∀ a s, x (w, before) = .ok a s → after a s.2) ∧ ∀ f s, x (w, before) = .error f s → s.2.Nodup

section Notes

variable {after : α → List Nat → Prop} {x : Noted α}

theorem notes_pure (holds : after a before) : Notes before (pure a) after :=
  fun _ => ⟨fun _ _ done => by
    cases done
    exact holds, fun _ _ failed => by cases failed⟩

theorem Notes.bind {f : α → Noted β} {final : β → List Nat → Prop} (first : Notes before x after)
    (rest : ∀ a notes, after a notes → Notes notes (f a) final) : Notes before (x >>= f) final := by
  intro w
  have step := first w
  have whole : (x >>= f) (w, before) = EStateM.bind x f (w, before) := rfl
  rw [whole, EStateM.bind]
  cases done : x (w, before) with
  | ok a s => exact rest a s.2 (step.1 a s done) s.1
  | error fault s =>
    refine ⟨fun _ _ other => (by cases other), fun _ _ failed => ?_⟩
    cases failed
    exact step.2 fault s done

theorem Notes.imp {after' : α → List Nat → Prop} (holds : Notes before x after)
    (weaker : ∀ a notes, after a notes → after' a notes) : Notes before x after' :=
  fun w => ⟨fun a s done => weaker a s.2 ((holds w).1 a s done), (holds w).2⟩

theorem notes_lift (distinct : before.Nodup) (y : Run α) :
    Notes before (lift y) fun _ notes => notes = before := by
  intro w
  have whole : ∀ {r}, lift y (w, before) = r → notes r = before := by
    rintro _ rfl
    rw [lift]
    cases y w <;> rfl
  refine ⟨fun _ _ done => whole done, fun _ s failed => ?_⟩
  have same : s.2 = before := whole failed
  rwa [same]

theorem notes_lift_bind (distinct : before.Nodup) {f : β → Noted α}
    (rest : ∀ b, Notes before (f b) after) : Notes before (lift y >>= f) after := by
  refine (notes_lift distinct y).bind fun b notes same => ?_
  subst same
  exact rest b

theorem nodup_snoc (distinct : before.Nodup) (new : n ∉ before) : (before ++ [n]).Nodup :=
  nodup_append.mpr ⟨distinct, nodup_singleton _, by
    rintro m member k here rfl
    exact new (mem_singleton.mp here ▸ member)⟩

theorem notes_condition_bind (distinct : before.Nodup) {w : Watcher} (new : w.id ∉ before)
    {i : Interpreter} {c : Context} {f : ValueRef → Noted α}
    (rest : ∀ v, Notes (before ++ [w.id]) (f v) after) : Notes before (condition i c w >>= f) after :=
  fun u => notes_lift_bind (nodup_snoc distinct new) rest u

theorem notes_forIn {f : α → σ → Noted (ForInStep σ)} {Inv : σ → List Nat → Prop}
    (each : ∀ a s notes, Inv s notes → Notes notes (f a s) fun step => Inv step.value)
    (as : List α) (holds : Inv s before) : Notes before (forIn as s f) Inv := by
  induction as generalizing s before with
  | nil => exact notes_pure holds
  | cons a as ih =>
    rw [forIn_cons]
    refine (each a s before holds).bind fun step notes kept => ?_
    cases step with
    | done s => exact notes_pure kept
    | yield s => exact ih kept

end Notes

/-- What has been visited is what has been noted, and nothing has been noted twice. -/
def Visited (visited notes : List Nat) : Prop := notes = visited ∧ visited.Nodup

theorem Visited.step {notes : List Nat} {w : Watcher} (holds : Visited visited notes)
    {x : Noted (ForInStep (List Nat))}
    (goes : w.id ∉ visited → Notes notes x fun step => Visited step.value) :
    Notes notes (if !visited.contains w.id then x else pure (.yield visited))
      fun step => Visited step.value := by
  by_cases there : w.id ∈ visited
  · rw [if_neg (by simpa using there)]
    exact notes_pure holds
  · rw [if_pos (by simpa using there)]
    exact goes there

theorem notes_tellValueWatchers (i : Interpreter) (c : Context) (r : ValueRef)
    (distinct : visited.Nodup) : Notes visited (tellValueWatchers i c r visited) Visited := by
  refine notes_lift_bind distinct fun ws => ?_
  refine Notes.bind (?_ : Notes visited _ Visited) fun _ _ => notes_pure
  refine notes_forIn (fun w visited notes holds => ?_) ws ⟨rfl, distinct⟩
  obtain ⟨rfl, distinct⟩ := holds
  refine Visited.step ⟨rfl, distinct⟩ fun new => ?_
  have longer := nodup_snoc distinct new
  refine Notes.bind (?_ : Notes notes (fire i c w) fun _ n => n = notes ++ [w.id]) fun _ _ same =>
    notes_pure ⟨same, longer⟩
  exact notes_condition_bind distinct new fun v => notes_lift_bind longer fun _ => notes_pure rfl

theorem notes_tellVariableWatchers (i : Interpreter) (c : Context) (r : VariableRef) (v : ValueRef)
    (distinct : visited.Nodup) :
    Notes visited (tellVariableWatchers i c r v visited) fun _ notes => notes.Nodup := by
  refine notes_lift_bind distinct fun ws => ?_
  refine Notes.bind (?_ : Notes visited _ Visited) fun _ _ holds => notes_pure (holds.1 ▸ holds.2)
  refine notes_forIn (fun w visited notes holds => ?_) ws ⟨rfl, distinct⟩
  obtain ⟨rfl, distinct⟩ := holds
  refine Visited.step ⟨rfl, distinct⟩ fun new => ?_
  have longer := nodup_snoc distinct new
  refine notes_condition_bind distinct new fun condition => notes_lift_bind longer fun _ => ?_
  exact notes_lift_bind longer fun _ => notes_pure ⟨rfl, longer⟩

theorem notes_assignInside (i : Interpreter) (c : Context) (line : Int) (new : ValueRef)
    (indexes : List ValueRef) (r : ValueRef) (distinct : visited.Nodup) :
    Notes visited (assignInside i c line new indexes r visited) Visited := by
  induction indexes generalizing r with
  | nil =>
    intro w
    refine ⟨fun _ _ done => ?_, fun _ _ failed => ?_⟩
    · cases done
    · cases failed
      exact distinct
  | cons n rest ih =>
    refine notes_lift_bind distinct fun v => ?_
    extract_lets tell go
    have tells : ∀ visited notes, Visited visited notes → Notes notes (tell visited) Visited := by
      rintro visited _ ⟨rfl, distinct⟩
      exact notes_tellValueWatchers i c r distinct
    have goes : ∀ u, Notes visited (go u) Visited := by
      intro _
      show Notes visited (if rest.isEmpty = true then _ else _) Visited
      split
      · exact notes_lift_bind distinct fun _ => (notes_pure ⟨rfl, distinct⟩).bind tells
      · exact notes_lift_bind distinct fun inner => (ih inner).bind tells
    split
    · exact notes_lift_bind distinct goes
    · exact goes ()

theorem notes_assignEntry (i : Interpreter) (c : Context) (a : Assignment) (e : Entry)
    (indexes : List ValueRef) (v : ValueRef) : Notes [] (assignEntry i c a e indexes v) Visited := by
  have distinct : ([] : List Nat).Nodup := nodup_nil
  unfold assignEntry
  split
  · exact notes_lift_bind distinct fun _ => notes_pure ⟨rfl, distinct⟩
  · refine notes_lift_bind distinct fun _ => notes_lift_bind distinct fun r => ?_
    exact notes_assignInside i c _ v indexes r distinct

theorem notes_assign (i : Interpreter) (c : Context) (a : Assignment) (indexes : List ValueRef)
    (v : ValueRef) : Notes [] (assign i c a indexes v) fun _ notes => notes.Nodup := by
  have distinct : ([] : List Nat).Nodup := nodup_nil
  refine notes_lift_bind distinct fun found => ?_
  split
  · refine notes_lift_bind distinct fun _ => ?_
    refine (notes_assignEntry i c a _ indexes v).bind ?_
    rintro visited _ ⟨rfl, distinct⟩
    refine notes_lift_bind distinct fun _ => ?_
    split
    · exact notes_tellVariableWatchers i c _ v distinct
    · exact notes_pure distinct
  · exact (notes_lift distinct _).imp fun _ _ same => same ▸ distinct

/-! ## Functions that change a value -/

theorem lift_bind_ok {f : α → Noted β} (done : y w = .ok a w') :
    (lift y >>= f) (w, before) = f a (w', before) := by
  show EStateM.bind (lift y) f (w, before) = f a (w', before)
  rw [EStateM.bind, lift, done]

theorem lift_bind_error {f : α → Noted β} {fault : Fault}
    (failed : y w = .error fault w') : (lift y >>= f) (w, before) = .error fault (w', before) := by
  show EStateM.bind (lift y) f (w, before) = .error fault (w', before)
  rw [EStateM.bind, lift, failed]

theorem notes_fire (i : Interpreter) (c : Context) (x : Watcher) (w : World) (before : List Nat) :
    notes (fire i c x (w, before)) = before ++ [x.id] := by
  show notes ((lift (i.eval c false x.condition) >>= fun v => do
    let _ ← lift (runIf i c.scopes c.boards v x.code)) (w, before ++ [x.id])) = _
  cases done : i.eval c false x.condition w with
  | error fault u => rw [lift_bind_error done, notes]
  | ok v u =>
    rw [lift_bind_ok done]
    cases ran : runIf i c.scopes c.boards v x.code u with
    | error fault u => rw [lift_bind_error ran, notes]
    | ok _ u =>
      rw [lift_bind_ok ran]
      rfl

def fireAll (i : Interpreter) (c : Context) (ws : List Watcher) : Noted PUnit :=
  forIn ws PUnit.unit fun w _ => do
    fire i c w
    pure (.yield PUnit.unit)

theorem notes_fireAll (i : Interpreter) (c : Context) (ws : List Watcher) (w : World)
    (before : List Nat) :
    (∀ a s, fireAll i c ws (w, before) = .ok a s → s.2 = before ++ ws.map (·.id)) ∧
    ∀ f s, fireAll i c ws (w, before) = .error f s → s.2 <+: before ++ ws.map (·.id) := by
  induction ws generalizing w before with
  | nil =>
    refine ⟨fun _ _ done => ?_, fun _ _ failed => ?_⟩
    · cases done
      exact (append_nil _).symm
    · cases failed
  | cons x ws ih =>
    have noted := notes_fire i c x w before
    have first : fireAll i c (x :: ws) (w, before) =
        EStateM.bind (fire i c x) (fun _ => fireAll i c ws) (w, before) := by
      rw [fireAll, forIn_cons, bind_assoc]
      rfl
    rw [first, EStateM.bind, map_cons, append_cons]
    cases done : fire i c x (w, before) with
    | ok _ s =>
      obtain ⟨u, after⟩ := s
      rw [done] at noted
      have same : after = before ++ [x.id] := noted
      subst same
      exact ih u (before ++ [x.id])
    | error fault s =>
      rw [done, notes] at noted
      refine ⟨fun _ _ other => ?_, fun _ _ failed => ?_⟩
      · cases other
      · cases failed
        rw [noted]
        exact prefix_append _ _

theorem watchersOf_ok (boards : List BoardRef) (key : WatchKey) (w : World) :
    watchersOf boards key w = .ok (w.watchers boards key) w :=
  bind_ok (mapM_read fun _ _ => rfl)

/-- What is noted when a function changes a value: the watchers of the value after the change, each as
often as it stands on the boards. If the call fails, nothing is noted; if a watcher fails, those after it
are not. -/
structure Counted (i : Interpreter) (c : Context) (site : Token) (f : Value) (r : ValueRef)
    (args : List ValueRef) (w : World) (result : EStateM.Result Fault (World × List Nat) ValueRef) :
    Prop where
  ok : ∀ v s, result = .ok v s → ∃ u, callValue i c site f (r :: args) w = .ok v u ∧
    s.2 = (u.watchers c.boards (.value r)).map (·.id)
  error : ∀ fault s, result = .error fault s → s.2 = [] ∨
    ∃ v u, callValue i c site f (r :: args) w = .ok v u ∧
      s.2 <+: (u.watchers c.boards (.value r)).map (·.id)

section Counted

variable {i : Interpreter} {c : Context} {site : Token} {f : Value} {r : ValueRef}
  {args : List ValueRef}

theorem counted_error (fault : Fault) (u : World) : Counted i c site f r args w (.error fault (u, [])) := by
  refine ⟨fun _ _ done => ?_, fun _ _ failed => ?_⟩
  · cases done
  · cases failed
    exact .inl rfl

theorem counted_lift_bind {g : α → Noted ValueRef} (same : leaves y w = w)
    (rest : ∀ a, Counted i c site f r args w (g a (w, []))) :
    Counted i c site f r args w ((lift y >>= g) (w, [])) := by
  cases done : y w with
  | ok a u =>
    rw [leaves, done] at same
    rw [lift_bind_ok done, show u = w from same]
    exact rest a
  | error fault u =>
    rw [lift_bind_error done]
    exact counted_error fault u

theorem counted_callAndTell :
    Counted i c site f r args w (callAndTell i c site f (r :: args) (w, [])) := by
  unfold callAndTell
  cases done : callValue i c site f (r :: args) w with
  | error fault u =>
    rw [lift_bind_error done]
    exact counted_error fault u
  | ok v u =>
    obtain ⟨all, some⟩ := notes_fireAll i c (u.watchers c.boards (.value r)) u []
    rw [lift_bind_ok done]
    dsimp only
    rw [lift_bind_ok (watchersOf_ok _ _ u)]
    show Counted i c site f r args w (EStateM.bind (fireAll i c _) (fun _ => pure v) (u, []))
    rw [EStateM.bind]
    cases fired : fireAll i c (u.watchers c.boards (.value r)) (u, []) with
    | ok _ s =>
      refine ⟨fun _ _ ended => ?_, fun _ _ failed => ?_⟩
      · cases ended
        exact ⟨u, done, all _ _ fired⟩
      · cases failed
    | error fault s =>
      refine ⟨fun _ _ ended => ?_, fun _ _ failed => ?_⟩
      · cases ended
      · cases failed
        exact .inr ⟨v, u, done, some _ _ fired⟩

theorem counted_callModifier (caller : Option String) :
    Counted i c site f r args w (callModifier i c site caller f (r :: args) (w, [])) := by
  have reads := Run.keeps_checkCaller (R := Eq) c caller w
  exact counted_lift_bind reads.symm fun _ => counted_callAndTell

end Counted

/-! ## New watchers -/

theorem posted_addWatcher (there : b.index < w.store.boards.size) (key k : WatchKey) (x : Watcher) :
    (leaves (addWatcher b key x) w).posted b k =
      if key = k then w.posted b k ++ [x] else w.posted b k := by
  show (((w.store.boards.setIfInBounds b.index _)[b.index]?.getD .empty).get? k).getD [] = _
  rw [Array.getElem?_setIfInBounds_self_of_lt there, Option.getD_some]
  by_cases same : key = k
  · subst same
    rw [if_pos rfl, Ledger.get?_put_self]
    rfl
  · rw [if_neg same, Ledger.get?_put_of_ne same]
    rfl

theorem addWatchers_ok (b : BoardRef) (x : Watcher) (keys : List WatchKey)
    (there : b.index < w.store.boards.size) :
    ∃ w', (forIn keys PUnit.unit fun k _ => do
        addWatcher b k x
        pure (.yield PUnit.unit) : Run PUnit) w = .ok PUnit.unit w' ∧
      ∀ k, w'.posted b k = w.posted b k ++ List.replicate (keys.count k) x := by
  induction keys generalizing w with
  | nil => exact ⟨w, rfl, fun k => by simp⟩
  | cons key keys ih =>
    have added := posted_addWatcher there key
    have same : (leaves (addWatcher b key x) w).store.boards.size = w.store.boards.size :=
      Array.size_setIfInBounds
    obtain ⟨w', done, posted⟩ := ih (same ▸ there)
    refine ⟨w', ?_, fun k => ?_⟩
    · rwa [forIn_cons, bind_assoc]
    · rw [posted, added]
      by_cases here : key = k
      · subst here
        simp [replicate_succ]
      · simp [here]

theorem watch_posts (i : Interpreter) {c : Context} {code : Code} {bs : List BoardRef} {tree : Expr}
    {keys : List WatchKey} (boards : c.boards = b :: bs) (parsed : treeOf e w = .ok tree w₁)
    (looked : watchKeys c.scopes tree w₁ = .ok keys w₂) (there : b.index < w₂.store.boards.size) :
    ∃ w₃, Run.watch i c e code w = Run.fire i c ⟨w₂.store.fresh, tree, code⟩ w₃ ∧
      ∀ k, w₃.posted b k =
        w₂.posted b k ++ List.replicate (keys.count k) ⟨w₂.store.fresh, tree, code⟩ := by
  obtain ⟨w₃, done, posted⟩ := addWatchers_ok b ⟨w₂.store.fresh, tree, code⟩ keys
    (w := { w₂ with store := { w₂.store with fresh := w₂.store.fresh + 1 } }) there
  refine ⟨w₃, ?_, posted⟩
  unfold watch
  rw [bind_ok parsed, bind_ok looked, boards]
  exact bind_ok done

/-- An assignment, be it to a variable or to an element, evaluates the condition of each watcher at most
once. A function that changes a value evaluates the condition of a watcher once for every time that the
watcher is posted for the value, and a watcher is posted once for every time that its condition mentions
the value. -/
theorem conditions_evaluated (i : Interpreter) (c : Context) :
    (∀ a indexes v, Erases (assign i c a indexes v) (Run.assign i c a indexes v) ∧
      ∀ w, (notes (assign i c a indexes v (w, []))).Nodup) ∧
    (∀ site caller f r args, Erases (callModifier i c site caller f (r :: args))
        (Run.callModifier i c site caller f (r :: args)) ∧
      ∀ w, Counted i c site f r args w (callModifier i c site caller f (r :: args) (w, []))) ∧
    ∀ e code b bs w w₁ w₂ tree keys, c.boards = b :: bs → Run.treeOf e w = .ok tree w₁ →
      Run.watchKeys c.scopes tree w₁ = .ok keys w₂ → b.index < w₂.store.boards.size →
      ∃ w₃, Run.watch i c e code w = Run.fire i c ⟨w₂.store.fresh, tree, code⟩ w₃ ∧
        ∀ k, w₃.posted b k =
          w₂.posted b k ++ List.replicate (keys.count k) ⟨w₂.store.fresh, tree, code⟩ := by
  refine ⟨fun a indexes v => ⟨erases_assign i c a indexes v, fun w => ?_⟩,
    fun site caller f r args => ⟨erases_callModifier i c site caller f _, fun w =>
      counted_callModifier caller⟩,
    fun e code b bs w w₁ w₂ tree keys boards parsed looked there =>
      watch_posts i boards parsed looked there⟩
  obtain ⟨all, some⟩ := notes_assign i c a indexes v w
  cases done : assign i c a indexes v (w, []) with
  | ok u s => exact all u s done
  | error fault s => exact some fault s done

def listWorld : World :=
  { (default : World) with
    store := { Store.empty with
      values := #[.list (.ofList [⟨1⟩]) ⟨1⟩, .number (.int 1), .number (.int 2)]
      scopes := #[⟨[("l", .variable ⟨0⟩)]⟩, .empty]
      slots := #[⟨"l", [⟨0, ⟨0⟩, endlessLines, 1, true, true⟩], []⟩]
      boards := #[.empty]
      queues := #[[]] } }

def listContext : Context := ⟨[⟨0⟩], ⟨0⟩, [⟨0⟩]⟩

def twoMentions : Expr := .list [.value ⟨.name, "l", 1, 6⟩, .value ⟨.name, "l", 1, 9⟩]

/-- The condition `[l, l]` is watched, and the code is empty. -/
def watchedWorld : World :=
  leaves (watch (interpreter 2) listContext (.built 0 twoMentions) []) listWorld

theorem conditions_evaluated_mentions :
    ∃ w₃, Run.watch (interpreter 2) listContext (.built 0 twoMentions) [] listWorld =
        Run.fire (interpreter 2) listContext ⟨0, twoMentions, []⟩ w₃ ∧
      ∀ k, w₃.posted ⟨0⟩ k = List.replicate
        (List.count k [.variable ⟨0⟩, .variable ⟨0⟩, .value ⟨0⟩, .value ⟨0⟩]) ⟨0, twoMentions, []⟩ :=
  (conditions_evaluated (interpreter 2) listContext).2.2 (.built 0 twoMentions) [] ⟨0⟩ [] listWorld
    listWorld listWorld twoMentions _ rfl rfl (by cbv) (by decide)

/-- After `l.push(2)`, the condition is evaluated twice. -/
theorem push_evaluates_twice :
    Run.watch (interpreter 2) listContext (.built 0 twoMentions) [] listWorld = .ok () watchedWorld ∧
    ∃ v w, callModifier (interpreter 2) listContext ⟨.name, "l.push", 2, 0⟩ (some "l")
      (.builtin 2 .listPush true) [⟨0⟩, ⟨2⟩] (watchedWorld, []) = .ok v (w, [0, 0]) :=
  ⟨by cbv, _, _, by cbv⟩

end Noted

end DreamBerd
