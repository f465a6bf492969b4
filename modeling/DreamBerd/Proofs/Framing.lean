import DreamBerd.Proofs.Frames
import DreamBerd.Proofs.Turns

/-!
# What the interpreter does to a world

An expression, and what a statement does with its value, can do more than a frame allows: it sets
variables and lets them age, it edits values, keeps promises, hands values on to other parts and to other
programs, adds jobs to its block, and changes the watchers of what a board watches already. `Frames` is a
frame for the expressions of each block that allows these as well, each together with what has been
checked before it happens. Two relations come on top: one for statements, which also let the innermost
board of their block watch other variables, and one for whole blocks, whose jobs have turns besides. An
expression also runs other code, in contexts of their own with new queues and boards (`Frames.enter`).

`Framed` says that an interpreter keeps such frames. The lemmas of this module pass it on from an
interpreter to the functions that are given it, up to a whole block, so that every interpreter of the
family keeps all frames (`framed_interpreter`).
-/

namespace DreamBerd

variable {trigger : Trigger} {button : String} {event : ValueRef} {pressed : Bool} {ns : List Nat}
  {fuel confidence : Nat} {lifetime : Option String} {indexes : List ValueRef} {words : List String}
  {fs : List Statement}

def World.jobs (w : World) (q : QueueRef) : List Job := (w.store.queues[q.index]?).getD []

/-- What happens to a variable: a line passes, it is declared again, or it is assigned to if it can be. -/
inductive Variable.Step : Variable ValueRef → Variable ValueRef → Prop
  | aged {x : Variable ValueRef} : Step x x.tick
  | redeclared {x y : Variable ValueRef} {l : Lifetime ValueRef} : x.redeclare l = .ok y → Step x y
  | assigned {x y : Variable ValueRef} {now l : Lifetime ValueRef} : x.current = .ok now →
    now.canBeReset = true → x.assign l = .ok y → Step x y

/-- A declaration that begins in one world ends with writing down its variable in another one: it comes to
that with a lifetime that has the value, the confidence of the declaration, and the permissions that its
modifiers give in the scopes of the declaration. -/
structure Declaration.Lasting (d : Declaration) (i : Interpreter) (c : Context) (v : ValueRef) (w : World)
    (l : Lifetime ValueRef) (w' : World) : Prop where
  lifetime : d.lifetime = some "Infinity"
  value : l.value = v
  confidence : l.confidence = d.confidence
  flags : ∃ w₁ w₂, Run.isVar c.scopes (atPosition? d.modifiers (-2)) w = .ok l.canBeReset w₁ ∧
    Run.isVar c.scopes (atPosition? d.modifiers (-1)) w₁ = .ok l.canEditValue w₂
  ends : Run.declare i c d v w = Run.archiveVariable d.name.text l w'

namespace Run

variable {w w' : World} {n r : ValueRef}

/-- Relations between the worlds before and after an expression of a block with the given queue, before
and after a statement of the block, which posts its watchers on the innermost of the given boards, and
before and after the whole block. -/
structure Frames where
  expr : QueueRef → World → World → Prop
  stmt : QueueRef → List BoardRef → World → World → Prop
  block : QueueRef → List BoardRef → World → World → Prop
  frame : ∀ q, Frame (expr q)
  preorder_stmt : ∀ q boards, IsPreorder World (stmt q boards)
  preorder_block : ∀ q boards, IsPreorder World (block q boards)
  expr_le : ∀ {q : QueueRef} {boards : List BoardRef} {w w' : World}, expr q w w' → stmt q boards w w'
  stmt_le : ∀ {q : QueueRef} {boards : List BoardRef} {w w' : World},
    stmt q boards w w' → block q boards w w'
  /-- What is done in a context of its own. -/
  enter : ∀ {α : Type} {q : QueueRef} {scopes : List ScopeRef} {boards : List BoardRef}
    {names : Scope} {f : Context → Run α}, (∀ c, Keeps (block c.queue c.boards) (f c)) →
    Keeps (expr q) (enter scopes boards names >>= f)
  /-- A new job. -/
  joined : ∀ {q : QueueRef} {w : World} {job : Job}, job.position = 0 ∧ job.forward = true →
    expr q w (leaves (setJobs q (w.jobs q ++ [job])) w)
  /-- A job of a block goes on. -/
  goes : ∀ {q : QueueRef} {boards : List BoardRef} (js : List Job),
    Keeps (block q boards) (setJobs q js)
  /-- The watchers of a board change, but for none of a variable that had none. -/
  reposted : ∀ {q : QueueRef} {w : World} {b : BoardRef} {x : Board},
    (∀ r, (w.board b).get? (.variable r) = none → x.get? (.variable r) = none) →
    expr q w (leaves (setBoard b x) w)
  /-- A watcher is posted on the innermost board of a block. -/
  posted : ∀ {q : QueueRef} {b : BoardRef} {boards : List BoardRef} (key : WatchKey) (x : Watcher),
    Keeps (stmt q (b :: boards)) (addWatcher b key x)
  /-- Something happens to a variable. -/
  altered : ∀ {q : QueueRef} {w : World} {r : VariableRef} {new : Variable ValueRef},
    (w.store.variableOf r).Step new → expr q w (leaves (setVariable r new) w)
  /-- Whether exports are allowed. -/
  exports : Prop
  /-- A value is handed to another part. -/
  exported : ∀ {q : QueueRef} {w : World} {scopes : List ScopeRef} {name : String} {e : Entry}
    {v : ValueRef} (target : String), exports → w.store.lookup scopes name = .ok (some e) →
    w.store.entryValue e = .ok v →
    expr q w { w with part := { w.part with exported := w.part.exported ++ [(target, name, v)] } }
  /-- A variable is written down for later programs. -/
  archived : ∀ {q : QueueRef} {d : Declaration} {i : Interpreter} {c : Context} {v : ValueRef}
    {w w' : World} {l : Lifetime ValueRef}, d.Lasting i c v w l w' →
    expr q w' (leaves (archiveVariable d.name.text l) w')

/-- One relation for expressions, statements and blocks, which does not depend on queues and boards. -/
@[reducible]
def Frames.uniform (R : World → World → Prop) [Frame R] (exports : Prop)
    (moved : ∀ w queues boards, R w { w with store := { w.store with queues, boards } })
    (altered : ∀ {w : World} {r : VariableRef} {new : Variable ValueRef},
      (w.store.variableOf r).Step new → R w (leaves (setVariable r new) w))
    (exported : ∀ {w : World} {scopes : List ScopeRef} {name : String} {e : Entry} {v : ValueRef}
      (target : String), exports → w.store.lookup scopes name = .ok (some e) →
      w.store.entryValue e = .ok v →
      R w { w with part := { w.part with exported := w.part.exported ++ [(target, name, v)] } })
    (archived : ∀ {d : Declaration} {i : Interpreter} {c : Context} {v : ValueRef} {w w' : World}
      {l : Lifetime ValueRef}, d.Lasting i c v w l w' → R w' (leaves (archiveVariable d.name.text l) w')) :
    Frames where
  expr _ := R
  stmt _ _ := R
  block _ _ := R
  frame _ := inferInstance
  preorder_stmt _ _ := inferInstance
  preorder_block _ _ := inferInstance
  expr_le := id
  stmt_le := id
  enter inside := keeps_bind (fun w => IsTrans.trans _ _ _ (Growth.madeScope _ w) (moved _ _ _)) inside
  joined _ := moved _ _ _
  goes _ _ := moved _ _ _
  reposted _ := moved _ _ _
  posted _ _ _ := moved _ _ _
  altered
  exports
  exported
  archived

variable {F : Frames}

instance (q : QueueRef) : Frame (F.expr q) := F.frame q

instance (q : QueueRef) (boards : List BoardRef) : IsPreorder World (F.stmt q boards) :=
  F.preorder_stmt q boards

instance (q : QueueRef) (boards : List BoardRef) : IsPreorder World (F.block q boards) :=
  F.preorder_block q boards

class Framed (F : Frames) (i : Interpreter) : Prop where
  eval : ∀ c raw e, Keeps (F.expr c.queue) (i.eval c raw e)
  run : ∀ c code, Keeps (F.block c.queue c.boards) (i.run c code)
  resume : ∀ c n, Keeps (F.expr c.queue) (i.resume c n)

variable {i : Interpreter} [Framed F i] {α : Type} {q : QueueRef} {boards : List BoardRef} {R : World → World → Prop} [Frame R]
  {c : Context} {scopes : List ScopeRef} {args : List ValueRef} {v : ValueRef} {site t : Token}
  {name : String} {names : List String} {caller : Option String} {raw : Bool} {key : WatchKey}
  {e : Expression} {f : Statement} {code : Code} {clause : ClauseRef} {visited : List Nat}
  {start : Option Nat} {level : Nat}

theorem Keeps.stmt {x : Run α} (keeps : Keeps (F.expr q) x) : Keeps (F.stmt q boards) x :=
  fun w => F.expr_le (keeps w)

theorem Keeps.block {x : Run α} (keeps : Keeps (F.stmt q boards) x) : Keeps (F.block q boards) x :=
  fun w => F.stmt_le (keeps w)

/-! ## Scopes and watchers -/

theorem leaves_enter_bind {names : Scope} {f : Context → Run α} :
    leaves (enter scopes boards names >>= f) w =
      leaves (f ⟨⟨w.store.scopes.size⟩ :: scopes, ⟨w.store.queues.size⟩,
        ⟨w.store.boards.size⟩ :: boards⟩) (leaves (enter scopes boards names) w) := rfl

@[grind ←]
theorem keeps_orUndefined {r : Option ValueRef} : Keeps R (orUndefined r) := by
  unfold orUndefined
  grind

@[grind ←]
theorem keeps_runIf {condition : ValueRef} :
    Keeps (F.expr q) (runIf i scopes boards condition code) := by
  have inside : ∀ scopes boards, Keeps (F.expr q) (do i.run (← enter scopes boards .empty) code) :=
    fun scopes boards => F.enter fun c => Framed.run c code
  unfold runIf
  grind

@[grind ←]
theorem Framed.keeps_eval {e : Expr} (here : c.queue = q) :
    Keeps (F.expr q) (i.eval c raw e) := here ▸ Framed.eval c raw e

@[grind ←]
theorem keeps_watchersOf : Keeps R (watchersOf boards key) := by
  unfold watchersOf
  grind

theorem leaves_setBoard_put {ws : List Watcher}
    (old : ∀ r, key = .variable r → (w.board b).get? key ≠ none) :
    F.expr q w (leaves (setBoard b ((w.board b).put key ws)) w) := by
  refine F.reposted fun r unwatched => ?_
  have other : key ≠ .variable r := fun same => old r same (same ▸ unwatched)
  rwa [Ledger.get?_put_of_ne other]

@[grind ←]
theorem keeps_addWatcher_value : Keeps (F.expr q) (addWatcher b (.value v) x) :=
  keeps_board_bind fun _ => leaves_setBoard_put nofun

@[grind ←]
theorem keeps_addWatcherTo : Keeps (F.expr q) (addWatcherTo boards key x) := by
  cases boards with
  | nil => exact keeps_breakDown
  | cons b boards =>
    refine keeps_board_bind fun w => ?_
    split
    · rename_i known
      rw [Ledger.contains, Option.isSome_iff_ne_none] at known
      exact leaves_setBoard_put fun _ _ => known
    · exact keeps_breakDown w

@[grind ←]
theorem keeps_removeWatcher {id : Nat} : Keeps (F.expr q) (removeWatcher boards key id) := by
  refine keeps_bind (keeps_forIn (fun b _ => keeps_board_bind fun w => ?_)) fun _ => keeps_pure
  cases known : (w.board b).get? key with
  | none => exact keeps_pure w
  | some ws =>
    refine leaves_bind (leaves_setBoard_put fun _ _ => ?_) fun _ w' _ => keeps_pure w'
    rw [known]
    exact Option.some_ne_none ws

@[grind ←]
theorem keeps_forgetKey : Keeps (F.expr q) (forgetKey boards key) := by
  refine keeps_bind (keeps_forIn (fun b _ => keeps_board_bind fun w => ?_)) fun _ => keeps_pure
  split
  · refine leaves_bind (F.reposted fun r unwatched => ?_) fun _ w' _ => keeps_pure w'
    by_cases same : key = .variable r
    · rw [same, Ledger.get?_erase_self]
    · rwa [Ledger.get?_erase_of_ne same]
  · exact keeps_pure w

@[grind ←]
theorem keeps_fire {w : Watcher} : Keeps (F.expr c.queue) (fire i c w) := by
  unfold fire
  grind

/-! ## Calls -/

@[grind ←]
theorem keeps_construct {cls : ClassCell} {this : ValueRef} {constructor : Entry} :
    Keeps (F.expr q) (construct i cls this args constructor) := by
  refine keeps_bind keeps_entryValue fun r => keeps_bind keeps_value fun v => ?_
  cases v with
  | function params code isAsync =>
    have inside : ∀ names, Keeps (F.expr q) (do
        let c ← enter cls.scopes cls.boards names
        let _ ← i.run c code
        if (← scope cls.members).contains cls.name.text then
          modifyScope cls.members (·.erase cls.name.text)
        else breakDown .key) :=
      fun names => F.enter fun c => keeps_bind (Framed.run c code) fun _ =>
        Keeps.block (Keeps.stmt (by grind))
    grind
  | _ => grind

@[grind ←]
theorem keeps_finishInstance {cls : ClassCell} :
    Keeps (F.expr q) (finishInstance i cls args) := by
  unfold finishInstance
  grind

@[grind ←]
theorem keeps_makeInstance {n : Nat} :
    Keeps (F.expr q) (makeInstance i n args) := by
  refine keeps_bind keeps_store fun s => ?_
  split
  · grind
  · rename_i cls found
    have spent := keeps_spendClass (R := F.expr q) (n := n) cls
    grind

theorem leaves_complainAt_bind {β : Type} {c : Complaint} {f : α → Run β} :
    R w (leaves (complainAt c t >>= f) w) :=
  leaves_bind (keeps_complainAt w) fun _ _ done => by cases done

theorem keeps_callValue {f : Value}
    (edits : ∀ n a marked, f = .builtin n a marked → a.edits = true → Edits (F.expr c.queue)) :
    Keeps (F.expr c.queue) (callValue i c site f args) := by
  unfold callValue
  cases f with
  | function params code isAsync =>
    have inside : ∀ names, Keeps (F.expr c.queue) (do
        let inner ← enter c.scopes c.boards names
        orUndefined (← i.run inner code)) :=
      fun names => F.enter fun inner =>
        keeps_bind (Framed.run inner code) fun r => keeps_orUndefined.stmt.block
    grind
  | builtin n a marked =>
    have performs : ∀ args, Keeps (F.expr c.queue) (perform a args) :=
      fun args => keeps_perform (edits n a marked rfl)
    grind
  | _ => exact keeps_breakDown

@[grind ←]
theorem keeps_queueCall {params : List String} :
    Keeps (F.expr c.queue) (queueCall c site params code args) := by
  have joins : ∀ x, Keeps (F.expr c.queue)
      (do setJobs c.queue ((← jobs c.queue) ++ [⟨code, x :: c.scopes, 0, true⟩])) :=
    fun x w => @Frames.joined F c.queue w ⟨code, x :: c.scopes, 0, true⟩ ⟨rfl, rfl⟩
  have added := keeps_bind (keeps_newScope (x := parameterScope params args)) joins
  unfold queueCall
  split
  · exact keeps_bind keeps_complainAt fun _ => added
  · exact added

@[grind ←]
theorem keeps_callModifier [∀ q, Edits (F.expr q)] {f : Value} :
    Keeps (F.expr c.queue) (callModifier i c site caller f args) := by
  have ran : Keeps (F.expr c.queue) (callValue i c site f args) :=
    keeps_callValue fun _ _ _ _ _ => inferInstance
  refine keeps_bind (keeps_checkCaller c caller) fun _ => keeps_bind ran fun result => ?_
  grind

@[grind ←]
theorem keeps_callEntry [∀ q, Edits (F.expr q)] {e : Entry} {awaited : Bool} :
    Keeps (F.expr c.queue) (callEntry i c site caller e awaited args) := by
  unfold callEntry
  extract_lets called
  have calls : ∀ args, Keeps (F.expr c.queue) (called args) := by
    intro args
    refine keeps_bind keeps_entryValue fun r => keeps_bind keeps_value fun v => ?_
    have ran : ∀ f, Keeps (F.expr c.queue) (callValue i c site f args) :=
      fun f => keeps_callValue fun _ _ _ _ _ => inferInstance
    grind
  rcases args with _ | ⟨r, rest⟩
  · exact keeps_bind keeps_breakDown calls
  · refine keeps_bind keeps_value fun v => ?_
    split
    · exact keeps_bind keeps_pure calls
    · exact keeps_bind keeps_pure calls

/-! ## Expressions -/

@[grind ←]
theorem keeps_refuseDeleted : Keeps R (refuseDeleted r) := by
  unfold refuseDeleted
  grind

@[grind ←]
theorem keeps_expressionText {e : List Char} :
    Keeps (F.expr c.queue) (expressionText i c e) := by
  unfold expressionText
  grind

@[grind ←]
theorem keeps_interpolated? {symbol cs : List Char} {start : Nat} :
    Keeps (F.expr c.queue) (interpolated? i c symbol cs start) := by
  unfold interpolated?
  grind

@[grind ←]
theorem keeps_interpolate : Keeps (F.expr c.queue) (interpolate i c s) := by
  unfold interpolate
  grind

@[grind ←]
theorem keeps_previousValue : Keeps R (previousValue c t) := by
  unfold previousValue
  grind

@[grind ←]
theorem keeps_calledEntry {e : Entry} : Keeps R (calledEntry c site e) := by
  unfold calledEntry
  grind

theorem keeps_callNamed [∀ q, Edits (F.expr q)] {e : Entry} {awaited : Bool}
    {given : Run (List ValueRef)} (evaluated : Keeps (F.expr c.queue) given) :
    Keeps (F.expr c.queue) (callNamed i c site e awaited given) := by
  refine keeps_bind keeps_calledEntry fun p => keeps_bind evaluated fun args => ?_
  grind

omit [Framed F i] in
mutual

theorem keeps_evaluate [Framed F i] [∀ q, Edits (F.expr q)] (raw : Bool) (e : Expr) :
    Keeps (F.expr c.queue) (evaluate i c raw e) := by
  cases e with
  | value t =>
    unfold evaluate
    grind [evaluateToken]
  | list items =>
    have all := keeps_evaluateAll items
    unfold evaluate
    grind
  | index v n =>
    have whole := keeps_evaluate false v
    have place := keeps_evaluate false n
    unfold evaluate
    grind [evaluateIndex]
  | unary op e =>
    have operand := keeps_evaluate false e
    unfold evaluate
    grind
  | binary op token l r =>
    have left := keeps_evaluate false l
    have right := keeps_evaluate false r
    unfold evaluate
    grind
  | call site args =>
    have all := keeps_evaluateAll args
    unfold evaluate
    refine keeps_bind keeps_lookup fun e => ?_
    rcases e with _ | e
    · exact keeps_complainAt
    · refine keeps_bind keeps_entryValue fun r => keeps_bind keeps_value fun v => ?_
      split
      · split
        · rename_i inner innerArgs
          have innerAll := keeps_evaluateAll innerArgs
          refine keeps_bind keeps_lookup fun e => ?_
          rcases e with _ | e
          · exact keeps_complainAt
          · exact keeps_callNamed innerAll
        · exact keeps_complainAt
        · exact keeps_complainAt
      · split
        · grind
        · exact keeps_complainAt
        · exact keeps_complainAt
      · exact keeps_callNamed all

theorem keeps_evaluateAll [Framed F i] [∀ q, Edits (F.expr q)] (es : List Expr) :
    Keeps (F.expr c.queue) (evaluateAll i c es) := by
  cases es with
  | nil => exact keeps_pure
  | cons e es =>
    have first := keeps_evaluate false e
    have rest := keeps_evaluateAll es
    unfold evaluateAll
    grind

end

/-! ## Listeners -/

@[grind ←]
theorem keeps_mouseObject : Keeps R (mouseObject trigger button x y) := by
  unfold mouseObject
  grind [eventObject]

@[grind ←]
theorem keeps_keyObject : Keeps R (keyObject trigger k) := by
  unfold keyObject
  grind [eventObject]

@[grind ←]
theorem keeps_setListener {n : Nat} : Keeps R (setListener n l) := by
  unfold setListener
  grind

@[grind ←]
theorem keeps_react : Keeps (F.expr q) (react i l event) :=
  F.enter fun c => keeps_bind (Framed.run c l.code) fun _ => keeps_pure

@[grind ←]
theorem keeps_onMouse {n : Nat} :
    Keeps (F.expr q) (onMouse i n l button pressed x y) := by
  unfold onMouse
  grind

@[grind ←]
theorem keeps_onKey {n : Nat} : Keeps (F.expr q) (onKey i n l k pressed) := by
  unfold onKey
  grind

@[grind ←]
theorem keeps_tell {e : Event} {n : Nat} : Keeps (F.expr q) (tell i e n) := by
  refine keeps_bind keeps_get fun w => ?_
  split
  · split
    · exact keeps_pure
    · refine keeps_tryCatch ?_ fun f => keeps_bind keeps_setListener fun _ => keeps_pure
      cases e with
      | mouse button pressed x y =>
        exact keeps_bind keeps_onMouse fun _ => keeps_pure
      | key k pressed => exact keeps_bind keeps_onKey fun _ => keeps_pure
  · exact keeps_pure

@[grind ←]
theorem keeps_tellAll {e : Event} : Keeps (F.expr q) (tellAll i e ns) := by
  induction ns with
  | nil => exact keeps_pure
  | cons n ns ih =>
    unfold tellAll
    grind

@[grind ←]
theorem keeps_deliver {e : Event} : Keeps (F.expr q) (deliver i e) := by
  unfold deliver
  grind

@[grind ←]
theorem keeps_exitIfDead : Keeps R (exitIfDead) := by
  unfold exitIfDead
  grind

@[grind ←]
theorem keeps_awaitEvent : Keeps (F.expr q) (awaitEvent i) := by
  unfold awaitEvent
  grind

/-! ## Next values -/

@[grind ←]
theorem keeps_nextToken : Keeps R (nextToken scopes t) := by
  unfold nextToken
  grind [siteScope]

section Rewriting

variable {κ : Type} [EmptyCollection κ] [Union κ] {token : Token → Run (Token × κ)}
  {call : Token → List Expr → Run (Expr × κ) → Run (Expr × κ)}

mutual

theorem keeps_rewrite (tokens : ∀ t, Keeps R (token t))
    (calls : ∀ site args {x}, Keeps R x → Keeps R (call site args x)) (e : Expr) :
    Keeps R (rewrite token call e) := by
  cases e with
  | value t => exact keeps_bind (tokens t) fun _ => keeps_pure
  | list items => exact keeps_bind (keeps_rewriteAll tokens calls items) fun _ => keeps_pure
  | index l r | binary op t l r =>
    have right := keeps_rewrite tokens calls r
    exact keeps_bind (keeps_rewrite tokens calls l) fun _ => keeps_bind right fun _ => keeps_pure
  | unary op e => exact keeps_bind (keeps_rewrite tokens calls e) fun _ => keeps_pure
  | call site args =>
    exact calls site args (keeps_bind (keeps_rewriteAll tokens calls args) fun _ => keeps_pure)

theorem keeps_rewriteAll (tokens : ∀ t, Keeps R (token t))
    (calls : ∀ site args {x}, Keeps R x → Keeps R (call site args x)) (es : List Expr) :
    Keeps R (rewriteAll token call es) := by
  cases es with
  | nil => exact keeps_pure
  | cons e es =>
    have rest := keeps_rewriteAll tokens calls es
    exact keeps_bind (keeps_rewrite tokens calls e) fun _ => keeps_bind rest fun _ => keeps_pure

end

end Rewriting

@[grind ←]
theorem keeps_calledValue : Keeps R (calledValue scopes t site) := by
  unfold calledValue
  grind

theorem keeps_replaceCall {args : List Expr} {x : Run (Expr × Awaited)} (inside : Keeps R x) :
    Keeps R (replaceCall scopes site args x) := by
  refine keeps_bind keeps_calledValue fun v => ?_
  split
  · grind
  · split
    · refine keeps_bind keeps_calledValue fun v => ?_
      grind
    · exact keeps_complainAt
  · exact inside

@[grind ←]
theorem keeps_replaceNext (e : Expr) : Keeps R (replaceNext scopes e) :=
  keeps_rewrite (fun _ => keeps_pure) (fun _ _ => keeps_replaceCall) e

@[grind ←]
theorem keeps_keepPrevious (e : Expr) : Keeps R (keepPrevious scopes names e) :=
  keeps_rewrite (fun _ => by grind [keepToken]) (fun _ _ => id) e

@[grind ←]
theorem keeps_settings : Keeps R (settings scopes name) := by
  unfold settings
  grind

@[grind ←]
theorem keeps_waitFor : Keeps (F.expr q) (waitFor i scopes name start fuel) := by
  induction fuel with
  | zero => exact keeps_throw
  | succ fuel ih =>
    unfold waitFor
    grind

@[grind ←]
theorem keeps_waitForAll : Keeps (F.expr q) (waitForAll i scopes names) := by
  unfold waitForAll
  grind

@[grind ←]
theorem keeps_awaitedEntry : Keeps R (awaitedEntry scopes name start) := by
  unfold awaitedEntry
  grind

@[grind ←]
theorem keeps_valueAfter {e : Entry} : Keeps R (valueAfter e start) := by
  unfold valueAfter
  grind

@[grind ←]
theorem keeps_awaitNames : Keeps (F.expr q) (awaitNames i scopes names) := by
  unfold awaitNames
  grind

@[grind ←]
theorem keeps_checkUnset {starts : List (Site × Option Nat)} : Keeps R (checkUnset scopes starts) := by
  refine keeps_bind (keeps_forIn (fun p _ => ?_)) fun _ => keeps_pure
  refine keeps_bind keeps_lookup fun e => keeps_bind keeps_settings fun now => ?_
  rcases e with _ | e
  · exact keeps_pure
  · dsimp only
    split
    · exact keeps_bind keeps_valueAfter fun _ =>
        keeps_bind keeps_breakDown fun _ => keeps_pure
    · exact keeps_pure

@[grind ←]
theorem keeps_keepVigil {form : Nat} {kept : Scope}
    {promise : Option ValueRef} : Keeps (F.expr q) (keepVigil i clause form a kept promise scopes) := by
  refine keeps_bind (keeps_mapM (fun name => by grind)) fun names => ?_
  refine keeps_bind (keeps_mapM (fun s => by grind)) fun sites => keeps_bind keeps_get fun w => ?_
  refine keeps_bind (keeps_forIn (fun p _ => by grind)) fun _ => ?_
  refine keeps_bind (keeps_mapM (fun p => by grind)) fun found => ?_
  refine keeps_bind keeps_checkUnset fun _ => keeps_bind keeps_store fun s => ?_
  refine keeps_bind (keeps_modifyStore rfl rfl rfl rfl rfl rfl) fun _ => ?_
  refine keeps_bind (keeps_forIn (fun s _ => ?_)) fun _ => keeps_pure
  refine keeps_bind keeps_newScope fun x => keeps_bind keeps_store fun s => ?_
  refine keeps_bind (keeps_modifyStore rfl rfl rfl rfl rfl rfl) fun _ => ?_
  exact keeps_bind (keeps_modifySection rfl rfl) fun _ => keeps_pure

/-! ## Debugging output -/

section Growth

omit [Frame R]

variable [Growth R]

@[grind ←]
theorem keeps_treeOf : Keeps R (treeOf e) := by
  unfold treeOf
  grind

@[grind ←]
theorem keeps_debugAt {message : String} : Keeps R (debugAt message t) := by
  unfold debugAt
  grind

@[grind ←]
theorem keeps_shownNames {valueOf : Token → Run ValueRef} (reads : ∀ t, Keeps R (valueOf t))
    {names : List Token} : Keeps R (shownNames names valueOf) := by
  unfold shownNames
  grind

@[grind ←]
theorem keeps_debugExpression : Keeps R (debugExpression scopes level e v) := by
  unfold debugExpression
  grind [debugAnywhere]

@[grind ←]
theorem keeps_debugDeclaration {name : Token} {modifiers : List Token} :
    Keeps R (debugDeclaration scopes level name modifiers lifetime e v) := by
  have shown : ∀ tree : Expr,
      Keeps R (shownNames tree.names fun _ => valueOfToken scopes name) :=
    fun tree => keeps_shownNames (fun _ => keeps_valueOfToken)
  unfold debugDeclaration
  split
  · grind
  · split
    · refine keeps_bind keeps_treeOf fun tree => keeps_bind keeps_textOf fun text => ?_
      split
      · grind
      · exact keeps_bind (shown tree) fun names => keeps_debugAt
    · exact keeps_pure

end Growth

@[grind ←]
theorem keeps_debugAssignment {name : Token} {indexTrees : List Expression} :
    Keeps R (debugAssignment scopes level name e indexTrees indexes v) := by
  have shown : ∀ names, Keeps R (shownNames names (valueOfToken scopes)) :=
    fun _ => keeps_shownNames fun _ => keeps_valueOfToken
  unfold debugAssignment
  split
  · extract_lets print ofTree
    have written : ∀ tree, Keeps R (ofTree tree) := by
      intro tree
      unfold ofTree
      extract_lets ofTrees
      have written : ∀ trees, Keeps R (ofTrees trees) := by
        intro trees
        refine keeps_bind (keeps_mapM (fun r => by grind)) fun places => ?_
        refine keeps_bind keeps_textOf fun text => ?_
        split
        · exact keeps_debugAt
        · exact keeps_bind (shown _) fun names => keeps_debugAt
        · exact keeps_bind (shown _) fun names => keeps_debugAt
        · exact keeps_bind (shown _) fun names => keeps_debugAt
      split
      · exact written []
      · exact keeps_bind (keeps_mapM fun _ => keeps_treeOf) written
    split
    · exact written (.list [])
    · exact keeps_bind keeps_treeOf written
  · exact keeps_pure

/-! ## Declarations and assignments -/

@[grind ←]
theorem keeps_keepNext {vigil : Vigil} {site : Site} : Keeps R (keepNext vigil site v) := by
  unfold keepNext
  grind

@[grind ←]
theorem keeps_stopWaiting {vigil : Vigil} {site : Site} : Keeps R (stopWaiting vigil site) := by
  refine keeps_bind keeps_store fun s => ?_
  grind

@[grind ←]
theorem keeps_forgetVigil {site : Site} : Keeps R (forgetVigil site) := by
  refine keeps_bind keeps_get fun w => ?_
  grind

@[grind ←]
theorem keeps_tellVigil {site : Site} :
    Keeps (F.expr c.queue) (tellVigil i c site v) := by
  refine keeps_bind keeps_get fun w => ?_
  split
  · exact keeps_pure
  · rename_i n _
    refine keeps_bind keeps_store fun s => ?_
    have resumed := Framed.resume (F := F) (i := i) c n
    grind

@[grind ←]
theorem keeps_handOver {r : VariableRef} {x : Watcher} : Keeps (F.expr q) (handOver boards r v x) := by
  unfold handOver watchVariable
  grind

@[grind ←]
theorem keeps_tellNameWatchers {r : VariableRef} :
    Keeps (F.expr c.queue) (tellNameWatchers i c name r v) := by
  unfold tellNameWatchers
  grind

@[grind ←]
theorem keeps_tellValueWatchers :
    Keeps (F.expr c.queue) (tellValueWatchers i c r visited) := by
  unfold tellValueWatchers
  grind

@[grind ←]
theorem keeps_followValue {r : VariableRef} {x : Watcher} : Keeps (F.expr q) (followValue boards r v x) := by
  have left : Keeps (F.expr q) (leaveOldValue boards r x) := by
    unfold leaveOldValue
    grind
  unfold followValue
  grind

@[grind ←]
theorem keeps_tellVariableWatchers {r : VariableRef} :
    Keeps (F.expr c.queue) (tellVariableWatchers i c r v visited) := by
  unfold tellVariableWatchers
  grind

theorem keeps_archiveVariable (written : ∀ f, Keeps R (modifyAround f)) {l : Lifetime ValueRef} :
    Keeps R (archiveVariable name l) := by
  refine keeps_bind keeps_get fun w => ?_
  refine keeps_bind (written _) fun _ => keeps_bind keeps_store fun s => ?_
  split
  · exact keeps_breakDown
  · exact written _

theorem keeps_publishDeclared : Keeps R (publishDeclared d v) := by
  unfold publishDeclared publishVariable
  grind

section Growth

omit [Frame R]

variable [Growth R]

@[grind ←]
theorem keeps_isVar {t : Option Token} : Keeps R (isVar scopes t) := by
  unfold isVar
  grind

@[grind ←]
theorem keeps_linesOf : Keeps R (linesOf lifetime) := by
  unfold linesOf
  grind [isTemporal]

theorem keeps_prepare : Keeps R (prepare c d) := by
  unfold prepare
  grind

end Growth

@[grind ←]
theorem keeps_bindVariable {l : Lifetime ValueRef} : Keeps (F.expr q) (bindVariable x name l) := by
  intro w
  refine leaves_bind (keeps_scope w) fun names w' read => ?_
  cases read
  split
  · rename_i r found
    refine leaves_bind (keeps_variableOf w) fun old w' read => ?_
    cases read
    refine leaves_bind (keeps_ofExcept w) fun new w' read => ?_
    obtain ⟨redeclared, rfl⟩ := ofExcept_eq_ok read
    exact leaves_bind (F.altered (.redeclared redeclared)) fun _ w' _ => keeps_pure w'
  all_goals
    refine (?_ : Keeps (F.expr q) _) w
    grind

@[grind ←]
theorem keeps_bindDeclared : Keeps (F.expr q) (bindDeclared c d v) := by
  refine keeps_bind keeps_prepare fun prepared => ?_
  grind

@[grind ←]
theorem keeps_introduce : Keeps (F.expr c.queue) (introduce i c d v) := by
  have told : Keeps (F.expr c.queue) (c.scopes.head?.forM fun x => tellVigil i c (d.name.text, x) v) := by
    cases c.scopes.head? with
    | none => exact keeps_pure
    | some x => exact keeps_tellVigil
  unfold introduce
  grind

theorem prepare_eq_ok {tag : Nat} {lines : Int} {reset edit : Bool}
    (prepared : prepare c d w = .ok (tag, lines, reset, edit) w') :
    ∃ w₁ w₂, isVar c.scopes (atPosition? d.modifiers (-2)) w = .ok reset w₁ ∧
      isVar c.scopes (atPosition? d.modifiers (-1)) w₁ = .ok edit w₂ := by
  obtain ⟨reset, w₁, resets, rest⟩ := bind_eq_ok prepared
  obtain ⟨edit, w₂, edits, rest⟩ := bind_eq_ok rest
  split at rest
  · obtain ⟨_, _, failed, -⟩ := bind_eq_ok rest
    cases failed
  · obtain ⟨_, _, -, rest⟩ := bind_eq_ok rest
    obtain ⟨_, _, -, rest⟩ := bind_eq_ok rest
    cases rest
    exact ⟨w₁, w₂, resets, edits⟩

/-- The lifetime with which a declaration binds its name. -/
theorem bindDeclared_eq_ok {r : VariableRef} {l : Lifetime ValueRef}
    (bound : bindDeclared c d v w = .ok (r, l) w') : l.value = v ∧ l.confidence = d.confidence ∧
      ∃ w₁ w₂, isVar c.scopes (atPosition? d.modifiers (-2)) w = .ok l.canBeReset w₁ ∧
        isVar c.scopes (atPosition? d.modifiers (-1)) w₁ = .ok l.canEditValue w₂ := by
  obtain ⟨⟨tag, lines, reset, edit⟩, u, prepared, bound⟩ := bind_eq_ok bound
  have flags := prepare_eq_ok prepared
  cases scopes : c.scopes with
  | nil =>
    rw [scopes] at bound
    cases bound
  | cons x xs =>
    rw [scopes] at bound flags
    obtain ⟨_, _, -, rest⟩ := bind_eq_ok bound
    cases rest
    exact ⟨rfl, rfl, flags⟩

/-- What a declaration leaves behind as it comes to its end. -/
theorem declare_lasting {r : VariableRef} {l : Lifetime ValueRef} {w₁ w₂ w₃ : World}
    (lasts : d.lifetime = some "Infinity") (introduced : introduce i c d v w = .ok (r, l) w₁)
    (told : tellNameWatchers i c d.name.text r v w₁ = .ok () w₂)
    (published : publishDeclared d v w₂ = .ok () w₃) : d.Lasting i c v w l w₃ := by
  have ends : declare i c d v w = settle d r l w₃ :=
    (bind_ok introduced).trans ((bind_ok told).trans (bind_ok published))
  rw [settle, lasts] at ends
  obtain ⟨⟨r', l'⟩, u, bound, rest⟩ := bind_eq_ok introduced
  obtain ⟨_, _, -, rest⟩ := bind_eq_ok rest
  obtain ⟨_, _, -, rest⟩ := bind_eq_ok rest
  cases rest
  obtain ⟨value, confidence, flags⟩ := bindDeclared_eq_ok bound
  exact ⟨lasts, value, confidence, flags, ends⟩

@[grind ←]
theorem keeps_declare : Keeps (F.expr c.queue) (declare i c d v) := by
  intro w
  refine leaves_bind (keeps_introduce w) fun p w₁ introduced => ?_
  obtain ⟨r, l⟩ := p
  refine leaves_bind (keeps_tellNameWatchers w₁) fun _ w₂ told => ?_
  refine leaves_bind (keeps_publishDeclared w₂) fun _ w₃ published => ?_
  unfold settle
  split
  · exact keeps_pure w₃
  · rename_i lasts
    exact F.archived (declare_lasting lasts introduced told published)
  · refine (?_ : Keeps (F.expr c.queue) _) w₃
    grind [isTemporal]

@[grind ←]
theorem keeps_assignInside [∀ q, Edits (F.expr q)] {line : Int} {new : ValueRef} :
    Keeps (F.expr c.queue) (assignInside i c line new indexes r visited) := by
  induction indexes generalizing r with
  | nil => exact keeps_breakDown
  | cons n rest ih =>
    unfold assignInside
    grind

@[grind ←]
theorem keeps_assignWhole {name : Token} {e : Entry} :
    Keeps (F.expr q) (assignWhole name confidence e v) := by
  rcases e with v | ⟨n, v⟩ | r
  · exact keeps_complainAt
  · exact keeps_complainAt
  · intro w
    refine leaves_bind (keeps_variableOf w) fun old w' read => ?_
    cases read
    refine leaves_bind (keeps_ofExcept w) fun now w' read => ?_
    obtain ⟨current, rfl⟩ := ofExcept_eq_ok read
    cases permitted : now.canBeReset with
    | false => exact leaves_complainAt_bind
    | true =>
      refine leaves_bind (keeps_freshId w') fun tag w'' numbered => ?_
      cases numbered
      refine leaves_bind (keeps_ofExcept _) fun new w'' read => ?_
      obtain ⟨assigned, rfl⟩ := ofExcept_eq_ok read
      exact F.altered (.assigned current permitted assigned)

theorem keeps_assignEntry (edits : indexes ≠ [] → ∀ q, Edits (F.expr q)) {e : Entry} :
    Keeps (F.expr c.queue) (assignEntry i c a e indexes v) := by
  unfold assignEntry
  split
  · exact keeps_bind keeps_assignWhole fun _ => keeps_pure
  · rename_i inside
    have := edits (mt List.isEmpty_iff.mpr inside)
    grind

theorem keeps_assign (edits : indexes ≠ [] → ∀ q, Edits (F.expr q)) :
    Keeps (F.expr c.queue) (assign i c a indexes v) := by
  unfold assign
  refine keeps_bind keeps_lookupWithin fun found => ?_
  split
  · refine keeps_bind keeps_debugAssignment fun _ => ?_
    refine keeps_bind (keeps_assignEntry edits) fun visited => ?_
    refine keeps_bind keeps_tellVigil fun _ => ?_
    split
    · exact keeps_tellVariableWatchers
    · exact keeps_pure
  · exact keeps_complainAt

/-! ## Statements -/

@[grind ←]
theorem keeps_isKeyword : Keeps R (isKeyword scopes t words) := by
  unfold isKeyword
  grind [keywordOf]

@[grind ←]
theorem keeps_areKeywords {ts : List Token} : Keeps R (areKeywords scopes words ts) := by
  induction ts with
  | nil => exact keeps_pure
  | cons t ts ih =>
    unfold areKeywords
    grind

@[grind ←]
theorem keeps_isFunctionKeyword : Keeps R (isFunctionKeyword scopes t) := by
  unfold isFunctionKeyword
  grind [keywordOf]

@[grind ←]
theorem keeps_fits : Keeps R (fits scopes f) := by
  unfold fits
  split <;> grind [isKeywordValue]

@[grind ←]
theorem keeps_firstFit {n : Nat} : Keeps R (firstFit scopes n fs) := by
  induction fs generalizing n with
  | nil => exact keeps_pure
  | cons f fs ih =>
    unfold firstFit
    grind

@[grind ←]
theorem keeps_classify : Keeps R (classify scopes fs) := by
  unfold classify
  grind

@[grind ←]
theorem keeps_lineOf : Keeps R (lineOf f) := by
  unfold lineOf
  split <;> grind

@[grind ←]
theorem keeps_markLine : Keeps R (markLine f) := by
  unfold markLine
  grind

@[grind ←]
theorem keeps_shownAsString : Keeps R (shownAsString r) := by
  unfold shownAsString
  grind

@[grind ←]
theorem keeps_startListening : Keeps R (startListening c event code) := by
  unfold startListening
  refine keeps_bind keeps_get fun w => ?_
  grind [listen]

@[grind ←]
theorem keeps_watchKeys {tree : Expr} : Keeps R (watchKeys scopes tree) := by
  unfold watchKeys
  extract_lets names callers valuesOf
  have reads : ∀ ns, Keeps R (valuesOf ns) := by
    intro ns
    refine keeps_bind (keeps_mapM (fun n => ?_)) fun keys => keeps_pure
    grind
  refine keeps_bind (keeps_mapM (fun n => by grind)) fun ofName => ?_
  refine keeps_bind (reads names) fun values => ?_
  refine keeps_bind (keeps_mapM (fun n => by grind)) fun ofCaller => ?_
  exact keeps_bind (reads callers) fun callerValues => keeps_pure

theorem keeps_watch : Keeps (F.stmt c.queue c.boards) (watch i c e code) := by
  refine keeps_bind keeps_treeOf.stmt fun tree => ?_
  refine keeps_bind keeps_watchKeys.stmt fun keys => keeps_bind keeps_freshId.stmt fun id => ?_
  rcases c with ⟨scopes, queue, _ | ⟨b, boards⟩⟩
  · exact keeps_bind keeps_breakDown.stmt fun _ => keeps_fire.stmt
  · refine keeps_bind (keeps_forIn (fun key _ => ?_)) fun _ => keeps_fire.stmt
    exact keeps_bind (F.posted key _) fun _ => keeps_pure

@[grind ←]
theorem keeps_fillClass {members : ScopeRef} :
    Keeps (F.expr c.queue) (fillClass i c members code) := by
  induction code with
  | nil => exact keeps_pure
  | cons clause code ih =>
    refine keeps_bind keeps_forms fun fs => keeps_bind keeps_classify fun choice => ?_
    split
    · grind [newFunction]
    · refine keeps_bind keeps_newBoard fun board => keeps_bind keeps_treeOf fun tree => ?_
      refine keeps_bind (Framed.eval { c with boards := [board] } false tree) fun v => ?_
      refine keeps_bind keeps_newBoard fun board => ?_
      exact keeps_bind (keeps_declare (c := ⟨members :: c.scopes, c.queue, [board]⟩)) fun _ => ih
    · exact keeps_bind keeps_complainHere fun _ => ih
    · exact keeps_bind keeps_complainHere fun _ => ih

@[grind ←]
theorem keeps_declareClass {name : Token} :
    Keeps (F.expr c.queue) (declareClass i c name code) := by
  unfold declareClass
  refine keeps_bind keeps_newScope fun members => ?_
  refine keeps_bind keeps_fillClass fun _ => keeps_bind keeps_store fun s => ?_
  refine keeps_bind keeps_addClass fun _ => ?_
  grind [bindName]

@[grind ←]
theorem keeps_deleteLiteral {name : Token} : Keeps R (deleteLiteral name) := by
  unfold deleteLiteral
  grind

@[grind ←]
theorem keeps_deleteName {name : Token} : Keeps R (deleteName c name) := by
  refine keeps_bind keeps_lookupWithin fun found => ?_
  split
  · grind
  · exact keeps_deleteLiteral

@[grind ←]
theorem keeps_importNames {names : List Token} : Keeps R (importNames c names) := by
  induction names with
  | nil => exact keeps_pure
  | cons t ts ih =>
    unfold importNames
    refine keeps_bind keeps_get fun w => ?_
    grind [bindName]

@[grind ←]
theorem keeps_exportNames (allowed : F.exports) {target : String} {names : List Token} :
    Keeps (F.expr q) (exportNames c target names) := by
  induction names with
  | nil => exact keeps_pure
  | cons t ts ih =>
    intro w
    unfold exportNames
    refine leaves_bind (keeps_lookup w) fun found w' read => ?_
    obtain ⟨looked, rfl⟩ := ofExcept_eq_ok read
    rcases found with _ | e
    · exact keeps_complainAt w'
    · refine leaves_bind (keeps_entryValue w') fun v w'' read => ?_
      obtain ⟨value, rfl⟩ := ofExcept_eq_ok read
      exact leaves_bind (F.exported target allowed looked value) fun _ w' _ => ih w'

@[grind ←]
theorem keeps_evaluateExpression :
    Keeps (F.expr c.queue) (evaluateExpression i c e) := by
  unfold evaluateExpression
  grind

@[grind ←]
theorem keeps_evaluateExpressions {es : List Expression} :
    Keeps (F.expr c.queue) (evaluateExpressions i c es) := by
  induction es with
  | nil => exact keeps_pure
  | cons e es ih =>
    unfold evaluateExpressions
    grind

theorem keeps_executeNow
    (edits : (∃ n e k is d, f = .assignment n e k is d) → ∀ q, Edits (F.expr q))
    (allowed : (∃ k names t target d, f = .exports k names t target d) → F.exports) :
    Keeps (F.stmt c.queue c.boards) (executeNow i c f) := by
  cases f with
  | assignment n e k is d =>
    refine (keeps_bind keeps_evaluateExpressions fun indexes => ?_).stmt
    refine keeps_bind keeps_evaluateExpression fun v => ?_
    have set : Keeps (F.expr c.queue) (assign i c ⟨n, e, k, is, d⟩ indexes v) :=
      keeps_assign fun _ => edits ⟨n, e, k, is, d, rfl⟩
    exact keeps_bind set fun _ => keeps_pure
  | when _ e code => exact keeps_bind keeps_watch fun _ => keeps_pure
  | exports k names t target d =>
    exact (keeps_bind (keeps_exportNames (allowed ⟨k, names, t, target, d, rfl⟩)) fun _ => keeps_pure).stmt
  | _ =>
    refine Keeps.stmt ?_
    unfold executeNow
    grind [newFunction, bindName]

@[grind ←]
theorem keeps_replaceNextIn {es : List Expression} : Keeps R (replaceNextIn scopes es) := by
  induction es with
  | nil => exact keeps_pure
  | cons e es ih =>
    unfold replaceNextIn
    grind

@[grind ←]
theorem keeps_keepPreviousIn {trees : List (Nat × Expr)} :
    Keeps R (keepPreviousIn scopes names trees) := by
  induction trees with
  | nil => exact keeps_pure
  | cons t trees ih =>
    unfold keepPreviousIn
    grind

@[grind ←]
theorem keeps_updateClause {n : Nat} {renamed : List (Token × Token)} :
    Keeps R (updateClause clause n f renamed) := by
  unfold updateClause
  grind

@[grind ←]
theorem keeps_addNames {names : Scope} : Keeps R (addNames c names) := by
  unfold addNames
  grind

@[grind ←]
theorem keeps_removeNames : Keeps R (removeNames c names) := by
  unfold removeNames
  grind

theorem keeps_withAwaited {S : World → World → Prop} [IsPreorder World S]
    (le : ∀ {w w'}, F.expr q w w' → S w w') {awaited : Awaited} {kept : Kept} {x : Run α}
    (inside : Keeps S x) : Keeps S (withAwaited i c awaited kept x) := by
  have lifted {β : Type} {y : Run β} (keeps : Keeps (F.expr q) y) : Keeps S y := fun w => le (keeps w)
  have runs : ∀ names : Scope, Keeps S (do
      let result ← x
      removeNames c names.keys
      return result) := fun names =>
    keeps_bind inside fun result => keeps_bind (lifted keeps_removeNames) fun _ => keeps_pure
  unfold withAwaited
  split
  · exact runs .empty
  · refine keeps_bind (lifted keeps_awaitNames) fun found => ?_
    exact keeps_bind (lifted keeps_addNames) fun _ => runs _

theorem keeps_execute [∀ q, Edits (F.expr q)] (exports : F.exports) {n : Nat} :
    Keeps (F.stmt c.queue c.boards) (execute i c clause n f) := by
  unfold execute
  refine keeps_bind keeps_replaceNextIn.stmt fun replaced => ?_
  refine keeps_bind keeps_keepPreviousIn.stmt fun kept => ?_
  split
  rename_i es kept
  extract_lets renamed changed waited
  have waits : ∀ u, Keeps (F.stmt c.queue c.boards) (waited u) := by
    intro _
    unfold waited
    split
    · exact keeps_bind keeps_keepVigil.stmt fun _ => keeps_pure
    · refine keeps_withAwaited F.expr_le ?_
      exact keeps_executeNow (fun _ => inferInstance) fun _ => exports
  split
  · exact keeps_bind keeps_updateClause.stmt waits
  · exact waits ()

@[grind ←]
theorem keeps_returnValue {n : Nat} :
    Keeps (F.expr c.queue) (returnValue i c clause n e) := by
  unfold returnValue
  refine keeps_bind keeps_treeOf fun tree => keeps_bind (keeps_replaceNext tree) fun replaced => ?_
  refine keeps_bind (keeps_keepPrevious _) fun kept => ?_
  split
  rename_i tree kept
  extract_lets renamed waited
  have runs : Keeps (F.expr c.queue) (withAwaited i c replaced.2 kept (i.eval c false tree)) :=
    keeps_withAwaited id (Framed.eval c false tree)
  have waits : ∀ u, Keeps (F.expr c.queue) (waited u) := by
    intro _
    unfold waited
    grind
  grind

@[grind ←]
theorem keeps_keepPromise [Edits (F.expr q)] : Keeps (F.expr q) (keepPromise p v) := by
  unfold keepPromise
  refine keeps_value_bind fun w => ?_
  cases held : w.store.value p with
  | promise _ => exact keeps_setValue rfl w
  | _ => exact keeps_pure w

@[grind ←]
theorem keeps_resumeVigil [∀ q, Edits (F.expr q)] {n : Nat} :
    Keeps (F.expr c.queue) (resumeVigil i c n) := by
  unfold resumeVigil
  refine keeps_bind keeps_store fun s => ?_
  split
  · exact keeps_pure
  · rename_i vigil _
    refine keeps_bind keeps_forms fun fs => ?_
    split
    · exact keeps_pure
    · extract_lets inner expression scopes outer
      rcases expression with _ | e
      · exact keeps_breakDown
      · refine keeps_bind (keeps_evaluateExpression (c := inner)) fun v => ?_
        refine keeps_bind (keeps_evaluateExpressions (c := inner)) fun indexes => ?_
        refine keeps_bind (keeps_modifyStore rfl rfl rfl rfl rfl rfl) fun _ => ?_
        split
        · grind
        · exact keeps_declare (c := outer)
        · exact keeps_assign (fun _ => inferInstance) (c := outer)
        · exact keeps_bind keeps_runIf fun _ => keeps_pure
        · exact keeps_startListening
        · exact keeps_debugExpression
        · exact keeps_pure

/-! ## Blocks -/

@[grind ←]
theorem keeps_tickEntries {es : List (String × Entry)} : Keeps (F.expr q) (tickEntries es) := by
  induction es with
  | nil => exact keeps_pure
  | cons e es ih =>
    rcases e with ⟨name, v | ⟨n, v⟩ | r⟩
    · exact ih
    · exact ih
    · unfold tickEntries
      refine keeps_variableOf_bind fun w => leaves_bind (F.altered .aged) fun _ w' _ => ?_
      exact keeps_bind ih (fun gone => keeps_pure) w'

@[grind ←]
theorem keeps_tick : Keeps (F.expr q) (tick scopes) := by
  unfold tick
  induction scopes.reverse with
  | nil => exact keeps_pure
  | cons x xs ih =>
    unfold passScopes passScope
    grind

theorem keeps_judge {result : Option ValueRef} : Keeps R (judge f result) := by
  unfold judge
  grind

theorem keeps_takeTurn [∀ q, Edits (F.expr q)] (exports : F.exports) :
    Keeps (F.stmt c.queue c.boards) (takeTurn i c clause) := by
  unfold takeTurn
  refine keeps_bind keeps_tick.stmt fun _ => keeps_bind keeps_forms.stmt fun fs => ?_
  refine keeps_bind keeps_classify.stmt fun choice => ?_
  split
  · exact keeps_complainHere.stmt
  · rename_i n f
    refine keeps_bind keeps_markLine.stmt fun _ => ?_
    split
    · exact keeps_bind keeps_returnValue.stmt fun v => keeps_pure
    · exact keeps_pure
    · exact keeps_bind (keeps_execute exports) fun result => keeps_judge.stmt

theorem keeps_jobTurn [∀ q, Edits (F.expr q)] (exports : F.exports) {n : Nat} :
    Keeps (F.block c.queue c.boards) (jobTurn i c n) := by
  unfold jobTurn
  refine keeps_bind keeps_jobs.stmt.block fun js => ?_
  split
  · exact keeps_pure
  · rename_i job _
    split
    · split
      · exact keeps_pure
      · rename_i clause _
        refine keeps_bind keeps_forms.stmt.block fun fs => ?_
        refine keeps_bind keeps_classify.stmt.block fun choice => ?_
        split
        · exact keeps_complainHere.stmt.block
        · exact keeps_complainHere.stmt.block
        · rename_i k f _
          refine keeps_bind keeps_jobs.stmt.block fun js => ?_
          refine keeps_bind (F.goes _) fun _ => ?_
          exact keeps_bind (keeps_execute exports (c := ⟨job.scopes, c.queue, c.boards⟩)).block
            fun _ => keeps_pure
    · exact keeps_pure

theorem keeps_jobTurns [∀ q, Edits (F.expr q)] (exports : F.exports) :
    Keeps (F.block c.queue c.boards) (jobTurns i c ns) := by
  induction ns with
  | nil => exact keeps_pure
  | cons n ns ih =>
    exact keeps_bind (keeps_jobTurn exports) fun act => keeps_bind ih fun acts => keeps_pure

theorem keeps_allTurns [∀ q, Edits (F.expr q)] (exports : F.exports) :
    Keeps (F.block c.queue c.boards) (allTurns i c) :=
  keeps_bind keeps_jobs.stmt.block fun _ => keeps_bind (keeps_jobTurns exports) fun _ =>
    keeps_bind keeps_exitIfDead.stmt.block fun _ => keeps_pure

theorem keeps_runFrom [∀ q, Edits (F.expr q)] (exports : F.exports) {position : Int} {forward : Bool} :
    Keeps (F.block c.queue c.boards) (runFrom i c code fuel position forward) := by
  induction fuel generalizing position forward with
  | zero => exact keeps_throw
  | succ fuel ih =>
    by_cases inside : 0 ≤ position ∧ position < code.length
    · rcases Int.eq_ofNat_of_zero_le inside.1 with ⟨n, rfl⟩
      have bound : n < code.length := Int.ofNat_lt.mp inside.2
      rw [runFrom_succ (List.getElem?_eq_getElem bound)]
      refine keeps_bind (keeps_takeTurn exports).block fun turn => ?_
      cases turn with
      | ends result => exact keeps_pure
      | passes f => exact keeps_bind (keeps_allTurns exports) fun _ => ih
    · have stop : ¬(decide (0 ≤ position) && decide (position < code.length)) = true := by
        simpa using inside
      rw [runFrom, if_neg stop]
      exact keeps_pure

theorem framed_interpreter (F : Frames) [∀ q, Edits (F.expr q)] (exports : F.exports) (n : Nat) : Framed F (interpreter n) := by
  induction n with
  | zero => exact ⟨fun _ _ _ => keeps_throw, fun _ _ => keeps_throw, fun _ _ => keeps_throw⟩
  | succ n ih =>
    exact ⟨fun c raw e => keeps_evaluate raw e, fun c code => keeps_runFrom exports,
      fun c n => keeps_resumeVigil⟩

end Run

end DreamBerd
