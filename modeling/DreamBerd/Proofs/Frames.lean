import DreamBerd.Proofs.Values
import DreamBerd.Proofs.Worlds
import Mathlib.Order.Defs.Unbundled

/-!
# What computations do to a world

A computation `Keeps` a relation between worlds if the world that it leaves, be it by failing, is
related to the one in which it starts. For a preorder this passes from the steps of a computation to
the whole.

A `Growth` is a preorder that allows a world to be added to, as conversions and literals do. A `Frame`
also allows what else happens all the time: variables and boards are added, names of scopes change, and so
does all that is no value, no variable, no queue and no board and that is not handed on to other parts or
programs. The lemma `keeps_f` says that the function `f` of the world keeps every growth, or every frame.
The lemmas are found by `grind`, so that the lemma of a function follows from those of the functions it
calls. A frame that allows values to be edited in place as well (`Edits`) is kept by the functions that set,
add and take out elements.
-/

namespace DreamBerd

variable {α : Type} {R : World → World → Prop} {as : List α} {fs : List Statement} {members : ScopeRef}

/-- The built-in functions that change a value in place. -/
def Action.edits : Action → Bool
  | listPush | listPop | stringPush | stringPop => true
  | _ => false

namespace Run

variable {β : Type} {x : Run α} {w : World}

/-- A computation changes the world as the relation says. -/
def Keeps (R : World → World → Prop) (x : Run α) : Prop := ∀ w, R w (leaves x w)

theorem Keeps.ok {a : α} (keeps : Keeps R x) (done : x w = .ok a w') : R w w' := by
  have step := keeps w
  rwa [leaves, done] at step

theorem leaves_bind_of {P : World → Prop} {f : α → Run β} (first : P (leaves x w))
    (rest : ∀ a w', x w = .ok a w' → P (leaves (f a) w')) : P (leaves (x >>= f) w) := by
  unfold leaves at first ⊢
  cases done : x w with
  | ok a w' =>
    rw [bind_ok done]
    exact rest a w' done
  | error e w' =>
    rw [done] at first
    rwa [bind_error done]

section Closure

variable [IsPreorder World R]

theorem keeps_pure {a : α} : Keeps R (pure a : Run α) := fun w => Std.Refl.refl w

theorem keeps_throw : Keeps R (throw f : Run α) := fun w => Std.Refl.refl w

theorem keeps_get : Keeps R (get : Run World) := fun w => Std.Refl.refl w

theorem leaves_bind {f : α → Run β} (first : R w (leaves x w))
    (rest : ∀ a w', x w = .ok a w' → R w' (leaves (f a) w')) : R w (leaves (x >>= f) w) := by
  refine leaves_bind_of first fun a w' done => ?_
  rw [leaves, done] at first
  exact IsTrans.trans _ _ _ first (rest a w' done)

theorem keeps_bind {f : α → Run β} (first : Keeps R x) (rest : ∀ a, Keeps R (f a)) :
    Keeps R (x >>= f) :=
  fun w => leaves_bind (first w) fun a w' _ => rest a w'

theorem keeps_tryCatch {handle : Fault → Run α} (first : Keeps R x)
    (rest : ∀ e, Keeps R (handle e)) : Keeps R (tryCatch x handle) := by
  intro w
  have step := first w
  unfold leaves at step ⊢
  cases done : x w with
  | ok a w' =>
    rw [done] at step
    rwa [tryCatch_ok done]
  | error e w' =>
    rw [done] at step
    rw [tryCatch_error done]
    exact IsTrans.trans _ _ _ step (rest e w')

theorem keeps_ofExcept {r : Except Fault α} : Keeps R (ofExcept r) := by
  cases r with
  | ok a => exact keeps_pure
  | error e => exact keeps_throw

theorem keeps_mapM {f : α → Run β} (each : ∀ a, Keeps R (f a)) : Keeps R (as.mapM f) := by
  induction as with
  | nil => exact keeps_pure
  | cons a as ih =>
    rw [List.mapM_cons]
    exact keeps_bind (each a) fun b => keeps_bind ih fun bs => keeps_pure

theorem keeps_forIn {f : α → β → Run (ForInStep β)} (each : ∀ a b, Keeps R (f a b))
    {b : β} : Keeps R (forIn as b f) := by
  induction as generalizing b with
  | nil => exact keeps_pure
  | cons a as ih =>
    rw [List.forIn_cons]
    refine keeps_bind (each a b) fun step => ?_
    cases step with
    | done b => exact keeps_pure
    | yield b => exact ih

end Closure

end Run

def World.board (w : World) (b : BoardRef) : Board := (w.store.boards[b.index]?).getD .empty

/-- A class is used up: its one instance has been made, or its constructor has failed. -/
def Store.Spent (s : Store) (n : Nat) : Prop := ∃ cls, s.classes[n]? = some cls ∧ cls.made = true

/-- Nothing changes of the values, the scopes, the variables, the queues and the boards, nor of what is
handed on to other parts and to other programs. No class gets a second instance. -/
structure Aside (w w' : World) : Prop where
  values : w'.store.values = w.store.values
  scopes : w'.store.scopes = w.store.scopes
  slots : w'.store.slots = w.store.slots
  queues : w'.store.queues = w.store.queues
  boards : w'.store.boards = w.store.boards
  exported : w'.part.exported = w.part.exported
  importable : w'.part.importable = w.part.importable
  archive : w'.around.archive = w.around.archive
  nextAddress : w'.around.nextAddress = w.around.nextAddress
  spent : ∀ n, w.store.Spent n → w'.store.Spent n

namespace Run

/-- A relation that allows a world to be added to: values and scopes are made, numbers are given out, and
texts are printed. -/
class Growth (R : World → World → Prop) : Prop extends IsPreorder World R where
  madeValue : ∀ {v : Value}, v.isBare = false → Keeps R (newValue v)
  element : ∀ {w : World} {d : Datum}, IsElement w.store.values d →
    R w (leaves (newValue (.bare d)) w)
  copied : ∀ r, Keeps R (copyValue r)
  madeScope : ∀ x, Keeps R (newScope x)
  numbered : Keeps R freshId
  printed : ∀ s, Keeps R (emit s)

/-- A relation that allows what does not touch anything that is there, and changes of scopes. -/
class Frame (R : World → World → Prop) : Prop extends Growth R where
  aside : ∀ {w w' : World}, Aside w w' → R w w'
  madeVariable : ∀ v, Keeps R (newVariable v)
  madeBoard : Keeps R newBoard
  named : ∀ x f, Keeps R (modifyScope x f)
  numbered := fun _ => aside ⟨rfl, rfl, rfl, rfl, rfl, rfl, rfl, rfl, rfl, fun _ => id⟩
  printed := fun _ _ => aside ⟨rfl, rfl, rfl, rfl, rfl, rfl, rfl, rfl, rfl, fun _ => id⟩

theorem Frame.mono {R' : World → World → Prop} [Frame R] [IsPreorder World R']
    (le : ∀ {w w' : World}, R w w' → R' w w') : Frame R' where
  madeValue proper w := le (Growth.madeValue proper w)
  element element := le (Growth.element element)
  copied r w := le (Growth.copied r w)
  madeScope x w := le (Growth.madeScope x w)
  aside same := le (aside same)
  madeVariable v w := le (madeVariable v w)
  madeBoard w := le (madeBoard w)
  named x f w := le (named x f w)

variable {r i a b : ValueRef} {args : List ValueRef} {n : Nat} {c : Complaint} {s name : String}
  {t : Token} {scopes : List ScopeRef}

attribute [grind ←] keeps_pure keeps_throw keeps_get keeps_bind keeps_tryCatch keeps_ofExcept
  keeps_mapM keeps_forIn

/-! ## Reading -/

/-- A computation that first reads a value can rely on what it is. -/
theorem keeps_value_bind {f : Value → Run α} (each : ∀ w, R w (leaves (f (w.store.value r)) w)) :
    Keeps R (value r >>= f) := each

theorem keeps_board_bind {b : BoardRef} {f : Board → Run α}
    (each : ∀ w, R w (leaves (f (w.board b)) w)) : Keeps R (board b >>= f) := each

theorem keeps_variableOf_bind {r : VariableRef} {f : Variable ValueRef → Run α}
    (each : ∀ w, R w (leaves (f (w.store.variableOf r)) w)) : Keeps R (variableOf r >>= f) := each

section Reading

variable [IsPreorder World R]

@[grind ←]
theorem keeps_store : Keeps R store := keeps_bind keeps_get fun _ => keeps_pure

@[grind ←]
theorem keeps_value : Keeps R (value r) := keeps_bind keeps_get fun _ => keeps_pure

@[grind ←]
theorem keeps_scope {r : ScopeRef} :
    Keeps R (scope r) := keeps_bind keeps_get fun _ => keeps_pure

@[grind ←]
theorem keeps_variableOf {r : VariableRef} :
    Keeps R (variableOf r) := keeps_bind keeps_get fun _ => keeps_pure

@[grind ←]
theorem keeps_forms {r : ClauseRef} :
    Keeps R (forms r) := keeps_bind keeps_get fun _ => keeps_pure

@[grind ←]
theorem keeps_board {r : BoardRef} :
    Keeps R (board r) := keeps_bind keeps_get fun _ => keeps_pure

@[grind ←]
theorem keeps_jobs {r : QueueRef} :
    Keeps R (jobs r) := keeps_bind keeps_get fun _ => keeps_pure

@[grind ←]
theorem keeps_source : Keeps R source := keeps_bind keeps_get fun _ => keeps_pure

@[grind ←]
theorem keeps_line : Keeps R line := keeps_bind keeps_get fun _ => keeps_pure

@[grind ←]
theorem keeps_complainHere : Keeps R (complainHere c : Run α) := keeps_bind keeps_get fun _ => keeps_throw

@[grind ←]
theorem keeps_complainAt :
    Keeps R (complainAt c t : Run α) := keeps_bind keeps_source fun _ => keeps_throw

@[grind ←]
theorem keeps_complainAtLine {n : Int} :
    Keeps R (complainAtLine c n : Run α) := keeps_bind keeps_source fun _ => keeps_throw

@[grind ←]
theorem keeps_complain : Keeps R (complain c : Run α) := keeps_throw

@[grind ←]
theorem keeps_breakDown {b : Breakdown} : Keeps R (breakDown b : Run α) := keeps_throw

@[grind ←]
theorem keeps_textOf : Keeps R (textOf r) := keeps_bind keeps_store fun _ => keeps_ofExcept

@[grind ←]
theorem keeps_truthOf : Keeps R (truthOf r) := keeps_bind keeps_value fun _ => keeps_ofExcept

@[grind ←]
theorem keeps_numberOf : Keeps R (numberOf r) := keeps_bind keeps_value fun _ => keeps_ofExcept

@[grind ←]
theorem keeps_lookup : Keeps R (lookup scopes name) := keeps_bind keeps_store fun _ => keeps_ofExcept

@[grind ←]
theorem keeps_lookupWithin :
    Keeps R (lookupWithin scopes name) := keeps_bind keeps_store fun _ => keeps_ofExcept

@[grind ←]
theorem keeps_entryValue :
    Keeps R (entryValue e) := keeps_bind keeps_store fun _ => keeps_ofExcept

@[grind ←]
theorem keeps_checkEditable {e : Option Entry} {refuse : Run Unit} (refused : Keeps R refuse) :
    Keeps R (checkEditable e refuse) := by
  unfold checkEditable
  grind

theorem keeps_checkCaller (c : Context) (caller : Option String) : Keeps R (checkCaller c caller) := by
  unfold checkCaller
  grind

end Reading

/-! ## Making -/

section Growth

variable [Growth R]

@[grind ←]
theorem keeps_freshId : Keeps R freshId := Growth.numbered

@[grind ←]
theorem keeps_emit : Keeps R (emit s) := Growth.printed s

@[grind ←]
theorem keeps_newValue (proper : v.isBare = false) : Keeps R (newValue v) :=
  Growth.madeValue proper

@[grind ←]
theorem keeps_newScope {x : Scope} : Keeps R (newScope x) := Growth.madeScope x

@[grind ←]
theorem keeps_copyValue : Keeps R (copyValue r) := Growth.copied r

@[grind ←]
theorem keeps_newNumber {n : Number} : Keeps R (newNumber n) := keeps_newValue rfl

@[grind ←]
theorem keeps_newTruth {t : Truth} : Keeps R (newTruth t) := keeps_newValue rfl

@[grind ←]
theorem keeps_newUndefined : Keeps R newUndefined := keeps_newValue rfl

@[grind ←]
theorem keeps_newTextWith {given : Scope} : Keeps R (newTextWith given s) := by
  unfold newTextWith
  grind [newMembers, lengthEntry]

@[grind ←]
theorem keeps_newText : Keeps R (newText s) := keeps_newTextWith

@[grind ←]
theorem keeps_newList {items : List ValueRef} : Keeps R (newList items) := by
  unfold newList
  grind [newMembers, lengthEntry]

@[grind ←]
theorem keeps_keywordOf? : Keeps R (keywordOf? e) := by
  unfold keywordOf?
  grind

@[grind ←]
theorem keeps_deletedText : Keeps R (deletedText r) := by
  unfold deletedText
  grind

@[grind ←]
theorem keeps_isDeleted : Keeps R (isDeleted r) := keeps_bind keeps_get fun _ => keeps_pure

@[grind ←]
theorem keeps_literal : Keeps R (literal t) := by
  unfold literal
  grind

@[grind ←]
theorem keeps_valueOfToken : Keeps R (valueOfToken scopes t) := by
  unfold valueOfToken
  grind

end Growth

variable [Frame R]

/-! ## Changes aside -/

theorem keeps_modify {f : World → World} (aside : ∀ w, Aside w (f w)) : Keeps R (modify f : Run Unit) :=
  fun w => Frame.aside (aside w)

theorem keeps_modifyGet {f : World → α × World} (aside : ∀ w, Aside w (f w).2) :
    Keeps R (modifyGet f : Run α) :=
  fun w => Frame.aside (aside w)

@[grind ←]
theorem keeps_modifyStore {f : Store → Store} (values : (fun s => (f s).values) = fun s => s.values)
    (scopes : (fun s => (f s).scopes) = fun s => s.scopes)
    (slots : (fun s => (f s).slots) = fun s => s.slots)
    (queues : (fun s => (f s).queues) = fun s => s.queues)
    (boards : (fun s => (f s).boards) = fun s => s.boards)
    (classes : (fun s => (f s).classes) = fun s => s.classes) : Keeps R (modifyStore f) :=
  keeps_modify fun w => ⟨congrFun values w.store, congrFun scopes w.store, congrFun slots w.store,
    congrFun queues w.store, congrFun boards w.store, rfl, rfl, rfl, rfl,
    fun n => (congrArg (fun cs : Array ClassCell => ∃ cls, cs[n]? = some cls ∧ cls.made = true)
      (congrFun classes w.store)).mpr⟩

theorem keeps_addClass {cls : ClassCell} :
    Keeps R (modifyStore fun s => { s with classes := s.classes.push cls }) := by
  refine keeps_modify fun w => ⟨rfl, rfl, rfl, rfl, rfl, rfl, rfl, rfl, rfl, ?_⟩
  rintro n ⟨old, found, made⟩
  obtain ⟨inside, rfl⟩ := Array.getElem?_eq_some_iff.mp found
  exact ⟨_, Array.getElem?_push_lt inside, made⟩

theorem keeps_spendClass (cls : ClassCell) : Keeps R (modifyStore fun s =>
    { s with classes := s.classes.setIfInBounds n { cls with made := true } }) := by
  refine keeps_modify fun w => ⟨rfl, rfl, rfl, rfl, rfl, rfl, rfl, rfl, rfl, ?_⟩
  rintro m ⟨old, found, made⟩
  by_cases same : n = m
  · subst same
    exact ⟨_, Array.getElem?_setIfInBounds_self_of_lt (Array.getElem?_eq_some_iff.mp found).1, rfl⟩
  · exact ⟨old, (Array.getElem?_setIfInBounds_ne same).trans found, made⟩

@[grind ←]
theorem keeps_modifySection {f : Section → Section}
    (exported : (fun p => (f p).exported) = fun p => p.exported)
    (importable : (fun p => (f p).importable) = fun p => p.importable) : Keeps R (modifySection f) :=
  keeps_modify fun w =>
    ⟨rfl, rfl, rfl, rfl, rfl, congrFun exported w.part, congrFun importable w.part, rfl, rfl, fun _ => id⟩

@[grind ←]
theorem keeps_modifyAround {f : Surroundings → Surroundings}
    (archive : (fun a => (f a).archive) = fun a => a.archive)
    (nextAddress : (fun a => (f a).nextAddress) = fun a => a.nextAddress) : Keeps R (modifyAround f) :=
  keeps_modify fun w =>
    ⟨rfl, rfl, rfl, rfl, rfl, rfl, rfl, congrFun archive w.around, congrFun nextAddress w.around, fun _ => id⟩

@[grind ←]
theorem keeps_setForms {r : ClauseRef} :
    Keeps R (setForms r fs) := keeps_modify fun _ => ⟨rfl, rfl, rfl, rfl, rfl, rfl, rfl, rfl, rfl, fun _ => id⟩

@[grind ←]
theorem keeps_modifyScope {x : ScopeRef} {f : Scope → Scope} : Keeps R (modifyScope x f) :=
  Frame.named x f

@[grind ←]
theorem keeps_newVariable : Keeps R (newVariable v) := Frame.madeVariable v

@[grind ←]
theorem keeps_newClause :
    Keeps R (newClause fs) := keeps_modifyGet fun _ => ⟨rfl, rfl, rfl, rfl, rfl, rfl, rfl, rfl, rfl, fun _ => id⟩

@[grind ←]
theorem keeps_newBoard : Keeps R newBoard := Frame.madeBoard

@[grind ←]
theorem keeps_chance : Keeps R chance := by
  refine keeps_modifyGet fun w => ?_
  cases w.around.chances with
  | nil | cons c cs => exact ⟨rfl, rfl, rfl, rfl, rfl, rfl, rfl, rfl, rfl, fun _ => id⟩

@[grind ←]
theorem keeps_luck : Keeps R luck := keeps_bind keeps_chance fun _ => keeps_pure

/-! ## Operators, elements and built-in functions -/

@[grind ←]
theorem keeps_less : Keeps R (less a b) := by
  unfold less
  grind

@[grind ←]
theorem keeps_operateUnary {op : Token} : Keeps R (operateUnary op r) := by
  unfold operateUnary
  grind

@[grind ←]
theorem keeps_operate {op : Operator} {token : Token} : Keeps R (operate op token a b) := by
  unfold operate
  cases op <;> grind [addValues, divideNumbers, powerOfNumbers, either, orValues, andValues, atMost]

theorem leaves_read {row : CharRow} (held : w.store.value r = .string row members) {i : Option Number} :
    R w (leaves (do
      let chars ← ofExcept (row.get i)
      newValue (.bare (.text (String.ofList chars)))) w) := by
  cases got : row.get i with
  | error fault => exact Std.Refl.refl w
  | ok chars =>
    have there : w.store.values[r.index]? = some (.string row members) := by
      unfold Store.value at held
      cases found : w.store.values[r.index]? with
      | none =>
        rw [found] at held
        cases held
      | some v =>
        rw [found] at held
        exact congrArg some held
    exact Growth.element ⟨r.index, row, members, i, chars, there, got, rfl⟩

@[grind ←]
theorem keeps_getIndex : Keeps R (getIndex r i) := by
  refine keeps_value_bind fun w => ?_
  cases held : w.store.value r with
  | string row members => exact leaves_read held
  | _ =>
    refine (?_ : Keeps R _) w
    grind [mapKey]

@[grind ←]
theorem keeps_refreshLength : Keeps R (refreshLength members n) := by
  unfold refreshLength
  grind [lengthEntry]

@[grind ←]
theorem keeps_refuseRemoval {what : String} {missing : Breakdown} {n : Removal} :
    Keeps R (refuseRemoval what missing n) := by
  unfold refuseRemoval
  grind

@[grind ←]
theorem keeps_newSignal {start : ValueRef} : Keeps R (newSignal start) := by
  refine keeps_bind keeps_store fun s => keeps_bind ?_ fun _ => keeps_newValue rfl
  exact keeps_modifyStore rfl rfl rfl rfl rfl rfl

@[grind ←]
theorem keeps_useSignal {cell : Nat} {arg : ValueRef} : Keeps R (useSignal cell arg) := by
  refine keeps_bind keeps_value fun v => ?_
  split
  · grind
  · refine keeps_bind ?_ fun _ => keeps_pure
    exact keeps_modifyStore rfl rfl rfl rfl rfl rfl

/-! ## Values that are edited -/

/-- A frame that allows values to be edited in place. -/
class Edits (R : World → World → Prop) : Prop extends Frame R where
  edited : ∀ (r : ValueRef) {v : Value}, v.isBare = false → Keeps R (setValue r v)

section Edits

omit [Frame R]

variable [Edits R]

@[grind ←]
theorem keeps_setValue (proper : v.isBare = false) : Keeps R (setValue r v) :=
  Edits.edited r proper

@[grind ←]
theorem keeps_setIndex {x : ValueRef} : Keeps R (setIndex r i x) := by
  unfold setIndex
  refine keeps_bind keeps_value fun v => ?_
  cases v with
  | string row members =>
    refine keeps_bind keeps_value fun index => ?_
    grind
  | _ => grind [mapKey]

@[grind ←]
theorem keeps_pushItem {x : ValueRef} : Keeps R (pushItem r x) := by
  unfold pushItem
  grind

@[grind ←]
theorem keeps_popItem : Keeps R (popItem r i) := by
  unfold popItem
  grind [removal]

@[grind ←]
theorem keeps_pushText {x : ValueRef} : Keeps R (pushText r x) := by
  unfold pushText
  grind

@[grind ←]
theorem keeps_popText : Keeps R (popText r i) := by
  unfold popText
  grind [removal]

end Edits

theorem keeps_perform {a : Action} (edits : a.edits = true → Edits R) : Keeps R (perform a args) := by
  unfold perform
  split
  iterate 4
    · have := edits rfl
      grind
  all_goals grind [printValues, performTens, performMath]

end Run

end DreamBerd
