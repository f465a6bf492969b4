import DreamBerd.Proofs.Evolution
import DreamBerd.Proofs.Overloading
import DreamBerd.Proofs.WatchedNames

/-!
# Declarations that fail

A declaration binds its name first. Only then does it print, publish and store what is to be printed,
published and stored, and each of these steps can fail. It is thus the binding alone that decides what a failed
declaration leaves behind: if the binding fails then nothing has changed, and if a later step fails then the
name is bound, and has the lifetime that was declared (`failed_declaration_traces`).
-/

namespace DreamBerd

/-- A variable that can be declared again gets more lifetimes, among them the one that is declared. -/
theorem Variable.lifetimes_of_redeclare {v v' : Variable α} {l : Lifetime α}
    (declared : v.redeclare l = .ok v') : v.lifetimes ≠ [] ∧ l ∈ v'.lifetimes ∧ v' ≠ v := by
  have nonempty : v.lifetimes ≠ [] := by
    intro empty
    rw [redeclare, insertFrom_succ, insertsAt, insertAt, value, current, empty]
      at declared
    cases declared
  obtain ⟨front, back, -, whole, other, first⟩ := v.exists_split (¬·.confidence = l.confidence)
  obtain ⟨_, again, lifetimes⟩ := redeclare_eq nonempty whole other first
  cases again.symm.trans declared
  refine ⟨nonempty, by simp [lifetimes], fun same => ?_⟩
  have length := congrArg List.length ((congrArg (·.lifetimes) same).symm.trans lifetimes)
  simp [whole] at length

/-- The scopes and variables there were are the same, and so are the variables that are stored for later. -/
structure World.Untouched (w w' : World) : Prop where
  scopes : ∀ x : ScopeRef, x.index < w.store.scopes.size → w'.store.scope x = w.store.scope x
  slots : ∀ r : VariableRef, r.index < w.store.slots.size → w'.store.variableOf r = w.store.variableOf r
  archive : w'.around.archive = w.around.archive

namespace Run

variable {w w' u : World} {c : Context} {d : Declaration} {x : ScopeRef} {xs : List ScopeRef}
  {f : Fault} {v : ValueRef} {r : VariableRef} {l : Lifetime ValueRef} {i : Interpreter} {name : String}

namespace Adds

theorem scope_eq (adds : Adds w w') (known : x.index < w.store.scopes.size) :
    w'.store.scope x = w.store.scope x := by
  rw [Store.scope, Store.scope, Store.getElem?_of_grown adds.scopes known]

theorem variableOf_eq (adds : Adds w w') (known : r.index < w.store.slots.size) :
    w'.store.variableOf r = w.store.variableOf r := by
  rw [Store.variableOf, Store.variableOf, Store.getElem?_of_grown adds.slots known]

theorem untouched (adds : Adds w w') : w.Untouched w' :=
  ⟨fun _ => adds.scope_eq, fun _ => adds.variableOf_eq, congrArg (·.archive) adds.around⟩

end Adds

/-! ## The binding -/

structure DeclaredIn (w : World) (x : ScopeRef) (name : String) (r : VariableRef) (l : Lifetime ValueRef) : Prop where
  known : x.index < w.store.scopes.size
  inside : r.index < w.store.slots.size
  bound : (w.store.scope x).get? name = some (.variable r)
  lives : l ∈ (w.store.variableOf r).lifetimes

theorem Adds.declaredIn (adds : Adds w w') (binds : DeclaredIn w x name r l) : DeclaredIn w' x name r l := by
  refine ⟨binds.known.trans_le (by simpa using adds.scopes.length_le),
    binds.inside.trans_le (by simpa using adds.slots.length_le), ?_, ?_⟩
  · rw [adds.scope_eq binds.known]
    exact binds.bound
  · rw [adds.variableOf_eq binds.inside]
    exact binds.lives

/-- The binding of a name is seen in its scope, or in the variable that it had already. -/
structure Binding (w w' : World) (x : ScopeRef) (name : String) (r : VariableRef) (l : Lifetime ValueRef) :
    Prop extends DeclaredIn w' x name r l where
  boards : w'.store.boards = w.store.boards
  part : w'.part = w.part
  around : w'.around = w.around
  seen : w'.store.scope x ≠ w.store.scope x ∨
    r.index < w.store.slots.size ∧ w'.store.variableOf r ≠ w.store.variableOf r

theorem binding_new {previous : List ValueRef} (known : x.index < w.store.scopes.size)
    (unbound : ∀ r, (w.store.scope x).get? name ≠ some (.variable r)) :
    Binding w { w with store := { w.store with
      slots := w.store.slots.push ⟨name, [l], previous⟩
      scopes := w.store.scopes.modify x.index (·.put name (.variable ⟨w.store.slots.size⟩)) } }
      x name ⟨w.store.slots.size⟩ l := by
  have own := Store.scope_withScope known (·.put name (.variable ⟨w.store.slots.size⟩))
  have bound : ((w.store.withScope x (·.put name (.variable ⟨w.store.slots.size⟩))).scope x).get? name =
      some (.variable ⟨w.store.slots.size⟩) := by
    rw [own]
    exact Ledger.get?_put_self
  refine ⟨⟨by simpa using known, by simp, bound, by simp [Store.variableOf]⟩, rfl, rfl, rfl, .inl fun same => ?_⟩
  exact unbound _ ((congrArg (·.get? name) same).symm.trans bound)

theorem binding_again {new : Variable ValueRef} (known : x.index < w.store.scopes.size)
    (bound : (w.store.scope x).get? name = some (.variable r))
    (declared : (w.store.variableOf r).redeclare l = .ok new) :
    Binding w { w with store := w.store.withVariable r new } x name r l := by
  obtain ⟨nonempty, lives, changed⟩ := Variable.lifetimes_of_redeclare declared
  have inside : r.index < w.store.slots.size := by
    by_contra outside
    rw [Store.variableOf, Array.getElem?_eq_none (Nat.le_of_not_lt outside)] at nonempty
    exact nonempty rfl
  have now : (w.store.withVariable r new).variableOf r = new := Store.variableOf_withVariable inside new
  refine ⟨⟨known, by simpa [Store.withVariable] using inside, bound, ?_⟩, rfl, rfl, rfl, .inr ⟨inside, ?_⟩⟩
  · exact now.symm ▸ lives
  · exact fun same => changed (now.symm.trans same)

/-- Where a binding fails, nothing has changed. -/
theorem bindVariable_cases (known : x.index < w.store.scopes.size) (name : String) (l : Lifetime ValueRef) :
    (∃ f, bindVariable x name l w = .error f w) ∨
      ∃ r w', bindVariable x name l w = .ok r w' ∧ Binding w w' x name r l := by
  have opens : bindVariable x name l w = _ := bind_ok scope_ok
  rcases found : (w.store.scope x).get? name with _ | v | ⟨n, v⟩ | r
  on_goal 4 =>
    rw [found] at opens
    replace opens := opens.trans (bind_ok variableOf_ok)
    cases declared : (w.store.variableOf r).redeclare l with
    | error f => exact .inl ⟨f, opens.trans (bind_error (congrFun (congrArg ofExcept declared) w))⟩
    | ok new => exact .inr ⟨r, _, opens.trans (bind_ok (ofExcept_ok declared)), binding_again known found declared⟩
  all_goals
    rw [found] at opens
    exact .inr ⟨_, _, opens, binding_new known (by simp [found])⟩

def Begins (w : World) (x : ScopeRef) (name : String) (v : ValueRef) :
    EStateM.Result Fault World (VariableRef × Lifetime ValueRef) → Prop
  | .error _ w' => Adds w w'
  | .ok (r, l) w' => l.value = v ∧ ∃ u, Adds w u ∧ Binding u w' x name r l

theorem bindDeclared_begins (scopes : c.scopes = x :: xs) (known : x.index < w.store.scopes.size) :
    Begins w x d.name.text v (bindDeclared c d v w) := by
  unfold bindDeclared
  rw [scopes]
  rcases prepared : prepare c d w with ⟨⟨tag, lines, reset, edit⟩, u⟩ | ⟨e, u⟩
  · have adds : Adds w u := keeps_prepare.ok prepared
    have inside := known.trans_le (by simpa using adds.scopes.length_le)
    rw [bind_ok prepared]
    dsimp only
    rcases bindVariable_cases inside d.name.text ⟨tag, v, lines, d.confidence, reset, edit⟩ with
      ⟨f, failed⟩ | ⟨r, w', done, binding⟩
    · rwa [bind_error failed]
    · rw [bind_ok done]
      exact ⟨rfl, u, adds, binding⟩
  · have adds : Adds w (leaves (prepare c d) w) := keeps_prepare w
    rw [leaves, prepared] at adds
    rwa [bind_error prepared]

/-! ## The rest -/

theorem publishVariable_cases (name : String) (v : ValueRef) (n : Nat) (w : World) :
    (∃ f, publishVariable name v n w = .error f w) ∨
      ∃ issues, publishVariable name v n w = .ok () { w with around := { w.around with issues } } := by
  unfold publishVariable
  simp only [bind_ok get_ok]
  split
  · exact .inl ⟨_, rfl⟩
  split
  · exact .inl ⟨_, rfl⟩
  simp only [bind_ok store_ok]
  cases (w.store.describe v).publish with
  | error f => exact .inl ⟨f, rfl⟩
  | ok body => exact .inr ⟨_, rfl⟩

/-- What has been noted down of a variable when that has failed: nothing, or a line without a value. -/
def NotedAtMost (d : Declaration) (l : Lifetime ValueRef) (w w' : World) : Prop :=
  w'.around.archive = w.around.archive ∨
    d.lifetime = some "Infinity" ∧ w'.around.archive = (w.around.record d.name.text l none).archive

/-- A computation that takes back no binding when it fails. -/
def EndsBound (d : Declaration) (l : Lifetime ValueRef) (y : Run Unit) : Prop :=
  ∀ ⦃w f w'⦄, y w = .error f w' → w'.store = w.store ∧ NotedAtMost d l w w'

theorem endsBound_settle : EndsBound d l (settle d r l) := by
  unfold settle
  split <;> intro w f w' failed
  · cases failed
  · rename_i lasting
    rw [archiveVariable_eq] at failed
    split at failed
    · cases failed
      exact ⟨rfl, .inr ⟨lasting, rfl⟩⟩
    · cases failed
  · unfold isTemporal at failed
    split at failed
    · cases failed
      exact ⟨rfl, .inl rfl⟩
    · rw [pure_bind] at failed
      split at failed
      · cases failed
      · cases failed

theorem endsBound_publishDeclared : EndsBound d l (do publishDeclared d v; settle d r l) := by
  unfold publishDeclared
  split
  · intro w f w' failed
    rcases publishVariable_cases d.name.text v d.confidence w with ⟨f', refused⟩ | ⟨issues, done⟩
    · rw [bind_error refused] at failed
      cases failed
      exact ⟨rfl, .inl rfl⟩
    · rw [bind_ok done] at failed
      obtain ⟨store, noted⟩ := endsBound_settle failed
      exact ⟨store, noted⟩
  · exact endsBound_settle

/-- What follows the binding takes nothing of it back. -/
theorem error_of_bound (scopes : c.scopes = x :: xs) (began : bindDeclared c d v w = .ok (r, l) u)
    (boards : u.store.boards = w.store.boards) (part : u.part.vigils = w.part.vigils)
    (unwatched : Unwatched w c.boards (.name d.name.text))
    (unawaited : w.part.vigils.get? (d.name.text, x) = none) (failed : declare i c d v w = .error f w') :
    ∃ u', Adds u u' ∧ w'.store = u'.store ∧ NotedAtMost d l u' w' := by
  have prints : Keeps Adds (debugDeclaration c.scopes d.debug d.name d.modifiers d.lifetime d.expression v) :=
    keeps_debugDeclaration
  rcases printed : debugDeclaration c.scopes d.debug d.name d.modifiers d.lifetime d.expression v u with
    ⟨_, u'⟩ | ⟨e, u'⟩
  · have adds := prints.ok printed
    have unheard : u'.part.vigils.get? (d.name.text, x) = none := by rwa [adds.vigils, part]
    have unseen : Unwatched u' c.boards (.name d.name.text) := by rwa [Unwatched, adds.boards, boards]
    have told : (c.scopes.head?.forM fun x => tellVigil i c (d.name.text, x) v) u' = .ok () u' := by
      rw [scopes]
      exact tellVigil_unawaited unheard
    have introduced : introduce i c d v w = .ok (r, l) u' :=
      (bind_ok began).trans ((bind_ok printed).trans (bind_ok told))
    have ends : declare i c d v w = (do publishDeclared d v; settle d r l) u' :=
      (bind_ok introduced).trans (bind_ok (tellNameWatchers_unwatched unseen))
    exact ⟨u', adds, endsBound_publishDeclared (ends.symm.trans failed)⟩
  · have adds := prints u
    rw [leaves, printed] at adds
    have introduced : introduce i c d v w = .error e u' := (bind_ok began).trans (bind_error printed)
    rw [declare, bind_error introduced] at failed
    cases failed
    exact ⟨_, adds, rfl, .inl rfl⟩

theorem Binding.touched (binding : Binding w₀ u x name r l) (before : Adds w w₀)
    (after : Adds u u') (store : w'.store = u'.store) (known : x.index < w.store.scopes.size)
    (inside : ∀ r, (w.store.scope x).get? name = some (.variable r) → r.index < w.store.slots.size) :
    ¬w.Untouched w' := by
  intro untouched
  have scope := untouched.scopes x known
  rw [store, after.scope_eq binding.known] at scope
  rcases binding.seen with seen | ⟨-, seen⟩
  · exact seen (scope.trans (before.scope_eq known).symm)
  · have old := inside r (by rw [← scope]; exact binding.bound)
    have same := untouched.slots r old
    rw [store, after.variableOf_eq binding.inside] at same
    exact seen (same.trans (before.variableOf_eq old).symm)

/-- If nobody waits for the name, then a declaration that fails either has failed to bind it and left everything
as it was, or else has bound it to a variable with the lifetime that was declared. In the latter case a line may
have been stored for it, which has no value. -/
theorem failed_declaration_traces (i : Interpreter) (scopes : c.scopes = x :: xs)
    (known : x.index < w.store.scopes.size)
    (inside : ∀ r, (w.store.scope x).get? d.name.text = some (.variable r) → r.index < w.store.slots.size)
    (unwatched : Unwatched w c.boards (.name d.name.text))
    (unawaited : w.part.vigils.get? (d.name.text, x) = none) (failed : declare i c d v w = .error f w') :
    (bindDeclared c d v w = .error f w' ∧ w.Untouched w') ∨
    ∃ r l u, bindDeclared c d v w = .ok (r, l) u ∧ l.value = v ∧ DeclaredIn w' x d.name.text r l ∧
      ¬w.Untouched w' ∧ NotedAtMost d l w w' := by
  have begins := bindDeclared_begins (d := d) (v := v) scopes known
  rcases began : bindDeclared c d v w with ⟨⟨r, l⟩, u⟩ | ⟨e, u⟩
  · rw [began] at begins
    obtain ⟨value, w₀, before, binding⟩ := begins
    obtain ⟨u', after, store, noted⟩ := error_of_bound scopes began (binding.boards.trans before.boards)
      ((congrArg (·.vigils) binding.part).trans before.vigils) unwatched unawaited failed
    have around : u'.around = w.around := after.around.trans (binding.around.trans before.around)
    refine .inr ⟨r, l, u, rfl, value, ?_, binding.touched before after store known inside, ?_⟩
    · obtain ⟨known, inside, bound, lives⟩ := after.declaredIn binding.toDeclaredIn
      exact ⟨store ▸ known, store ▸ inside, store ▸ bound, store ▸ lives⟩
    · rw [NotedAtMost, ← around]
      exact noted
  · rw [began] at begins
    rw [declare, introduce, bind_error (bind_error began)] at failed
    cases failed
    exact .inl ⟨rfl, begins.untouched⟩

def declaresPublic : Declaration :=
  ⟨nameToken "name", [nameToken "const", nameToken "const", nameToken "const"], none, .source [], 0, 1⟩

/-- A public variable cannot be declared without an account to publish it with, but its name is bound. -/
theorem unpublished_declaration_bound :
    ∃ f w' r l, declare (interpreter 1) keywordContext declaresPublic ⟨0⟩ keywordWorld = .error f w' ∧
      DeclaredIn w' ⟨0⟩ "name" r l ∧ ¬keywordWorld.Untouched w' := by
  have failed : ∃ f w', declare (interpreter 1) keywordContext declaresPublic ⟨0⟩ keywordWorld = .error f w' :=
    ⟨_, _, rfl⟩
  obtain ⟨f, w', failed⟩ := failed
  have start := start_keywordWorld
  rcases failed_declaration_traces (interpreter 1) (x := ⟨0⟩) rfl start.exists_scope
    (fun r bound => by cases start.new.symm.trans bound) start.unwatchedName start.unawaited failed with
    ⟨⟨⟩, -⟩ | ⟨r, l, -, -, -, binds, touched, -⟩
  exact ⟨f, w', r, l, failed, binds, touched⟩

end Run

end DreamBerd
