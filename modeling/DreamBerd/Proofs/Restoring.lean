import DreamBerd.Proofs.Worlds
import DreamBerd.World.Restore

/-!
# Values are always restored

Making the value that a datum describes never fails, and it changes nothing that is there: new values,
scopes, variables and clauses are added to the store (`Run.grows_restore`).
-/

namespace DreamBerd

open List

/-! ## Worlds that grow -/

namespace Store

/-- The second store holds all that the first one holds; only the given scopes may have changed. -/
structure Extends (changed : List ScopeRef) (s s' : Store) : Prop where
  values : s.values.toList <+: s'.values.toList
  slots : s.slots.toList <+: s'.slots.toList
  clauses : s.clauses.toList <+: s'.clauses.toList
  size : s.scopes.size ≤ s'.scopes.size
  scopes : ∀ y ∉ changed, y.index < s.scopes.size → s'.scope y = s.scope y
  rest : s' = { s with
    values := s'.values, slots := s'.slots, clauses := s'.clauses, scopes := s'.scopes,
    fresh := s'.fresh }

variable {changed : List ScopeRef} {s s' s'' : Store}

theorem Extends.refl (s : Store) : Extends changed s s :=
  ⟨prefix_rfl, prefix_rfl, prefix_rfl, Nat.le_refl _, fun _ _ _ => rfl, rfl⟩

theorem Extends.trans (first : Extends changed s s') (second : Extends changed s' s'') :
    Extends changed s s'' := by
  refine ⟨first.values.trans second.values, first.slots.trans second.slots,
    first.clauses.trans second.clauses, Nat.le_trans first.size second.size, ?_, ?_⟩
  · intro y other inside
    rw [second.scopes y other (Nat.lt_of_lt_of_le inside first.size), first.scopes y other inside]
  · rw [second.rest, first.rest]

theorem Extends.mono {more : List ScopeRef} (grows : Extends changed s s')
    (subset : changed ⊆ more) : Extends more s s' :=
  ⟨grows.values, grows.slots, grows.clauses, grows.size,
    fun y other => grows.scopes y fun member => other (subset member), grows.rest⟩

theorem Extends.size_slots (grows : Extends changed s s') : s.slots.size ≤ s'.slots.size := by
  simpa using grows.slots.length_le

theorem Extends.value_eq (grows : Extends changed s s')
    (inside : r.index < s.values.size) : s'.value r = s.value r := by
  rw [value, value, getElem?_of_grown grows.values inside]

theorem Extends.variableOf_eq (grows : Extends changed s s')
    (inside : r.index < s.slots.size) : s'.variableOf r = s.variableOf r := by
  rw [variableOf, variableOf, getElem?_of_grown grows.slots inside]

theorem extends_withNew (s : Store) (x : ScopeRef) (name : String) (l : Lifetime ValueRef) :
    s.Extends [x] (s.withNew x name l) := by
  refine ⟨prefix_rfl, ⟨_, Array.toList_push.symm⟩, prefix_rfl, ?_, ?_, rfl⟩
  · simp [withNew]
  · exact fun y other _ => scope_withScope_of_ne (fun same => other (mem_singleton.mpr same)) _

end Store

namespace Run

variable {α β : Type}

/-- The computation never fails. What it does depends on the store alone, and it changes nothing that is
there. -/
def Grows (m : Run α) : Prop :=
  ∀ s, ∃ a s', s.Extends [] s' ∧ ∀ w, w.store = s → m w = .ok a { w with store := s' }

theorem grows_pure (a : α) : Grows (pure a : Run α) := by
  intro s
  refine ⟨a, s, .refl s, fun w stored => ?_⟩
  subst stored
  rfl

theorem Grows.bind {f : α → Run β} (first : Grows m) (second : ∀ a, Grows (f a)) : Grows (m >>= f) := by
  intro s
  rcases first s with ⟨a, s', grown, done⟩
  rcases second a s' with ⟨b, s'', grown', done'⟩
  refine ⟨b, s'', grown.trans grown', fun w stored => ?_⟩
  exact (bind_ok (done w stored)).trans (done' _ rfl)

theorem grows_modifyGet {f : Store → α × Store} (grown : ∀ s : Store, s.Extends [] (f s).2) :
    Grows (modifyGet fun w => ((f w.store).1, { w with store := (f w.store).2 })) :=
  fun s => ⟨(f s).1, (f s).2, grown s, fun _ stored => stored ▸ rfl⟩

theorem grows_newValue (v : Value) : Grows (newValue v) :=
  grows_modifyGet (f := fun s => (ValueRef.mk s.values.size, { s with values := s.values.push v })) fun s =>
    ⟨⟨[v], by simp⟩, prefix_rfl, prefix_rfl, Nat.le_refl _, fun _ _ _ => rfl, rfl⟩

theorem grows_newVariable (v : Variable ValueRef) : Grows (newVariable v) :=
  grows_modifyGet (f := fun s => (VariableRef.mk s.slots.size, { s with slots := s.slots.push v })) fun s =>
    ⟨prefix_rfl, ⟨[v], by simp⟩, prefix_rfl, Nat.le_refl _, fun _ _ _ => rfl, rfl⟩

theorem grows_newClause (forms : List Statement) : Grows (newClause forms) :=
  grows_modifyGet
    (f := fun s => (ClauseRef.mk s.clauses.size, { s with clauses := s.clauses.push forms })) fun s =>
    ⟨prefix_rfl, prefix_rfl, ⟨[forms], by simp⟩, Nat.le_refl _, fun _ _ _ => rfl, rfl⟩

theorem grows_newScope (x : Scope) : Grows (newScope x) := by
  refine grows_modifyGet
    (f := fun s => (ScopeRef.mk s.scopes.size, { s with scopes := s.scopes.push x })) fun s => ?_
  refine ⟨prefix_rfl, prefix_rfl, prefix_rfl, by simp, fun y _ inside => ?_, rfl⟩
  have apart : y.index ≠ s.scopes.size := Nat.ne_of_lt inside
  simp [Store.scope, Array.getElem?_push, apart]

theorem grows_newMembers (given : Scope) (push pop : Action) (n : Nat) :
    Grows (newMembers given push pop n) := by
  refine (grows_newValue _).bind fun _ => (grows_newValue _).bind fun _ => ?_
  refine ((grows_newValue _).bind fun _ => grows_pure _).bind fun _ => grows_newScope _

theorem grows_newTextWith (given : Scope) (s : String) : Grows (newTextWith given s) :=
  (grows_newMembers _ _ _ _).bind fun _ => grows_newValue _

theorem grows_newList (items : List ValueRef) : Grows (newList items) :=
  (grows_newMembers _ _ _ _).bind fun _ => grows_newValue _

/-! ## Restoring -/

mutual

theorem grows_restoreCode (d : Datum) : Grows (restoreCode d) := by
  match d with
  | .list items => exact grows_restoreClauses items
  | .none | .truth _ | .int _ | .real _ | .text _ | .tuple _ | .dict _ | .procedure _ | .kind _
  | .tree _ _ | .record _ _ | .cycle => exact grows_pure _

theorem grows_restoreClauses (ds : List Datum) : Grows (restoreClauses ds) := by
  unfold restoreClauses
  split
  · exact grows_pure _
  · rename_i forms ds
    refine (grows_restoreForms forms).bind fun read => ?_
    cases read with
    | none => exact grows_pure _
    | some fs =>
      exact (grows_newClause fs).bind fun c => (grows_restoreClauses ds).bind fun _ => grows_pure _
  · exact grows_pure _

theorem grows_restoreForms (ds : List Datum) : Grows (restoreForms ds) := by
  match ds with
  | [] => exact grows_pure _
  | d :: ds =>
    refine (grows_restoreInner d).bind fun read => ?_
    cases read with
    | none => exact grows_pure _
    | some code =>
      dsimp only
      split
      · exact (grows_restoreForms ds).bind fun _ => grows_pure _
      · exact grows_pure _

theorem grows_restoreInner (d : Datum) : Grows (restoreInner d) := by
  unfold restoreInner
  split
  · rename_i fields
    exact grows_restoreField fields
  · exact grows_pure _

theorem grows_restoreField (fields : List (String × Datum)) : Grows (restoreField fields) := by
  match fields with
  | [] => exact grows_pure _
  | (name, d) :: fs =>
    unfold restoreField
    split
    · exact grows_restoreCode d
    · exact grows_restoreField fs

end

mutual

theorem grows_restore (d : Datum) : Grows (restore d) := by
  unfold restore
  split
  · exact grows_newValue _
  · split
    · rename_i entries _
      refine (grows_restoreScope entries).bind fun given => ?_
      cases given with
      | none => exact grows_newValue _
      | some given => exact grows_newTextWith _ _
    · rename_i items _ _
      exact (grows_restoreAll items).bind fun items => grows_newList items
    · rename_i entries _
      refine (grows_restoreScope entries).bind fun members => ?_
      cases members with
      | none => exact grows_newValue _
      | some x => exact (grows_newScope x).bind fun _ => grows_newValue _
    · rename_i entries _
      refine (grows_restoreEntries entries).bind fun read => ?_
      cases read with
      | none | some es => exact grows_newValue _
    · rename_i v _
      exact (grows_restore v).bind fun _ => grows_newValue _
    · refine (grows_restoreCode _).bind fun code => ?_
      split
      · exact grows_newValue _
      · exact grows_newValue _
    · exact grows_newValue _

theorem grows_restoreAll (ds : List Datum) : Grows (restoreAll ds) := by
  match ds with
  | [] => exact grows_pure _
  | d :: ds => exact (grows_restore d).bind fun _ => (grows_restoreAll ds).bind fun _ => grows_pure _

theorem grows_restoreEntries (es : List (Datum × Datum)) : Grows (restoreEntries es) := by
  match es with
  | [] => exact grows_pure _
  | (k, d) :: es =>
    unfold restoreEntries
    split
    · exact (grows_restore d).bind fun _ => (grows_restoreEntries es).bind fun _ => grows_pure _
    · exact grows_pure _

theorem grows_restoreScope (es : List (Datum × Datum)) : Grows (restoreScope es) := by
  match es with
  | [] => exact grows_pure _
  | (k, d) :: es =>
    unfold restoreScope
    split
    · rename_i v
      exact (grows_restore v).bind fun _ => (grows_restoreScope es).bind fun _ => grows_pure _
    · rename_i previous
      exact (grows_restoreAll previous).bind fun _ => (grows_newVariable _).bind fun _ =>
        (grows_restoreScope es).bind fun _ => grows_pure _
    · exact grows_pure _

end

end Run

end DreamBerd
