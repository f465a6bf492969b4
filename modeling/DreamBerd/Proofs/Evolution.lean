import DreamBerd.Proofs.Framing

/-!
# What is handed on

A program hands values on in two ways: it exports them to other parts of its file, and it writes variables
down for later programs. All else that it does is `Quiet` in this respect. `Evolves` is a sequence of such
steps, and every statement and every block is one (`Run.Frames.steps`). What a whole run hands on follows
from what one step does by induction.
-/

namespace DreamBerd

open List

open Run

variable {w w' : World}

/-! ## Steps -/

/-- Nothing has been handed on, and what can be imported is the same. -/
structure Quiet (w w' : World) : Prop where
  exported : w'.part.exported = w.part.exported
  importable : w'.part.importable = w.part.importable
  archive : w'.around.archive = w.around.archive
  nextAddress : w'.around.nextAddress = w.around.nextAddress

inductive Change : World → World → Prop
  | quiet {w w' : World} : Quiet w w' → Change w w'
  | exported {w : World} {scopes : List ScopeRef} {name : String} {e : Entry} {v : ValueRef}
    (target : String) : w.store.lookup scopes name = .ok (some e) → w.store.entryValue e = .ok v →
    Change w { w with part := { w.part with exported := w.part.exported ++ [(target, name, v)] } }
  | archived {u w : World} {d : Declaration} {i : Interpreter} {c : Context} {v : ValueRef}
    {l : Lifetime ValueRef} : d.Lasting i c v u l w → Change w (leaves (archiveVariable d.name.text l) w)

abbrev Evolves : World → World → Prop := Relation.ReflTransGen Change

instance : IsPreorder World Quiet where
  refl _ := ⟨rfl, rfl, rfl, rfl⟩
  trans _ _ _ first second :=
    ⟨second.exported.trans first.exported, second.importable.trans first.importable,
      second.archive.trans first.archive, second.nextAddress.trans first.nextAddress⟩

instance : Edits Quiet where
  aside same := ⟨same.exported, same.importable, same.archive, same.nextAddress⟩
  madeValue _ _ := ⟨rfl, rfl, rfl, rfl⟩
  element _ := ⟨rfl, rfl, rfl, rfl⟩
  copied _ _ := ⟨rfl, rfl, rfl, rfl⟩
  madeScope _ _ := ⟨rfl, rfl, rfl, rfl⟩
  madeVariable _ _ := ⟨rfl, rfl, rfl, rfl⟩
  named _ _ _ := ⟨rfl, rfl, rfl, rfl⟩
  madeBoard _ := ⟨rfl, rfl, rfl, rfl⟩
  edited _ _ _ _ := ⟨rfl, rfl, rfl, rfl⟩

theorem Evolves.of_quiet (quiet : Quiet w w') : Evolves w w' := .single (.quiet quiet)

instance : IsPreorder World Evolves where
  refl _ := .refl
  trans _ _ _ := .trans

instance : Edits Evolves where
  toFrame := .mono .of_quiet
  edited _ _ proper w := .of_quiet (keeps_setValue proper w)

/-- Expressions, statements and blocks are sequences of steps. -/
@[reducible]
def Run.Frames.steps : Frames :=
  .uniform Evolves True (fun _ _ _ => .of_quiet ⟨rfl, rfl, rfl, rfl⟩)
    (fun _ => .of_quiet ⟨rfl, rfl, rfl, rfl⟩)
    (fun target _ looked value => .single (.exported target looked value))
    fun lasting => .single (.archived lasting)

theorem evolves_run (n : Nat) (c : Context) (code : Code) : Keeps Evolves ((interpreter n).run c code) :=
  (framed_interpreter .steps trivial n).run c code

/-! ## What one step does -/

/-- The surroundings after a variable has been written down: there is one more line in the list of
variables, and a value under a new address. -/
def Surroundings.record (a : Surroundings) (name : String) (l : Lifetime ValueRef)
    (written : Option Snapshot) : Surroundings :=
  let archive := a.archive.getD ⟨none, none⟩
  let line := ";;;".intercalate [name, toString a.nextAddress, storedTruth l.canBeReset,
    storedTruth l.canEditValue, toString l.confidence] ++ "\n"
  let values := (archive.values.getD []).filter (·.1 != toString a.nextAddress)
  { a with
    nextAddress := a.nextAddress + 1
    archive := some ⟨some (archive.list.getD "" ++ line),
      some (values ++ [(toString a.nextAddress, written)])⟩ }

/-- What is written down of a value: nothing if it holds something that cannot be stored. -/
def Store.written (s : Store) (r : ValueRef) : Option Snapshot :=
  match unstorable? (s.describe r) with
  | some _ => none
  | none => some ⟨s, r⟩

theorem archiveVariable_eq (name : String) (l : Lifetime ValueRef) (w : World) :
    archiveVariable name l w =
      match unstorable? (w.store.describe l.value) with
      | some b => .error (.breakdown b) { w with around := w.around.record name l none }
      | none =>
        .ok () { w with around := w.around.record name l (some ⟨w.store, l.value⟩) } := by
  refine (bind_ok rfl).trans ((bind_ok rfl).trans ((bind_ok rfl).trans ?_))
  cases unstorable? (w.store.describe l.value) with
  | some b => rfl
  | none => rfl

theorem leaves_archiveVariable (name : String) (l : Lifetime ValueRef) (w : World) :
    leaves (archiveVariable name l) w =
      { w with around := w.around.record name l (w.store.written l.value) } := by
  rw [leaves, archiveVariable_eq, Store.written]
  cases unstorable? (w.store.describe l.value) with
  | some b => rfl
  | none => rfl

theorem Change.importable_eq (step : Change w w') : w'.part.importable = w.part.importable := by
  cases step with
  | quiet quiet => exact quiet.importable
  | exported => rfl
  | archived lasting => rw [leaves_archiveVariable]

end DreamBerd
