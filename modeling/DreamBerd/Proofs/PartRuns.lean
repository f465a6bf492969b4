import DreamBerd.Program
import DreamBerd.Proofs.Evolution
import DreamBerd.Proofs.Restoring

/-!
# The runs of the parts of a file

A part begins in a world that has been turned to it (`World.turnedTo`): nothing has been exported yet, and
what can be imported has been given to it. Loading names into its scope is quiet (`quiet_openPart`), and
running its code changes the world step by step (`evolves_runPart`). `PartsRun` lists the runs of the
parts of a file that is run to its end (`partsRun_of_runParts`).
-/

namespace DreamBerd

open Run

/-- The world in which a part begins. -/
def World.turnedTo (w : World) (source : Source) (importable : Ledger String ValueRef) : World :=
  { w with
    past := if w.part.globals.isSome then w.past ++ [w.part] else w.past
    part := .start source importable w.around.listeners.size }

namespace Run

/-! ## Loading -/

section Loading

variable {R : World → World → Prop} [Frame R]

mutual

theorem keeps_loadCode : ∀ clauses, Keeps R (loadCode clauses)
  | [] => by
    rw [loadCode]
    exact keeps_pure
  | .mk forms :: clauses => by
    rw [loadCode]
    have first := keeps_loadForms forms
    have rest := keeps_loadCode clauses
    grind

theorem keeps_loadForms : ∀ forms, Keeps R (loadForms forms)
  | [] => by
    rw [loadForms]
    exact keeps_pure
  | f :: forms => by
    rw [loadForms]
    have first := keeps_loadBlock f
    have rest := keeps_loadForms forms
    grind

theorem keeps_loadBlock (f : Form (List Token) (List Clause)) : Keeps R (loadBlock f) := by
  unfold loadBlock
  split
  case h_6 => exact keeps_pure
  all_goals exact keeps_loadCode _

end

@[grind ←]
theorem keeps_bindLasting (x : ScopeRef) (name : String) (v : ValueRef) (confidence : Int)
    (canBeReset canEditValue : Bool) :
    Keeps R (bindLasting x name v confidence canBeReset canEditValue) := by
  unfold bindLasting
  grind

@[grind ←]
theorem keeps_listedInt (s : String) : Keeps R (listedInt s) := by
  unfold listedInt
  grind

end Loading

theorem quiet_bringBack (x : Snapshot) : Keeps Quiet (bringBack x) := fun _ => ⟨rfl, rfl, rfl, rfl⟩

theorem Grows.quiet (grows : Grows x) : Keeps Quiet x := by
  intro w
  obtain ⟨a, s, -, done⟩ := grows w.store
  rw [leaves, done w rfl]
  exact ⟨rfl, rfl, rfl, rfl⟩

theorem quiet_loadStoredLine (x : ScopeRef) (values : List (String × Option Snapshot)) (line : String) :
    Keeps Quiet (loadStoredLine x values line) := by
  unfold loadStoredLine
  split
  · split
    · exact keeps_throw
    · exact keeps_throw
    · refine keeps_bind (quiet_bringBack _) fun v => ?_
      grind
  · exact keeps_throw

theorem quiet_loadStored (x : ScopeRef) : Keeps Quiet (loadStored x) := by
  have lines : ∀ values ls, Keeps Quiet (loadStoredLines x values ls) := by
    intro values ls
    induction ls with
    | nil => exact keeps_pure
    | cons l ls ih =>
      have first := quiet_loadStoredLine x values l
      unfold loadStoredLines
      grind
  unfold loadStored
  grind

theorem quiet_loadPublicLine (x : ScopeRef) (line : String) : Keeps Quiet (loadPublicLine x line) := by
  have value : ∀ name text confidence, Keeps Quiet (loadPublicValue x name text confidence) := by
    have restored : ∀ d, Keeps Quiet (restore d) := fun d => (grows_restore d).quiet
    unfold loadPublicValue
    grind
  have text : ∀ path, Keeps Quiet (publicText path) := fun path => keeps_bind keeps_get fun _ => keeps_pure
  unfold loadPublicLine
  grind

theorem quiet_loadPublic (x : ScopeRef) : Keeps Quiet (loadPublic x) := by
  have lines : ∀ ls, Keeps Quiet (loadPublicLines x ls) := by
    intro ls
    induction ls with
    | nil => exact keeps_pure
    | cons l ls ih =>
      have first := quiet_loadPublicLine x l
      unfold loadPublicLines
      grind
  exact keeps_bind (keeps_bind keeps_get fun _ => keeps_pure) fun _ => lines _

/-! ## Parts -/

theorem quiet_openPart (source : Source) (importable : Ledger String ValueRef) (w : World) :
    Quiet (w.turnedTo source importable) (leaves (openPart source importable) w) := by
  have rest : Keeps Quiet (do
      let x ← newGlobals
      loadStored x
      loadPublic x
      return x) := by
    refine keeps_bind (keeps_bind keeps_get fun _ => keeps_newScope) fun x => ?_
    exact keeps_bind (quiet_loadStored x) fun _ => keeps_bind (quiet_loadPublic x) fun _ =>
      keeps_pure
  exact rest (w.turnedTo source importable)

theorem evolves_runPart (n : Nat) (x : ScopeRef) (code : Code) :
    Keeps Evolves (runPart (interpreter n) x code) := by
  refine keeps_bind (keeps_modifySection rfl rfl) fun _ => keeps_bind ?_ fun c => ?_
  · exact keeps_bind (fun _ => .of_quiet ⟨rfl, rfl, rfl, rfl⟩) fun _ =>
      keeps_bind keeps_newBoard fun _ => keeps_pure
  · refine keeps_tryCatch (keeps_bind (evolves_run n c code) fun _ => keeps_pure) fun f => ?_
    grind

/-- The run of a part, from the time when its names have been loaded to its end. -/
structure PartRun where
  part : Program.Part
  start : World
  finish : World

inductive PartsRun (i : Interpreter) : Deliveries → World → List PartRun → World → Prop
  | nil {d : Deliveries} {w : World} : PartsRun i d w [] w
  | cons {d : Deliveries} {w loaded start finish w' : World} {p : Program.Part} {x : ScopeRef}
    {clauses : List Clause} {code : Code} {rest : List PartRun} :
    Source.clauses ⟨p.name, p.code⟩ = .ok clauses → loadCode clauses w = .ok code loaded →
    openPart ⟨p.name, p.code⟩ ((d.get? p.name).getD .empty) loaded = .ok x start →
    runPart i x code start = .ok () finish →
    PartsRun i (d.add finish.part.exported) finish rest w' →
    PartsRun i d w (⟨p, start, finish⟩ :: rest) w'

theorem partsRun_of_runParts {parts : List Program.Part} (done : runParts i d parts w = .ok () w') :
    ∃ runs, runs.map (·.part) = parts ∧ PartsRun i d w runs w' := by
  induction parts generalizing d w with
  | nil =>
    cases done
    exact ⟨[], rfl, .nil⟩
  | cons p parts ih =>
    obtain ⟨name, text⟩ := p
    obtain ⟨clauses, w₀, read, loading⟩ := bind_eq_ok done
    obtain ⟨parsed, unchanged⟩ := ofExcept_eq_ok read
    obtain ⟨code, loaded, load, opening⟩ := bind_eq_ok loading
    obtain ⟨x, start, opened, running⟩ := bind_eq_ok opening
    obtain ⟨_, finish, ran, going⟩ := bind_eq_ok running
    obtain ⟨runs, whole, rest⟩ := ih going
    rw [unchanged] at load
    exact ⟨⟨⟨name, text⟩, start, finish⟩ :: runs, congrArg _ whole, .cons parsed load opened ran rest⟩

end Run

end DreamBerd
